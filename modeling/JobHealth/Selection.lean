import JobHealth.Build
import JobHealth.Diagnostic
import JobHealth.Fault
/-!
# `JobHealth.Selection` — which builds of a page are examined

The completed builds of a page are ordered by id, from the highest down; of two
with the same id the succeeded one comes first, and otherwise the page's order
stays.  A selection is the front of that list.  A page with a status that
nobody knows has no selection, nor has one with too few completed builds.

What is noted about a selection is computed beside it, from the page and the
selection alone.
-/

namespace JobHealth

/-- The builds to examine, the most recent first. -/
structure Selection where
  builds : List Build
  deriving DecidableEq, Repr

namespace Selection

/-- The builds of a page that have the given status, in page order. -/
def withStatus (status : Status) (page : List Build) : List Build :=
  page.filter (Build.hasStatus status)

/-- The completed builds of a page, the most recent first. -/
def completed (page : List Build) : List Build :=
  Build.byRecency (withStatus .succeeded page ++ withStatus .failed page)

/-- The first build of a page whose status nobody knows. -/
def unknown? (page : List Build) : Option Build := page.find? fun b => b.status?.isNone

/-- The first `count` of the given builds; a count of 0 asks for all of them. -/
def front (count : Nat) (builds : List Build) : List Build :=
  if count = 0 then builds else builds.take count

/-- The selection of `count` builds from a page, or of all completed ones for a count of 0. -/
def ofPage (page : List Build) (count : Nat) : Except Fault Selection :=
  match unknown? page with
  | some b => .error (.unknownStatus b.name b.status)
  | none =>
    let found := completed page
    if found.length < count then .error (.tooFewCompleted page.length found.length count)
    else .ok ⟨front count found⟩

/-- How many of the selected builds are known to have failed. -/
def expectedFailures (s : Selection) : Nat := s.builds.countP (Build.hasStatus .failed)

/-! ## What is noted -/

/-- The note on the builds of a page that did not run to an end of their own in one way. -/
def incompleteNote (page : List Build) (status : Status) : Diagnostic :=
  let builds := withStatus status page
  ⟨.info, .selection,
    builds.length.repr ++ " " ++ status.word ++ " builds in examination range",
    [ ("status", .text status.word)
    , ("count", .count builds.length)
    , ("builds", .names (Build.namesByRecency builds)) ]⟩

/-- The note on the range of a selection, if it has one: its oldest and its most recent build. -/
def rangeNote? (s : Selection) : Option Diagnostic :=
  match s.builds.getLast?, s.builds.head? with
  | some oldest, some latest =>
    some ⟨.info, .selection,
      s.builds.length.repr ++ " completed builds to examine, ranging " ++ oldest.name ++ " - " ++
        latest.name,
      [ ("count", .count s.builds.length)
      , ("first", .text oldest.name)
      , ("last", .text latest.name) ]⟩
  | _, _ => none

/-- The note on the failures to expect: their number in the selection, and the names of the failed
builds of the whole page. -/
def expectedNote (page : List Build) (s : Selection) : Diagnostic :=
  ⟨.info, .selection, "expected failures",
    [ ("expected", .count s.expectedFailures)
    , ("builds", .names (Build.namesByRecency (withStatus .failed page))) ]⟩

/-- What is noted when a selection is made from a page. -/
def notes (page : List Build) (count : Nat) : List Diagnostic :=
  if (unknown? page).isSome then []
  else
    Status.incomplete.map (incompleteNote page) ++
      match ofPage page count with
      | .error _ => []
      | .ok s => (rangeNote? s).toList ++ [expectedNote page s]

end Selection
end JobHealth
