import Mathlib.Data.List.Pairwise
import JobHealth.Logging
import JobHealth.Proofs.Selection
/-!
# `JobHealth.Proofs.PageNotes` — what is noted about the builds of a page, and when

The builds of a page fall into six statuses.  Those of each status in which no
build is complete are noted before it is known whether there are enough complete
ones; the range of the selection, and the failures to expect, are noted behind
that.  So the notes tell how far a selection came.

| statuses      | completed builds | noted                                         |
| :------------ | :--------------- | :-------------------------------------------- |
| not all known |                  | nothing                                       |
| all known     | too few          | the builds of each incomplete status          |
| all known     | enough           | the same, the range if there is one, failures |

`selecting` takes these steps one after the other, with logging on or off, and
comes to the same result as `Selection.ofPage`, whatever is logged of the notes.
-/

namespace JobHealth

/-! ## The builds of one status -/

/-- The builds of the page that have the status, each as often as it stands there, from the highest
id down; those that share an id stay in page order. -/
structure OfStatus (page : List Build) (status : Status) (listed : List Build) : Prop where
  all : listed.Perm (page.filter fun b => b.status = status.word)
  descending : listed.Pairwise fun a b => b.id ≤ a.id
  same_id : ∀ id, listed.filter (fun b => b.id = id) =
    (page.filter fun b => b.status = status.word).filter fun b => b.id = id

theorem ofStatus_byRecency (page : List Build) (status : Status) :
    OfStatus page status (Build.byRecency (Selection.withStatus status page)) := by
  rw [withStatus_eq]
  exact ⟨List.mergeSort_perm _ _, byRecency_pairwise _, filter_byRecency _⟩

theorem OfStatus.eq_byRecency {page listed : List Build} {status : Status}
    (h : OfStatus page status listed) :
    listed = Build.byRecency (Selection.withStatus status page) := by
  have hsorted := ofStatus_byRecency page status
  refine eq_of_descending h.descending hsorted.descending fun id => ?_
  exact (h.same_id id).trans (hsorted.same_id id).symm

/-- Each build of a page with known statuses has one of the six. -/
theorem length_eq_of_known {page : List Build} (h : ∀ b ∈ page, b.Known) :
    (page.filter fun b => b.status = "aborted").length +
        (page.filter fun b => b.status = "errored").length +
        (page.filter fun b => b.status = "pending").length +
        (page.filter fun b => b.status = "started").length +
        page.countP (fun b => b.Completed) = page.length := by
  simp only [← List.countP_eq_length_filter, Build.Completed]
  induction page with
  | nil => rfl
  | cons b page ih =>
      obtain ⟨hb, hpage⟩ := List.forall_mem_cons.mp h
      have hrest := ih hpage
      simp only [Build.Known, List.mem_cons, List.not_mem_nil, or_false] at hb
      simp only [List.countP_cons, List.length_cons]
      rcases hb with hb | hb | hb | hb | hb | hb
      all_goals
        simp [hb]
        omega

namespace Selection

/-! ## The notes -/

/-- The note on the builds of a status, by their names. -/
def statusNote (status : Status) (names : List String) : Diagnostic :=
  ⟨.info, .selection,
    names.length.repr ++ " " ++ status.word ++ " builds in examination range",
    [ ("status", .text status.word)
    , ("count", .count names.length)
    , ("builds", .names names) ]⟩

/-- What is noted of the range of selected builds. -/
inductive RangeNoted : (builds : List Build) → List Diagnostic → Prop
  | empty : RangeNoted [] []
  | between {builds : List Build} {first last : Build} : builds.getLast? = some first →
      builds.head? = some last → (∀ b ∈ builds, first.id ≤ b.id ∧ b.id ≤ last.id) →
      RangeNoted builds
        [⟨.info, .selection,
          builds.length.repr ++ " completed builds to examine, ranging " ++ first.name ++ " - " ++
            last.name,
          [ ("count", .count builds.length)
          , ("first", .text first.name)
          , ("last", .text last.name) ]⟩]

theorem incompleteNote_eq (page : List Build) (status : Status) :
    incompleteNote page status =
      statusNote status ((Build.byRecency (withStatus status page)).map Build.name) := by
  have hlength : ((Build.byRecency (withStatus status page)).map Build.name).length =
      (withStatus status page).length := by
    rw [List.length_map]
    exact List.length_mergeSort _
  rw [statusNote, hlength]
  rfl

theorem rangeNoted {s : Selection} (h : s.builds.Pairwise fun a b => b.id ≤ a.id) :
    RangeNoted s.builds (rangeNote? s).toList := by
  cases hbuilds : s.builds with
  | nil =>
      rw [rangeNote?, hbuilds]
      exact .empty
  | cons last older =>
      rw [hbuilds] at h
      have hfirst := List.getLast?_eq_some_getLast (List.cons_ne_nil last older)
      rw [rangeNote?, hbuilds, hfirst]
      refine .between hfirst rfl fun b hb => ⟨?_, ?_⟩
      · exact h.rel_getLast_of_rel_getLast_getLast hb (UInt64.le_refl _)
      · exact h.rel_head_of_rel_head_head hb (UInt64.le_refl _)

theorem notes_of_unknown {page : List Build} {b : Build} (h : unknown? page = some b)
    (count : Nat) : notes page count = [] := by
  rw [notes, h]
  rfl

theorem notes_of_none {page : List Build} (h : unknown? page = none) (count : Nat) :
    notes page count = Status.incomplete.map (incompleteNote page) ++
      match ofPage page count with
      | .error _ => []
      | .ok s => (rangeNote? s).toList ++ [expectedNote page s] := by
  rw [notes, h]
  rfl

theorem known_of_none {page : List Build} (h : unknown? page = none) : ∀ b ∈ page, b.Known := by
  intro b hb
  rw [known_iff, Option.isSome_iff_ne_none]
  simpa using List.find?_eq_none.mp h b hb

/-! ## Selecting with logging on -/

/-- A computation that may log notes as it goes, and may fail at any step. -/
abbrev Noting (α : Type) := ExceptT Fault (StateM (List Diagnostic)) α

namespace Noting

/-- What a computation comes to behind the notes logged before it, and all that is logged then. -/
def runBehind {α : Type} (m : Noting α) (before : List Diagnostic) :
    Except Fault α × List Diagnostic := Id.run (StateT.run (ExceptT.run m) before)

/-- Logs a note, if it is admitted. -/
def note (l : Logging) (d : Diagnostic) : Noting Unit := modify fun logged => logged ++ l.logged [d]

theorem runBehind_pure {α : Type} (a : α) (before : List Diagnostic) :
    runBehind (pure a) before = (.ok a, before) := rfl

theorem runBehind_throw {α : Type} (f : Fault) (before : List Diagnostic) :
    runBehind (throw f : Noting α) before = (.error f, before) := rfl

theorem runBehind_note_bind {α : Type} (l : Logging) (d : Diagnostic) (m : Noting α)
    (before : List Diagnostic) :
    runBehind (note l d >>= fun _ => m) before = runBehind m (before ++ l.logged [d]) := rfl

theorem logged_append (l : Logging) (xs ys : List Diagnostic) :
    l.logged (xs ++ ys) = l.logged xs ++ l.logged ys := by
  rw [Logging.logged, Logging.logged, Logging.logged]
  cases l.filter with
  | none => rfl
  | some f => exact List.filter_append ..

theorem logged_nil (l : Logging) : l.logged [] = [] := by
  rw [Logging.logged]
  cases l.filter <;> rfl

theorem runBehind_forM_note_bind {α β : Type} (l : Logging) (f : β → Diagnostic) (xs : List β)
    (m : Noting α) (before : List Diagnostic) :
    runBehind ((xs.forM fun x => note l (f x)) >>= fun _ => m) before =
      runBehind m (before ++ l.logged (xs.map f)) := by
  induction xs generalizing before with
  | nil =>
      rw [List.map_nil, logged_nil, List.append_nil]
      rfl
  | cons x xs ih =>
      have hlogged : l.logged ((x :: xs).map f) = l.logged [f x] ++ l.logged (xs.map f) :=
        logged_append l [f x] (xs.map f)
      rw [hlogged, ← List.append_assoc, ← ih]
      rfl

end Noting

open Noting in
/-- The selection from a page, step by step.  The builds that are not complete are noted before it
is looked at whether the complete ones are enough. -/
def selecting (l : Logging) (page : List Build) (count : Nat) : Noting Selection :=
  match unknown? page with
  | some b => throw (.unknownStatus b.name b.status)
  | none => do
    Status.incomplete.forM fun status => note l (incompleteNote page status)
    if (completed page).length < count then
      throw (.tooFewCompleted page.length (completed page).length count)
    else
      let s : Selection := ⟨front count (completed page)⟩
      (rangeNote? s).toList.forM fun range => note l range
      note l (expectedNote page s)
      return s

/-- What is selected does not depend on what is logged, and the notes are logged that are admitted,
in their order, up to where the selection fails. -/
theorem runBehind_selecting (l : Logging) (page : List Build) (count : Nat) :
    (selecting l page count).runBehind [] = (ofPage page count, l.logged (notes page count)) := by
  cases hunknown : unknown? page with
  | some b =>
      rw [notes_of_unknown hunknown, Noting.logged_nil, selecting, ofPage, hunknown]
      exact Noting.runBehind_throw _ _
  | none =>
      have hresult := ofPage_of_known (known_of_none hunknown) count
      rw [notes_of_none hunknown, Noting.logged_append, selecting, hunknown, hresult]
      dsimp only
      rw [Noting.runBehind_forM_note_bind, List.nil_append]
      split
      · rw [Noting.runBehind_throw, Noting.logged_nil, List.append_nil]
      · rw [Noting.runBehind_forM_note_bind, Noting.runBehind_note_bind, Noting.runBehind_pure,
          List.map_id', Noting.logged_append, List.append_assoc]

/-! ## All notes of a page -/

/-- The builds of each incomplete status, in the notes on a page. -/
theorem incomplete_notes {page : List Build} {listed : Status → List Build}
    (h : ∀ status, OfStatus page status (listed status)) :
    Status.incomplete.map (incompleteNote page) =
      [.aborted, .errored, .pending, .started].map fun status =>
        statusNote status ((listed status).map Build.name) := by
  have hstatuses : Status.incomplete = [.aborted, .errored, .pending, .started] := rfl
  rw [hstatuses]
  refine List.map_congr_left fun status _ => ?_
  rw [incompleteNote_eq, (h status).eq_byRecency]

theorem fault_of_known {page : List Build} (h : ∀ b ∈ page, b.Known) {count : Nat} {f : Fault}
    (hfails : ofPage page count = .error f) :
    f = .tooFewCompleted page.length (page.countP fun b => b.Completed) count := by
  rw [ofPage_of_known h, length_completed] at hfails
  split at hfails
  · exact (Except.error.inj hfails).symm
  · cases hfails

/-- A page whose statuses are all known is noted status by status, with the builds of each status
from the highest id down; these and the completed ones are all of the page.  If there are too few
completed ones nothing else is noted, and otherwise the range of the selection is, unless it is
empty, and the failures to expect.  Of a page with an unknown status nothing is noted.  What is
selected is the same whatever is logged of it. -/
theorem notes_follow_selection (page : List Build) (count : Nat) :
    (∀ l : Logging, (selecting l page count).runBehind [] =
      (ofPage page count, l.logged (notes page count))) ∧
    ((∃ b ∈ page, ¬ b.Known) → notes page count = []) ∧
    ((∀ b ∈ page, b.Known) → ∃ listed : Status → List Build,
      (∀ status, OfStatus page status (listed status)) ∧
      (listed .aborted).length + (listed .errored).length + (listed .pending).length +
        (listed .started).length + page.countP (fun b => b.Completed) = page.length ∧
      let incomplete := [.aborted, .errored, .pending, .started].map fun status =>
        statusNote status ((listed status).map Build.name)
      (∀ f, ofPage page count = .error f →
        f = .tooFewCompleted page.length (page.countP fun b => b.Completed) count ∧
          notes page count = incomplete) ∧
      ∀ s, ofPage page count = .ok s → ∃ range, RangeNoted s.builds range ∧
        notes page count = incomplete ++ range ++ [expectedNote page s]) := by
  refine ⟨fun l => runBehind_selecting l page count, ?_, fun hknown => ?_⟩
  · rintro ⟨b, hb, hunknown⟩
    cases hfound : unknown? page with
    | some _ => exact notes_of_unknown hfound count
    | none => exact absurd (known_of_none hfound b hb) hunknown
  · have hnone := unknown?_eq_none (statusesKnown_iff.mpr hknown)
    have hlisted := ofStatus_byRecency page
    refine ⟨_, hlisted, ?_, fun f hfails => ⟨fault_of_known hknown hfails, ?_⟩, fun s hs => ?_⟩
    · simp only [(hlisted _).all.length_eq]
      exact length_eq_of_known hknown
    · rw [notes_of_none hnone, hfails, incomplete_notes hlisted]
      exact List.append_nil _
    · refine ⟨_, rangeNoted (ofPage_pairwise hs), ?_⟩
      rw [notes_of_none hnone, hs, incomplete_notes hlisted, List.append_assoc]

/-- Three aborted builds, two of which share an id, and two completed ones: asking for three selects
nothing, asking for two gives a range, and one more build of an unknown status silences all. -/
theorem notes_of_mixed_page :
    let build (id : UInt64) (name status : String) : Build :=
      ⟨id, name, status, "/api/v1/builds/" ++ name, "main", "develop", "UnitTest"⟩
    let page := [build 9 "6" "aborted", build 8 "5" "pending", build 7 "2" "aborted",
      build 7 "1" "aborted", build 6 "4" "succeeded", build 5 "3" "failed"]
    let incomplete := [statusNote .aborted ["6", "2", "1"], statusNote .errored [],
      statusNote .pending ["5"], statusNote .started []]
    let s : Selection := ⟨[build 6 "4" "succeeded", build 5 "3" "failed"]⟩
    (ofPage page 3 = .error (.tooFewCompleted 6 2 3) ∧ notes page 3 = incomplete) ∧
      (ofPage page 2 = .ok s ∧ ∃ range, RangeNoted s.builds range ∧
        notes page 2 = incomplete ++ range ++ [expectedNote page s]) ∧
      notes (build 4 "0" "cancelled" :: page) 2 = [] := by
  intro build page incomplete s
  have hknown : ∀ b ∈ page, b.Known := by
    have hwords : ∀ b ∈ page, b.status ∈
        ["succeeded", "failed", "aborted", "errored", "pending", "started"] := by
      decide +kernel
    exact hwords
  have hunknown : ¬ (build 4 "0" "cancelled").Known := by
    have hword : "cancelled" ∉
        ["succeeded", "failed", "aborted", "errored", "pending", "started"] := by
      decide
    exact hword
  have hcompleted : completed page = s.builds := List.mergeSort_of_pairwise (by decide +kernel)
  have hlisted : ∀ listed : Status → List Build, (∀ status, OfStatus page status (listed status)) →
      ([.aborted, .errored, .pending, .started].map fun status =>
        statusNote status ((listed status).map Build.name)) = incomplete := by
    intro listed h
    rw [← incomplete_notes h]
    have hsorted : ∀ status, Build.byRecency (withStatus status page) = withStatus status page := by
      intro status
      refine List.mergeSort_of_pairwise ?_
      cases status <;> decide +kernel
    simp only [funext fun status => incompleteNote_eq page status, hsorted]
    decide +kernel
  have hfew : ofPage page 3 = .error (.tooFewCompleted 6 2 3) := by
    rw [ofPage_of_known hknown, hcompleted]
    rfl
  have henough : ofPage page 2 = .ok s := by
    rw [ofPage_of_known hknown, hcompleted]
    rfl
  obtain ⟨-, -, hthree⟩ := notes_follow_selection page 3
  obtain ⟨-, -, htwo⟩ := notes_follow_selection page 2
  obtain ⟨-, hsilent, -⟩ := notes_follow_selection (build 4 "0" "cancelled" :: page) 2
  obtain ⟨listed, hstatuses, -, hfails, -⟩ := hthree hknown
  obtain ⟨listed', hstatuses', -, -, hselects⟩ := htwo hknown
  obtain ⟨range, hrange, hnotes⟩ := hselects s henough
  refine ⟨⟨hfew, (hfails _ hfew).2.trans (hlisted listed hstatuses)⟩,
    ⟨henough, range, hrange, ?_⟩, hsilent ⟨_, List.mem_cons_self, hunknown⟩⟩
  exact hnotes.trans (congrArg (· ++ range ++ [expectedNote page s]) (hlisted listed' hstatuses'))

end Selection

end JobHealth
