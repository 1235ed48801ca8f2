import Mathlib.Algebra.BigOperators.Group.List.Basic
import Mathlib.Algebra.Ring.Nat
import JobHealth.Proofs.Log.Tally
import JobHealth.Proofs.Text.Lines
/-!
# `JobHealth.Proofs.Log.Recording` — recording a log in parts, and many logs in turn

A log that is cut between two lines may be recorded part by part: the tally is
that of the whole log, and the numbers that were given back add up to the one
number of the whole.  Where the cut goes through a line this is not so, since
both halves of the line are lines then.

Whatever is recorded after it, what is listed stays.  `Extends` says so of the
failures before and after: each test keeps its place, in the entries and in the
index, and its builds so far stand in front of any new ones.
-/

namespace JobHealth.Log

/-! ## A log in parts -/

theorem linesFrom_append {front : String} (h : Text.EndsLine front.toList) (b : Build)
    (rest : String) : linesFrom b (front ++ rest) = linesFrom b front ++ linesFrom b rest := by
  rw [linesFrom, String.toList_append, Text.lines_append_of_endsLine h, List.map_append]
  rfl

theorem endsLine_toList {front : String} (h : front = "" ∨ ∃ cut, front = cut ++ "\n") :
    Text.EndsLine front.toList := by
  rcases h with rfl | ⟨cut, rfl⟩
  · exact Or.inl rfl
  · exact Or.inr ⟨cut.toList, String.toList_append⟩

theorem Tally.record_append {front : String} (h : Text.EndsLine front.toList) (t : Tally)
    (b : Build) (rest : String) :
    t.record b (front ++ rest) =
      (((t.record b front).1.record b rest).1,
        (t.record b front).2 + ((t.record b front).1.record b rest).2) := by
  simp only [record_eq, linesFrom_append h, namings_append, Failures.pushAll_append,
    List.countP_append, Nat.add_assoc]

/-! ## What stays listed -/

/-- What the first failures list stands at the same place in the second ones, for each test with
its builds in front of any new ones. -/
structure Failures.Extends (f g : Failures) : Prop where
  listed : ∀ (place : Nat) (test : String) (builds : List Build),
    f.entries[place]? = some (test, builds) →
      ∃ more, g.entries[place]? = some (test, builds ++ more)
  found : ∀ test place, f.position? test = some place → g.position? test = some place

namespace Failures

theorem Extends.refl (f : Failures) : f.Extends f where
  listed := fun _ _ builds h => ⟨[], by rw [List.append_nil]; exact h⟩
  found := fun _ _ h => h

theorem Extends.trans {f g h : Failures} (hfg : f.Extends g) (hgh : g.Extends h) :
    f.Extends h where
  listed := by
    intro place test builds hentry
    obtain ⟨more, hmore⟩ := hfg.listed place test builds hentry
    obtain ⟨more', hmore'⟩ := hgh.listed place test (builds ++ more) hmore
    exact ⟨more ++ more', by rw [hmore', List.append_assoc]⟩
  found := fun test place hplace => hgh.found test place (hfg.found test place hplace)

/-- A push appends, be it to the builds of one test or to the entries. -/
theorem extends_push (f : Failures) (test : String) (build : Build) :
    f.Extends (f.push test build) := by
  cases hpos : f.position? test with
  | some slot =>
      rw [push_of_some hpos]
      refine ⟨fun place test' builds hentry => ?_, fun _ _ h => h⟩
      by_cases hplace : slot = place
      · subst hplace
        exact ⟨[build], by rw [List.getElem?_modify_eq, hentry]; rfl⟩
      · exact ⟨[], by rw [List.getElem?_modify_ne _ _ hplace, hentry, List.append_nil]⟩
  | none =>
      rw [push_of_none hpos]
      constructor
      · intro place test' builds hentry
        obtain ⟨hlt, -⟩ := List.getElem?_eq_some_iff.mp hentry
        exact ⟨[], by rw [List.getElem?_append_left hlt, hentry, List.append_nil]⟩
      · intro test' place hplace
        have hother : (test' == test) = false := by
          rw [beq_eq_false_iff_ne]
          rintro rfl
          rw [hpos] at hplace
          cases hplace
        rw [position?, List.lookup_cons, hother]
        exact hplace

theorem extends_pushAll (f : Failures) (namings : List Naming) :
    f.Extends (f.pushAll namings) := by
  induction namings generalizing f with
  | nil => exact Extends.refl f
  | cons naming namings ih => exact (extends_push f naming.1 naming.2).trans (ih _)

end Failures

/-! ## Logs in turn -/

namespace Tally

/-- Records logs in turn; beside the tally, the number that each of them gave back. -/
def recordAll (t : Tally) : List (Build × String) → Tally × List Nat
  | [] => (t, [])
  | (b, log) :: logs =>
    let (t, n) := t.record b log
    let (t, ns) := t.recordAll logs
    (t, n :: ns)

theorem recordAll_cons (t : Tally) (b : Build) (log : String) (logs : List (Build × String)) :
    t.recordAll ((b, log) :: logs) =
      (((t.record b log).1.recordAll logs).1,
        (t.record b log).2 :: ((t.record b log).1.recordAll logs).2) := rfl

theorem extends_record (t : Tally) (b : Build) (log : String) :
    t.failures.Extends (t.record b log).1.failures := by
  rw [record_eq]
  exact t.failures.extends_pushAll _

theorem failureLines_record (t : Tally) (b : Build) (log : String) :
    (t.record b log).1.failureLines = t.failureLines + (t.record b log).2 := by
  rw [record_eq]

theorem recordAll_append (t : Tally) (logs more : List (Build × String)) :
    (t.recordAll (logs ++ more)).1 = ((t.recordAll logs).1.recordAll more).1 := by
  induction logs generalizing t with
  | nil => rfl
  | cons log logs ih =>
      obtain ⟨b, log⟩ := log
      rw [List.cons_append, recordAll_cons, recordAll_cons]
      exact ih _

theorem failureLines_recordAll (t : Tally) (logs : List (Build × String)) :
    (t.recordAll logs).1.failureLines = t.failureLines + (t.recordAll logs).2.sum := by
  induction logs generalizing t with
  | nil => rfl
  | cons log logs ih =>
      obtain ⟨b, log⟩ := log
      rw [recordAll_cons, ih, failureLines_record, List.sum_cons, Nat.add_assoc]

theorem extends_recordAll (t : Tally) (logs : List (Build × String)) :
    t.failures.Extends (t.recordAll logs).1.failures := by
  induction logs generalizing t with
  | nil => exact Failures.Extends.refl _
  | cons log logs ih =>
      obtain ⟨b, log⟩ := log
      rw [recordAll_cons]
      exact (t.extends_record b log).trans (ih _)

/-- Recording a log in two parts that are cut between lines is recording it whole; the lines that
report a failed build are those that all recordings gave back; and of what is listed at any time,
nothing is ever moved, taken away or changed. -/
theorem recordings_add_up :
    (∀ (t : Tally) (b : Build) (front rest : String),
      (front = "" ∨ ∃ cut, front = cut ++ "\n") →
        t.record b (front ++ rest) =
          (((t.record b front).1.record b rest).1,
            (t.record b front).2 + ((t.record b front).1.record b rest).2)) ∧
    (∀ logs, (Tally.empty.recordAll logs).1.failureLines = (Tally.empty.recordAll logs).2.sum) ∧
    ∀ (t : Tally) (logs more : List (Build × String)),
      (t.recordAll logs).1.failures.Extends (t.recordAll (logs ++ more)).1.failures := by
  refine ⟨fun t b front rest h => t.record_append (h := endsLine_toList h) b rest, ?_, ?_⟩
  · intro logs
    rw [failureLines_recordAll]
    exact Nat.zero_add _
  · intro t logs more
    rw [recordAll_append]
    exact extends_recordAll _ more

/-- A log of three lines in two parts, the first one ended by a return and a line feed. -/
theorem recording_of_two_parts :
    let b : Build := ⟨7, "7", "failed", "/api/v1/builds/7", "main", "develop", "UnitTest"⟩
    let front := "Suite > case FAILED\r\n"
    let rest := "BUILD FAILED\nSuite > case FAILED"
    (front = "" ∨ ∃ cut, front = cut ++ "\n") ∧
      Tally.empty.record b (front ++ rest) =
        (((Tally.empty.record b front).1.record b rest).1,
          (Tally.empty.record b front).2 + ((Tally.empty.record b front).1.record b rest).2) ∧
      (Tally.empty.record b front).2 = 0 ∧
      ((Tally.empty.record b front).1.record b rest).2 = 1 ∧
      (Tally.empty.record b (front ++ rest)).1.failures.entries = [("Suite.case", [b, b])] := by
  intro b front rest
  have hcut : front = "" ∨ ∃ cut, front = cut ++ "\n" :=
    Or.inr ⟨"Suite > case FAILED\r", rfl⟩
  refine ⟨hcut, recordings_add_up.1 Tally.empty b front rest hcut, ?_, ?_, ?_⟩
  · decide +kernel
  · decide +kernel
  · decide +kernel

end Tally

end JobHealth.Log
