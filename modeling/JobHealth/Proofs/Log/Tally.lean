import JobHealth.Proofs.Log.Failures
/-!
# `JobHealth.Proofs.Log.Tally` — recording a log adds up over its lines

A log is recorded line by line into three places at once: the failures, the
number of hangs, and a number of failed builds that is kept apart and added at
the end.  Each of them is a sum over the lines, whatever the tally was before.
-/

namespace JobHealth.Text

theorem contains_iff {part cs : List Char} : contains part cs = true ↔ part <:+: cs := by
  induction cs with
  | nil => rw [contains, List.isEmpty_iff, List.infix_nil]
  | cons c cs ih =>
      rw [contains, Bool.or_eq_true, ih, List.isPrefixOf_iff_prefix, List.infix_cons_iff]

end JobHealth.Text

namespace JobHealth.Log

theorem reportsBuildFailure_iff (line : List Char) :
    reportsBuildFailure line = true ↔
      "BUILD FAILED".toList <:+: line ∨ "Test Failed!".toList <:+: line := by
  rw [reportsBuildFailure, Bool.or_eq_true, Text.contains_iff, Text.contains_iff]

theorem reportsHang_iff (line : List Char) :
    reportsHang line = true ↔ "timeout exceeded".toList <:+: line := Text.contains_iff

/-- The lines of a log, each with the build that logged it. -/
def linesFrom (build : Build) (log : String) : List (Build × List Char) :=
  (Text.lines log.toList).map fun line => (build, line)

/-- The key of the test that a line names as failed. -/
def namedTest? (line : List Char) : Option String := (failedTest? line).map TestName.key

/-- The tests that lines name as failed, each once, in the order in which they are first named. -/
def testsNamed (lines : List (Build × List Char)) : List String :=
  (lines.filterMap fun l => namedTest? l.2).eraseDups

/-- The lines that name a test as failed. -/
def linesNaming (test : String) (lines : List (Build × List Char)) : List (Build × List Char) :=
  lines.filter fun l => namedTest? l.2 == some test

/-- What lines name as failed, in order. -/
def namings (lines : List (Build × List Char)) : List Naming :=
  lines.filterMap fun (build, line) => (failedTest? line).map fun test => (test.key, build)

theorem namings_append (xs ys : List (Build × List Char)) :
    namings (xs ++ ys) = namings xs ++ namings ys := List.filterMap_append

theorem namings_singleton (build : Build) (line : List Char) :
    namings [(build, line)] = ((failedTest? line).map fun test => (test.key, build)).toList := by
  simp only [namings, List.filterMap_cons, List.filterMap_nil]
  cases failedTest? line <;> rfl

theorem namings_cons (build : Build) (line : List Char) (lines : List (Build × List Char)) :
    namings ((build, line) :: lines) =
      ((namedTest? line).map fun test => (test, build)).toList ++ namings lines := by
  rw [← List.singleton_append, namings_append, namings_singleton, namedTest?, Option.map_map]
  rfl

theorem namings_map_fst (lines : List (Build × List Char)) :
    (namings lines).map Prod.fst = lines.filterMap fun l => namedTest? l.2 := by
  induction lines with
  | nil => rfl
  | cons l lines ih =>
      rw [namings_cons l.1 l.2, List.map_append, ih, List.filterMap_cons]
      cases namedTest? l.2 <;> rfl

theorem buildsNaming_namings (test : String) (lines : List (Build × List Char)) :
    buildsNaming test (namings lines) = (linesNaming test lines).map Prod.fst := by
  induction lines with
  | nil => rfl
  | cons l lines ih =>
      rw [namings_cons l.1 l.2, buildsNaming_append, ih, linesNaming, linesNaming,
        List.filter_cons]
      cases hl : namedTest? l.2 with
      | none => rfl
      | some other =>
          by_cases heq : other = test
          · subst heq
            simp [buildsNaming_same]
          · simp [buildsNaming_other heq, heq]

/-- Grouping what lines name goes by the lines themselves. -/
theorem grouped_namings (lines : List (Build × List Char)) :
    grouped (namings lines) =
      (testsNamed lines).map fun test => (test, (linesNaming test lines).map Prod.fst) := by
  rw [grouped, namings_map_fst]
  apply List.map_congr_left
  intro test _
  rw [buildsNaming_namings]

theorem nodup_eraseDups {α : Type} [BEq α] [LawfulBEq α] (xs : List α) : xs.eraseDups.Nodup := by
  induction hn : xs.length using Nat.strongRecOn generalizing xs with
  | ind n ih =>
      subst hn
      cases xs with
      | nil => exact List.nodup_nil
      | cons x xs =>
          rw [List.eraseDups_cons, List.nodup_cons]
          refine ⟨?_, ih _ (Nat.lt_succ_of_le (List.length_filter_le _ _)) _ rfl⟩
          rw [List.mem_eraseDups, List.mem_filter]
          rintro ⟨-, hx⟩
          simp at hx

theorem testsNamed_nodup (lines : List (Build × List Char)) : (testsNamed lines).Nodup :=
  nodup_eraseDups _

namespace Tally

theorem addLine_eq (build : Build) (t : Tally) (n : Nat) (line : List Char) :
    addLine build (t, n) line =
      ({ t with
          failures := t.failures.pushAll (namings [(build, line)])
          hangLines := t.hangLines + (reportsHang line).toNat },
        n + (reportsBuildFailure line).toNat) := by
  rw [namings_singleton]
  dsimp only [addLine, classify]
  cases failedTest? line with
  | none => rfl
  | some test => rfl

theorem foldl_addLine (build : Build) (lines : List (List Char)) (t : Tally) (n : Nat) :
    lines.foldl (addLine build) (t, n) =
      ({ t with
          failures := t.failures.pushAll (namings (lines.map fun line => (build, line)))
          hangLines := t.hangLines + lines.countP reportsHang },
        n + lines.countP reportsBuildFailure) := by
  induction lines generalizing t n with
  | nil => rfl
  | cons line lines ih =>
      have hcount : ∀ p : List Char → Bool,
          (line :: lines).countP p = (p line).toNat + lines.countP p := by
        intro p
        rw [List.countP_cons, Nat.add_comm]
        cases p line <;> rfl
      have hname : namings ((line :: lines).map fun line => (build, line)) =
          namings [(build, line)] ++ namings (lines.map fun line => (build, line)) :=
        namings_append [(build, line)] _
      rw [List.foldl_cons, addLine_eq, ih, hcount, hcount, ← Nat.add_assoc, ← Nat.add_assoc, hname,
        Failures.pushAll_append]

theorem record_eq (t : Tally) (build : Build) (log : String) :
    t.record build log =
      (⟨t.failures.pushAll (namings (linesFrom build log)),
          t.failureLines + (linesFrom build log).countP fun l => reportsBuildFailure l.2,
          t.hangLines + (linesFrom build log).countP fun l => reportsHang l.2⟩,
        (linesFrom build log).countP fun l => reportsBuildFailure l.2) := by
  have hcount : ∀ p : List Char → Bool,
      (linesFrom build log).countP (fun l => p l.2) = (Text.lines log.toList).countP p := by
    intro p
    rw [linesFrom, List.countP_map]
    rfl
  rw [record, foldl_addLine, hcount, hcount, Nat.zero_add]
  rfl

end Tally

end JobHealth.Log
