import JobHealth.Proofs.Build
import JobHealth.Proofs.Selection
/-!
# `JobHealth.Proofs.SelectionNotes` — what is noted about the failures to expect

A selection is the front of its page's ranking, so the failed builds of the page
are those of the selection and then those that the cut left over.  The note on
the failures to expect counts the former and names both:

| of the note | says                                                         |
| :---------- | :----------------------------------------------------------- |
| `expected`  | how many of the selected builds failed                       |
| `builds`    | those builds, and behind them the failed ones that were left |

So number and names fit each other exactly if no failed build was left over.
-/

namespace JobHealth

/-! ## The failed builds of a ranking -/

/-- A part of the builds is ordered as it is within all of them. -/
theorem filter_byRecency_comm (p : Build → Bool) (builds : List Build) :
    (Build.byRecency builds).filter p = Build.byRecency (builds.filter p) := by
  refine eq_of_descending ((byRecency_pairwise builds).filter p) (byRecency_pairwise _) fun id => ?_
  rw [filter_byRecency, List.filter_filter]
  have hswap : ∀ bs : List Build, bs.filter (fun b => decide (b.id = id) && p b) =
      (bs.filter fun b => b.id = id).filter p := fun bs => by
    rw [List.filter_filter]
    exact List.filter_congr fun b _ => Bool.and_comm _ _
  rw [hswap, filter_byRecency, ← hswap, ← List.filter_filter]

/-- The failed ones among builds, in their order. -/
def failedOnes (builds : List Build) : List Build := builds.filter fun b => b.status = "failed"

theorem failedOnes_append (xs ys : List Build) :
    failedOnes (xs ++ ys) = failedOnes xs ++ failedOnes ys := List.filter_append ..

theorem withStatus_failed (page : List Build) :
    Selection.withStatus .failed page = failedOnes page := withStatus_eq .failed page

/-- The failed builds of a page stand in its ranking from the highest id down. -/
theorem failedOnes_completed (page : List Build) :
    failedOnes (Selection.completed page) = Build.byRecency (failedOnes page) := by
  have hsucceeded : failedOnes (Selection.withStatus .succeeded page) = [] := by
    refine List.filter_eq_nil_iff.mpr fun b hb => ?_
    rw [withStatus_eq, List.mem_filter, decide_eq_true_iff] at hb
    rw [hb.2]
    decide
  have hfailed : failedOnes (failedOnes page) = failedOnes page := by
    rw [failedOnes, failedOnes, List.filter_filter]
    simp only [Bool.and_self]
  rw [Selection.completed, failedOnes, filter_byRecency_comm, ← failedOnes, failedOnes_append,
    hsucceeded, withStatus_failed, hfailed, List.nil_append]

namespace Selection

theorem expectedFailures_eq (s : Selection) :
    s.expectedFailures = (failedOnes s.builds).length := by
  rw [← withStatus_failed, withStatus, ← List.countP_eq_length_filter, expectedFailures]

/-! ## The notes of a selection -/

/-- The note on the failures to expect, by its number and its names. -/
def failuresNote (expected : Nat) (names : List String) : Diagnostic :=
  ⟨.info, .selection, "expected failures",
    [("expected", .count expected), ("builds", .names names)]⟩

/-- Whether a note is the one on the failures to expect. -/
def isFailuresNote (d : Diagnostic) : Bool := d.message == "expected failures"

/-- A note whose message begins with a number is another one. -/
theorem isFailuresNote_of_numbered {d : Diagnostic} {n : Nat}
    (h : n.repr.toList <+: d.message.toList) : isFailuresNote d = false := by
  rw [isFailuresNote, beq_eq_false_iff_ne]
  intro heq
  obtain ⟨c, cs, hds⟩ := List.exists_cons_of_ne_nil (Json.digits_writeNat n).1
  have hdigit : c.isDigit = true :=
    (Json.digits_writeNat n).2 c (by rw [hds]; exact List.mem_cons_self)
  rw [heq, Nat.toList_repr, ← Json.writeNat, hds] at h
  obtain rfl : c = 'e' := (List.cons_prefix_cons.mp h).1
  exact absurd hdigit (by decide)

theorem isFailuresNote_incompleteNote (page : List Build) (status : Status) :
    isFailuresNote (incompleteNote page status) = false := by
  refine isFailuresNote_of_numbered (n := (withStatus status page).length) ?_
  simp only [incompleteNote, String.toList_append, List.append_assoc]
  exact List.prefix_append _ _

theorem isFailuresNote_of_rangeNote? {s : Selection} {d : Diagnostic}
    (h : rangeNote? s = some d) : isFailuresNote d = false := by
  rw [rangeNote?] at h
  split at h
  · obtain rfl := Option.some.inj h
    refine isFailuresNote_of_numbered (n := s.builds.length) ?_
    simp only [String.toList_append, List.append_assoc]
    exact List.prefix_append _ _
  · cases h

/-- One of the notes of a selection is on the failures to expect. -/
theorem filter_notes {page : List Build} {count : Nat} {s : Selection}
    (h : ofPage page count = .ok s) :
    (notes page count).filter isFailuresNote = [expectedNote page s] := by
  have hknown : unknown? page = none := by
    rw [ofPage] at h
    split at h
    · cases h
    · assumption
  have hincomplete : (Status.incomplete.map (incompleteNote page)).filter isFailuresNote = [] := by
    refine List.filter_eq_nil_iff.mpr fun d hd => ?_
    obtain ⟨status, -, rfl⟩ := List.mem_map.mp hd
    rw [isFailuresNote_incompleteNote]
    exact Bool.false_ne_true
  have hrange : (rangeNote? s).toList.filter isFailuresNote = [] := by
    refine List.filter_eq_nil_iff.mpr fun d hd => ?_
    rw [isFailuresNote_of_rangeNote? (Option.mem_toList.mp hd)]
    exact Bool.false_ne_true
  have hone : [expectedNote page s].filter isFailuresNote = [expectedNote page s] := by
    refine List.filter_cons_of_pos (beq_iff_eq.mpr rfl)
  rw [notes, hknown, Option.isSome_none, if_neg Bool.false_ne_true, h, List.filter_append,
    hincomplete, List.filter_append, hrange, hone]
  rfl

/-- Exactly one note is on the failures to expect.  Its number is that of the failed builds among
the selected ones.  Its names are those of these builds, the most recent first, and behind them
those of the failed builds that were left over; so it names as many builds as it counts exactly if
none of these failed. -/
theorem expected_failures_noted {page : List Build} {count : Nat} {s : Selection}
    (h : ofPage page count = .ok s) :
    ∃ unselected, Ranking page (s.builds ++ unselected) ∧
      let names := (failedOnes (s.builds ++ unselected)).map Build.name
      (notes page count).filter isFailuresNote =
        [failuresNote (failedOnes s.builds).length names] ∧
      names.take (failedOnes s.builds).length = (failedOnes s.builds).map Build.name ∧
      (names.length = (failedOnes s.builds).length ↔ ∀ b ∈ unselected, b.status ≠ "failed") := by
  obtain ⟨unselected, hranked⟩ := front_append_back count (completed page)
  rw [← ofPage_eq_ok h] at hranked
  refine ⟨unselected, hranked ▸ ranking_completed page, ?_, ?_, ?_⟩
  · rw [filter_notes h, expectedNote, expectedFailures_eq, hranked, failedOnes_completed,
      Build.namesByRecency, withStatus_failed]
    rfl
  · rw [failedOnes_append, List.map_append]
    exact List.take_left' (List.length_map _)
  · have hnone : (∀ b ∈ unselected, b.status ≠ "failed") ↔ failedOnes unselected = [] := by
      simp [failedOnes, List.filter_eq_nil_iff]
    rw [failedOnes_append, List.length_map, List.length_append, hnone, ← List.length_eq_zero_iff]
    omega

/-! ### A selection that leaves a failed build over -/

/-- Two failed builds. -/
def twoFailed : List Build :=
  [ ⟨8, "2", "failed", "/api/v1/builds/8", "main", "develop", "UnitTest"⟩
  , ⟨7, "1", "failed", "/api/v1/builds/7", "main", "develop", "UnitTest"⟩ ]

theorem completed_twoFailed : completed twoFailed = twoFailed :=
  List.mergeSort_of_pairwise (by decide +kernel)

theorem ofPage_twoFailed : ofPage twoFailed 1 = .ok ⟨twoFailed.take 1⟩ := by
  rw [ofPage, completed_twoFailed]
  rfl

/-- Of two failed builds one is selected: the note counts it, and names the other one behind it. -/
theorem expected_failures_of_two :
    ofPage twoFailed 1 = .ok ⟨twoFailed.take 1⟩ ∧
      (notes twoFailed 1).filter isFailuresNote = [failuresNote 1 ["2", "1"]] ∧
      ∃ unselected, Ranking twoFailed (twoFailed.take 1 ++ unselected) ∧
        ¬ ∀ b ∈ unselected, b.status ≠ "failed" := by
  obtain ⟨unselected, hranking, hnotes, -, hall⟩ := expected_failures_noted ofPage_twoFailed
  have hranked := hranking.eq_completed.trans completed_twoFailed
  rw [hranked] at hnotes hall
  exact ⟨ofPage_twoFailed, hnotes, unselected, hranking, mt hall.mpr (by decide +kernel)⟩

/-- A note may name more failed builds than are selected, and than it counts. -/
theorem expected_failures_left_over :
    ¬ ∀ (page : List Build) (count : Nat) (s : Selection), ofPage page count = .ok s →
      ∀ d ∈ notes page count, isFailuresNote d = true →
        ∃ names, d = failuresNote names.length names ∧
          names = (failedOnes s.builds).map Build.name := by
  intro h
  have hmem := List.mem_filter.mp (filter_notes ofPage_twoFailed ▸ List.mem_singleton.mpr rfl :
    expectedNote twoFailed ⟨twoFailed.take 1⟩ ∈ (notes twoFailed 1).filter isFailuresNote)
  obtain ⟨names, hnote, hnames⟩ := h _ _ _ ofPage_twoFailed _ hmem.1 hmem.2
  have hsorted : Build.byRecency (withStatus .failed twoFailed) = twoFailed :=
    List.mergeSort_of_pairwise (by decide +kernel)
  have hlisted : expectedNote twoFailed ⟨twoFailed.take 1⟩ = failuresNote 1 ["2", "1"] := by
    rw [expectedNote, Build.namesByRecency, hsorted]
    rfl
  rw [hlisted, hnames] at hnote
  exact absurd hnote (by decide +kernel)

end Selection
end JobHealth
