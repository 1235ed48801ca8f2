import JobHealth.Proofs.Log.Tally
import JobHealth.Proofs.Text.Lines
/-!
# `JobHealth.Proofs.Log.Noise` — lines of a log that report no failure

Most lines of a log report no failed build and name no failed test; a line on a
watchdog timeout is one of them.  Whole lines of this kind may be put into a log
between its lines, and taken out of it: the lines that tell of a failure stay
the same, in the same order, and the number of hangs goes up and down with the
lines that were put in and taken out.
-/

namespace JobHealth.Log

open JobHealth.Text

/-- Whether a line reports a failed build or names a failed test. -/
def isTelling (line : List Char) : Bool := reportsBuildFailure line || (failedTest? line).isSome

theorem isTelling_eq_false_iff {line : List Char} :
    isTelling line = false ↔ reportsBuildFailure line = false ∧ failedTest? line = none := by
  rw [isTelling, Bool.or_eq_false_iff, Option.isSome_eq_false_iff, Option.isNone_iff_eq_none]

/-- The lines of a text that report a failed build or name a failed test. -/
def tellingLines (text : List Char) : List (List Char) := (lines text).filter isTelling

/-- The number of lines of a text that report a watchdog timeout. -/
def hangsIn (text : List Char) : Nat := (lines text).countP reportsHang

/-- Whole lines, of which none reports a failed build or names a failed test. -/
structure Noise (block : List Char) : Prop where
  whole : EndsLine block
  silent : ∀ line ∈ lines block, reportsBuildFailure line = false ∧ failedTest? line = none

/-- The second text is the first with noise put in and taken out between lines, any number of
times.  The numbers count the hangs in what was put in and in what was taken out. -/
inductive Edited (text : List Char) : (edited : List Char) → (put taken : Nat) → Prop
  | same : Edited text text 0 0
  | put {front block back : List Char} {put taken : Nat} :
      Edited text (front ++ back) put taken → EndsLine front → Noise block →
      Edited text (front ++ block ++ back) (put + hangsIn block) taken
  | take {front block back : List Char} {put taken : Nat} :
      Edited text (front ++ block ++ back) put taken → EndsLine front → Noise block →
      Edited text (front ++ back) put (taken + hangsIn block)

theorem Noise.tellingLines_eq {block : List Char} (h : Noise block) : tellingLines block = [] := by
  refine List.filter_eq_nil_iff.mpr fun line hline => ?_
  exact Bool.eq_false_iff.mp (isTelling_eq_false_iff.mpr (h.silent line hline))

section
variable {front block : List Char} (hfront : EndsLine front) (hblock : Noise block)
  (back : List Char)
include hfront hblock

theorem lines_put : lines (front ++ block ++ back) = lines front ++ lines block ++ lines back := by
  rw [List.append_assoc, lines_append_of_endsLine hfront, lines_append_of_endsLine hblock.whole,
    List.append_assoc]

theorem tellingLines_put : tellingLines (front ++ block ++ back) = tellingLines (front ++ back) := by
  have hnone : (lines block).filter isTelling = [] := hblock.tellingLines_eq
  rw [tellingLines, tellingLines, lines_put hfront hblock, lines_append_of_endsLine hfront,
    List.filter_append, List.filter_append, List.filter_append, hnone, List.append_nil]

theorem hangsIn_put :
    hangsIn (front ++ block ++ back) = hangsIn (front ++ back) + hangsIn block := by
  rw [hangsIn, hangsIn, hangsIn, lines_put hfront hblock, lines_append_of_endsLine hfront,
    List.countP_append, List.countP_append, List.countP_append]
  omega

end

/-- An edited text tells of the same failures. -/
theorem Edited.tellingLines_eq {text edited : List Char} {put taken : Nat}
    (h : Edited text edited put taken) : tellingLines edited = tellingLines text := by
  induction h with
  | same => rfl
  | put _ hfront hblock ih => rw [tellingLines_put hfront hblock, ih]
  | take _ hfront hblock ih => rw [← ih, tellingLines_put hfront hblock]

/-- The hangs of an edited text differ from those of the text by what was put in and taken out. -/
theorem Edited.hangsIn_eq {text edited : List Char} {put taken : Nat}
    (h : Edited text edited put taken) : hangsIn edited + taken = hangsIn text + put := by
  induction h with
  | same => rfl
  | put _ hfront hblock ih =>
      rw [hangsIn_put hfront hblock]
      omega
  | take _ hfront hblock ih =>
      rw [hangsIn_put hfront hblock] at ih
      omega

/-- Noise may be put in front of whole lines and behind them. -/
theorem Edited.around {before text behind : List Char} (hbefore : Noise before)
    (htext : EndsLine text) (hbehind : Noise behind) :
    Edited text (before ++ text ++ behind) (hangsIn before + hangsIn behind) 0 := by
  have hfirst : Edited text ([] ++ before ++ text) (0 + hangsIn before) 0 :=
    .put .same (.inl rfl) hbefore
  rw [List.nil_append, Nat.zero_add, ← List.append_nil (before ++ text)] at hfirst
  have hboth := hfirst.put (hbefore.whole.append htext) hbehind
  rwa [List.append_nil] at hboth

/-! ## What lines of many logs tell -/

/-- The lines that report a failed build or name a failed test, each with its build. -/
def tellingOf (ls : List (Build × List Char)) : List (Build × List Char) :=
  ls.filter fun l => isTelling l.2

theorem tellingOf_linesFrom (b : Build) (log : String) :
    tellingOf (linesFrom b log) = (tellingLines log.toList).map fun line => (b, line) := by
  rw [tellingOf, linesFrom, List.filter_map]
  rfl

theorem namings_tellingOf (ls : List (Build × List Char)) :
    namings (tellingOf ls) = namings ls := by
  induction ls with
  | nil => rfl
  | cons l ls ih =>
      rw [tellingOf] at ih
      rw [tellingOf, List.filter_cons, namings_cons l.1 l.2]
      split
      · rw [namings_cons l.1 l.2, ih]
      · next hl =>
        obtain ⟨-, htest⟩ := isTelling_eq_false_iff.mp (Bool.eq_false_iff.mpr hl)
        rw [ih, namedTest?, htest]
        rfl

theorem countP_tellingOf (ls : List (Build × List Char)) :
    (tellingOf ls).countP (fun l => reportsBuildFailure l.2) =
      ls.countP fun l => reportsBuildFailure l.2 := by
  rw [tellingOf, List.countP_filter]
  refine List.countP_congr fun l _ => ?_
  rw [isTelling]
  cases reportsBuildFailure l.2 <;> simp

end JobHealth.Log
