import JobHealth.Proofs.Log.Line
/-!
# `JobHealth.Proofs.Log.Pattern` — naming a failed test is matching a pattern

A failed test is named by the pattern `(\S+)\s*>\s*(\S+).*FAILED`, and a pattern
is matched by trying: from each place of the line in turn, each part as long as
it can be, and shorter by one character whenever what follows it does not match.
The first attempt that succeeds is the match.  `firstMatch?` does just that.

| part of the pattern | attempts                          | the first that succeeds  |
| :------------------ | :-------------------------------- | :----------------------- |
| `.*FAILED`          | every run without a line feed     | there is a `FAILED` ahead |
| `(\S+)`             | every run of ink, longest first   | the longest method       |
| `\s*` before it     | every run of blanks               | all the blanks           |
| `\s*>`              | every run of blanks               | all the blanks           |
| `(\S+)`             | every run of ink, longest first   | the longest class        |
| the whole           | every place, leftmost first       | the first word with a class |

So the search of a line, which goes word by word, finds what the pattern
matches, and both find what `Names` describes.
-/

namespace JobHealth.Log

open JobHealth.Text

/-! ## Trying -/

/-- Tries the starts of a text whose characters pass, longest first, each with the rest behind. -/
def tryRuns {α : Type} (p : Char → Bool) (f : (run rest : List Char) → Option α) :
    List Char → Option α
  | [] => f [] []
  | c :: cs =>
    if p c then
      match tryRuns p (fun run rest => f (c :: run) rest) cs with
      | some found => some found
      | none => f [] (c :: cs)
    else f [] (c :: cs)

/-- Matches `.*FAILED` at the front of the text. -/
def matchMark? : List Char → Option Unit :=
  tryRuns (· != '\n') fun _ rest => if failedMark.isPrefixOf rest then some () else none

/-- Matches `(\S+).*FAILED` at the front of the text, with what the group takes. -/
def matchMethod? : List Char → Option (List Char) :=
  tryRuns isInk fun method rest =>
    if method.isEmpty then none else (matchMark? rest).map fun () => method

/-- Matches `\s*(\S+).*FAILED` at the front of the text. -/
def matchBack? : List Char → Option (List Char) := tryRuns isBlank fun _ rest => matchMethod? rest

/-- Matches `\s*>\s*(\S+).*FAILED` at the front of the text. -/
def matchBehindClass? : List Char → Option (List Char) :=
  tryRuns isBlank fun _ rest =>
    match rest with
    | '>' :: back => matchBack? back
    | _ => none

/-- Matches the whole pattern at the front of the text, with what its two groups take. -/
def matchFront? : List Char → Option (List Char × List Char) :=
  tryRuns isInk fun cls rest =>
    if cls.isEmpty then none else (matchBehindClass? rest).map fun method => (cls, method)

/-- Matches the pattern at the first place of the line where it can be matched. -/
def firstMatch? : List Char → Option (List Char × List Char)
  | [] => matchFront? []
  | c :: cs => (matchFront? (c :: cs)).or (firstMatch? cs)

section
variable {α : Type} {p : Char → Bool} {f : List Char → List Char → Option α} {cs : List Char}

theorem tryRuns_eq_none (h : tryRuns p f cs = none) {run rest : List Char}
    (hcs : cs = run ++ rest) (hrun : ∀ c ∈ run, p c = true) : f run rest = none := by
  induction cs generalizing f run with
  | nil =>
      obtain ⟨rfl, rfl⟩ := List.append_eq_nil_iff.mp hcs.symm
      exact h
  | cons c cs ih =>
      rw [tryRuns] at h
      cases run with
      | nil =>
          obtain rfl : c :: cs = rest := hcs
          split at h
          · split at h
            · cases h
            · exact h
          · exact h
      | cons d run =>
          obtain ⟨rfl, hcs'⟩ := List.cons.inj hcs
          obtain ⟨hc, hrun'⟩ := List.forall_mem_cons.mp hrun
          rw [if_pos hc] at h
          split at h
          · cases h
          · next hnone => exact ih hnone hcs' hrun'

/-- The attempt that succeeds has the longest run of those that would. -/
theorem tryRuns_eq_some {found : α} (h : tryRuns p f cs = some found) :
    ∃ run rest, cs = run ++ rest ∧ (∀ c ∈ run, p c = true) ∧ f run rest = some found ∧
      ∀ run' rest', cs = run' ++ rest' → (∀ c ∈ run', p c = true) → f run' rest' ≠ none →
        run'.length ≤ run.length := by
  induction cs generalizing f with
  | nil =>
      refine ⟨[], [], rfl, nofun, h, fun run' rest' hcs _ _ => ?_⟩
      obtain rfl := (List.append_eq_nil_iff.mp hcs.symm).1
      exact Nat.le_refl 0
  | cons c cs ih =>
      rw [tryRuns] at h
      split at h
      · next hc =>
        split at h
        · next other hother =>
          obtain rfl := Option.some.inj h
          obtain ⟨run, rest, rfl, hrun, hfound, hlongest⟩ := ih hother
          refine ⟨c :: run, rest, rfl, List.forall_mem_cons.mpr ⟨hc, hrun⟩, hfound, ?_⟩
          intro run' rest' hcs hrun' hsome
          cases run' with
          | nil => exact Nat.zero_le _
          | cons d run' =>
              obtain ⟨rfl, hcs'⟩ := List.cons.inj hcs
              exact Nat.succ_le_succ
                (hlongest run' rest' hcs' (List.forall_mem_cons.mp hrun').2 hsome)
        · next hnone =>
          refine ⟨[], c :: cs, rfl, nofun, h, fun run' rest' hcs hrun' hsome => ?_⟩
          cases run' with
          | nil => exact Nat.le_refl _
          | cons d run' =>
              obtain ⟨rfl, hcs'⟩ := List.cons.inj hcs
              exact absurd (tryRuns_eq_none hnone hcs' (List.forall_mem_cons.mp hrun').2) hsome
      · next hc =>
        refine ⟨[], c :: cs, rfl, nofun, h, fun run' rest' hcs hrun' _ => ?_⟩
        cases run' with
        | nil => exact Nat.le_refl _
        | cons d run' =>
            obtain ⟨rfl, -⟩ := List.cons.inj hcs
            exact absurd (hrun' c List.mem_cons_self) hc

end

/-! ## What each part finds -/

theorem matchMark?_ne_none_iff {text : List Char} : matchMark? text ≠ none ↔ FailedAhead text := by
  constructor
  · intro h
    obtain ⟨⟨⟩, hfound⟩ := Option.ne_none_iff_exists'.mp h
    obtain ⟨run, rest, rfl, hrun, hmark, -⟩ := tryRuns_eq_some hfound
    split at hmark
    · next hprefix =>
      obtain ⟨after, rfl⟩ := List.isPrefixOf_iff_prefix.mp hprefix
      exact ⟨run, after, (List.append_assoc _ _ _).symm, fun h => by simpa using hrun _ h⟩
    · cases hmark
  · rintro ⟨run, after, rfl, hrun⟩ hnone
    have hpass : ∀ c ∈ run, (c != '\n') = true := fun c hc => bne_iff_ne.mpr fun h => hrun (h ▸ hc)
    have hmark := tryRuns_eq_none hnone (List.append_assoc _ _ _) hpass
    have hprefix : failedMark.isPrefixOf ("FAILED".toList ++ after) = true :=
      List.isPrefixOf_iff_prefix.mpr ⟨after, rfl⟩
    rw [if_pos hprefix] at hmark
    cases hmark

theorem matchMethod?_eq_none {text method : List Char} (h : matchMethod? text = none) :
    ¬ MethodAt text method := by
  rintro ⟨rest, htext, hne, hink, hrest⟩
  have hnone := tryRuns_eq_none h htext hink
  rw [if_neg (mt List.isEmpty_iff.mp hne), Option.map_eq_none_iff] at hnone
  exact matchMark?_ne_none_iff.mpr hrest hnone

theorem matchMethod?_eq_some {text method : List Char} (h : matchMethod? text = some method) :
    MethodAt text method ∧ ∀ other, MethodAt text other → other.length ≤ method.length := by
  obtain ⟨run, rest, htext, hrun, hfound, hlongest⟩ := tryRuns_eq_some h
  split at hfound
  · cases hfound
  · next hne =>
    obtain ⟨⟨⟩, hmark, rfl⟩ := Option.map_eq_some_iff.mp hfound
    refine ⟨⟨rest, htext, mt List.isEmpty_iff.mpr hne, hrun,
      matchMark?_ne_none_iff.mp (hmark ▸ nofun)⟩, ?_⟩
    rintro other ⟨rest', htext', hne', hink', hrest'⟩
    refine hlongest other rest' htext' hink' ?_
    rw [if_neg (mt List.isEmpty_iff.mp hne'), Ne, Option.map_eq_none_iff]
    exact matchMark?_ne_none_iff.mpr hrest'

theorem matchBack?_eq_none {back : List Char} (h : matchBack? back = none) :
    ¬ LeadsToMethod back := by
  rintro ⟨gap, c, rest, hback, hgap, hc, hrest⟩
  have hnone := tryRuns_eq_none h hback hgap
  have hmethod : MethodAt (c :: rest) [c] :=
    ⟨rest, rfl, List.cons_ne_nil _ _, fun d hd => List.mem_singleton.mp hd ▸ hc, hrest⟩
  exact matchMethod?_eq_none hnone hmethod

theorem matchBack?_eq_some {back method : List Char} (h : matchBack? back = some method) :
    LongestMethod back method := by
  obtain ⟨gap, text, hback, hgap, hfound, -⟩ := tryRuns_eq_some h
  exact ⟨gap, text, hback, hgap, matchMethod?_eq_some hfound⟩

theorem LongestMethod.leads {back method : List Char} (h : LongestMethod back method) :
    LeadsToMethod back := by
  obtain ⟨gap, text, rfl, hgap, hmethod, -⟩ := h
  obtain ⟨c, cs, rfl⟩ : ∃ c cs, text = c :: cs := by
    obtain ⟨rest, rfl, hne, -⟩ := hmethod
    obtain ⟨c, cs, rfl⟩ := List.exists_cons_of_ne_nil hne
    exact ⟨c, cs ++ rest, rfl⟩
  obtain ⟨hc, hahead, -⟩ := hmethod.head
  exact ⟨gap, c, cs, rfl, hgap, hc, hahead⟩

theorem matchBehindClass?_eq_none {text gap back : List Char} (h : matchBehindClass? text = none)
    (htext : text = gap ++ '>' :: back) (hgap : Blanks gap) : ¬ LeadsToMethod back :=
  matchBack?_eq_none (tryRuns_eq_none h htext hgap)

theorem matchBehindClass?_eq_some {text method : List Char}
    (h : matchBehindClass? text = some method) :
    ∃ gap back, text = gap ++ '>' :: back ∧ Blanks gap ∧ LongestMethod back method := by
  obtain ⟨gap, rest, htext, hgap, hfound, -⟩ := tryRuns_eq_some h
  split at hfound
  · exact ⟨gap, _, htext, hgap, matchBack?_eq_some hfound⟩
  · cases hfound

theorem matchFront?_eq_none {text cls back : List Char} (h : matchFront? text = none) :
    ¬ ClassIn text cls back := by
  rintro ⟨gap, htext, hne, hink, hgap, hleads⟩
  rw [List.append_assoc] at htext
  have hnone := tryRuns_eq_none h htext hink
  rw [if_neg (mt List.isEmpty_iff.mp hne), Option.map_eq_none_iff] at hnone
  exact matchBehindClass?_eq_none hnone rfl hgap hleads

theorem matchFront?_eq_some {text cls method : List Char}
    (h : matchFront? text = some (cls, method)) :
    ∃ back, ClassIn text cls back ∧ LongestMethod back method ∧
      ∀ cls' back', ClassIn text cls' back' → cls'.length ≤ cls.length := by
  obtain ⟨run, rest, rfl, hrun, hfound, hlongest⟩ := tryRuns_eq_some h
  split at hfound
  · cases hfound
  · next hne =>
    obtain ⟨m, hmark, heq⟩ := Option.map_eq_some_iff.mp hfound
    obtain ⟨rfl, rfl⟩ := Prod.mk.inj heq
    obtain ⟨gap, back, rfl, hgap, hmethod⟩ := matchBehindClass?_eq_some hmark
    refine ⟨back, ⟨gap, (List.append_assoc _ _ _).symm, mt List.isEmpty_iff.mpr hne, hrun, hgap,
      hmethod.leads⟩, hmethod, ?_⟩
    rintro cls' back' ⟨gap', htext, hne', hink', hgap', hleads'⟩
    rw [List.append_assoc cls'] at htext
    refine hlongest cls' _ htext hink' ?_
    rw [if_neg (mt List.isEmpty_iff.mp hne'), Ne, Option.map_eq_none_iff]
    exact fun hnone => matchBehindClass?_eq_none hnone rfl hgap' hleads'

/-! ## The first match -/

/-- If the pattern matches behind a character of ink, it matches at that character already. -/
theorem ClassIn.cons {c : Char} {text cls back : List Char} (hc : isInk c = true)
    (h : ClassIn text cls back) : ClassIn (c :: text) (c :: cls) back := by
  obtain ⟨gap, rfl, -, hink, hgap, hleads⟩ := h
  exact ⟨gap, rfl, List.cons_ne_nil _ _, List.forall_mem_cons.mpr ⟨hc, hink⟩, hgap, hleads⟩

theorem finds_firstMatch? (line : List Char) : Finds line (firstMatch? line) := by
  induction line with
  | nil =>
      have hnone : firstMatch? [] = none := rfl
      rw [hnone]
      exact finds_none_of_blanks rfl
  | cons c cs ih =>
      have hfront : ∀ cls back, ClassAt (c :: cs) [] cls back ↔ ClassIn (c :: cs) cls back :=
        fun cls back => @classAt_iff [] (c :: cs) cls back
      rw [firstMatch?]
      cases hmatch : matchFront? (c :: cs) with
      | some found =>
          obtain ⟨back, hclass, hmethod, hlongest⟩ := matchFront?_eq_some hmatch
          refine ⟨[], back, wordBegins_nil, (hfront _ _).mpr hclass, fun _ _ _ _ _ => Nat.zero_le _,
            fun cls' back' hclass' => hlongest cls' back' ((hfront _ _).mp hclass'), hmethod⟩
      | none =>
          have hbehind : Finds ([c] ++ cs) (firstMatch? cs) := by
            refine ih.behind (fun cls back hclass front d hd => ?_)
              fun before cls back _ hclass => ?_
            · -- Behind a character of ink the match would have begun one character earlier.
              have hlast : [] ++ [c] = front ++ [d] := hd
              obtain rfl := List.singleton_inj.mp (List.append_inj' hlast rfl).2
              by_contra hblank
              rw [Bool.not_eq_true, ← isInk_eq_true_iff] at hblank
              exact matchFront?_eq_none hmatch (hclass.cons hblank)
            · cases before with
              | nil => exact absurd ((hfront _ _).mp hclass) (matchFront?_eq_none hmatch)
              | cons d before =>
                  obtain ⟨text, htext, -⟩ := hclass.exists_text
                  obtain ⟨rfl, -⟩ := List.cons.inj htext
                  exact ⟨before, rfl⟩
          exact hbehind

/-- The search of a line finds what the pattern matches first. -/
theorem parts_failedTest? (line : List Char) :
    (failedTest? line).map TestName.parts = firstMatch? line :=
  (finds_failedTest? line).unique (finds_firstMatch? line)

/-- A line names what the pattern matches first: nothing exactly if no `>` of the line is usable,
and otherwise the class and the method that the line determines, of which neither is empty or holds
a blank.  The other two reports are about words that stand anywhere in the line. -/
theorem classification_of_line (line : List Char) :
    (classify line).failedTest.map TestName.parts = firstMatch? line ∧
    ((classify line).failedTest = none ↔
      ∀ front back, line = front ++ '>' :: back → ¬ Usable front back) ∧
    (∀ t, (classify line).failedTest = some t ↔
      ∃ before back, Names line before t.className.toList back t.method.toList) ∧
    (∀ t, (classify line).failedTest = some t →
      t.className ≠ "" ∧ t.method ≠ "" ∧
        ∀ c ∈ t.className.toList ++ t.method.toList, isBlank c = false) ∧
    ((classify line).buildFailure = true ↔
      "BUILD FAILED".toList <:+: line ∨ "Test Failed!".toList <:+: line) ∧
    ((classify line).hang = true ↔ "timeout exceeded".toList <:+: line) := by
  refine ⟨parts_failedTest? line, failedTest?_eq_none_iff, fun t => failedTest?_eq_some_iff,
    fun t ht => ?_, reportsBuildFailure_iff line, reportsHang_iff line⟩
  obtain ⟨before, back, hnames⟩ := failedTest?_eq_some_iff.mp ht
  obtain ⟨⟨hcls_ne, hcls⟩, hmethod_ne, hmethod⟩ := hnames.ink
  refine ⟨fun h => hcls_ne (h ▸ rfl), fun h => hmethod_ne (h ▸ rfl), fun c hc => ?_⟩
  exact isInk_eq_true_iff.mp (hcls.append hmethod c hc)

/-- The first `>` has no ink before it and the last one no `FAILED` behind it; of the word between
them, the class ends at its second `>`, and the method ends where a `FAILED` begins. -/
theorem classification_of_marks :
    let line := " > BUILD FAILED: a>b>c.FAILED\n > d FAIL".toList
    firstMatch? line = some ("a>b".toList, "c.".toList) ∧
      ∃ before back, Names line before "a>b".toList back "c.".toList := by
  intro line
  have htest : (classify line).failedTest = some ⟨"a>b", "c."⟩ := by decide +kernel
  obtain ⟨hpattern, -, hnames, -⟩ := classification_of_line line
  rw [htest] at hpattern
  exact ⟨hpattern.symm, (hnames _).mp htest⟩

end JobHealth.Log
