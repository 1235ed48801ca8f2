import Mathlib.Data.List.Basic
import Mathlib.Data.List.Induction
import JobHealth.Proofs.Log.Tally
/-!
# `JobHealth.Proofs.Log.Line` — which failed test a line names

What a line names can be said without searching it.  A `>` is usable if ink
stands before it and if past blanks a word begins, behind whose first character
a `FAILED` stands before the next line feed.  A line names a test exactly if it
has a usable `>`.

| part of the line | what it is                                                 |
| :--------------- | :--------------------------------------------------------- |
| before           | up to the first word that has a class                      |
| class            | the longest start of that word with a usable `>` past blanks |
| back             | all that stands behind that `>`                            |
| method           | the longest start of the word there that leaves a `FAILED` |

Before, class and method are determined by the line, so this description and
the search agree on every line.
-/

namespace JobHealth.Log

open JobHealth.Text

/-- Text without a blank. -/
def Ink (cs : List Char) : Prop := ∀ c ∈ cs, isInk c = true

def Blanks (cs : List Char) : Prop := ∀ c ∈ cs, isBlank c = true

/-- The word `FAILED` stands in the text, and no line feed before it. -/
def FailedAhead (cs : List Char) : Prop :=
  ∃ between rest, cs = between ++ "FAILED".toList ++ rest ∧ '\n' ∉ between

/-- Past blanks a word begins, and `FAILED` stands behind its first character. -/
def LeadsToMethod (back : List Char) : Prop :=
  ∃ gap c rest, back = gap ++ c :: rest ∧ Blanks gap ∧ isInk c = true ∧ FailedAhead rest

/-- With these texts before and behind it, a `>` can stand between a class and a method. -/
def Usable (front back : List Char) : Prop := (∃ c ∈ front, isInk c = true) ∧ LeadsToMethod back

/-- What stands before the place where a word can begin. -/
def WordBegins (before : List Char) : Prop := ∀ front c, before = front ++ [c] → isBlank c = true

/-- A start of the word behind `before` that has a usable `>` past blanks. -/
def ClassAt (line before cls back : List Char) : Prop :=
  ∃ gap, line = before ++ cls ++ gap ++ '>' :: back ∧ cls ≠ [] ∧ Ink cls ∧ Blanks gap ∧
    Usable (before ++ cls ++ gap) back

/-- A start of the word at the front of the text that leaves a `FAILED` behind it. -/
def MethodAt (text method : List Char) : Prop :=
  ∃ rest, text = method ++ rest ∧ method ≠ [] ∧ Ink method ∧ FailedAhead rest

/-- The longest such start of the word past blanks. -/
def LongestMethod (back method : List Char) : Prop :=
  ∃ gap text, back = gap ++ text ∧ Blanks gap ∧ MethodAt text method ∧
    ∀ other, MethodAt text other → other.length ≤ method.length

/-- The line names the class, in the word behind `before`, and the method, behind the `>` that
`back` follows. -/
structure Names (line before cls back method : List Char) : Prop where
  word_begins : WordBegins before
  class_at : ClassAt line before cls back
  first : ∀ before' cls' back', WordBegins before' → ClassAt line before' cls' back' →
    before.length ≤ before'.length
  longest : ∀ cls' back', ClassAt line before cls' back' → cls'.length ≤ cls.length
  method : LongestMethod back method

/-! ## Ink and blanks -/

theorem isInk_eq_true_iff {c : Char} : isInk c = true ↔ isBlank c = false := by
  rw [isInk, Bool.not_eq_true']

theorem not_ink_of_isBlank {c : Char} (h : isBlank c = true) : ¬ isInk c = true := by
  rw [isInk_eq_true_iff, h]
  exact nofun

theorem Ink.lineFeed_not_mem {cs : List Char} (h : Ink cs) : '\n' ∉ cs :=
  fun hmem => not_ink_of_isBlank (by decide) (h _ hmem)

theorem Ink.append {xs ys : List Char} (hx : Ink xs) (hy : Ink ys) : Ink (xs ++ ys) :=
  fun c hc => (List.mem_append.mp hc).elim (hx c) (hy c)

theorem dropBlank_append {gap : List Char} (h : Blanks gap) (cs : List Char) :
    dropBlank (gap ++ cs) = dropBlank cs := List.dropWhile_append_of_pos h

theorem dropBlank_of_isInk {c : Char} (h : isInk c = true) (cs : List Char) :
    dropBlank (c :: cs) = c :: cs := by
  rw [dropBlank, List.dropWhile_cons_of_neg]
  rw [isInk_eq_true_iff.mp h]
  exact Bool.false_ne_true

/-- A text is blanks, and then the text from its first ink on. -/
theorem exists_gap (cs : List Char) : ∃ gap, cs = gap ++ dropBlank cs ∧ Blanks gap := by
  refine ⟨cs.takeWhile isBlank, List.takeWhile_append_dropWhile.symm, fun c hc => ?_⟩
  exact List.all_eq_true.mp List.all_takeWhile c hc

/-! ## The method -/

theorem failedAhead_cons_iff {c : Char} {cs : List Char} :
    FailedAhead (c :: cs) ↔ failedMark <+: c :: cs ∨ c ≠ '\n' ∧ FailedAhead cs := by
  constructor
  · rintro ⟨between, rest, hcs, hbetween⟩
    cases between with
    | nil => exact .inl ⟨rest, hcs.symm⟩
    | cons b between =>
        obtain ⟨rfl, hrest⟩ := List.cons.inj hcs
        obtain ⟨hb, hbetween⟩ := not_or.mp (mt List.mem_cons.mpr hbetween)
        exact .inr ⟨Ne.symm hb, between, rest, hrest, hbetween⟩
  · rintro (⟨rest, hrest⟩ | ⟨hc, between, rest, rfl, hbetween⟩)
    · exact ⟨[], rest, hrest.symm, List.not_mem_nil⟩
    · exact ⟨c :: between, rest, rfl, List.not_mem_cons_of_ne_of_not_mem (Ne.symm hc) hbetween⟩

theorem not_failedAhead_nil : ¬ FailedAhead [] := by
  rintro ⟨between, rest, hnil, -⟩
  have hlength := congrArg List.length hnil
  rw [List.length_append, List.length_append] at hlength
  have hmark : "FAILED".toList.length = 6 := by decide
  rw [hmark, List.length_nil] at hlength
  omega

theorem leadsToFailed_iff {cs : List Char} : leadsToFailed cs = true ↔ FailedAhead cs := by
  induction cs with
  | nil => exact ⟨fun h => absurd h Bool.false_ne_true, fun h => absurd h not_failedAhead_nil⟩
  | cons c cs ih =>
      rw [leadsToFailed, Bool.or_eq_true, Bool.and_eq_true, bne_iff_ne, ih,
        List.isPrefixOf_iff_prefix, failedAhead_cons_iff]

theorem FailedAhead.behind {cs : List Char} (h : FailedAhead cs) {xs : List Char}
    (hx : '\n' ∉ xs) : FailedAhead (xs ++ cs) := by
  obtain ⟨between, rest, rfl, hbetween⟩ := h
  refine ⟨xs ++ between, rest, by simp only [List.append_assoc], ?_⟩
  rw [List.mem_append, not_or]
  exact ⟨hx, hbetween⟩

/-- A method begins with ink that has a `FAILED` behind it. -/
theorem MethodAt.head {c : Char} {cs method : List Char} (h : MethodAt (c :: cs) method) :
    isInk c = true ∧ FailedAhead cs ∧
      ∃ tail, method = c :: tail ∧ (tail ≠ [] → MethodAt cs tail) := by
  obtain ⟨rest, hcs, hne, hink, hrest⟩ := h
  cases method with
  | nil => exact absurd rfl hne
  | cons m tail =>
      obtain ⟨rfl, rfl⟩ := List.cons.inj hcs
      have htail : Ink tail := fun x hx => hink x (List.mem_cons_of_mem _ hx)
      exact ⟨hink c List.mem_cons_self, hrest.behind htail.lineFeed_not_mem, tail, rfl,
        fun hne => ⟨rest, rfl, hne, htail, hrest⟩⟩

theorem longestMethod_isMethod {cs : List Char} (h : longestMethod cs ≠ []) :
    MethodAt cs (longestMethod cs) := by
  induction cs with
  | nil => exact absurd rfl h
  | cons c cs ih =>
      rw [longestMethod] at h ⊢
      split at h
      · next hc =>
        rw [if_pos hc]
        obtain ⟨hink, hahead⟩ := Bool.and_eq_true_iff.mp hc
        by_cases hnil : longestMethod cs = []
        · rw [hnil]
          exact ⟨cs, rfl, List.cons_ne_nil _ _, fun x hx => List.mem_singleton.mp hx ▸ hink,
            leadsToFailed_iff.mp hahead⟩
        · obtain ⟨rest, hcs, -, htail, hrest⟩ := ih hnil
          refine ⟨rest, congrArg (c :: ·) hcs, List.cons_ne_nil _ _, ?_, hrest⟩
          exact fun x hx => (List.mem_cons.mp hx).elim (fun e => e ▸ hink) (htail x)
      · exact absurd rfl h

theorem MethodAt.length_le {cs method : List Char} (h : MethodAt cs method) :
    method.length ≤ (longestMethod cs).length := by
  induction cs generalizing method with
  | nil =>
      obtain ⟨rest, hcs, hne, -⟩ := h
      exact absurd (List.append_eq_nil_iff.mp hcs.symm).1 hne
  | cons c cs ih =>
      obtain ⟨hink, hahead, tail, rfl, htail⟩ := h.head
      rw [longestMethod, if_pos (by rw [hink, leadsToFailed_iff.mpr hahead]; rfl)]
      by_cases hnil : tail = []
      · rw [hnil]
        exact Nat.succ_le_succ (Nat.zero_le _)
      · exact Nat.succ_le_succ (ih (htail hnil))

theorem methodAfter?_eq_none_iff {back : List Char} :
    methodAfter? back = none ↔ longestMethod (dropBlank back) = [] := by
  rw [methodAfter?]
  cases longestMethod (dropBlank back) with
  | nil => exact ⟨fun _ => rfl, fun _ => rfl⟩
  | cons m ms => exact ⟨nofun, nofun⟩

theorem methodAfter?_eq_some {back method : List Char} (h : methodAfter? back = some method) :
    longestMethod (dropBlank back) = method ∧ method ≠ [] := by
  rw [methodAfter?] at h
  cases hlongest : longestMethod (dropBlank back) with
  | nil => rw [hlongest] at h; cases h
  | cons m ms =>
      rw [hlongest] at h
      obtain rfl := Option.some.inj h
      exact ⟨rfl, List.cons_ne_nil _ _⟩

theorem leadsToMethod_iff {back : List Char} :
    LeadsToMethod back ↔ (methodAfter? back).isSome := by
  rw [← Option.ne_none_iff_isSome, Ne, methodAfter?_eq_none_iff]
  constructor
  · rintro ⟨gap, c, rest, rfl, hgap, hc, hahead⟩ hnil
    rw [dropBlank_append hgap, dropBlank_of_isInk hc, longestMethod,
      if_pos (by rw [hc, leadsToFailed_iff.mpr hahead]; rfl)] at hnil
    cases hnil
  · intro hne
    obtain ⟨gap, hback, hgap⟩ := exists_gap back
    have hmethod := longestMethod_isMethod hne
    cases htext : dropBlank back with
    | nil => rw [htext] at hne; exact absurd rfl hne
    | cons c rest =>
        rw [htext] at hback hmethod
        obtain ⟨hc, hahead, -⟩ := hmethod.head
        exact ⟨gap, c, rest, hback, hgap, hc, hahead⟩

theorem longestMethod_of_methodAfter? {back method : List Char}
    (h : methodAfter? back = some method) : LongestMethod back method := by
  obtain ⟨rfl, hne⟩ := methodAfter?_eq_some h
  obtain ⟨gap, hback, hgap⟩ := exists_gap back
  exact ⟨gap, dropBlank back, hback, hgap, longestMethod_isMethod hne, fun _ h => h.length_le⟩

/-! ## The class -/

/-- A start of the word at the front of the text that has a `>` past blanks and a method behind
that. -/
def ClassIn (text cls back : List Char) : Prop :=
  ∃ gap, text = cls ++ gap ++ '>' :: back ∧ cls ≠ [] ∧ Ink cls ∧ Blanks gap ∧ LeadsToMethod back

theorem classAt_iff {before text cls back : List Char} :
    ClassAt (before ++ text) before cls back ↔ ClassIn text cls back := by
  refine exists_congr fun gap => ?_
  rw [List.append_assoc before cls, List.append_assoc before, List.append_cancel_left_eq]
  refine and_congr_right fun _ => and_congr_right fun hne => and_congr_right fun hink =>
    and_congr_right fun _ => ?_
  obtain ⟨c, cs, rfl⟩ := List.exists_cons_of_ne_nil hne
  exact ⟨fun h => h.2, fun h => ⟨⟨c, by simp, hink c List.mem_cons_self⟩, h⟩⟩

theorem ClassAt.exists_text {line before cls back : List Char} (h : ClassAt line before cls back) :
    ∃ text, line = before ++ text ∧ ClassIn text cls back := by
  obtain ⟨gap, hline, -⟩ := id h
  rw [List.append_assoc before cls, List.append_assoc before] at hline
  exact ⟨_, hline, classAt_iff.mp (hline ▸ h)⟩

/-- What stands in front of the whole line does not matter. -/
theorem classAt_append_iff {front line before cls back : List Char} :
    ClassAt (front ++ line) (front ++ before) cls back ↔ ClassAt line before cls back := by
  constructor
  · intro h
    obtain ⟨text, htext, hclass⟩ := h.exists_text
    rw [List.append_assoc] at htext
    obtain rfl := List.append_cancel_left htext
    exact classAt_iff.mpr hclass
  · intro h
    obtain ⟨text, rfl, hclass⟩ := h.exists_text
    rw [← List.append_assoc]
    exact classAt_iff.mpr hclass

theorem wordBegins_nil : WordBegins [] := fun front c h => absurd h (by simp)

theorem WordBegins.of_append {front before : List Char} (h : WordBegins (front ++ before)) :
    WordBegins before :=
  fun xs c hc => h (front ++ xs) c (by rw [hc, List.append_assoc])

theorem WordBegins.append {before : List Char} (h : WordBegins before) (hne : before ≠ [])
    (front : List Char) : WordBegins (front ++ before) := by
  intro xs c hc
  obtain ⟨ys, d, rfl⟩ := (List.eq_nil_or_concat' before).resolve_left hne
  rw [← List.append_assoc] at hc
  obtain rfl := List.singleton_inj.mp (List.append_inj' hc rfl).2
  exact h ys d rfl

theorem ClassIn.head {text cls back : List Char} (h : ClassIn text cls back) :
    ∃ c rest, text = c :: rest ∧ isInk c = true := by
  obtain ⟨gap, rfl, hne, hink, -⟩ := h
  obtain ⟨c, cs, rfl⟩ := List.exists_cons_of_ne_nil hne
  exact ⟨c, cs ++ gap ++ '>' :: back, rfl, hink c List.mem_cons_self⟩

/-- What can follow a whole word. -/
def WordEnds (tail : List Char) : Prop := ∀ c rest, tail = c :: rest → isBlank c = true

/-- A class is the whole word, with the `>` behind it, or ends in front of a `>` in the word. -/
theorem classIn_append_iff {word tail cls back : List Char} (hne : word ≠ []) (hword : Ink word)
    (htail : WordEnds tail) :
    ClassIn (word ++ tail) cls back ↔ LeadsToMethod back ∧
      (cls = word ∧ dropBlank tail = '>' :: back ∨
        cls ≠ [] ∧ ∃ inner, word = cls ++ '>' :: inner ∧ back = inner ++ tail) := by
  have hmark : isInk '>' = true := by decide
  constructor
  · rintro ⟨gap, htext, hcls, hink, hgap, hleads⟩
    refine ⟨hleads, ?_⟩
    rw [List.append_assoc, List.append_eq_append_iff] at htext
    rcases htext with ⟨more, rfl, htext⟩ | ⟨more, rfl, htext⟩
    · -- The class cannot reach over the end of the word.
      cases more with
      | cons c more =>
          have hblank := htail c _ htext
          exact absurd (hink c (by simp)) (not_ink_of_isBlank hblank)
      | nil =>
          rw [List.nil_append] at htext
          rw [htext, dropBlank_append hgap, dropBlank_of_isInk hmark, List.append_nil]
          exact .inl ⟨rfl, rfl⟩
    · cases gap with
      | cons c gap =>
          cases more with
          | nil =>
              rw [List.nil_append] at htext
              rw [← htext, dropBlank_append hgap, dropBlank_of_isInk hmark, List.append_nil]
              exact .inl ⟨rfl, rfl⟩
          | cons d more =>
              obtain ⟨rfl, -⟩ := List.cons.inj htext
              exact absurd (hword c (by simp)) (not_ink_of_isBlank (hgap c List.mem_cons_self))
      | nil =>
          cases more with
          | nil =>
              rw [List.nil_append, List.nil_append] at htext
              rw [← htext, dropBlank_of_isInk hmark, List.append_nil]
              exact .inl ⟨rfl, rfl⟩
          | cons d more =>
              obtain ⟨rfl, rfl⟩ := List.cons.inj htext
              exact .inr ⟨hcls, more, rfl, rfl⟩
  · rintro ⟨hleads, ⟨rfl, htext⟩ | ⟨hcls, inner, rfl, rfl⟩⟩
    · obtain ⟨gap, hgap_eq, hgap⟩ := exists_gap tail
      rw [htext] at hgap_eq
      exact ⟨gap, by rw [hgap_eq, List.append_assoc], hne, hword, hgap, hleads⟩
    · refine ⟨[], by simp, hcls, fun c hc => hword c (List.mem_append_left _ hc), nofun, hleads⟩

theorem classInside?_eq_none {seen tail cs : List Char} (h : classInside? seen tail cs = none)
    {front inner : List Char} (hcs : cs = front ++ '>' :: inner)
    (hne : seen.reverse ++ front ≠ []) :
    methodAfter? (inner ++ tail) = none := by
  induction cs generalizing seen front with
  | nil => exact absurd hcs (by simp)
  | cons c cs ih =>
      rw [classInside?] at h
      split at h
      · cases h
      · next hrest =>
        cases front with
        | nil =>
            obtain ⟨rfl, rfl⟩ := List.cons.inj hcs
            rw [List.append_nil, Ne, List.reverse_eq_nil_iff] at hne
            rw [if_pos (by simp [hne])] at h
            exact Option.map_eq_none_iff.mp h
        | cons d front =>
            obtain ⟨rfl, htext⟩ := List.cons.inj hcs
            exact ih hrest htext (by simp)

/-- Of the `>` in a word that have a class before them and a method behind them, the last one. -/
theorem classInside?_eq_some {seen tail cs cls method : List Char}
    (h : classInside? seen tail cs = some (cls, method)) :
    ∃ front inner, cs = front ++ '>' :: inner ∧ cls = seen.reverse ++ front ∧ cls ≠ [] ∧
      methodAfter? (inner ++ tail) = some method ∧
      ∀ front' inner', cs = front' ++ '>' :: inner' → (methodAfter? (inner' ++ tail)).isSome →
        front'.length ≤ front.length := by
  induction cs generalizing seen with
  | nil => cases h
  | cons c cs ih =>
      rw [classInside?] at h
      split at h
      · next found hfound =>
        obtain rfl := Option.some.inj h
        obtain ⟨front, inner, rfl, hcls, hne, hmethod, hlast⟩ := ih hfound
        refine ⟨c :: front, inner, rfl, by simpa using hcls, hne, hmethod, ?_⟩
        intro front' inner' hcs hsome
        cases front' with
        | nil => exact Nat.zero_le _
        | cons d front' => exact Nat.succ_le_succ (hlast front' inner' (List.cons.inj hcs).2 hsome)
      · next hrest =>
        split at h
        · next hmark =>
          obtain ⟨hc, hseen⟩ := Bool.and_eq_true_iff.mp hmark
          obtain rfl := of_decide_eq_true hc
          obtain ⟨m, hmethod, heq⟩ := Option.map_eq_some_iff.mp h
          obtain ⟨rfl, rfl⟩ := Prod.mk.inj heq
          refine ⟨[], cs, rfl, (List.append_nil _).symm, by simpa using hseen, hmethod, ?_⟩
          intro front' inner' hcs hsome
          cases front' with
          | nil => exact Nat.le_refl _
          | cons d front' =>
              have hnone := classInside?_eq_none hrest (List.cons.inj hcs).2 (by simp)
              rw [hnone] at hsome
              cases hsome
        · cases h

/-- The whole word is a class if it can be one, and otherwise a part of it may be. -/
theorem testAt?_cases (word tail : List Char) :
    (∃ back method, dropBlank tail = '>' :: back ∧ methodAfter? back = some method ∧
      testAt? word tail = some (word, method)) ∨
    ((∀ back, dropBlank tail = '>' :: back → methodAfter? back = none) ∧
      testAt? word tail = classInside? [] tail word) := by
  unfold testAt?
  split
  · next back hback =>
    cases hmethod : methodAfter? back with
    | some method => exact .inl ⟨back, method, hback, hmethod, rfl⟩
    | none =>
        refine .inr ⟨fun other hother => ?_, rfl⟩
        rw [hback] at hother
        obtain rfl := (List.cons.inj hother).2
        exact hmethod
  · next hother => exact .inr ⟨fun back hback => absurd hback (hother back), rfl⟩

section
variable {word tail : List Char} (hne : word ≠ []) (hword : Ink word) (htail : WordEnds tail)
include hne hword htail

theorem not_classIn_of_testAt? (h : testAt? word tail = none) (cls back : List Char) :
    ¬ ClassIn (word ++ tail) cls back := by
  rw [classIn_append_iff hne hword htail, leadsToMethod_iff]
  rcases testAt?_cases word tail with ⟨_, method, -, -, hsome⟩ | ⟨hwhole, hinside⟩
  · rw [h] at hsome
    cases hsome
  · rw [h] at hinside
    rintro ⟨hmethod, ⟨-, hback⟩ | ⟨hcls, inner, hcs, rfl⟩⟩
    · rw [hwhole back hback] at hmethod
      cases hmethod
    · rw [classInside?_eq_none hinside.symm hcs hcls] at hmethod
      cases hmethod

/-- The class of a word is its longest. -/
theorem classIn_of_testAt? {cls method : List Char} (h : testAt? word tail = some (cls, method)) :
    ∃ back, ClassIn (word ++ tail) cls back ∧ LongestMethod back method ∧
      ∀ cls' back', ClassIn (word ++ tail) cls' back' → cls'.length ≤ cls.length := by
  simp only [classIn_append_iff hne hword htail, leadsToMethod_iff]
  rcases testAt?_cases word tail with ⟨back, m, hback, hmethod, hwhole⟩ | ⟨hwhole, hinside⟩
  · rw [h] at hwhole
    obtain ⟨rfl, rfl⟩ := Prod.mk.inj (Option.some.inj hwhole)
    refine ⟨back, ⟨Option.isSome_of_eq_some hmethod, .inl ⟨rfl, hback⟩⟩,
      longestMethod_of_methodAfter? hmethod, ?_⟩
    rintro cls' back' ⟨-, ⟨rfl, -⟩ | ⟨-, inner, rfl, -⟩⟩
    · exact Nat.le_refl _
    · rw [List.length_append]
      exact Nat.le_add_right _ _
  · rw [h] at hinside
    obtain ⟨front, inner, rfl, hcls, hne', hmethod, hlast⟩ := classInside?_eq_some hinside.symm
    rw [List.reverse_nil, List.nil_append] at hcls
    subst hcls
    refine ⟨inner ++ tail, ⟨Option.isSome_of_eq_some hmethod, .inr ⟨hne', inner, rfl, rfl⟩⟩,
      longestMethod_of_methodAfter? hmethod, ?_⟩
    rintro cls' back' ⟨hsome, ⟨-, hback⟩ | ⟨-, inner', hcs, rfl⟩⟩
    · rw [hwhole back' hback] at hsome
      cases hsome
    · exact hlast cls' inner' hcs hsome

end

/-! ## The search -/

/-- Where a word with a class can stand in a text that begins with blanks and a word: it is that
word, or it stands behind it. -/
theorem ClassAt.split {gap word tail before cls back : List Char} (hgap : Blanks gap)
    (hword : Ink word) (hbefore : WordBegins before)
    (h : ClassAt (gap ++ (word ++ tail)) before cls back) :
    (before = gap ∧ ClassIn (word ++ tail) cls back) ∨
      ∃ rest, before = gap ++ (word ++ rest) ∧ WordBegins rest ∧ ClassAt tail rest cls back := by
  obtain ⟨text, htext, hclass⟩ := h.exists_text
  obtain ⟨c, cs, hhead, hc⟩ := hclass.head
  rcases List.append_eq_append_iff.mp htext with ⟨more, rfl, hmore⟩ | ⟨more, rfl, hmore⟩
  · rcases List.append_eq_append_iff.mp hmore with ⟨rest, rfl, rfl⟩ | ⟨rest, rfl, hrest⟩
    · rw [← List.append_assoc] at hbefore
      exact .inr ⟨rest, rfl, hbefore.of_append, classAt_iff.mpr hclass⟩
    · rcases List.eq_nil_or_concat' more with rfl | ⟨front, d, rfl⟩
      · exact .inl ⟨List.append_nil _, hrest ▸ hclass⟩
      · -- A word does not begin inside another.
        have hd := hbefore (gap ++ front) d (by simp)
        exact absurd (hword d (by simp)) (not_ink_of_isBlank hd)
  · cases more with
    | nil => exact .inl ⟨(List.append_nil _).symm, hmore ▸ hclass⟩
    | cons d more =>
        obtain ⟨rfl, -⟩ := List.cons.inj (hhead.symm.trans hmore)
        exact absurd hc (not_ink_of_isBlank (hgap c (by simp)))

/-- A text that has ink is blanks, a word and the rest. -/
theorem exists_word {cs : List Char} {c : Char} {rest : List Char} (h : dropBlank cs = c :: rest) :
    ∃ gap, cs = gap ++ (word (c :: rest) ++ afterWord (c :: rest)) ∧ Blanks gap ∧
      word (c :: rest) ≠ [] ∧ Ink (word (c :: rest)) ∧ WordEnds (afterWord (c :: rest)) := by
  obtain ⟨gap, hcs, hgap⟩ := exists_gap cs
  rw [h] at hcs
  have hc : isInk c = true := by
    have hhead := List.head?_dropWhile_not isBlank cs
    rw [← dropBlank, h] at hhead
    simpa [isInk] using hhead
  refine ⟨gap, by rw [word_append_afterWord]; exact hcs, hgap, ?_, ?_, ?_⟩
  · rw [word, List.takeWhile_cons_of_pos hc]
    exact List.cons_ne_nil _ _
  · exact fun d hd => List.all_eq_true.mp List.all_takeWhile d hd
  · intro d tail htail
    have hhead := List.head?_dropWhile_not isInk (c :: rest)
    rw [← afterWord, htail] at hhead
    simpa [isInk] using hhead

/-- What a search finds in a text: the test that is named there, or that none is. -/
def Finds (text : List Char) : Option (List Char × List Char) → Prop
  | none => ∀ before cls back, WordBegins before → ¬ ClassAt text before cls back
  | some (cls, method) => ∃ before back, Names text before cls back method

theorem finds_none_of_blanks {cs : List Char} (h : dropBlank cs = []) : Finds cs none := by
  intro before cls back _ hclass
  obtain ⟨gap, hcs, hgap⟩ := exists_gap cs
  obtain ⟨text, htext, hin⟩ := hclass.exists_text
  obtain ⟨c, rest, rfl, hc⟩ := hin.head
  rw [h, List.append_nil, htext] at hcs
  exact not_ink_of_isBlank (hgap c (hcs ▸ by simp)) hc

/-- If nothing is named in front of a text, what is named in the text is named in the whole. -/
theorem Finds.behind {front text : List Char} {found : Option (List Char × List Char)}
    (h : Finds text found) (hborder : ∀ cls back, ClassIn text cls back → WordBegins front)
    (hfront : ∀ before cls back, WordBegins before → ClassAt (front ++ text) before cls back →
      ∃ rest, before = front ++ rest) : Finds (front ++ text) found := by
  cases found with
  | none =>
      intro before cls back hbegins hclass
      obtain ⟨rest, rfl⟩ := hfront before cls back hbegins hclass
      exact h rest cls back hbegins.of_append (classAt_append_iff.mp hclass)
  | some found =>
      obtain ⟨before, back, hbegins, hclass, hfirst, hlongest, hmethod⟩ := h
      refine ⟨front ++ before, back, ?_, classAt_append_iff.mpr hclass, ?_, ?_, hmethod⟩
      · by_cases hne : before = []
        · subst hne
          rw [List.append_nil]
          obtain ⟨text, rfl, hin⟩ := hclass.exists_text
          exact hborder _ back hin
        · exact hbegins.append hne front
      · intro before' cls' back' hbegins' hclass'
        obtain ⟨rest, rfl⟩ := hfront before' cls' back' hbegins' hclass'
        have hle := hfirst rest cls' back' hbegins'.of_append (classAt_append_iff.mp hclass')
        rw [List.length_append, List.length_append]
        exact Nat.add_le_add_left hle _
      · exact fun cls' back' hclass' => hlongest cls' back' (classAt_append_iff.mp hclass')

section
variable {gap word tail : List Char} (hgap : Blanks gap) (hne : word ≠ []) (hword : Ink word)
  (htail : WordEnds tail)
include hgap hne hword htail

theorem finds_in_word {cls method : List Char} (h : testAt? word tail = some (cls, method)) :
    Finds (gap ++ (word ++ tail)) (some (cls, method)) := by
  obtain ⟨back, hclass, hmethod, hlongest⟩ := classIn_of_testAt? hne hword htail h
  refine ⟨gap, back, ?_, classAt_iff.mpr hclass, ?_, ?_, hmethod⟩
  · exact fun front c hc => hgap c (by simp [hc])
  · intro before cls' back' hbefore hclass'
    rcases hclass'.split hgap hword hbefore with ⟨rfl, -⟩ | ⟨rest, rfl, -, -⟩
    · exact Nat.le_refl _
    · rw [List.length_append]
      exact Nat.le_add_right _ _
  · exact fun cls' back' hclass' => hlongest cls' back' (classAt_iff.mp hclass')

theorem finds_behind_word (h : testAt? word tail = none) {found : Option (List Char × List Char)}
    (hfound : Finds tail found) : Finds (gap ++ (word ++ tail)) found := by
  rw [← List.append_assoc]
  refine hfound.behind (fun cls back hclass => ?_) fun before cls back hbegins hclass => ?_
  · -- What follows a word is blank, so no class stands there.
    obtain ⟨c, rest, rfl, hc⟩ := hclass.head
    exact absurd hc (not_ink_of_isBlank (htail c rest rfl))
  · rw [List.append_assoc] at hclass
    rcases hclass.split hgap hword hbegins with ⟨-, hin⟩ | ⟨rest, rfl, -, -⟩
    · exact absurd hin (not_classIn_of_testAt? hne hword htail h cls back)
    · exact ⟨rest, (List.append_assoc _ _ _).symm⟩

end

theorem finds_findTest? {fuel : Nat} {cs : List Char} (hfuel : cs.length < fuel) :
    Finds cs (findTest? fuel cs) := by
  induction fuel generalizing cs with
  | zero => exact absurd hfuel (Nat.not_lt_zero _)
  | succ fuel ih =>
      rw [findTest?]
      split
      · next hnil => exact finds_none_of_blanks hnil
      · next hne =>
        obtain ⟨c, rest, hdrop⟩ := List.exists_cons_of_ne_nil hne
        obtain ⟨gap, hcs, hgap, hword_ne, hword, htail⟩ := exists_word hdrop
        rw [hdrop]
        have hlength : (afterWord (c :: rest)).length < fuel := by
          have hpos := List.length_pos_iff.mpr hword_ne
          rw [hcs, List.length_append, List.length_append] at hfuel
          omega
        rw [hcs]
        split
        · next found htest => exact finds_in_word hgap hword_ne hword htail htest
        · next htest => exact finds_behind_word hgap hword_ne hword htail htest (ih hlength)

/-! ## A line and its usable marks -/

/-- Any text is a word at its end, behind the place where the word begins. -/
theorem exists_last_word (cs : List Char) :
    ∃ before word, cs = before ++ word ∧ WordBegins before ∧ Ink word := by
  induction cs using List.reverseRecOn with
  | nil => exact ⟨[], [], rfl, fun front c h => absurd h (by simp), nofun⟩
  | append_singleton cs c ih =>
      cases hc : isBlank c with
      | true =>
          refine ⟨cs ++ [c], [], (List.append_nil _).symm, fun front d hd => ?_, nofun⟩
          obtain rfl := List.singleton_inj.mp (List.append_inj' hd rfl).2
          exact hc
      | false =>
          obtain ⟨before, word, rfl, hbefore, hword⟩ := ih
          refine ⟨before, word ++ [c], List.append_assoc _ _ _, hbefore, hword.append ?_⟩
          intro d hd
          rw [List.mem_singleton.mp hd]
          exact isInk_eq_true_iff.mpr hc

/-- A text with ink ends in a word and blanks. -/
theorem exists_last_class {front : List Char} (h : ∃ c ∈ front, isInk c = true) :
    ∃ before cls gap, front = before ++ cls ++ gap ∧ WordBegins before ∧ cls ≠ [] ∧ Ink cls ∧
      Blanks gap := by
  induction front using List.reverseRecOn with
  | nil =>
      obtain ⟨c, hc, -⟩ := h
      cases hc
  | append_singleton cs c ih =>
      cases hc : isBlank c with
      | true =>
          obtain ⟨d, hd, hink⟩ := h
          have hmem : d ∈ cs := by
            rcases List.mem_append.mp hd with hd | hd
            · exact hd
            · rw [List.mem_singleton.mp hd] at hink
              exact absurd hink (not_ink_of_isBlank hc)
          obtain ⟨before, cls, gap, rfl, hbefore, hne, hcls, hgap⟩ := ih ⟨d, hmem, hink⟩
          refine ⟨before, cls, gap ++ [c], List.append_assoc _ _ _, hbefore, hne, hcls, ?_⟩
          intro x hx
          rcases List.mem_append.mp hx with hx | hx
          · exact hgap x hx
          · rw [List.mem_singleton.mp hx]
            exact hc
      | false =>
          obtain ⟨before, word, rfl, hbefore, hword⟩ := exists_last_word cs
          refine ⟨before, word ++ [c], [], by simp, hbefore, by simp, hword.append ?_, nofun⟩
          intro d hd
          rw [List.mem_singleton.mp hd]
          exact isInk_eq_true_iff.mpr hc

/-- A line has a word with a class exactly if it has a usable `>`. -/
theorem exists_classAt_iff {line : List Char} :
    (∃ before cls back, WordBegins before ∧ ClassAt line before cls back) ↔
      ∃ front back, line = front ++ '>' :: back ∧ Usable front back := by
  constructor
  · rintro ⟨before, cls, back, -, gap, hline, -, -, -, husable⟩
    exact ⟨_, back, hline, husable⟩
  · rintro ⟨front, back, rfl, husable⟩
    obtain ⟨before, cls, gap, rfl, hbefore, hne, hcls, hgap⟩ := exists_last_class husable.1
    exact ⟨before, cls, back, hbefore, gap, rfl, hne, hcls, hgap, husable⟩

theorem Usable.failedMark_infix {front back : List Char} (h : Usable front back) :
    failedMark <:+: front ++ '>' :: back := by
  obtain ⟨-, gap, c, _, rfl, -, -, between, rest, rfl, -⟩ := h
  exact ⟨front ++ '>' :: (gap ++ c :: between), rest, by simp [failedMark]⟩

/-! ## One line, one test -/

theorem ClassAt.dropBlank_eq {line before cls back : List Char} (h : ClassAt line before cls back) :
    dropBlank (line.drop (before ++ cls).length) = '>' :: back := by
  obtain ⟨gap, rfl, -, -, hgap, -⟩ := h
  rw [List.append_assoc (before ++ cls), List.drop_left, dropBlank_append hgap,
    dropBlank_of_isInk (by decide)]

theorem LongestMethod.unique {back method method' : List Char} (h : LongestMethod back method)
    (h' : LongestMethod back method') : method = method' := by
  obtain ⟨gap, text, rfl, hgap, hmethod, hlongest⟩ := h
  obtain ⟨gap', text', hback, hgap', hmethod', hlongest'⟩ := h'
  have hhead : ∀ {text method}, MethodAt text method → dropBlank text = text := by
    intro text method h
    obtain ⟨rest, rfl, hne, hink, -⟩ := h
    obtain ⟨c, cs, rfl⟩ := List.exists_cons_of_ne_nil hne
    exact dropBlank_of_isInk (hink c List.mem_cons_self) _
  have htext := congrArg dropBlank hback
  rw [dropBlank_append hgap, dropBlank_append hgap', hhead hmethod, hhead hmethod'] at htext
  subst htext
  have hlength := Nat.le_antisymm (hlongest' _ hmethod) (hlongest _ hmethod')
  obtain ⟨rest, htext, -⟩ := hmethod
  obtain ⟨rest', htext', -⟩ := hmethod'
  exact List.append_inj_left (htext.symm.trans htext') hlength

/-- A line names one test at most. -/
theorem Names.unique {line before before' cls cls' back back' method method' : List Char}
    (h : Names line before cls back method) (h' : Names line before' cls' back' method') :
    cls = cls' ∧ method = method' := by
  obtain ⟨hbegins, hclass, hfirst, hlongest, hmethod⟩ := h
  obtain ⟨hbegins', hclass', hfirst', hlongest', hmethod'⟩ := h'
  obtain ⟨text, hline, -⟩ := hclass.exists_text
  obtain ⟨text', hline', -⟩ := hclass'.exists_text
  obtain rfl : before = before' := List.append_inj_left (hline.symm.trans hline')
    (Nat.le_antisymm (hfirst _ _ _ hbegins' hclass') (hfirst' _ _ _ hbegins hclass))
  have hlength := Nat.le_antisymm (hlongest' _ _ hclass) (hlongest _ _ hclass')
  have hback : back = back' := by
    have hdrop := hclass.dropBlank_eq
    rw [List.length_append, hlength, ← List.length_append, hclass'.dropBlank_eq] at hdrop
    exact (List.cons.inj hdrop).2.symm
  subst hback
  refine ⟨?_, hmethod.unique hmethod'⟩
  obtain ⟨gap, hline, -⟩ := hclass
  obtain ⟨gap', hline', -⟩ := hclass'
  have heq := hline.symm.trans hline'
  simp only [List.append_assoc, List.append_cancel_left_eq] at heq
  exact List.append_inj_left heq hlength

/-- What is found in a line is determined by the line. -/
theorem Finds.unique {line : List Char} {found found' : Option (List Char × List Char)}
    (h : Finds line found) (h' : Finds line found') : found = found' := by
  cases found with
  | none =>
      cases found' with
      | none => rfl
      | some found' =>
          obtain ⟨before, back, hnames⟩ := h'
          exact absurd hnames.class_at (h before _ back hnames.word_begins)
  | some found =>
      obtain ⟨before, back, hnames⟩ := h
      cases found' with
      | none => exact absurd hnames.class_at (h' before _ back hnames.word_begins)
      | some found' =>
          obtain ⟨before', back', hnames'⟩ := h'
          obtain ⟨hclass, hmethod⟩ := hnames.unique hnames'
          exact congrArg some (Prod.ext hclass hmethod)

theorem finds_none_iff {line : List Char} :
    Finds line none ↔ ∀ front back, line = front ++ '>' :: back → ¬ Usable front back := by
  constructor
  · intro h front back hline husable
    obtain ⟨before, cls, back', hbegins, hclass⟩ :=
      exists_classAt_iff.mpr ⟨front, back, hline, husable⟩
    exact h before cls back' hbegins hclass
  · intro h before cls back hbegins hclass
    obtain ⟨front, back', hline, husable⟩ :=
      exists_classAt_iff.mp ⟨before, cls, back, hbegins, hclass⟩
    exact h front back' hline husable

/-- The texts of class and method. -/
def TestName.parts (t : TestName) : List Char × List Char := (t.className.toList, t.method.toList)

theorem TestName.eq_of_parts {t t' : TestName} (h : t.parts = t'.parts) : t = t' := by
  obtain ⟨hclass, hmethod⟩ := Prod.mk.inj h
  cases t
  cases t'
  exact congrArg₂ TestName.mk (String.toList_inj.mp hclass) (String.toList_inj.mp hmethod)

theorem finds_failedTest? (line : List Char) :
    Finds line ((failedTest? line).map TestName.parts) := by
  rw [failedTest?]
  split
  · have hfinds := finds_findTest? (Nat.lt_succ_self line.length)
    cases hfound : findTest? (line.length + 1) line with
    | none =>
        rw [hfound] at hfinds
        exact hfinds
    | some found =>
        rw [hfound] at hfinds
        simpa only [Option.map_some, TestName.parts, String.toList_ofList] using hfinds
  · next hmark =>
    refine finds_none_iff.mpr fun front back hline husable => hmark ?_
    exact contains_iff.mpr (hline ▸ husable.failedMark_infix)

theorem failedTest?_eq_none_iff {line : List Char} :
    failedTest? line = none ↔ ∀ front back, line = front ++ '>' :: back → ¬ Usable front back := by
  have hfinds := finds_failedTest? line
  rw [← finds_none_iff]
  constructor
  · intro h
    rwa [h] at hfinds
  · intro h
    exact Option.map_eq_none_iff.mp (hfinds.unique h)

theorem failedTest?_eq_some_iff {line : List Char} {t : TestName} :
    failedTest? line = some t ↔
      ∃ before back, Names line before t.className.toList back t.method.toList := by
  have hfinds := finds_failedTest? line
  constructor
  · intro h
    rwa [h] at hfinds
  · intro h
    have hparts : Finds line (some t.parts) := h
    obtain ⟨other, hother, heq⟩ := Option.map_eq_some_iff.mp (hfinds.unique hparts)
    rw [hother, TestName.eq_of_parts heq]

/-- A class and a method that a line names have ink, and nothing else. -/
theorem Names.ink {line before cls back method : List Char}
    (h : Names line before cls back method) :
    (cls ≠ [] ∧ Ink cls) ∧ method ≠ [] ∧ Ink method := by
  obtain ⟨_, _, hcls_ne, hcls, -⟩ := h.class_at
  obtain ⟨_, _, -, -, ⟨_, -, hmethod_ne, hmethod, -⟩, -⟩ := h.method
  exact ⟨⟨hcls_ne, hcls⟩, hmethod_ne, hmethod⟩

end JobHealth.Log
