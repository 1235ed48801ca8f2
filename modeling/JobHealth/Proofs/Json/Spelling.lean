import JobHealth.Json.Write
/-!
# `JobHealth.Proofs.Json.Spelling` — the ways to write a string

`Spells t c` says that `t` is a way to write the character `c` inside a string,
and `Spelling t s` that `t` is one for the text `s`.

| a character                       | may be written as               |
| :-------------------------------- | :------------------------------ |
| any but quote, backslash, control | itself                          |
| the common escapes                | a backslash and one letter      |
| up to `0xFFFF`                    | `\u` and four digits            |
| above                             | two halves, each `\u` and four  |

`scanString` accepts exactly these, and what the writer escapes is one of them.
-/

namespace JobHealth.Json

/-- A way to write one character inside a string. -/
inductive Spells : List Char → Char → Prop
  | plain {c : Char} : c ≠ '"' → c ≠ '\\' → 0x20 ≤ c.toNat → Spells [c] c
  | letter {e c : Char} : escaped? e = some c → Spells ['\\', e] c
  | word {h₁ h₂ h₃ h₄ : Char} {n : Nat} : hexWord? h₁ h₂ h₃ h₄ = some n →
      isHighHalf n = false → isLowHalf n = false →
      Spells ['\\', 'u', h₁, h₂, h₃, h₄] (Char.ofNat n)
  | pair {h₁ h₂ h₃ h₄ l₁ l₂ l₃ l₄ : Char} {n m : Nat} : hexWord? h₁ h₂ h₃ h₄ = some n →
      hexWord? l₁ l₂ l₃ l₄ = some m → isHighHalf n = true → isLowHalf m = true →
      Spells ['\\', 'u', h₁, h₂, h₃, h₄, '\\', 'u', l₁, l₂, l₃, l₄] (pairChar n m)

/-- A way to write a text inside a string. -/
inductive Spelling : List Char → List Char → Prop
  | nil : Spelling [] []
  | cons {t ts s : List Char} {c : Char} : Spells t c → Spelling ts s → Spelling (t ++ ts) (c :: s)

theorem escaped?_ne_u {e c : Char} (h : escaped? e = some c) : e ≠ 'u' := by
  rintro rfl
  have hu : escaped? 'u' = none := by decide
  rw [hu] at h
  cases h

/-! ## Reading -/

theorem scanString_spells {t : List Char} {c : Char} (h : Spells t c) (rest : List Char) :
    scanString (t ++ rest) = (scanString rest).map fun (s, r) => (c :: s, r) := by
  cases h with
  | plain hquote hslash hc =>
      show scanString (c :: rest) = _
      rw [scanString.eq_def]
      simp only [if_neg hquote, if_neg hslash, if_neg (Nat.not_lt.mpr hc)]
  | letter he =>
      show scanString ('\\' :: _ :: rest) = _
      rw [scanString.eq_def]
      simp only [escaped?_ne_u he, he, if_false, if_true]
      rfl
  | word hn hhi hlo =>
      show scanString ('\\' :: 'u' :: _ :: _ :: _ :: _ :: rest) = _
      rw [scanString.eq_def]
      simp only [hn, hhi, hlo]
      rfl
  | pair hn hm hhi hlo =>
      show scanString ('\\' :: 'u' :: _ :: _ :: _ :: _ :: '\\' :: 'u' :: _ :: _ :: _ :: _ :: rest) = _
      rw [scanString.eq_def]
      simp only [hn, hm, hhi, hlo]
      rfl

theorem scanString_spelling {t s : List Char} (h : Spelling t s) (rest : List Char) :
    scanString (t ++ '"' :: rest) = some (s, rest) := by
  induction h with
  | nil => rw [List.nil_append, scanString.eq_def]; rfl
  | cons hc _ ih =>
      rw [List.append_assoc, scanString_spells hc, ih]
      rfl

theorem skipString_word {h₁ h₂ h₃ h₄ : Char} {n : Nat} (h : hexWord? h₁ h₂ h₃ h₄ = some n)
    (rest : List Char) :
    skipString ('\\' :: 'u' :: h₁ :: h₂ :: h₃ :: h₄ :: rest) = skipString rest := by
  rw [skipString.eq_def]
  simp only [h]
  rfl

/-- Text inside a string whose escapes are whole, but may be halves of surrogate pairs. -/
inductive Escaped : List Char → Prop
  | nil : Escaped []
  | plain {c : Char} {t : List Char} : c ≠ '"' → c ≠ '\\' → 0x20 ≤ c.toNat → Escaped t →
      Escaped (c :: t)
  | letter {e c : Char} {t : List Char} : escaped? e = some c → Escaped t →
      Escaped ('\\' :: e :: t)
  | word {h₁ h₂ h₃ h₄ : Char} {n : Nat} {t : List Char} : hexWord? h₁ h₂ h₃ h₄ = some n →
      Escaped t → Escaped ('\\' :: 'u' :: h₁ :: h₂ :: h₃ :: h₄ :: t)

theorem Spelling.escaped {t s : List Char} (h : Spelling t s) : Escaped t := by
  induction h with
  | nil => exact .nil
  | cons hc _ ih =>
      cases hc with
      | plain hquote hslash hc => exact .plain hquote hslash hc ih
      | letter he => exact .letter he ih
      | word hn _ _ => exact .word hn ih
      | pair hn hm _ _ => exact .word hn (.word hm ih)

theorem skipString_escaped {t : List Char} (h : Escaped t) (rest : List Char) :
    skipString (t ++ '"' :: rest) = some rest := by
  induction h with
  | nil => rw [List.nil_append, skipString.eq_def]; rfl
  | plain hquote hslash hc _ ih =>
      rw [List.cons_append, skipString.eq_def]
      simp only [if_neg hquote, if_neg hslash, if_neg (Nat.not_lt.mpr hc)]
      exact ih
  | letter he _ ih =>
      rw [List.cons_append, List.cons_append, skipString.eq_def]
      simp only [escaped?_ne_u he, he, if_false]
      exact ih
  | word hn _ ih => exact (skipString_word hn _).trans ih

/-- Escaped text ends at its first bare quote. -/
theorem Escaped.unique {s t r rest : List Char} (hs : Escaped s) (ht : Escaped t)
    (h : s ++ '"' :: r = t ++ '"' :: rest) : s = t ∧ r = rest := by
  have hskip := skipString_escaped hs r
  rw [h, skipString_escaped ht rest] at hskip
  obtain rfl := Option.some.inj hskip
  exact ⟨List.append_cancel_right h, rfl⟩

/-- The text begins with a spelling of `s` and a quote, and has `rest` behind it. -/
def Quotes (cs s rest : List Char) : Prop := ∃ t, Spelling t s ∧ cs = t ++ '"' :: rest

theorem Quotes.cons {t cs s rest : List Char} {c : Char} (hc : Spells t c)
    (ih : ∀ {s rest}, scanString cs = some (s, rest) → Quotes cs s rest)
    (h : (scanString cs).map (fun (s, r) => (c :: s, r)) = some (s, rest)) :
    Quotes (t ++ cs) s rest := by
  obtain ⟨⟨s', rest'⟩, hscan, heq⟩ := Option.map_eq_some_iff.mp h
  obtain ⟨rfl, rfl⟩ := Prod.mk.inj heq
  obtain ⟨t', ht', rfl⟩ := ih hscan
  exact ⟨t ++ t', .cons hc ht', (List.append_assoc ..).symm⟩

/-- Whatever is read as a string is a spelling with a quote behind it. -/
theorem quotes_of_scanString {cs s rest : List Char} (h : scanString cs = some (s, rest)) :
    Quotes cs s rest := by
  fun_induction scanString cs generalizing s rest with
  | case2 cs =>
      obtain ⟨rfl, rfl⟩ := Prod.mk.inj (Option.some.inj h)
      exact ⟨[], .nil, rfl⟩
  | case6 h₁ h₂ h₃ h₄ n hn hhi l₁ l₂ l₃ l₄ cs m hm hlo _ ih => exact .cons (.pair hn hm hhi hlo) ih h
  | case10 h₁ h₂ h₃ h₄ cs n hn hhi hlo _ ih =>
      exact .cons (.word hn (by simpa using hhi) (by simpa using hlo)) ih h
  | case13 e cs _ x hx _ ih => exact .cons (.letter hx) ih h
  | case15 c cs hquote hslash hc ih => exact .cons (.plain hquote hslash (Nat.not_lt.mp hc)) ih h
  | _ => cases h

theorem scanString_eq_some_iff {cs s rest : List Char} :
    scanString cs = some (s, rest) ↔ Quotes cs s rest :=
  ⟨quotes_of_scanString, fun ⟨_, ht, hcs⟩ => hcs ▸ scanString_spelling ht rest⟩

/-! ## Writing -/

theorem hexDigit?_hexChar {n : Nat} (h : n < 16) : hexDigit? (hexChar n) = some n :=
  (by decide : ∀ k < 16, hexDigit? (hexChar k) = some k) n h

theorem hexWord?_control {n : Nat} (h : n < 0x20) :
    hexWord? '0' '0' (hexChar (n / 16)) (hexChar (n % 16)) = some n := by
  have hzero : hexDigit? '0' = some 0 := by decide
  simp only [hexWord?, hzero, hexDigit?_hexChar (show n / 16 < 16 by omega),
    hexDigit?_hexChar (show n % 16 < 16 by omega), Option.bind_eq_bind, Option.bind_some,
    Option.pure_def, Option.some.injEq]
  omega

/-- What the writer escapes is read back as the character. -/
theorem spells_escapeChar (c : Char) : Spells (escapeChar c) c := by
  unfold escapeChar
  split
  · next h => subst h; exact .letter (by decide)
  · next hquote =>
    split
    · next h => subst h; exact .letter (by decide)
    · next hslash =>
      iterate 3
        split
        · next h => subst h; exact .letter (by decide)
      split
      · next h =>
        obtain rfl : c = Char.ofNat 8 := by rw [← h, Char.ofNat_toNat]
        exact .letter (by decide)
      · split
        · next h =>
          obtain rfl : c = Char.ofNat 12 := by rw [← h, Char.ofNat_toNat]
          exact .letter (by decide)
        · split
          · next h =>
            have hhi : isHighHalf c.toNat = false := by
              rw [isHighHalf]; simp; omega
            have hlo : isLowHalf c.toNat = false := by
              rw [isLowHalf]; simp; omega
            have hword := Spells.word (hexWord?_control h) hhi hlo
            rwa [Char.ofNat_toNat] at hword
          · next h => exact .plain hquote hslash (Nat.not_lt.mp h)

theorem spelling_escape (s : List Char) : Spelling (s.flatMap escapeChar) s := by
  induction s with
  | nil => exact .nil
  | cons c s ih => exact .cons (spells_escapeChar c) ih

/-! ### Control characters -/

/-- Text without control characters. -/
def Plain (t : List Char) : Prop := ∀ c ∈ t, 0x20 ≤ c.toNat

theorem Plain.append {s t : List Char} (hs : Plain s) (ht : Plain t) : Plain (s ++ t) :=
  fun c hc => (List.mem_append.mp hc).elim (hs c) (ht c)

theorem Plain.cons {c : Char} {t : List Char} (hc : 0x20 ≤ c.toNat) (ht : Plain t) :
    Plain (c :: t) :=
  List.forall_mem_cons.mpr ⟨hc, ht⟩

theorem plain_nil : Plain [] := nofun

theorem plain_hexChar {n : Nat} (h : n < 16) : 0x20 ≤ (hexChar n).toNat :=
  (by decide : ∀ k < 16, 0x20 ≤ (hexChar k).toNat) n h

theorem plain_escapeChar (c : Char) : Plain (escapeChar c) := by
  unfold escapeChar
  iterate 7
    split
    · exact .cons (by decide) (.cons (by decide) plain_nil)
  split
  · next h =>
    have hzero : 0x20 ≤ '0'.toNat := by decide
    refine .cons (by decide) (.cons (by decide) (.cons hzero (.cons hzero ?_)))
    exact .cons (plain_hexChar (by omega)) (.cons (plain_hexChar (by omega)) plain_nil)
  · next h => exact .cons (Nat.not_lt.mp h) plain_nil

/-- A written string has no control characters, whatever it is for. -/
theorem plain_writeString (s : List Char) : Plain (writeString s) := by
  refine .append (.cons (by decide) ?_) (.cons (by decide) plain_nil)
  intro c hc
  obtain ⟨d, -, hd⟩ := List.mem_flatMap.mp hc
  exact plain_escapeChar d c hd

theorem plain_writeMember (name : String) {value : List Char} (h : Plain value) :
    Plain (writeMember name value) :=
  (plain_writeString name.toList).append (.cons (by decide) h)

theorem plain_join {ts : List (List Char)} (h : ∀ t ∈ ts, Plain t) : Plain (Text.join ',' ts) := by
  fun_induction Text.join ',' ts with
  | case1 => exact plain_nil
  | case2 t => exact h t List.mem_cons_self
  | case3 t ts _ ih =>
      obtain ⟨ht, hts⟩ := List.forall_mem_cons.mp h
      exact ht.append (.cons (by decide) (ih hts))

theorem plain_writeRecord {members : List (List Char)} (h : ∀ m ∈ members, Plain m) :
    Plain (writeRecord members) :=
  .append (.cons (by decide) (plain_join h)) (.cons (by decide) plain_nil)

end JobHealth.Json
