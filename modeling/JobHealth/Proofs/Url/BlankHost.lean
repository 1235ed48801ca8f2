import JobHealth.Proofs.Url.Appended
import JobHealth.Url.Domain
/-!
# `JobHealth.Proofs.Url.BlankHost` — no authority ends in a blank

A blank counts at no place of a host, so a text that would be the address of a
server without the blanks at its end is none with them.  A blank is followed
from the text to the name that is to be brought to ASCII.  Of the mapping that
does so only one thing is asked, that it refuses names with a blank in them;
`domainToAscii?` does.

| stage            | a blank                                         |
| :--------------- | :---------------------------------------------- |
| user information | stays behind it                                 |
| port             | is no digit                                     |
| percent decoding | is no part of an escape, and a byte of its own  |
| spelling         | is left alone                                   |
| labels           | is in one of them, and no label may hold it     |
-/

namespace JobHealth.Url

open JobHealth.Text

/-- What is asked of a mapping to ASCII: a name that holds a blank or a control is no domain. -/
structure ToAscii.Lawful (toAscii : ToAscii) : Prop where
  refused : ∀ name, ∀ c ∈ name, isEdge c = true → toAscii name = none

/-- What holds of the blanks and controls among the first of ASCII holds of all of them. -/
theorem forall_isEdge {p : Char → Prop} (h : ∀ n : Fin 33, p (Char.ofNat n)) {c : Char}
    (hc : isEdge c = true) : p c := by
  have hlt : c.toNat < 33 := Nat.lt_succ_of_le (of_decide_eq_true hc)
  have hchar : Char.ofNat c.toNat = c := Char.ofNat_toNat c
  have hblank := h ⟨c.toNat, hlt⟩
  rwa [hchar] at hblank

theorem isBarred_of_isEdge {c : Char} (h : isEdge c = true) : isBarred c = true := by
  rw [isEdge] at h
  rw [isBarred, h]
  rfl

/-! ## Percent decoding -/

theorem hexValue?_of_isEdge {c : Char} (h : isEdge c = true) : hexValue? c = none :=
  forall_isEdge (p := fun c => hexValue? c = none) (by decide) h

theorem escapedByte?_eq_some {cs rest : List Char} {x : UInt8}
    (h : escapedByte? cs = some (x, rest)) :
    ∃ a b, cs = a :: b :: rest ∧ (hexValue? a).isSome ∧ (hexValue? b).isSome := by
  unfold escapedByte? at h
  split at h
  · next a b rest' =>
    split at h
    · next ha hb =>
      obtain ⟨-, rfl⟩ := Prod.mk.inj (Option.some.inj h)
      exact ⟨a, b, rfl, by rw [ha]; rfl, by rw [hb]; rfl⟩
    · cases h
  · cases h

theorem mem_percentDecodeFrom {fuel : Nat} {cs : List Char} (hfuel : cs.length ≤ fuel) {b : Char}
    (hb : b ∈ cs) (hedge : isEdge b = true) : b.toNat.toUInt8 ∈ percentDecodeFrom fuel cs := by
  have hmark : b ≠ '%' := by
    rintro rfl
    exact absurd hedge (by decide)
  have hself : b.toNat.toUInt8 ∈ Utf8.encodeChar b := by
    have hlt : b.toNat < 0x80 := Nat.lt_of_le_of_lt (of_decide_eq_true hedge) (by decide)
    rw [Utf8.encodeChar]
    simp only [if_pos hlt]
    exact List.mem_singleton_self _
  induction fuel using Nat.strongRecOn generalizing cs with
  | ind fuel ih =>
      cases fuel with
      | zero => simp_all
      | succ fuel =>
          cases cs with
          | nil => cases hb
          | cons c cs =>
              have hle : cs.length ≤ fuel := Nat.le_of_succ_le_succ hfuel
              have hplain : b.toNat.toUInt8 ∈ Utf8.encodeChar c ++ percentDecodeFrom fuel cs := by
                rcases List.mem_cons.mp hb with rfl | hmem
                · exact List.mem_append_left _ hself
                · exact List.mem_append_right _ (ih fuel (Nat.lt_succ_self fuel) hle hmem)
              rw [percentDecodeFrom]
              split
              · next hc =>
                split
                · next x rest hescaped =>
                  obtain ⟨d, e, rfl, hd, he⟩ := escapedByte?_eq_some hescaped
                  -- a blank is none of the three characters of an escape
                  have hrest : b ∈ rest := by
                    have hnone := hexValue?_of_isEdge hedge
                    simp only [List.mem_cons] at hb
                    rcases hb with rfl | rfl | rfl | hb
                    · exact absurd hc hmark
                    · rw [hnone] at hd; cases hd
                    · rw [hnone] at he; cases he
                    · exact hb
                  simp only [List.length_cons] at hle
                  exact List.mem_cons_of_mem _ (ih fuel (Nat.lt_succ_self fuel) (by omega) hrest)
                · exact hplain
              · exact hplain

/-! ## Names in ASCII -/

theorem spell?_of_isEdge {c : Char} (h : isEdge c = true) : spell? c = some [c] :=
  forall_isEdge (p := fun c => spell? c = some [c]) (by decide) h

theorem mem_spellAll? {name spelled : List Char} (h : spellAll? name = some spelled) {b : Char}
    (hb : b ∈ name) (hedge : isEdge b = true) : b ∈ spelled := by
  induction name generalizing spelled with
  | nil => cases hb
  | cons c name ih =>
      simp only [spellAll?, Option.bind_eq_bind, Option.bind_eq_some_iff, Option.pure_def,
        Option.some.injEq] at h
      obtain ⟨s, hs, rest, hrest, rfl⟩ := h
      rcases List.mem_cons.mp hb with rfl | hb
      · rw [spell?_of_isEdge hedge] at hs
        obtain rfl := Option.some.inj hs
        exact List.mem_append_left _ (List.mem_singleton_self b)
      · exact List.mem_append_right _ (ih hrest hb)

namespace Punycode

theorem mem_writeNumber {bias k q : Nat} {c : Char} (h : c ∈ writeNumber bias k q) :
    ∃ d < base, c = digitChar d := by
  have hthreshold : ∀ k, threshold k bias ≤ 26 := fun k => Nat.min_le_left _ _
  fun_induction writeNumber bias k q with
  | case1 k q t hq =>
      have ht := hthreshold k
      exact ⟨q, by unfold base; omega, List.mem_singleton.mp h⟩
  | case2 k q t hq ih =>
      rcases List.mem_cons.mp h with rfl | h
      · have ht := hthreshold k
        have hmod : (q - t) % (base - t) < base - t := Nat.mod_lt _ (by unfold base; omega)
        exact ⟨_, by omega, rfl⟩
      · exact ih h

/-- The numbers of a writing are digits. -/
def Writing.Digital (w : Writing) : Prop := ∀ c ∈ w.numbers, ∃ d < base, c = digitChar d

theorem Writing.Digital.pass {w : Writing} (h : w.Digital) (asciiCount n c : Nat) :
    (w.pass asciiCount n c).Digital := by
  unfold Writing.pass
  split
  · exact h
  · split
    · intro c' hc'
      exact (List.mem_append.mp hc').elim (h c') mem_writeNumber
    · exact h

theorem Writing.Digital.setDelta {w : Writing} (h : w.Digital) (delta : Nat) :
    Writing.Digital { w with delta := delta } := h

theorem Writing.Digital.placeAll {w : Writing} (h : w.Digital) (asciiCount : Nat)
    (label : List Nat) (n : Nat) (codes : List Nat) :
    (placeAll asciiCount label n codes w).Digital := by
  have hfold : ∀ {w : Writing}, w.Digital → ∀ m cs,
      (List.foldl (Writing.pass asciiCount m) w cs).Digital := by
    intro w hw m cs
    induction cs generalizing w with
    | nil => exact hw
    | cons c cs ih => exact ih (hw.pass asciiCount m c)
  induction codes generalizing n w with
  | nil => exact h
  | cons m codes ih =>
      rw [Punycode.placeAll]
      exact ih ((hfold (h.setDelta _) m label).setDelta _) (m + 1)

/-- The ASCII form of a label is written with its characters, a hyphen and digits. -/
theorem mem_encode {label : List Char} {c : Char} (h : c ∈ encode label) :
    c ∈ label ∨ c = '-' ∨ ∃ d < base, c = digitChar d := by
  rw [encode] at h
  rcases List.mem_append.mp h with h | h
  · split at h
    · cases h
    · rcases List.mem_append.mp h with h | h
      · exact .inl (List.mem_filter.mp h).1
      · exact .inr (.inl (List.mem_singleton.mp h))
  · have hnone : Writing.Digital ⟨0, firstBias, (label.filter fun c => c.toNat < firstCode).length,
        []⟩ := fun _ hc => nomatch hc
    exact .inr (.inr (hnone.placeAll _ _ _ _ c h))

end Punycode

theorem not_isEdge_digitChar {d : Nat} (h : d < Punycode.base) :
    isEdge (Punycode.digitChar d) = false := by
  have hall : ∀ d : Fin 36, isEdge (Punycode.digitChar d) = false := by decide
  exact hall ⟨d, h⟩

theorem not_isEdge_of_isLabel {label : List Char} (h : isLabel label = true) :
    ∀ c ∈ label, isEdge c = false := by
  intro c hc
  unfold isLabel at h
  rw [Bool.and_eq_true] at h
  have hspelled := List.all_eq_true.mp h.1 c hc
  cases hedge : isEdge c with
  | false => rfl
  | true =>
      rw [isSpelled, isBarred_of_isEdge hedge] at hspelled
      simp at hspelled

theorem not_isEdge_asciiFormMark : ∀ c ∈ asciiFormMark, isEdge c = false := by
  have hall : (asciiFormMark.all fun c => !isEdge c) = true := by decide
  intro c hc
  simpa using List.all_eq_true.mp hall c hc

/-- No label holds a blank. -/
theorem not_isEdge_of_asciiLabel? {label ascii : List Char} (h : asciiLabel? label = some ascii) :
    ∀ c ∈ label, isEdge c = false := by
  intro c hc
  rw [asciiLabel?] at h
  split at h
  · next hmark =>
    split at h
    · cases h
    · next plain _ =>
      split at h
      · next hplain =>
        rw [Bool.and_eq_true, Bool.and_eq_true, beq_iff_eq] at hplain
        obtain ⟨rest, rfl⟩ := List.isPrefixOf_iff_prefix.mp hmark
        rw [List.drop_left] at hplain
        rcases List.mem_append.mp hc with hc | hc
        · exact not_isEdge_asciiFormMark c hc
        · rw [← hplain.2] at hc
          rcases Punycode.mem_encode hc with hc | rfl | ⟨d, hd, rfl⟩
          · exact not_isEdge_of_isLabel hplain.1.2 c hc
          · decide
          · exact not_isEdge_digitChar hd
      · cases h
  · split at h
    · split at h
      · cases h
      · next hbarred =>
        cases hedge : isEdge c with
        | false => rfl
        | true => exact absurd (List.any_eq_true.mpr ⟨c, hc, isBarred_of_isEdge hedge⟩) hbarred
    · split at h
      · next hlabel => exact not_isEdge_of_isLabel hlabel c hc
      · cases h

theorem exists_of_mapM_eq_some {α β : Type} {f : α → Option β} {xs : List α} {ys : List β}
    (h : xs.mapM f = some ys) : ∀ x ∈ xs, ∃ y, f x = some y := by
  induction xs generalizing ys with
  | nil => exact nofun
  | cons x xs ih =>
      simp only [List.mapM_cons, Option.bind_eq_bind, Option.bind_eq_some_iff] at h
      obtain ⟨y, hy, ys, hys, -⟩ := h
      exact List.forall_mem_cons.mpr ⟨⟨y, hy⟩, ih hys⟩

/-- Whatever the tables of names hold, no name with a blank or a control gets through them. -/
theorem lawful_domainToAscii? : ToAscii.Lawful domainToAscii? := by
  refine ⟨fun name b hb hedge => ?_⟩
  have hdot : b ≠ '.' := by
    rintro rfl
    exact absurd hedge (by decide)
  rw [Option.eq_none_iff_forall_ne_some]
  intro ascii h
  simp only [domainToAscii?, Option.bind_eq_bind, Option.bind_eq_some_iff] at h
  obtain ⟨spelled, hspelled, labels, hlabels, -⟩ := h
  obtain ⟨label, hlabel, hmem⟩ := exists_mem_pieces (mem_spellAll? hspelled hb hedge) hdot
  obtain ⟨written, hwritten⟩ := exists_of_mapM_eq_some hlabels label hlabel
  rw [not_isEdge_of_asciiLabel? hwritten b hmem] at hedge
  cases hedge

/-! ## Hosts and ports -/

variable {toAscii : ToAscii}

theorem bracketed?_blank {front : List Char} {b : Char} (hedge : isEdge b = true)
    {r : Except Fault Host} (h : bracketed? (front ++ [b]) = some r) : r = .error .invalidIpv6 := by
  have hopen : b ≠ '[' := by
    rintro rfl
    exact absurd hedge (by decide)
  have hclose : b ≠ ']' := by
    rintro rfl
    exact absurd hedge (by decide)
  cases front with
  | nil => simp [bracketed?, hopen] at h
  | cons c front =>
      by_cases hc : c = '['
      · subst hc
        simp only [List.cons_append, bracketed?, List.getLast?_concat] at h
        split at h
        · next hlast => exact absurd (Option.some.inj hlast) hclose
        · exact (Option.some.inj h).symm
      · simp [bracketed?, hc] at h

/-- A text that ends in a blank is no host. -/
theorem readHost_blank (hascii : toAscii.Lawful) (front : List Char) {b : Char}
    (hedge : isEdge b = true) (host : Host) : readHost toAscii (front ++ [b]) ≠ .ok host := by
  intro h
  have hb : b ∈ front ++ [b] := List.mem_append_right _ (List.mem_singleton_self b)
  have hbyte : b.toNat.toUInt8.toNat = b.toNat :=
    Utf8.toNat_toUInt8_of_lt (Nat.lt_of_le_of_lt (of_decide_eq_true hedge) (by decide))
  rw [readHost] at h
  split at h
  · next r hbracketed =>
    rw [bracketed?_blank hedge hbracketed] at h
    cases h
  · split at h
    · cases h
    · next name hname =>
      have hmem := Utf8.mem_of_decodeFrom hname (mem_percentDecodeFrom (Nat.le_refl _) hb hedge)
        (by rw [hbyte]; exact Nat.lt_of_le_of_lt (of_decide_eq_true hedge) (by decide))
      rw [hbyte, Char.ofNat_toNat] at hmem
      rw [hascii.refused name b hmem hedge] at h
      cases h

theorem cutPort_append (inside : Bool) (cs : List Char) :
    (cutPort inside cs).1 ++ (cutPort inside cs).2 = cs := by
  induction cs generalizing inside with
  | nil => rfl
  | cons c cs ih =>
      rw [cutPort]
      split
      · rfl
      · exact congrArg (c :: ·) (ih _)

/-- A port stands behind a colon. -/
theorem cutPort_port (inside : Bool) (cs : List Char) :
    (cutPort inside cs).2 = [] ∨ ∃ digits, (cutPort inside cs).2 = ':' :: digits := by
  induction cs generalizing inside with
  | nil => exact .inl rfl
  | cons c cs ih =>
      rw [cutPort]
      split
      · next hcolon =>
        rw [Bool.and_eq_true, decide_eq_true_eq] at hcolon
        obtain rfl := hcolon.1
        exact .inr ⟨cs, rfl⟩
      · exact ih _

theorem isDigit_of_isEdge {c : Char} (h : isEdge c = true) : c.isDigit = false :=
  forall_isEdge (p := fun c => c.isDigit = false) (by decide) h

theorem isDigit_of_readPort {own : Option Nat} {n : Nat} {cs : List Char} {port : Option Nat}
    (h : readPort own n cs = .ok port) : ∀ c ∈ cs, c.isDigit = true := by
  induction cs generalizing n with
  | nil => exact nofun
  | cons c cs ih =>
      rw [readPort] at h
      split at h
      · next hc =>
        simp only at h
        split at h
        · cases h
        · exact List.forall_mem_cons.mpr ⟨hc, ih h⟩
      · cases h

/-! ## Authorities -/

theorem cutUserInfo?_blank (front : List Char) {b : Char} (hedge : isEdge b = true) :
    ∃ user behind, (cutUserInfo? (front ++ [b])).getD ([], front ++ [b]) =
      (user, behind ++ [b]) := by
  have hat : (b != '@') = true := by
    rw [bne_iff_ne]
    rintro rfl
    exact absurd hedge (by decide)
  rw [cutUserInfo?]
  split
  · have hbehind : ((front ++ [b]).reverse.takeWhile (· != '@')).reverse =
        (front.reverse.takeWhile (· != '@')).reverse ++ [b] := by
      rw [List.reverse_append, List.reverse_singleton, List.singleton_append, List.takeWhile_cons,
        if_pos hat, List.reverse_cons]
    rw [hbehind]
    exact ⟨_, _, rfl⟩
  · exact ⟨[], front, rfl⟩

theorem readSpecialAuthority_eq_ok {own : Nat} {cs : List Char} {authority : Authority}
    (h : readSpecialAuthority toAscii own cs = .ok authority) :
    let parts := cutPort false ((cutUserInfo? cs).getD ([], cs)).2
    ∃ host port, readHost toAscii parts.1 = .ok host ∧ portOf (some own) parts.2 = .ok port := by
  intro parts
  rw [readSpecialAuthority] at h
  simp only at h
  split at h
  · cases h
  · cases hhost : readHost toAscii parts.1 with
    | error f =>
        simp only [parts] at hhost
        rw [hhost] at h
        cases h
    | ok host =>
        simp only [parts] at hhost
        rw [hhost] at h
        cases hport : portOf (some own) parts.2 with
        | error f =>
            simp only [parts] at hport
            simp only [hport] at h
            cases h
        | ok port => exact ⟨host, port, rfl, rfl⟩

/-- A text that ends in a blank is no authority of a scheme with rules. -/
theorem readSpecialAuthority_blank (hascii : toAscii.Lawful) (own : Nat) (front : List Char)
    {b : Char} (hedge : isEdge b = true) (authority : Authority) :
    readSpecialAuthority toAscii own (front ++ [b]) ≠ .ok authority := by
  intro h
  obtain ⟨host, port, hhost, hport⟩ := readSpecialAuthority_eq_ok h
  obtain ⟨user, behind, huser⟩ := cutUserInfo?_blank front hedge
  have hparts := cutPort_append false (behind ++ [b])
  rw [huser] at hhost hport
  simp only at hhost hport
  rcases cutPort_port false (behind ++ [b]) with hnone | ⟨digits, hdigits⟩
  · rw [hnone, List.append_nil] at hparts
    rw [hparts] at hhost
    exact readHost_blank hascii behind hedge host hhost
  · rw [hdigits] at hport hparts
    -- the blank is the last character of the port
    have hlast : (':' :: digits).getLast? = some b := by
      have hends := congrArg List.getLast? hparts
      rw [List.getLast?_append, List.getLast?_concat, List.getLast?_cons] at hends
      rwa [List.getLast?_cons]
    have hb : b ∈ digits := by
      rcases List.mem_cons.mp (List.mem_of_getLast? hlast) with rfl | hb
      · exact absurd hedge (by decide)
      · exact hb
    obtain ⟨d, ds, rfl⟩ := List.exists_cons_of_ne_nil (List.ne_nil_of_mem hb)
    have hdigit := isDigit_of_readPort hport b hb
    rw [isDigit_of_isEdge hedge] at hdigit
    cases hdigit

end JobHealth.Url
