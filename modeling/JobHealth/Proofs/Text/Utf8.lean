import JobHealth.Text.Utf8
/-!
# `JobHealth.Proofs.Text.Utf8` — reading back what was written, whole or cut off

`Spells c bs` says that `bs` is a well-formed way to write `c`, byte by byte in
the terms of the decoder.  What the encoder writes is one, and the rest follows
from that: a whole text is read back, and a text cut off within a character is
refused, so that of the beginnings of a text's bytes only whole characters are
ever read.  No character has a second way, so what is read at all is what the
encoder writes.
-/

namespace JobHealth.Text

/-- A beginning of two parts ends within the first one, or is that with a beginning of the other. -/
theorem prefix_append_cases {α : Type} {p xs ys : List α} (h : p <+: xs ++ ys) :
    (∃ t, t ≠ [] ∧ p ++ t = xs) ∨ ∃ q, p = xs ++ q ∧ q <+: ys := by
  rcases List.prefix_or_prefix_of_prefix h (List.prefix_append xs ys) with ⟨t, ht⟩ | ⟨q, hq⟩
  · cases t with
    | nil => exact Or.inr ⟨[], by simpa using ht, List.nil_prefix⟩
    | cons x t => exact Or.inl ⟨x :: t, nofun, ht⟩
  · subst hq
    exact Or.inr ⟨q, rfl, (List.prefix_append_right_inj xs).mp h⟩

namespace Utf8

/-- The bytes are a well-formed way to write the character. -/
inductive Spells (c : Char) : List UInt8 → Prop
  | one {a : UInt8} : width a = 1 → Char.ofNat a.toNat = c → Spells c [a]
  | two {a b : UInt8} : width a = 2 → isTail b = true →
      Char.ofNat (a.toNat % 32 * 64 + tailBits b) = c → Spells c [a, b]
  | three {a b d : UInt8} : width a = 3 → fitsSecond a b = true → isTail d = true →
      Char.ofNat ((a.toNat % 16 * 64 + tailBits b) * 64 + tailBits d) = c → Spells c [a, b, d]
  | four {a b d e : UInt8} : width a = 4 → fitsSecond a b = true → isTail d = true →
      isTail e = true →
      Char.ofNat (((a.toNat % 8 * 64 + tailBits b) * 64 + tailBits d) * 64 + tailBits e) = c →
      Spells c [a, b, d, e]

theorem decodeFrom_of_spells {c : Char} {bs : List UInt8} (h : Spells c bs) (i : Nat)
    (rest : List UInt8) :
    decodeFrom i (bs ++ rest) = (c :: ·) <$> decodeFrom (i + bs.length) rest := by
  cases h with
  | one hw hc =>
      simp only [List.singleton_append, List.length_singleton]
      rw [decodeFrom.eq_def]
      simp only [hw, hc]
  | two hw hb hc =>
      simp only [List.cons_append, List.nil_append, List.length_cons, List.length_nil]
      rw [decodeFrom.eq_def]
      simp only [hw, hb, hc, Bool.not_true, Bool.false_eq_true, if_false]
  | three hw hb hd hc =>
      simp only [List.cons_append, List.nil_append, List.length_cons, List.length_nil]
      rw [decodeFrom.eq_def]
      simp only [hw, hb, hd, hc, Bool.not_true, Bool.false_eq_true, if_false]
  | four hw hb hd he hc =>
      simp only [List.cons_append, List.nil_append, List.length_cons, List.length_nil]
      rw [decodeFrom.eq_def]
      simp only [hw, hb, hd, he, hc, Bool.not_true, Bool.false_eq_true, if_false]

/-- A character that is cut off is refused. -/
theorem decodeFrom_cut {c : Char} {p t : List UInt8} (h : Spells c (p ++ t)) (hp : p ≠ [])
    (ht : t ≠ []) (i : Nat) : decodeFrom i p = .error (.incomplete i) := by
  generalize hbs : p ++ t = bs at h
  cases h with
  | one hw hc =>
      rcases p with - | ⟨a, p⟩
      · exact absurd rfl hp
      · simp_all
  | two hw hb hc =>
      rcases p with - | ⟨a, - | ⟨b, p⟩⟩
      · exact absurd rfl hp
      · obtain ⟨rfl, -⟩ := List.cons.inj hbs
        rw [decodeFrom.eq_def]
        simp only [hw]
      · simp_all
  | three hw hb hd hc =>
      rcases p with - | ⟨a, - | ⟨b, - | ⟨d, p⟩⟩⟩
      · exact absurd rfl hp
      · obtain ⟨rfl, -⟩ := List.cons.inj hbs
        rw [decodeFrom.eq_def]
        simp only [hw]
      · obtain ⟨rfl, rfl, -⟩ : _ ∧ _ ∧ _ := by simpa using hbs
        rw [decodeFrom.eq_def]
        simp only [hw, hb, Bool.not_true, Bool.false_eq_true, if_false]
      · simp_all
  | four hw hb hd he hc =>
      rcases p with - | ⟨a, - | ⟨b, - | ⟨d, - | ⟨e, p⟩⟩⟩⟩
      · exact absurd rfl hp
      · obtain ⟨rfl, -⟩ := List.cons.inj hbs
        rw [decodeFrom.eq_def]
        simp only [hw]
      · obtain ⟨rfl, rfl, -⟩ : _ ∧ _ ∧ _ := by simpa using hbs
        rw [decodeFrom.eq_def]
        simp only [hw, hb, Bool.not_true, Bool.false_eq_true, if_false]
      · obtain ⟨rfl, rfl, rfl, -⟩ : _ ∧ _ ∧ _ ∧ _ := by simpa using hbs
        rw [decodeFrom.eq_def]
        simp only [hw, hb, hd, Bool.not_true, Bool.false_eq_true, if_false]
      · simp_all

/-! ## What the encoder writes -/

theorem isTail_tail (n : Nat) : isTail (0x80 + n % 64).toUInt8 = true := by
  simp only [isTail, Bool.and_eq_true, decide_eq_true_eq, UInt8.le_iff_toNat_le]
  simp
  omega

theorem tailBits_tail (n : Nat) : tailBits (0x80 + n % 64).toUInt8 = n % 64 := by
  simp [tailBits]
  omega

/-- A byte that was written as a number below 256 is that number. -/
theorem toNat_toUInt8_of_lt {n : Nat} (h : n < 256) : n.toUInt8.toNat = n := by
  simpa using h

theorem width_toUInt8 {n : Nat} (h : n < 256) :
    width n.toUInt8 =
      if n ≤ 0x7F then 1 else if 0xC2 ≤ n ∧ n ≤ 0xDF then 2
      else if 0xE0 ≤ n ∧ n ≤ 0xEF then 3 else if 0xF0 ≤ n ∧ n ≤ 0xF4 then 4 else 0 := by
  simp only [width, Bool.and_eq_true, decide_eq_true_eq, UInt8.le_iff_toNat_le,
    toNat_toUInt8_of_lt h]
  rfl

theorem fitsSecond_toUInt8 {n m : Nat} (hn : n < 256) (hm : m < 256) (hlow : 0x80 ≤ m)
    (hhigh : m ≤ 0xBF) (h₁ : n = 0xE0 → 0xA0 ≤ m) (h₂ : n = 0xED → m ≤ 0x9F)
    (h₃ : n = 0xF0 → 0x90 ≤ m) (h₄ : n = 0xF4 → m ≤ 0x8F) :
    fitsSecond n.toUInt8 m.toUInt8 = true := by
  simp only [fitsSecond, isTail, beq_iff_eq, UInt8.le_iff_toNat_le, ← UInt8.toNat_inj,
    toNat_toUInt8_of_lt hn, toNat_toUInt8_of_lt hm]
  have hnum : UInt8.toNat 0xE0 = 0xE0 ∧ UInt8.toNat 0xED = 0xED ∧ UInt8.toNat 0xF0 = 0xF0 ∧
      UInt8.toNat 0xF4 = 0xF4 ∧ UInt8.toNat 0x80 = 0x80 ∧ UInt8.toNat 0xBF = 0xBF ∧
      UInt8.toNat 0xA0 = 0xA0 ∧ UInt8.toNat 0x9F = 0x9F ∧ UInt8.toNat 0x90 = 0x90 ∧
      UInt8.toNat 0x8F = 0x8F := by decide
  grind

theorem toNat_valid (c : Char) : c.toNat < 0xD800 ∨ 0xDFFF < c.toNat ∧ c.toNat < 0x110000 := by
  have := c.valid
  simpa [UInt32.isValidChar, Nat.isValidChar] using this

theorem spells_encodeChar (c : Char) : Spells c (encodeChar c) := by
  have hvalid := toNat_valid c
  have hofNat : Char.ofNat c.toNat = c := Char.ofNat_toNat c
  unfold encodeChar
  simp only
  split
  · next h =>
    refine .one ?_ ?_
    · rw [width_toUInt8 (by omega), if_pos (by omega)]
    · rw [toNat_toUInt8_of_lt (by omega), hofNat]
  · split
    · refine .two ?_ (isTail_tail _) ?_
      · rw [width_toUInt8 (by omega), if_neg (by omega), if_pos (by omega)]
      · have hsum : (0xC0 + c.toNat / 64) % 32 * 64 + c.toNat % 64 = c.toNat := by omega
        rw [toNat_toUInt8_of_lt (by omega), tailBits_tail, hsum, hofNat]
    · split
      · refine .three ?_ ?_ (isTail_tail _) ?_
        · rw [width_toUInt8 (by omega), if_neg (by omega), if_neg (by omega), if_pos (by omega)]
        · exact fitsSecond_toUInt8 (by omega) (by omega) (by omega) (by omega) (by omega) (by omega)
            (by omega) (by omega)
        · have hsum : ((0xE0 + c.toNat / 4096) % 16 * 64 + c.toNat / 64 % 64) * 64 +
              c.toNat % 64 = c.toNat := by omega
          rw [toNat_toUInt8_of_lt (by omega), tailBits_tail, tailBits_tail, hsum, hofNat]
      · refine .four ?_ ?_ (isTail_tail _) (isTail_tail _) ?_
        · rw [width_toUInt8 (by omega), if_neg (by omega), if_neg (by omega), if_neg (by omega),
            if_pos (by omega)]
        · exact fitsSecond_toUInt8 (by omega) (by omega) (by omega) (by omega) (by omega) (by omega)
            (by omega) (by omega)
        · have hsum : (((0xF0 + c.toNat / 262144) % 8 * 64 + c.toNat / 4096 % 64) * 64 +
              c.toNat / 64 % 64) * 64 + c.toNat % 64 = c.toNat := by omega
          rw [toNat_toUInt8_of_lt (by omega), tailBits_tail, tailBits_tail, tailBits_tail, hsum,
            hofNat]

/-- Below 128 a byte stands for itself, and all bytes of other characters are above. -/
theorem mem_encodeChar {b : UInt8} {c : Char} (h : b ∈ encodeChar c) (hb : b.toNat < 0x80) :
    b.toNat = c.toNat := by
  have hvalid := toNat_valid c
  have hhigh : ∀ n : Nat, 0x80 ≤ n → n < 256 → b ≠ n.toUInt8 := by
    rintro n hlow hn rfl
    rw [toNat_toUInt8_of_lt hn] at hb
    omega
  unfold encodeChar at h
  simp only at h
  split at h
  · obtain rfl := List.mem_singleton.mp h
    exact toNat_toUInt8_of_lt (by omega)
  · exfalso
    split at h
    · simp only [List.mem_cons, List.not_mem_nil, or_false] at h
      rcases h with h | h <;> exact hhigh _ (by omega) (by omega) h
    · split at h
      · simp only [List.mem_cons, List.not_mem_nil, or_false] at h
        rcases h with h | h | h <;> exact hhigh _ (by omega) (by omega) h
      · simp only [List.mem_cons, List.not_mem_nil, or_false] at h
        rcases h with h | h | h | h <;> exact hhigh _ (by omega) (by omega) h

theorem Spells.length_mem {c : Char} {bs : List UInt8} (h : Spells c bs) :
    bs.length ∈ [1, 2, 3, 4] := by
  cases h <;> simp

/-- The bytes of a character are read only as a whole. -/
theorem Spells.decode_take {c : Char} {bs : List UInt8} (h : Spells c bs) (rest : List UInt8)
    {n : Nat} (hn : 0 < n) (hlt : n < bs.length) :
    decode ((bs ++ rest).take n) = .error (.incomplete 0) := by
  have hle : n ≤ bs.length := Nat.le_of_lt hlt
  rw [List.take_append_of_le_length hle]
  rw [← List.take_append_drop n bs] at h
  refine decodeFrom_cut h (List.ne_nil_of_length_pos ?_) (List.ne_nil_of_length_pos ?_) 0
  · rwa [List.length_take_of_le hle]
  · rw [List.length_drop]
    exact Nat.sub_pos_of_lt hlt

/-! ## Whole texts and their beginnings -/

theorem encode_cons (c : Char) (cs : List Char) : encode (c :: cs) = encodeChar c ++ encode cs :=
  List.flatMap_cons

theorem encode_append (xs ys : List Char) : encode (xs ++ ys) = encode xs ++ encode ys :=
  List.flatMap_append

theorem mem_encode {b : UInt8} {cs : List Char} (h : b ∈ encode cs) (hb : b.toNat < 0x80) :
    Char.ofNat b.toNat ∈ cs := by
  obtain ⟨c, hc, hbc⟩ := List.mem_flatMap.mp h
  rwa [mem_encodeChar hbc hb, Char.ofNat_toNat]

theorem decodeFrom_encode (i : Nat) (cs : List Char) : decodeFrom i (encode cs) = .ok cs := by
  induction cs generalizing i with
  | nil => rfl
  | cons c cs ih =>
      rw [encode_cons, decodeFrom_of_spells (spells_encodeChar c), ih]
      rfl

theorem decode_encode (cs : List Char) : decode (encode cs) = .ok cs := decodeFrom_encode 0 cs

/-- Of a text that was cut off anywhere only whole characters are read. -/
theorem prefix_of_decodeFrom {i : Nat} {cs cs' : List Char} {p : List UInt8}
    (hp : p <+: encode cs) (h : decodeFrom i p = .ok cs') : cs' <+: cs ∧ p = encode cs' := by
  induction cs generalizing i p cs' with
  | nil =>
      obtain rfl := List.prefix_nil.mp hp
      obtain rfl := Except.ok.inj h
      exact ⟨List.prefix_rfl, rfl⟩
  | cons c cs ih =>
      rw [encode_cons] at hp
      rcases prefix_append_cases hp with ⟨t, ht, hpt⟩ | ⟨q, rfl, hq⟩
      · have hspells : Spells c (p ++ t) := by rw [hpt]; exact spells_encodeChar c
        cases p with
        | nil =>
            obtain rfl := Except.ok.inj h
            exact ⟨List.nil_prefix, rfl⟩
        | cons b p =>
            rw [decodeFrom_cut hspells nofun ht] at h
            cases h
      · rw [decodeFrom_of_spells (spells_encodeChar c)] at h
        cases hds : decodeFrom (i + (encodeChar c).length) q with
        | error f => rw [hds] at h; cases h
        | ok ds =>
            rw [hds] at h
            obtain rfl := Except.ok.inj h
            obtain ⟨hpre, rfl⟩ := ih hq hds
            exact ⟨List.cons_prefix_cons.mpr ⟨rfl, hpre⟩, (encode_cons c ds).symm⟩

theorem prefix_of_decode {cs cs' : List Char} {p : List UInt8} (hp : p <+: encode cs)
    (h : decode p = .ok cs') : cs' <+: cs ∧ p = encode cs' :=
  prefix_of_decodeFrom hp h

/-! ## What is in a text that is read -/

/-- What is read begins with a well-formed character, or is nothing. -/
theorem spells_of_decodeFrom {i : Nat} {a : UInt8} {bytes : List UInt8} {cs : List Char}
    (h : decodeFrom i (a :: bytes) = .ok cs) : ∃ c bs rest cs', Spells c bs ∧
      a :: bytes = bs ++ rest ∧ cs = c :: cs' ∧ decodeFrom (i + bs.length) rest = .ok cs' := by
  have hcons : ∀ {c : Char} {r : Except Fault (List Char)}, (c :: ·) <$> r = .ok cs →
      ∃ cs', cs = c :: cs' ∧ r = .ok cs' := by
    intro c r hr
    cases r with
    | error f => cases hr
    | ok cs' => exact ⟨cs', (Except.ok.inj hr).symm, rfl⟩
  rw [decodeFrom.eq_def] at h
  simp only at h
  split at h
  · next hw =>
    obtain ⟨cs', hcs, hrest⟩ := hcons h
    exact ⟨_, [a], bytes, cs', .one hw rfl, rfl, hcs, hrest⟩
  · next hw =>
    rcases bytes with - | ⟨b, rest⟩
    · cases h
    · simp only at h
      split at h
      · cases h
      · next hb =>
        obtain ⟨cs', hcs, hrest⟩ := hcons h
        exact ⟨_, [a, b], rest, cs', .two hw (by simpa using hb) rfl, rfl, hcs, hrest⟩
  · next hw =>
    rcases bytes with - | ⟨b, - | ⟨d, rest⟩⟩
    · cases h
    · simp only at h
      split at h <;> cases h
    · simp only at h
      split at h
      · cases h
      · next hb =>
        split at h
        · cases h
        · next hd =>
          obtain ⟨cs', hcs, hrest⟩ := hcons h
          exact ⟨_, [a, b, d], rest, cs', .three hw (by simpa using hb) (by simpa using hd) rfl,
            rfl, hcs, hrest⟩
  · next hw =>
    rcases bytes with - | ⟨b, - | ⟨d, - | ⟨e, rest⟩⟩⟩
    · cases h
    · simp only at h
      split at h <;> cases h
    · simp only at h
      split at h
      · cases h
      · split at h <;> cases h
    · simp only at h
      split at h
      · cases h
      · next hb =>
        split at h
        · cases h
        · next hd =>
          split at h
          · cases h
          · next he =>
            obtain ⟨cs', hcs, hrest⟩ := hcons h
            exact ⟨_, [a, b, d, e], rest, cs', .four hw (by simpa using hb) (by simpa using hd)
              (by simpa using he) rfl, rfl, hcs, hrest⟩
  · cases h

theorem isTail_of_fitsSecond {a b : UInt8} (h : fitsSecond a b = true) : isTail b = true := by
  simp only [fitsSecond, isTail, Bool.and_eq_true, decide_eq_true_eq, UInt8.le_iff_toNat_le] at h ⊢
  have hnum : UInt8.toNat 0x80 = 0x80 ∧ UInt8.toNat 0xBF = 0xBF ∧ UInt8.toNat 0xA0 = 0xA0 ∧
      UInt8.toNat 0x9F = 0x9F ∧ UInt8.toNat 0x90 = 0x90 ∧ UInt8.toNat 0x8F = 0x8F := by decide
  grind

theorem le_of_isTail {b : UInt8} (h : isTail b = true) : 0x80 ≤ b.toNat := by
  simp only [isTail, Bool.and_eq_true, decide_eq_true_eq, UInt8.le_iff_toNat_le] at h
  exact h.1

theorem le_of_width {a : UInt8} {n : Nat} (h : width a = n) (hn : 1 < n) : 0x80 ≤ a.toNat := by
  refine Nat.le_of_not_lt fun hlt => ?_
  rw [width, if_pos (UInt8.le_iff_toNat_le.mpr (Nat.le_of_lt_succ hlt))] at h
  omega

/-- Of the bytes of a character the ones below 128 stand for it. -/
theorem Spells.eq_of_lt {c : Char} {bs : List UInt8} (h : Spells c bs) {b : UInt8} (hb : b ∈ bs)
    (hlt : b.toNat < 0x80) : Char.ofNat b.toNat = c := by
  cases h with
  | one hw hc =>
      obtain rfl := List.mem_singleton.mp hb
      exact hc
  | two hw hsecond hc =>
      have hfirst := le_of_width hw (by decide)
      have hsecond' := le_of_isTail hsecond
      simp only [List.mem_cons, List.not_mem_nil, or_false] at hb
      rcases hb with rfl | rfl <;> omega
  | three hw hsecond hthird hc =>
      have hfirst := le_of_width hw (by decide)
      have hsecond' := le_of_isTail (isTail_of_fitsSecond hsecond)
      have hthird' := le_of_isTail hthird
      simp only [List.mem_cons, List.not_mem_nil, or_false] at hb
      rcases hb with rfl | rfl | rfl <;> omega
  | four hw hsecond hthird hfourth hc =>
      have hfirst := le_of_width hw (by decide)
      have hsecond' := le_of_isTail (isTail_of_fitsSecond hsecond)
      have hthird' := le_of_isTail hthird
      have hfourth' := le_of_isTail hfourth
      simp only [List.mem_cons, List.not_mem_nil, or_false] at hb
      rcases hb with rfl | rfl | rfl | rfl <;> omega

/-- A byte below 128 is read as the character it stands for, wherever it is. -/
theorem mem_of_decodeFrom {i : Nat} {bytes : List UInt8} {cs : List Char}
    (h : decodeFrom i bytes = .ok cs) {b : UInt8} (hb : b ∈ bytes) (hlt : b.toNat < 0x80) :
    Char.ofNat b.toNat ∈ cs := by
  induction cs generalizing i bytes with
  | nil =>
      cases bytes with
      | nil => cases hb
      | cons a bytes =>
          obtain ⟨c, bs, rest, cs', -, -, hcs, -⟩ := spells_of_decodeFrom h
          cases hcs
  | cons c cs ih =>
      cases bytes with
      | nil => cases hb
      | cons a bytes =>
          obtain ⟨c', bs, rest, cs', hspells, hbytes, hcs, hrest⟩ := spells_of_decodeFrom h
          obtain ⟨rfl, rfl⟩ := List.cons.inj hcs
          rw [hbytes] at hb
          rcases List.mem_append.mp hb with hb | hb
          · exact List.mem_cons.mpr (.inl (hspells.eq_of_lt hb hlt))
          · exact List.mem_cons_of_mem c (ih hrest hb)

/-! ## The encoding is the only one -/

theorem bounds_of_width (a : UInt8) :
    (width a = 1 → a.toNat < 0x80) ∧ (width a = 2 → 0xC2 ≤ a.toNat ∧ a.toNat ≤ 0xDF) ∧
      (width a = 3 → 0xE0 ≤ a.toNat ∧ a.toNat ≤ 0xEF) ∧
      (width a = 4 → 0xF0 ≤ a.toNat ∧ a.toNat ≤ 0xF4) := by
  have hnum : UInt8.toNat 0x7F = 0x7F ∧ UInt8.toNat 0xC2 = 0xC2 ∧ UInt8.toNat 0xDF = 0xDF ∧
      UInt8.toNat 0xE0 = 0xE0 ∧ UInt8.toNat 0xEF = 0xEF ∧ UInt8.toNat 0xF0 = 0xF0 ∧
      UInt8.toNat 0xF4 = 0xF4 := by decide
  simp only [width, Bool.and_eq_true, decide_eq_true_eq, UInt8.le_iff_toNat_le, hnum]
  grind

theorem bounds_of_isTail {b : UInt8} (h : isTail b = true) : 0x80 ≤ b.toNat ∧ b.toNat ≤ 0xBF := by
  simp only [isTail, Bool.and_eq_true, decide_eq_true_eq, UInt8.le_iff_toNat_le] at h
  exact h

theorem bounds_of_fitsSecond {a b : UInt8} (h : fitsSecond a b = true) :
    (a.toNat = 0xE0 → 0xA0 ≤ b.toNat) ∧ (a.toNat = 0xED → b.toNat ≤ 0x9F) ∧
      (a.toNat = 0xF0 → 0x90 ≤ b.toNat) ∧ (a.toNat = 0xF4 → b.toNat ≤ 0x8F) := by
  have hnum : UInt8.toNat 0x80 = 0x80 ∧ UInt8.toNat 0xBF = 0xBF ∧ UInt8.toNat 0xA0 = 0xA0 ∧
      UInt8.toNat 0x9F = 0x9F ∧ UInt8.toNat 0x90 = 0x90 ∧ UInt8.toNat 0x8F = 0x8F ∧
      UInt8.toNat 0xE0 = 0xE0 ∧ UInt8.toNat 0xED = 0xED ∧ UInt8.toNat 0xF0 = 0xF0 ∧
      UInt8.toNat 0xF4 = 0xF4 := by decide
  simp only [fitsSecond, isTail, UInt8.le_iff_toNat_le, beq_iff_eq, ← UInt8.toNat_inj] at h
  grind

theorem toNat_of_ofNat {n : Nat} {c : Char} (h : Char.ofNat n = c)
    (hn : n < 0xD800 ∨ 0xDFFF < n ∧ n < 0x110000) : c.toNat = n := by
  rw [← h, Char.ofNat, dif_pos hn]
  rfl

theorem toUInt8_eq {n : Nat} {a : UInt8} (h : n = a.toNat) : n.toUInt8 = a := by
  rw [h]
  exact UInt8.ofNat_toNat

/-- A character is written in one way only. -/
theorem Spells.eq_encodeChar {c : Char} {bs : List UInt8} (h : Spells c bs) :
    bs = encodeChar c := by
  cases h with
  | @one a hw hc =>
      have ha := (bounds_of_width a).1 hw
      have hn := toNat_of_ofNat hc (by omega)
      unfold encodeChar
      simp only
      rw [if_pos (by omega), toUInt8_eq hn]
  | @two a b hw hb hc =>
      have ha := (bounds_of_width a).2.1 hw
      have hb := bounds_of_isTail hb
      unfold tailBits at hc
      have hn := toNat_of_ofNat hc (by omega)
      unfold encodeChar
      simp only
      rw [if_neg (by omega), if_pos (by omega), toUInt8_eq (a := a) (by omega),
        toUInt8_eq (a := b) (by omega)]
  | @three a b d hw hb hd hc =>
      have ha := (bounds_of_width a).2.2.1 hw
      have hb' := bounds_of_isTail (isTail_of_fitsSecond hb)
      have hb := bounds_of_fitsSecond hb
      have hd := bounds_of_isTail hd
      unfold tailBits at hc
      have hn := toNat_of_ofNat hc (by omega)
      unfold encodeChar
      simp only
      rw [if_neg (by omega), if_neg (by omega), if_pos (by omega), toUInt8_eq (a := a) (by omega),
        toUInt8_eq (a := b) (by omega), toUInt8_eq (a := d) (by omega)]
  | @four a b d e hw hb hd he hc =>
      have ha := (bounds_of_width a).2.2.2 hw
      have hb' := bounds_of_isTail (isTail_of_fitsSecond hb)
      have hb := bounds_of_fitsSecond hb
      have hd := bounds_of_isTail hd
      have he := bounds_of_isTail he
      unfold tailBits at hc
      have hn := toNat_of_ofNat hc (by omega)
      unfold encodeChar
      simp only
      rw [if_neg (by omega), if_neg (by omega), if_neg (by omega), toUInt8_eq (a := a) (by omega),
        toUInt8_eq (a := b) (by omega), toUInt8_eq (a := d) (by omega),
        toUInt8_eq (a := e) (by omega)]

theorem eq_encode_of_decodeFrom {i : Nat} {bytes : List UInt8} {cs : List Char}
    (h : decodeFrom i bytes = .ok cs) : bytes = encode cs := by
  induction cs generalizing i bytes with
  | nil =>
      cases bytes with
      | nil => rfl
      | cons a bytes =>
          obtain ⟨c, bs, rest, cs', -, -, hcs, -⟩ := spells_of_decodeFrom h
          cases hcs
  | cons c cs ih =>
      cases bytes with
      | nil => cases h
      | cons a bytes =>
          obtain ⟨c', bs, rest, cs', hspells, hbytes, hcs, hrest⟩ := spells_of_decodeFrom h
          obtain ⟨rfl, rfl⟩ := List.cons.inj hcs
          rw [hbytes, hspells.eq_encodeChar, ih hrest, encode_cons]

theorem decode_eq_ok_iff {bytes : List UInt8} {cs : List Char} :
    decode bytes = .ok cs ↔ bytes = encode cs :=
  ⟨eq_encode_of_decodeFrom, fun h => h ▸ decode_encode cs⟩

/-- The encoding is that of the library. -/
theorem encodeChar_eq (c : Char) : encodeChar c = String.utf8EncodeChar c := by
  have hvalid := toNat_valid c
  unfold encodeChar String.utf8EncodeChar
  show _ = (if c.toNat ≤ 127 then [UInt8.ofNat c.toNat] else
    if c.toNat ≤ 2047 then [UInt8.ofNat (c.toNat / 64 % 32 + 192), UInt8.ofNat (c.toNat % 64 + 128)]
    else if c.toNat ≤ 65535 then [UInt8.ofNat (c.toNat / 4096 % 16 + 224),
      UInt8.ofNat (c.toNat / 64 % 64 + 128), UInt8.ofNat (c.toNat % 64 + 128)]
    else [UInt8.ofNat (c.toNat / 262144 % 8 + 240), UInt8.ofNat (c.toNat / 4096 % 64 + 128),
      UInt8.ofNat (c.toNat / 64 % 64 + 128), UInt8.ofNat (c.toNat % 64 + 128)])
  simp only [Nat.toUInt8, Nat.add_comm 0xC0, Nat.add_comm 0xE0, Nat.add_comm 0xF0,
    Nat.add_comm 0x80, ← Nat.lt_succ_iff]
  grind

end Utf8

end JobHealth.Text
