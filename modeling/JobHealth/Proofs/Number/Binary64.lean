import Mathlib.Algebra.Order.Field.Power
import Mathlib.Data.Int.Log
import Mathlib.Data.Rat.Floor
import Mathlib.Tactic.NormNum
import JobHealth.Number.Binary64
import JobHealth.Proofs.Number.Rounding
/-!
# `JobHealth.Proofs.Number.Binary64` — how far rounding moves a number

A positive number stands between two powers of two, and is rounded in units of
the lower one's last bit: `magnitude` is the number that comes of it.  Rounding
is monotone, over the borders between powers of two as well, and moves a number
by half a unit at most.  A number that is not too large is rounded to a finite
one, and whole numbers up to `2 ^ 53` are not moved at all.
-/

namespace JobHealth.Number.Binary64

theorem natPow_cast (n : Nat) : ((Nat.pow 2 n : Nat) : Rat) = 2 ^ n := Nat.cast_pow 2 n

theorem pow2_eq (e : Int) : pow2 e = (2 : Rat) ^ e := by
  cases e with
  | ofNat n => exact natPow_cast n
  | negSucc n =>
      show mkRat 1 (Nat.pow 2 (n + 1)) = _
      rw [Rat.mkRat_eq_div, natPow_cast, zpow_negSucc, Int.cast_one, one_div]

/-! ## Powers of two around a number -/

theorem two_zpow_log2_le {n : Nat} (hn : 0 < n) : (2 : Rat) ^ (n.log2 : Int) ≤ n := by
  rw [zpow_natCast]
  exact_mod_cast Nat.log2_self_le hn.ne'

theorem lt_two_zpow_log2_succ (n : Nat) : (n : Rat) < 2 ^ ((n.log2 : Int) + 1) := by
  have h : n < 2 ^ (n.log2 + 1) := Nat.lt_log2_self
  exact_mod_cast h

/-- The difference of the lengths is the exponent, or one too many. -/
theorem two_zpow_lengths {n d : Nat} (hn : 0 < n) (hd : 0 < d) :
    (2 : Rat) ^ ((n.log2 : Int) - d.log2 - 1) ≤ (n : Rat) / d ∧
      (n : Rat) / d < 2 ^ ((n.log2 : Int) - d.log2 + 1) := by
  have hd' : (0 : Rat) < d := Nat.cast_pos.mpr hd
  have htwo : (2 : Rat) ≠ 0 := two_ne_zero
  constructor
  · rw [le_div_iff₀ hd']
    calc (2 : Rat) ^ ((n.log2 : Int) - d.log2 - 1) * d
        ≤ 2 ^ ((n.log2 : Int) - d.log2 - 1) * 2 ^ ((d.log2 : Int) + 1) := by
          gcongr
          exact (lt_two_zpow_log2_succ d).le
      _ = 2 ^ (n.log2 : Int) := by
          rw [← zpow_add₀ htwo]
          congr 1
          ring
      _ ≤ n := two_zpow_log2_le hn
  · rw [div_lt_iff₀ hd']
    calc (n : Rat) < 2 ^ ((n.log2 : Int) + 1) := lt_two_zpow_log2_succ n
      _ = 2 ^ ((n.log2 : Int) - d.log2 + 1) * 2 ^ (d.log2 : Int) := by
          rw [← zpow_add₀ htwo]
          congr 1
          ring
      _ ≤ 2 ^ ((n.log2 : Int) - d.log2 + 1) * d := by
          gcongr
          exact two_zpow_log2_le hd

/-- Comparing across says whether it was one too many. -/
theorem below_iff (n : Nat) {d : Nat} (hd : 0 < d) (k : Int) :
    (match k with
      | .ofNat j => decide (n < d * Nat.pow 2 j)
      | .negSucc j => decide (n * Nat.pow 2 (j + 1) < d)) = true ↔ (n : Rat) / d < 2 ^ k := by
  have hd' : (0 : Rat) < d := Nat.cast_pos.mpr hd
  cases k with
  | ofNat j =>
      rw [decide_eq_true_iff, Int.ofNat_eq_natCast, zpow_natCast, div_lt_iff₀' hd', ← natPow_cast]
      exact_mod_cast Iff.rfl
  | negSucc j =>
      rw [decide_eq_true_iff, zpow_negSucc, div_lt_iff₀' hd', ← div_eq_mul_inv,
        lt_div_iff₀ (by positivity), ← natPow_cast]
      exact_mod_cast Iff.rfl

theorem floorLog2_eq {n d : Nat} (hn : 0 < n) (hd : 0 < d) :
    floorLog2 n d = Int.log 2 ((n : Rat) / d) := by
  have hpos : (0 : Rat) < (n : Rat) / d := div_pos (Nat.cast_pos.mpr hn) (Nat.cast_pos.mpr hd)
  obtain ⟨hge, hlt⟩ := two_zpow_lengths hn hd
  have hge' := (Int.zpow_le_iff_le_log one_lt_two hpos).mp hge
  have hlt' := (Int.lt_zpow_iff_log_lt one_lt_two hpos).mp hlt
  have hbelow := (below_iff n hd ((n.log2 : Int) - d.log2)).trans
    (Int.lt_zpow_iff_log_lt one_lt_two hpos)
  unfold floorLog2
  extract_lets k below
  split
  · next h =>
    have := hbelow.mp h
    omega
  · next h =>
    have := hbelow.not.mp h
    omega

theorem unitsOf_eq (n : Nat) {d : Nat} (hd : 0 < d) (e : Int) :
    unitsOf n d e = nearest ((n : Rat) / d / 2 ^ e) := by
  cases e with
  | ofNat j =>
      show roundDiv n (d * Nat.pow 2 j) = _
      have hpos : 0 < d * Nat.pow 2 j := Nat.mul_pos hd (Nat.two_pow_pos j)
      rw [roundDiv_eq_nearest n hpos, Nat.cast_mul, natPow_cast, Int.ofNat_eq_natCast,
        zpow_natCast, div_div]
  | negSucc j =>
      show roundDiv (n * Nat.pow 2 (j + 1)) d = _
      rw [roundDiv_eq_nearest _ hd, Nat.cast_mul, natPow_cast, zpow_negSucc, div_inv_eq_mul,
        mul_div_right_comm]

/-! ## Rounding a magnitude -/

/-- The exponent of the last bit of the numbers around a positive one. -/
def unitExponent (q : Rat) : Int := max (Int.log 2 q - 52) (-1074)

/-- What a positive number is rounded to, if that is not too large. -/
def magnitude (q : Rat) : Rat := nearest (q / 2 ^ unitExponent q) * 2 ^ unitExponent q

theorem roundMagnitude_eq {q : Rat} (hq : 0 < q) :
    roundMagnitude q.num.natAbs q.den = magnitude q := by
  have hnum : 0 < q.num.natAbs := Int.natAbs_pos.mpr (Rat.num_pos.mpr hq).ne'
  have he : lastBit q.num.natAbs q.den = unitExponent q := by
    rw [lastBit, floorLog2_eq hnum q.den_pos, natAbs_num_div_den hq.le, unitExponent]
  rw [roundMagnitude, he, unitsOf_eq _ q.den_pos, natAbs_num_div_den hq.le, pow2_eq, magnitude]

theorem magnitude_zero : magnitude 0 = 0 := by
  have hzero : nearest 0 = 0 := nearest_natCast 0
  rw [magnitude, zero_div, hzero, Nat.cast_zero, zero_mul]

theorem magnitude_nonneg (q : Rat) : 0 ≤ magnitude q := by
  exact mul_nonneg (Nat.cast_nonneg _) (zpow_nonneg zero_le_two _)

/-! ## Order -/

theorem nearest_le_of_le_natCast {q : Rat} (hq : 0 ≤ q) {n : Nat} (h : q ≤ n) : nearest q ≤ n :=
  (nearest_mono hq h).trans_eq (nearest_natCast n)

theorem le_nearest_of_natCast_le {q : Rat} {n : Nat} (h : n ≤ q) : n ≤ nearest q :=
  (nearest_natCast n).symm.trans_le (nearest_mono (Nat.cast_nonneg n) h)

/-- A number has less than `2 ^ 53` of its units. -/
theorem div_unit_lt (q : Rat) : q / 2 ^ unitExponent q < 2 ^ 53 := by
  have hexp : Int.log 2 q + 1 ≤ 53 + unitExponent q := by
    rw [unitExponent]
    omega
  have hunit : (0 : Rat) < 2 ^ unitExponent q := by positivity
  rw [div_lt_iff₀ hunit, ← zpow_natCast, ← zpow_add₀ two_ne_zero]
  exact (Int.lt_zpow_succ_log_self one_lt_two q).trans_le (zpow_le_zpow_right₀ one_le_two hexp)

section
variable {q : Rat} (hq : 0 < q)
include hq

/-- A number has at least `2 ^ 52` of its units, unless these are the least there are. -/
theorem le_div_unit (h : -1074 < unitExponent q) : 2 ^ 52 ≤ q / 2 ^ unitExponent q := by
  have hexp : 52 + unitExponent q ≤ Int.log 2 q := by
    rw [unitExponent] at h ⊢
    omega
  have hunit : (0 : Rat) < 2 ^ unitExponent q := by positivity
  rw [le_div_iff₀ hunit, ← zpow_natCast, ← zpow_add₀ two_ne_zero]
  exact (zpow_le_zpow_right₀ one_le_two hexp).trans (Int.zpow_log_le_self one_lt_two hq)

theorem magnitude_le_zpow : magnitude q ≤ 2 ^ (53 + unitExponent q) := by
  have hunits : nearest (q / 2 ^ unitExponent q) ≤ 2 ^ 53 := by
    refine nearest_le_of_le_natCast (by positivity) ?_
    rw [Nat.cast_pow, Nat.cast_two]
    exact (div_unit_lt q).le
  rw [magnitude, zpow_add₀ two_ne_zero]
  refine mul_le_mul_of_nonneg_right ?_ (by positivity)
  exact_mod_cast hunits

theorem zpow_le_magnitude (h : -1074 < unitExponent q) :
    2 ^ (52 + unitExponent q) ≤ magnitude q := by
  have hunits : 2 ^ 52 ≤ nearest (q / 2 ^ unitExponent q) := by
    refine le_nearest_of_natCast_le ?_
    rw [Nat.cast_pow, Nat.cast_two]
    exact le_div_unit hq h
  rw [magnitude, zpow_add₀ two_ne_zero]
  refine mul_le_mul_of_nonneg_right ?_ (by positivity)
  exact_mod_cast hunits

end

theorem magnitude_mono {p q : Rat} (hp : 0 ≤ p) (h : p ≤ q) : magnitude p ≤ magnitude q := by
  rcases hp.eq_or_lt with rfl | hp
  · rw [magnitude_zero]
    exact magnitude_nonneg q
  have hq : 0 < q := hp.trans_le h
  have hexp : unitExponent p ≤ unitExponent q :=
    max_le_max_right _ (Int.sub_le_sub_right (Int.log_mono_right hp h) 52)
  rcases hexp.eq_or_lt with heq | hlt
  · -- In the same units, it is the rounding to whole numbers that is monotone.
    rw [magnitude, magnitude, heq]
    refine mul_le_mul_of_nonneg_right ?_ (by positivity)
    exact_mod_cast nearest_mono (by positivity) (div_le_div_of_nonneg_right h (by positivity))
  · -- Otherwise a power of two stands between the two.
    calc magnitude p ≤ 2 ^ (53 + unitExponent p) := magnitude_le_zpow hp
      _ ≤ 2 ^ (52 + unitExponent q) := zpow_le_zpow_right₀ one_le_two (by omega)
      _ ≤ magnitude q := zpow_le_magnitude hq ((le_max_right _ _).trans_lt hlt)

/-! ## Distance -/

theorem abs_magnitude_sub_le {q : Rat} (hq : 0 ≤ q) :
    |magnitude q - q| ≤ 1 / 2 * 2 ^ unitExponent q := by
  have hunit : (0 : Rat) < 2 ^ unitExponent q := by positivity
  have hsub : magnitude q - q =
      (nearest (q / 2 ^ unitExponent q) - q / 2 ^ unitExponent q) * 2 ^ unitExponent q := by
    rw [sub_mul, div_mul_cancel₀ _ hunit.ne', magnitude]
  rw [hsub, abs_mul, abs_of_pos hunit]
  exact mul_le_mul_of_nonneg_right (abs_nearest_sub_le (by positivity)) hunit.le

theorem unit_le {q : Rat} (hq : 0 < q) : (2 : Rat) ^ unitExponent q ≤ (q + 1) / 2 ^ 52 := by
  have hlog : (2 : Rat) ^ (Int.log 2 q - 52) ≤ q / 2 ^ 52 := by
    rw [zpow_sub₀ two_ne_zero, ← zpow_natCast (2 : Rat) 52]
    exact div_le_div_of_nonneg_right (Int.zpow_log_le_self one_lt_two hq) (by positivity)
  have hleast : (2 : Rat) ^ (-1074 : Int) ≤ 1 / 2 ^ 52 := by
    rw [one_div, ← zpow_natCast, ← zpow_neg]
    exact zpow_le_zpow_right₀ one_le_two (by decide)
  rw [add_div]
  rcases max_choice (Int.log 2 q - 52) (-1074) with hmax | hmax
  · rw [unitExponent, hmax]
    exact hlog.trans (le_add_of_nonneg_right (by positivity))
  · rw [unitExponent, hmax]
    exact hleast.trans (le_add_of_nonneg_left (by positivity))

/-- Rounding moves a number by one part in `2 ^ 53` at most, or by less than the least unit. -/
theorem magnitude_near {q : Rat} (hq : 0 ≤ q) : |magnitude q - q| ≤ (q + 1) / 2 ^ 53 := by
  rcases hq.eq_or_lt with rfl | hq
  · rw [magnitude_zero, sub_zero, abs_zero]
    positivity
  · have hunit := unit_le hq
    calc |magnitude q - q| ≤ 1 / 2 * 2 ^ unitExponent q := abs_magnitude_sub_le hq.le
      _ ≤ 1 / 2 * ((q + 1) / 2 ^ 52) := by gcongr
      _ = (q + 1) / 2 ^ 53 := by ring

theorem magnitude_le {q : Rat} (hq : 0 ≤ q) : magnitude q ≤ q + (q + 1) / 2 ^ 53 := by
  linarith [(abs_le.mp (magnitude_near hq)).2]

/-- A whole number is rounded to at least one half, and to twice itself at most. -/
theorem magnitude_natCast_bounds {n : Nat} (hn : 0 < n) :
    1 / 2 ≤ magnitude n ∧ magnitude n ≤ 2 * n := by
  have hone : (1 : Rat) ≤ n := by exact_mod_cast hn
  obtain ⟨hge, hle⟩ := abs_le.mp (magnitude_near (Nat.cast_nonneg (α := Rat) n))
  constructor
  · linarith
  · linarith

/-! ## Operations with a finite result -/

theorem magnitude_lt_tooLarge {q : Rat} (hq : 0 ≤ q) (hle : q ≤ 2 ^ 200) :
    magnitude q < tooLarge := by
  have hnear := magnitude_le hq
  have hpow : (2 : Rat) ^ 202 ≤ tooLarge := by decide +kernel
  linarith

/-- A magnitude that is far from too large is rounded to a finite number. -/
theorem round_eq {q : Rat} (hq : 0 ≤ q) (hle : q ≤ 2 ^ 200) :
    round q = .finite (magnitude q) := by
  rcases hq.eq_or_lt with rfl | hq
  · rw [magnitude_zero]
    rfl
  have hnum : q.num ≠ 0 := (Rat.num_pos.mpr hq).ne'
  have hsign : ¬ q.num < 0 := (Rat.num_pos.mpr hq).not_gt
  have hsmall : ¬ tooLarge ≤ magnitude q := (magnitude_lt_tooLarge hq.le hle).not_ge
  rw [round, if_neg hnum, roundMagnitude_eq hq]
  simp only [if_neg hsmall, if_neg hsign]

/-- A number below zero is rounded like its magnitude. -/
theorem round_of_neg {q : Rat} (hq : q < 0) (hle : -q ≤ 2 ^ 200) :
    round q = .finite (-magnitude (-q)) := by
  have hpos : 0 < -q := neg_pos.mpr hq
  have hnum : q.num < 0 := Rat.num_neg.mpr hq
  have hmagnitude := roundMagnitude_eq hpos
  rw [Rat.neg_num, Int.natAbs_neg, Rat.neg_den] at hmagnitude
  have hsmall : ¬ tooLarge ≤ magnitude (-q) := (magnitude_lt_tooLarge hpos.le hle).not_ge
  rw [round, if_neg hnum.ne, hmagnitude]
  simp only [if_neg hsmall, if_pos hnum]

theorem ofNat_eq {n : Nat} (hn : n < 2 ^ 64) : ofNat n = .finite (magnitude n) := by
  have hn' : (n : Rat) < 2 ^ 64 := by exact_mod_cast hn
  refine round_eq (Nat.cast_nonneg n) (hn'.le.trans ?_)
  exact pow_le_pow_right₀ one_le_two (by decide)

section
variable {x y : Rat}

theorem sub_eq (h : y ≤ x) (hle : x - y ≤ 2 ^ 200) :
    (finite x).sub (finite y) = .finite (magnitude (x - y)) := round_eq (sub_nonneg.mpr h) hle

theorem mul_eq (hx : 0 ≤ x) (hy : 0 ≤ y) (hle : x * y ≤ 2 ^ 200) :
    (finite x).mul (finite y) = .finite (magnitude (x * y)) := round_eq (mul_nonneg hx hy) hle

theorem div_eq (hx : 0 ≤ x) (hy : 0 < y) (hle : x / y ≤ 2 ^ 200) :
    (finite x).div (finite y) = .finite (magnitude (x / y)) := by
  have hnum : y.num ≠ 0 := (Rat.num_pos.mpr hy).ne'
  unfold div
  simp only [if_neg hnum]
  exact round_eq (div_nonneg hx hy.le) hle

end

/-! ## Operations of any sign -/

/-- A finite number of a bounded magnitude. -/
def Within (bound : Rat) (x : Binary64) : Prop := ∃ q, x = .finite q ∧ |q| ≤ bound

theorem within_round {q bound : Rat} (hq : |q| ≤ bound) (hbound : bound ≤ 2 ^ 200) :
    (round q).Within (2 * bound + 1) := by
  rcases lt_or_ge q 0 with hneg | hpos
  · rw [abs_of_neg hneg] at hq
    refine ⟨_, round_of_neg hneg (hq.trans hbound), ?_⟩
    rw [abs_neg, abs_of_nonneg (magnitude_nonneg _)]
    linarith [magnitude_le (neg_nonneg.mpr hneg.le)]
  · rw [abs_of_nonneg hpos] at hq
    refine ⟨_, round_eq hpos (hq.trans hbound), ?_⟩
    rw [abs_of_nonneg (magnitude_nonneg _)]
    linarith [magnitude_le hpos]

section
variable {x y : Binary64} {a b : Rat}

theorem Within.sub (hx : x.Within a) (hy : y.Within b) (hle : a + b ≤ 2 ^ 200) :
    (x.sub y).Within (2 * (a + b) + 1) := by
  obtain ⟨p, rfl, hp⟩ := hx
  obtain ⟨q, rfl, hq⟩ := hy
  exact within_round ((abs_sub p q).trans (add_le_add hp hq)) hle

theorem Within.mul (hx : x.Within a) (hy : y.Within b) (hle : a * b ≤ 2 ^ 200) :
    (x.mul y).Within (2 * (a * b) + 1) := by
  obtain ⟨p, rfl, hp⟩ := hx
  obtain ⟨q, rfl, hq⟩ := hy
  refine within_round ?_ hle
  rw [abs_mul]
  exact mul_le_mul hp hq (abs_nonneg q) ((abs_nonneg p).trans hp)

/-- A quotient is finite if what it is divided by is far from zero. -/
theorem Within.div {q : Rat} (hx : x.Within a) (hb : 0 < b) (hq : b ≤ q) (hle : a / b ≤ 2 ^ 200) :
    (x.div (.finite q)).Within (2 * (a / b) + 1) := by
  obtain ⟨p, rfl, hp⟩ := hx
  have hpos : 0 < q := hb.trans_le hq
  have hnum : q.num ≠ 0 := (Rat.num_pos.mpr hpos).ne'
  unfold Binary64.div
  simp only [if_neg hnum]
  refine within_round ?_ hle
  rw [abs_div, abs_of_pos hpos]
  exact div_le_div₀ ((abs_nonneg p).trans hp) hp hb hq

end

theorem within_ofNat {n : Nat} (hn : n < 2 ^ 64) : (ofNat n).Within (2 ^ 66) := by
  have hn' : (n : Rat) < 2 ^ 64 := by exact_mod_cast hn
  refine ⟨_, ofNat_eq hn, ?_⟩
  rw [abs_of_nonneg (magnitude_nonneg _)]
  linarith [magnitude_le (Nat.cast_nonneg (α := Rat) n)]

end JobHealth.Number.Binary64
