import Mathlib.Algebra.Order.Field.Rat
import Mathlib.Tactic.FieldSimp
import Mathlib.Tactic.Linarith
import Mathlib.Tactic.Positivity
import JobHealth.Number.Rounding
/-!
# `JobHealth.Proofs.Number.Rounding` — rounding a quotient depends on its value alone

`roundDiv` is given a numerator and a denominator, but only the fraction counts:
equal fractions round to the same number.  So it is a function of rationals,
`nearest`, and what is known of it can be said there: it is monotone, is off by
at most one half, and leaves whole numbers as they are.
-/

namespace JobHealth.Number

theorem roundDiv_cases (n d : Nat) :
    (roundDiv n d = n / d ∧ 2 * (n % d) ≤ d) ∨ (roundDiv n d = n / d + 1 ∧ d ≤ 2 * (n % d)) := by
  unfold roundDiv
  dsimp only
  split
  · exact .inl ⟨rfl, by omega⟩
  · split
    · exact .inr ⟨rfl, by omega⟩
    · split
      · exact .inl ⟨rfl, by omega⟩
      · exact .inr ⟨rfl, by omega⟩

/-- The multiple of the denominator that is rounded to is not further away than half of it. -/
theorem roundDiv_near (n : Nat) {d : Nat} (hd : 0 < d) :
    2 * (roundDiv n d * d) ≤ 2 * n + d ∧ 2 * n ≤ 2 * (roundDiv n d * d) + d := by
  have hn := Nat.div_add_mod' n d
  have hmod := Nat.mod_lt n hd
  rcases roundDiv_cases n d with ⟨hround, hrest⟩ | ⟨hround, hrest⟩
  · rw [hround]
    omega
  · rw [hround, Nat.succ_mul (n / d) d]
    omega

theorem roundDiv_mono {n m : Nat} (h : n ≤ m) (d : Nat) : roundDiv n d ≤ roundDiv m d := by
  have hdiv := Nat.div_le_div_right (c := d) h
  rcases Nat.lt_or_eq_of_le hdiv with hlt | heq
  · exact (div_le_roundDiv n d).2.trans (hlt.trans_le (div_le_roundDiv m d).1)
  · -- With the same quotient, the remainders are in the same order.
    have hmod : n % d ≤ m % d := by
      have hn := Nat.div_add_mod n d
      have hm := Nat.div_add_mod m d
      rw [heq] at hn
      omega
    unfold roundDiv
    rw [heq]
    dsimp only
    split_ifs <;> omega

/-- A fraction that is not in lowest terms rounds as it does in lowest terms. -/
theorem roundDiv_mul_right (n d : Nat) {k : Nat} (hk : 0 < k) :
    roundDiv (n * k) (d * k) = roundDiv n d := by
  have hlt : 2 * (n % d * k) < d * k ↔ 2 * (n % d) < d := by
    rw [← Nat.mul_assoc]
    exact Nat.mul_lt_mul_right hk
  have hgt : d * k < 2 * (n % d * k) ↔ d < 2 * (n % d) := by
    rw [← Nat.mul_assoc]
    exact Nat.mul_lt_mul_right hk
  unfold roundDiv
  simp only [Nat.mul_div_mul_right n d hk, Nat.mul_mod_mul_right, hlt, hgt]

/-! ## Over the rationals -/

/-- The whole number nearest to a magnitude, the even one if two are equally near. -/
def nearest (q : Rat) : Nat := roundDiv q.num.natAbs q.den

theorem natAbs_num_div_den {q : Rat} (hq : 0 ≤ q) : (q.num.natAbs : Rat) / q.den = q := by
  rw [Nat.cast_natAbs, abs_of_nonneg (Rat.num_nonneg.mpr hq), Rat.num_div_den]

theorem roundDiv_eq_nearest (n : Nat) {d : Nat} (hd : 0 < d) :
    roundDiv n d = nearest ((n : Rat) / d) := by
  have hvalue := natAbs_num_div_den (q := (n : Rat) / d) (by positivity)
  have hden := Rat.den_pos ((n : Rat) / d)
  have hcross : ((n : Rat) / d).num.natAbs * d = n * ((n : Rat) / d).den := by
    have hden' : (((n : Rat) / d).den : Rat) ≠ 0 := Nat.cast_ne_zero.mpr hden.ne'
    have hd' : (d : Rat) ≠ 0 := Nat.cast_ne_zero.mpr hd.ne'
    exact_mod_cast (div_eq_div_iff hden' hd').mp hvalue
  rw [nearest, ← roundDiv_mul_right n d hden, ← hcross, Nat.mul_comm d, roundDiv_mul_right _ _ hd]

theorem nearest_natCast (n : Nat) : nearest n = n := by
  rw [nearest, Rat.num_natCast, Rat.den_natCast, Int.natAbs_natCast]
  simpa using roundDiv_mul_self n Nat.one_pos

theorem nearest_mono {p q : Rat} (hp : 0 ≤ p) (h : p ≤ q) : nearest p ≤ nearest q := by
  have hcross : p.num.natAbs * q.den ≤ q.num.natAbs * p.den := by
    have hp' := natAbs_num_div_den hp
    have hq' := natAbs_num_div_den (hp.trans h)
    rw [← hp', ← hq',
      div_le_div_iff₀ (Nat.cast_pos.mpr p.den_pos) (Nat.cast_pos.mpr q.den_pos)] at h
    exact_mod_cast h
  rw [nearest, nearest, ← roundDiv_mul_right _ p.den q.den_pos,
    ← roundDiv_mul_right _ q.den p.den_pos, Nat.mul_comm q.den]
  exact roundDiv_mono hcross _

/-- Rounding is off by one half at most. -/
theorem abs_nearest_sub_le {q : Rat} (hq : 0 ≤ q) : |(nearest q : Rat) - q| ≤ 1 / 2 := by
  have hden : (0 : Rat) < q.den := Nat.cast_pos.mpr q.den_pos
  have hvalue : (q.num.natAbs : Rat) = q * q.den := by
    rw [← div_eq_iff hden.ne', natAbs_num_div_den hq]
  obtain ⟨hle, hge⟩ := roundDiv_near q.num.natAbs q.den_pos
  have hle' : 2 * ((nearest q : Rat) * q.den) ≤ 2 * (q * q.den) + q.den := by
    rw [← hvalue]
    exact_mod_cast hle
  have hge' : 2 * (q * q.den) ≤ 2 * ((nearest q : Rat) * q.den) + q.den := by
    rw [← hvalue]
    exact_mod_cast hge
  rw [abs_le]
  constructor
  · refine le_of_mul_le_mul_right ?_ hden
    linarith
  · refine le_of_mul_le_mul_right ?_ hden
    linarith

end JobHealth.Number
