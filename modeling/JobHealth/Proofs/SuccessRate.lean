import JobHealth.Report
import JobHealth.Proofs.Number.Binary64
/-!
# `JobHealth.Proofs.SuccessRate` — a rate of some among all is a rate

The two numbers of a rate are rounded, then their difference, its hundredfold and
the quotient.  Each rounding moves what it rounds by a part in `2 ^ 53` at most,
and none turns an order around.  So if no more are taken away than there are,
what is printed stands between 0.00 and 100.00.
-/

namespace JobHealth

open JobHealth.Number

/-- With places behind the point, a magnitude is written as the nearest number of its last unit. -/
theorem fixed_eq {q : Rat} (hq : 0 ≤ q) (places : Nat) :
    fixed places (.finite q) = String.ofList (pointed places (nearest (q * 10 ^ places))) := by
  have hsign : ¬ q.num < 0 := (Rat.num_nonneg.mpr hq).not_gt
  have hunits : roundDiv (q.num.natAbs * Nat.pow 10 places) q.den = nearest (q * 10 ^ places) := by
    have hpow : ((Nat.pow 10 places : Nat) : Rat) = 10 ^ places := Nat.cast_pow 10 places
    rw [roundDiv_eq_nearest _ q.den_pos, Nat.cast_mul, hpow, mul_div_right_comm,
      natAbs_num_div_den hq]
  unfold fixed
  simp only [if_neg hsign, hunits]

theorem ofNat_hundred : Binary64.ofNat 100 = .finite 100 := by decide +kernel

section
open Binary64

/-- The rate of what is left when some of the examined are taken away. -/
theorem successRate_of_le {examined failed : Nat} (hpos : 0 < examined) (hle : failed ≤ examined)
    (hword : examined < 2 ^ 64) :
    ∃ rate, successRate examined failed = .finite rate ∧ 0 ≤ rate ∧ rate ≤ 100 + 1 / 500 := by
  have hword' : (examined : Rat) < 2 ^ 64 := by exact_mod_cast hword
  obtain ⟨hall, hall_le⟩ := magnitude_natCast_bounds hpos
  have haway := magnitude_nonneg (failed : Rat)
  have hle' : magnitude (failed : Rat) ≤ magnitude (examined : Rat) :=
    magnitude_mono (Nat.cast_nonneg failed) (by exact_mod_cast hle)
  rw [successRate, Binary64.ofNat_eq hword, Binary64.ofNat_eq (hle.trans_lt hword), ofNat_hundred]
  generalize magnitude (examined : Rat) = all at hall hall_le hle' ⊢
  generalize magnitude (failed : Rat) = away at haway hle' ⊢
  have hleft_le := magnitude_le (sub_nonneg.mpr hle')
  have hleft := magnitude_nonneg (all - away)
  rw [sub_eq hle' (by linarith)]
  generalize magnitude (all - away) = left at hleft_le hleft ⊢
  have htimes_le := magnitude_le (mul_nonneg hleft (by norm_num : (0 : Rat) ≤ 100))
  have htimes := magnitude_nonneg (left * 100)
  rw [mul_eq hleft (by norm_num) (by linarith)]
  generalize magnitude (left * 100) = times at htimes_le htimes ⊢
  have hquot_le : times / all ≤ 100 + 1 / 1000 := by
    rw [div_le_iff₀ (by linarith)]
    linarith
  have hrate_le := magnitude_le (div_nonneg htimes (by linarith : 0 ≤ all))
  refine ⟨_, div_eq htimes (by linarith) (by linarith), magnitude_nonneg _, ?_⟩
  linarith

/-- The rate of what is left when any number is taken away: it may be below zero, and is finite. -/
theorem successRate_finite {examined failed : Nat} (hpos : 0 < examined)
    (hword : examined < 2 ^ 64) (hfailed : failed < 2 ^ 64) :
    ∃ rate, successRate examined failed = .finite rate := by
  have hhundred : (Binary64.finite 100).Within 100 := ⟨100, rfl, by norm_num⟩
  have hleft := (within_ofNat hword).sub (within_ofNat hfailed) (by norm_num)
  have htimes := hleft.mul hhundred (by norm_num)
  obtain ⟨rate, hrate, -⟩ :=
    htimes.div (by norm_num) (magnitude_natCast_bounds hpos).1 (by norm_num)
  refine ⟨rate, ?_⟩
  rw [successRate, ofNat_hundred, ← hrate, ← Binary64.ofNat_eq hword]

end

/-- A rate of some among all is printed as a number of hundredths between 0.00 and 100.00. -/
theorem fixed_successRate {examined failed : Nat} (hpos : 0 < examined) (hle : failed ≤ examined)
    (hword : examined < 2 ^ 64) :
    ∃ hundredths ≤ 10000,
      fixed 2 (successRate examined failed) = String.ofList (pointed 2 hundredths) := by
  obtain ⟨rate, hrate, hnonneg, hrate_le⟩ := successRate_of_le hpos hle hword
  refine ⟨_, ?_, hrate ▸ fixed_eq hnonneg 2⟩
  have hnear := (abs_le.mp (abs_nearest_sub_le (q := rate * 10 ^ 2) (by positivity))).2
  generalize nearest (rate * 10 ^ 2) = hundredths at hnear ⊢
  have hlt : (hundredths : Rat) < 10001 := by linarith
  exact Nat.le_of_lt_succ (by exact_mod_cast hlt)

/-- More than there are may be taken away, and then the rate is none. -/
example : fixed 2 (successRate 1 2) = "-100.00" := by decide +kernel

end JobHealth
