/-
# `JobHealth.Number.Rounding` — a quotient to the nearest whole number

`roundDiv n d` is the whole number nearest to `n / d`; of two equally near ones
it is the even one.  Every rounding of the library goes through it: the digits
of a rate as well as the last bit of a binary64 number.
-/

namespace JobHealth.Number

/-- The whole number nearest to `n / d`, the even one if two are equally near. -/
def roundDiv (n d : Nat) : Nat :=
  let q := n / d
  let r := n % d
  if 2 * r < d then q
  else if d < 2 * r then q + 1
  else if q % 2 = 0 then q else q + 1

/-- A whole multiple is its own quotient. -/
theorem roundDiv_mul_self (q : Nat) {d : Nat} (hd : 0 < d) : roundDiv (q * d) d = q := by
  simp [roundDiv, Nat.mul_div_cancel q hd, hd]

/-- Rounding never leaves the two whole numbers around the quotient. -/
theorem div_le_roundDiv (n d : Nat) : n / d ≤ roundDiv n d ∧ roundDiv n d ≤ n / d + 1 := by
  simp only [roundDiv]
  constructor <;> (repeat' split) <;> omega

end JobHealth.Number
