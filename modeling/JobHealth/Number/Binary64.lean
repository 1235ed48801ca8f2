import JobHealth.Number.Rounding
/-!
# `JobHealth.Number.Binary64` — binary64 arithmetic, exactly

A finite binary64 number is kept as the rational it stands for; an operation
computes the exact result and rounds it once, to the nearest number with a
53-bit significand, ties to the even significand.  So a rate can be reasoned
about as a fraction, and its bits still come out as the hardware gives them.

The sign of a zero is not kept.  The sums, products and quotients of this
library start from whole numbers and never produce a negative zero; a numeral
that does is kept with its sign beside it.
-/

namespace JobHealth.Number

/-- A binary64 number, zeros without sign. -/
inductive Binary64 where
  | finite (value : Rat)
  | infinite (negative : Bool)
  | nan
  deriving DecidableEq, Repr

namespace Binary64

def pow2 (e : Int) : Rat :=
  match e with
  | .ofNat n => ((Nat.pow 2 n : Nat) : Rat)
  | .negSucc n => mkRat 1 (Nat.pow 2 (n + 1))

/-- The exponent of the greatest power of two not above `n / d`, for positive `n` and `d`. -/
def floorLog2 (n d : Nat) : Int :=
  let k : Int := (n.log2 : Int) - (d.log2 : Int)
  let below : Bool := match k with
    | .ofNat j => decide (n < d * Nat.pow 2 j)
    | .negSucc j => decide (n * Nat.pow 2 (j + 1) < d)
  if below then k - 1 else k

/-- The exponent of the last significand bit of the numbers around `n / d`. -/
def lastBit (n d : Nat) : Int := max (floorLog2 n d - 52) (-1074)

/-- `n / d` in units of `2 ^ e`, to the nearest whole number. -/
def unitsOf (n d : Nat) (e : Int) : Nat :=
  match e with
  | .ofNat j => roundDiv n (d * Nat.pow 2 j)
  | .negSucc j => roundDiv (n * Nat.pow 2 (j + 1)) d

/-- The least magnitude that is too large for a finite number. -/
def tooLarge : Rat := ((Nat.pow 2 1024 : Nat) : Rat)

/-- The magnitude that the positive fraction `n / d` rounds to. -/
def roundMagnitude (n d : Nat) : Rat :=
  let e := lastBit n d
  ((unitsOf n d e : Nat) : Rat) * pow2 e

def round (q : Rat) : Binary64 :=
  if q.num = 0 then .finite 0
  else
    let m := roundMagnitude q.num.natAbs q.den
    if tooLarge ≤ m then .infinite (q.num < 0)
    else .finite (if q.num < 0 then -m else m)

/-- The binary64 number nearest to a whole number. -/
def ofNat (n : Nat) : Binary64 := round (n : Rat)

def isNegative : Binary64 → Bool
  | .finite q => q.num < 0
  | .infinite s => s
  | .nan => false

def isZero : Binary64 → Bool
  | .finite q => q.num == 0
  | _ => false

def sub : Binary64 → Binary64 → Binary64
  | .finite x, .finite y => round (x - y)
  | .finite _, .infinite s => .infinite !s
  | .infinite s, .finite _ => .infinite s
  | .infinite s, .infinite t => if s = t then .nan else .infinite s
  | .nan, _ => .nan
  | _, .nan => .nan

def mul : Binary64 → Binary64 → Binary64
  | .finite x, .finite y => round (x * y)
  | .nan, _ => .nan
  | _, .nan => .nan
  | x, y => if x.isZero || y.isZero then .nan else .infinite (x.isNegative != y.isNegative)

/-- The quotient; over zero it is infinite, and zero over zero is no number. -/
def div : Binary64 → Binary64 → Binary64
  | .finite x, .finite y =>
    if y.num = 0 then if x.num = 0 then .nan else .infinite (x.num < 0) else round (x / y)
  | .nan, _ => .nan
  | _, .nan => .nan
  | .finite _, .infinite _ => .finite 0
  | .infinite _, .infinite _ => .nan
  | .infinite s, .finite y => .infinite (s != (y.num < 0))

/-- The 64 bits of the interchange format; a number that is none has no one pattern. -/
def toBits? : Binary64 → Option UInt64
  | .nan => none
  | .infinite s => some (if s then 0xFFF0000000000000 else 0x7FF0000000000000)
  | .finite q =>
    if q.num = 0 then some 0
    else
      let n := q.num.natAbs
      let e := lastBit n q.den
      let units := unitsOf n q.den e
      let magnitude : Nat :=
        if units < Nat.pow 2 52 then units
        else (e + 1075).toNat * Nat.pow 2 52 + (units - Nat.pow 2 52)
      some (UInt64.ofNat (if q.num < 0 then Nat.pow 2 63 + magnitude else magnitude))

end Binary64
end JobHealth.Number
