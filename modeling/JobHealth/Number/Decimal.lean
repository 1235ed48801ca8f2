import JobHealth.Number.Binary64
/-!
# `JobHealth.Number.Decimal` — binary64 numbers as decimal text

Two forms.  `fixed` writes the exact value with a given number of places, a
half going to the even digit.  `shortest` writes the fewest digits from which
the same number is read again; among numerals of that length the one nearest to
the value, a tie going to the even last digit.

The layout of the shortest form is one record, `plain`: positional while the
first digit stands between `10 ^ -4` and `10 ^ 15`, with `.0` after a whole
number, otherwise one digit, the rest behind a point, and a signed exponent of
at least two digits.
-/

namespace JobHealth.Number

/-- The digits of `n`, with zeros in front up to `width` of them. -/
def padded (width n : Nat) : List Char :=
  let ds := Nat.toDigits 10 n
  List.replicate (width - ds.length) '0' ++ ds

/-- `n` units of `10 ^ -places`, written with a point. -/
def pointed (places n : Nat) : List Char :=
  Nat.toDigits 10 (n / Nat.pow 10 places) ++
    (if places = 0 then [] else '.' :: padded places (n % Nat.pow 10 places))

def fixed (places : Nat) : Binary64 → String
  | .nan => "NaN"
  | .infinite s => if s then "-inf" else "inf"
  | .finite q =>
    let digits := pointed places (roundDiv (q.num.natAbs * Nat.pow 10 places) q.den)
    String.ofList (if q.num < 0 then '-' :: digits else digits)

/-- `d · 10 ^ k`, a decimal with a whole significand. -/
structure Scientific where
  digits : Nat
  exponent : Int
  deriving DecidableEq, Repr

def pow10 (e : Int) : Rat :=
  match e with
  | .ofNat n => ((Nat.pow 10 n : Nat) : Rat)
  | .negSucc n => mkRat 1 (Nat.pow 10 (n + 1))

def Scientific.value (s : Scientific) : Rat := (s.digits : Rat) * pow10 s.exponent

/-- The number of decimal digits of the whole part of `n / d`, less one; negative below one. -/
def floorLog10 (n d : Nat) : Int :=
  if d ≤ n then ((Nat.toDigits 10 (n / d)).length : Int) - 1
  else -((Nat.toDigits 10 ((d - 1) / n)).length : Int)

/-- `n / d` on the grid of multiples of `10 ^ k`: the two multiples around it. -/
def neighbours (n d : Nat) (k : Int) : Nat × Nat :=
  let below := match k with
    | .ofNat j => n / (d * Nat.pow 10 j)
    | .negSucc j => n * Nat.pow 10 (j + 1) / d
  (below, below + 1)

/-- The decimal with the given digit count that is read back as `q` and is nearest to it, if any. -/
def withDigits? (q : Rat) (count : Nat) : Option Scientific :=
  let n := q.num.natAbs
  let k := floorLog10 n q.den - (count : Int) + 1
  let (lo, hi) := neighbours n q.den k
  let reads (m : Nat) : Bool := Binary64.round (Scientific.value ⟨m, k⟩) == .finite q
  let gapLo := q - Scientific.value ⟨lo, k⟩
  let gapHi := Scientific.value ⟨hi, k⟩ - q
  match reads lo, reads hi with
  | true, true =>
    some (if gapLo < gapHi then ⟨lo, k⟩
      else if gapHi < gapLo then ⟨hi, k⟩
      else if lo % 2 = 0 then ⟨lo, k⟩ else ⟨hi, k⟩)
  | true, false => some ⟨lo, k⟩
  | false, true => some ⟨hi, k⟩
  | false, false => none

/-- The shortest decimal that is read back as the positive number `q`. -/
def shortest (q : Rat) : Scientific :=
  ((List.range 17).findSome? fun i => withDigits? q (i + 1)).getD ⟨0, 0⟩

/-- Drops zeros from the end of a digit string, all but the first digit. -/
def dropTrailingZeros : List Char → List Char
  | [] => []
  | d :: ds => d :: (ds.reverse.dropWhile (· == '0')).reverse

structure Layout where
  /-- The exponents of the first digit that are written positionally. -/
  positional : Int × Int
  /-- The least number of digits of a written exponent. -/
  exponentWidth : Nat

/-- Positional from `10 ^ -4` to below `10 ^ 16`; exponents signed, with two digits. -/
def plain : Layout := ⟨(-4, 15), 2⟩

def Scientific.render (layout : Layout) (s : Scientific) : List Char :=
  let all := Nat.toDigits 10 s.digits
  let e : Int := s.exponent + (all.length : Int) - 1
  let ds := dropTrailingZeros all
  if layout.positional.1 ≤ e ∧ e ≤ layout.positional.2 then
    match e with
    | .ofNat j =>
      let whole := ds.take (j + 1) ++ List.replicate (j + 1 - ds.length) '0'
      let part := ds.drop (j + 1)
      whole ++ '.' :: (if part.isEmpty then ['0'] else part)
    | .negSucc j => '0' :: '.' :: List.replicate j '0' ++ ds
  else
    let mantissa := match ds with
      | [] => []
      | [d] => [d]
      | d :: rest => d :: '.' :: rest
    let sign := if e < 0 then '-' else '+'
    mantissa ++ 'e' :: sign :: padded layout.exponentWidth e.natAbs

/-- The shortest text of a magnitude, with the sign given beside it. -/
def shortestText (negative : Bool) : Binary64 → String
  | .nan => "NaN"
  | .infinite _ => if negative then "-inf" else "inf"
  | .finite q =>
    let digits := if q.num = 0 then ['0', '.', '0'] else (shortest q).render plain
    String.ofList (if negative then '-' :: digits else digits)

end JobHealth.Number
