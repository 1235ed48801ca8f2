/-
# `JobHealth.Text.Utf8` — UTF-8, strictly

Bytes to characters and back.  The first ill-formed place refuses the whole
input, and the refusal says what is there:

| refusal                | meaning                                            |
| :--------------------- | :------------------------------------------------- |
| `invalid n i`          | from byte `i` on, `n` bytes can start no character   |
| `incomplete i`         | the input ends inside the character begun at `i`     |

`n` counts the bytes up to the one that does not fit, so a byte that can
begin nothing has length 1.  Over-long forms, surrogates and code points above
`0x10FFFF` do not fit at their second byte.
-/

namespace JobHealth.Text.Utf8

inductive Fault where
  | invalid (length index : Nat)
  | incomplete (index : Nat)
  deriving DecidableEq, Repr

def Fault.message : Fault → String
  | .invalid length i =>
    "invalid utf-8 sequence of " ++ length.repr ++ " bytes from index " ++ i.repr
  | .incomplete i => "incomplete utf-8 byte sequence from index " ++ i.repr

/-- A byte that continues a character. -/
def isTail (b : UInt8) : Bool := 0x80 ≤ b && b ≤ 0xBF

/-- How many bytes the character takes that begins with `b`; 0 if none does. -/
def width (b : UInt8) : Nat :=
  if b ≤ 0x7F then 1
  else if 0xC2 ≤ b && b ≤ 0xDF then 2
  else if 0xE0 ≤ b && b ≤ 0xEF then 3
  else if 0xF0 ≤ b && b ≤ 0xF4 then 4
  else 0

/-- Whether `b` may be the second byte of a character that begins with `a`. -/
def fitsSecond (a b : UInt8) : Bool :=
  if a == 0xE0 then 0xA0 ≤ b && b ≤ 0xBF
  else if a == 0xED then 0x80 ≤ b && b ≤ 0x9F
  else if a == 0xF0 then 0x90 ≤ b && b ≤ 0xBF
  else if a == 0xF4 then 0x80 ≤ b && b ≤ 0x8F
  else isTail b

/-- The six payload bits of a continuing byte. -/
def tailBits (b : UInt8) : Nat := b.toNat % 64

/-- The characters of the bytes, of which the first stands at index `i`. -/
def decodeFrom (i : Nat) : List UInt8 → Except Fault (List Char)
  | [] => .ok []
  | a :: rest =>
    match width a with
    | 1 => (Char.ofNat a.toNat :: ·) <$> decodeFrom (i + 1) rest
    | 2 =>
      match rest with
      | [] => .error (.incomplete i)
      | b :: rest =>
        if !isTail b then .error (.invalid 1 i)
        else (Char.ofNat (a.toNat % 32 * 64 + tailBits b) :: ·) <$> decodeFrom (i + 2) rest
    | 3 =>
      match rest with
      | [] => .error (.incomplete i)
      | b :: rest =>
        if !fitsSecond a b then .error (.invalid 1 i)
        else match rest with
        | [] => .error (.incomplete i)
        | c :: rest =>
          if !isTail c then .error (.invalid 2 i)
          else
            (Char.ofNat ((a.toNat % 16 * 64 + tailBits b) * 64 + tailBits c) :: ·) <$>
              decodeFrom (i + 3) rest
    | 4 =>
      match rest with
      | [] => .error (.incomplete i)
      | b :: rest =>
        if !fitsSecond a b then .error (.invalid 1 i)
        else match rest with
        | [] => .error (.incomplete i)
        | c :: rest =>
          if !isTail c then .error (.invalid 2 i)
          else match rest with
          | [] => .error (.incomplete i)
          | d :: rest =>
            if !isTail d then .error (.invalid 3 i)
            else
              (Char.ofNat
                  (((a.toNat % 8 * 64 + tailBits b) * 64 + tailBits c) * 64 + tailBits d) :: ·) <$>
                decodeFrom (i + 4) rest
    | _ => .error (.invalid 1 i)

/-- The characters of the bytes, or the first place that is not UTF-8. -/
def decode (bytes : List UInt8) : Except Fault (List Char) := decodeFrom 0 bytes

def encodeChar (c : Char) : List UInt8 :=
  let n := c.toNat
  if n < 0x80 then [n.toUInt8]
  else if n < 0x800 then [(0xC0 + n / 64).toUInt8, (0x80 + n % 64).toUInt8]
  else if n < 0x10000 then
    [(0xE0 + n / 4096).toUInt8, (0x80 + n / 64 % 64).toUInt8, (0x80 + n % 64).toUInt8]
  else
    [(0xF0 + n / 262144).toUInt8, (0x80 + n / 4096 % 64).toUInt8, (0x80 + n / 64 % 64).toUInt8,
      (0x80 + n % 64).toUInt8]

def encode (cs : List Char) : List UInt8 := cs.flatMap encodeChar

end JobHealth.Text.Utf8
