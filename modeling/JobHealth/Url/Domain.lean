import JobHealth.Text.Lines
import JobHealth.Url.Punycode
/-!
# `JobHealth.Url.Domain` — domain names in ASCII

A domain name is brought to one spelling before it is compared or shown: letters
become small, wide forms narrow, the dots of other scripts become the ASCII dot,
and characters that only shape the text go.  Labels that are not ASCII after that
are written in the form of `Punycode` behind `xn--`; a label that claims this
form has to be the form of a label already in the one spelling.

Beyond ASCII the tables below hold the alphabets that have small and capital
letters side by side or at a fixed distance, and the blocks that no name may use.
-/

namespace JobHealth.Url

/-- A block of characters, its ends included. -/
structure Block where
  first : Nat
  last : Nat

/-- Whether a code point is in one of the blocks. -/
def inBlocks (blocks : List Block) (n : Nat) : Bool :=
  blocks.any fun b => b.first ≤ n && n ≤ b.last

/-- Characters that only shape a text. -/
def shaping : List Block :=
  [⟨0xAD, 0xAD⟩, ⟨0x34F, 0x34F⟩, ⟨0x180B, 0x180D⟩, ⟨0x180F, 0x180F⟩, ⟨0x200B, 0x200B⟩,
    ⟨0x2060, 0x2060⟩, ⟨0x2064, 0x2064⟩, ⟨0xFE00, 0xFE0F⟩, ⟨0xFEFF, 0xFEFF⟩,
    ⟨0x1BCA0, 0x1BCA3⟩, ⟨0xE0100, 0xE01EF⟩]

/-- Characters that no name may hold: controls, marks of direction, private use, and code points
without a character. -/
def banned : List Block :=
  [⟨0x80, 0x9F⟩, ⟨0x61C, 0x61C⟩, ⟨0x180E, 0x180E⟩, ⟨0x200C, 0x200F⟩, ⟨0x2028, 0x202E⟩,
    ⟨0x2061, 0x2063⟩, ⟨0x2065, 0x206F⟩, ⟨0x2FF0, 0x2FFF⟩, ⟨0xD800, 0xF8FF⟩, ⟨0xFDD0, 0xFDEF⟩,
    ⟨0xFFF0, 0xFFFF⟩, ⟨0x1FFFE, 0x1FFFF⟩, ⟨0x2FFFE, 0x2FFFF⟩, ⟨0x323B0, 0xE00FF⟩,
    ⟨0xE01F0, 0x10FFFF⟩]

/-- Blanks of other scripts, which read as a space. -/
def blanks : List Block :=
  [⟨0xA0, 0xA0⟩, ⟨0x2000, 0x200A⟩, ⟨0x202F, 0x202F⟩, ⟨0x205F, 0x205F⟩, ⟨0x3000, 0x3000⟩]

/-- Dots of other scripts, which read as a dot. -/
def dots : List Block := [⟨0x3002, 0x3002⟩, ⟨0xFF0E, 0xFF0E⟩, ⟨0xFF61, 0xFF61⟩]

/-- Marks that belong to the character in front of them. -/
def marks : List Block :=
  [⟨0x300, 0x36F⟩, ⟨0x483, 0x489⟩, ⟨0x591, 0x5BD⟩, ⟨0x610, 0x61A⟩, ⟨0x64B, 0x65F⟩,
    ⟨0x900, 0x903⟩, ⟨0x93A, 0x93C⟩, ⟨0x93E, 0x94F⟩, ⟨0x1AB0, 0x1AFF⟩, ⟨0x1DC0, 0x1DFF⟩,
    ⟨0x20D0, 0x20F0⟩, ⟨0x302A, 0x302F⟩, ⟨0x3099, 0x309A⟩, ⟨0xFE20, 0xFE2F⟩]

/-- Capital letters whose small ones stand at a fixed distance behind them. -/
def shifted : List (Block × Nat) :=
  [(⟨0x41, 0x5A⟩, 32), (⟨0xC0, 0xD6⟩, 32), (⟨0xD8, 0xDE⟩, 32), (⟨0x386, 0x386⟩, 38),
    (⟨0x388, 0x38A⟩, 37), (⟨0x38C, 0x38C⟩, 64), (⟨0x38E, 0x38F⟩, 63), (⟨0x391, 0x3A1⟩, 32),
    (⟨0x3A3, 0x3AB⟩, 32), (⟨0x400, 0x40F⟩, 80), (⟨0x410, 0x42F⟩, 32), (⟨0x531, 0x556⟩, 48),
    (⟨0x10A0, 0x10C5⟩, 7264), (⟨0x2C00, 0x2C2F⟩, 48), (⟨0x10400, 0x10427⟩, 40)]

/-- Blocks in which a capital letter with an even code point stands before its small one. -/
def evenCapitals : List Block :=
  [⟨0x100, 0x12F⟩, ⟨0x132, 0x137⟩, ⟨0x14A, 0x177⟩, ⟨0x370, 0x373⟩, ⟨0x3D8, 0x3EF⟩,
    ⟨0x460, 0x481⟩, ⟨0x48A, 0x4BF⟩, ⟨0x4D0, 0x52F⟩, ⟨0x1E00, 0x1E95⟩, ⟨0x1EA0, 0x1EFF⟩]

/-- Blocks in which a capital letter with an odd code point stands before its small one. -/
def oddCapitals : List Block := [⟨0x139, 0x148⟩, ⟨0x179, 0x17E⟩, ⟨0x4C1, 0x4CE⟩]

/-- The small letter of a code point, if it is a capital one. -/
def smallLetter? (n : Nat) : Option Nat :=
  match shifted.find? fun (b, _) => b.first ≤ n && n ≤ b.last with
  | some (_, distance) => some (n + distance)
  | none =>
    if inBlocks evenCapitals n && n % 2 == 0 then some (n + 1)
    else if inBlocks oddCapitals n && n % 2 == 1 then some (n + 1)
    else if n == 0x178 then some 0xFF
    else if n == 0x17F then some 0x73
    else if n == 0x1E9E then some 0xDF
    else none

/-- What a character is in the one spelling; nothing if no name may hold it. -/
def spell? (c : Char) : Option (List Char) :=
  let n := c.toNat
  if n < 0x80 then some [Char.ofNat ((smallLetter? n).getD n)]
  else if inBlocks shaping n then some []
  else if inBlocks blanks n then some [' ']
  else if inBlocks dots n then some ['.']
  else if 0xFF01 ≤ n && n ≤ 0xFF5E then
    let narrow := n - 0xFEE0
    some [Char.ofNat ((smallLetter? narrow).getD narrow)]
  else if inBlocks banned n then none
  else some [Char.ofNat ((smallLetter? n).getD n)]

/-- A whole name in the one spelling. -/
def spellAll? : List Char → Option (List Char)
  | [] => some []
  | c :: cs => do
    let s ← spell? c
    let rest ← spellAll? cs
    return s ++ rest

/-- The ASCII characters that no host may hold. -/
def isBarred (c : Char) : Bool :=
  c.toNat ≤ 0x20 || c.toNat == 0x7F || "%#/:<>?@[\\]^|".toList.contains c

/-- Whether a character may stand in a label that is in the one spelling. -/
def isSpelled (c : Char) : Bool := spell? c == some [c] && c != '.' && !isBarred c

/-- Whether a label that is not all ASCII is well formed. -/
def isLabel (label : List Char) : Bool :=
  label.all isSpelled &&
    match label with
    | [] => true
    | c :: _ => !inBlocks marks c.toNat

def asciiFormMark : List Char := "xn--".toList

/-- A label in ASCII, from one in the one spelling. -/
def asciiLabel? (label : List Char) : Option (List Char) :=
  if asciiFormMark.isPrefixOf label then
    match Punycode.decode? (label.drop asciiFormMark.length) with
    | none => none
    | some plain =>
      if (plain.any fun c => 0x80 ≤ c.toNat) && isLabel plain &&
          Punycode.encode plain == label.drop asciiFormMark.length
        then some label else none
  else if label.all fun c => c.toNat < 0x80 then
    if label.any isBarred then none else some label
  else if isLabel label then some (asciiFormMark ++ Punycode.encode label)
  else none

def domainToAscii? (name : List Char) : Option (List Char) := do
  let spelled ← spellAll? name
  let labels ← (Text.pieces '.' spelled).mapM asciiLabel?
  return Text.join '.' labels

end JobHealth.Url
