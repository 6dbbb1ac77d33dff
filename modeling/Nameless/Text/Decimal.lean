import Nameless.Text.Blank

/-!
# Decimal numbers

Every script with its own digits from zero to nine may write a number.
-/

namespace Nameless.Text

/-- The zeros of the scripts whose digits follow each other. -/
def zeros : List Nat :=
  [0x30, 0x660, 0x6f0, 0x7c0, 0x966, 0x9e6, 0xa66, 0xae6, 0xb66, 0xbe6,
    0xc66, 0xce6, 0xd66, 0xde6, 0xe50, 0xed0, 0xf20, 0x1040, 0x1090, 0x17e0,
    0x1810, 0x1946, 0x19d0, 0x1a80, 0x1a90, 0x1b50, 0x1bb0, 0x1c40, 0x1c50,
    0xa620, 0xa8d0, 0xa900, 0xa9d0, 0xa9f0, 0xaa50, 0xabf0, 0xff10, 0x104a0,
    0x10d30, 0x11066, 0x110f0, 0x11136, 0x111d0, 0x112f0, 0x11450, 0x114d0,
    0x11650, 0x116c0, 0x11730, 0x118e0, 0x11950, 0x11c50, 0x11d50, 0x11da0,
    0x16a60, 0x16ac0, 0x16b50, 0x1d7ce, 0x1d7d8, 0x1d7e2, 0x1d7ec, 0x1d7f6,
    0x1e140, 0x1e2f0, 0x1e950, 0x1fbf0]

def digit? (c : Char) : Option Nat :=
  (zeros.find? fun first ↦ first ≤ c.toNat && c.toNat < first + 10).map
    (c.toNat - ·)

def isDigit (c : Char) : Bool := (digit? c).isSome

/-- Whether a text is digits and nothing else, and at least one. -/
def isDecimal (s : String) : Bool := !s.isEmpty && s.toList.all isDigit

/-- The number that a text starts with, if it starts with a digit, and what
follows its digits. -/
def leadingNumber (cs : List Char) : Option Nat × List Char :=
  let digits := cs.takeWhile isDigit
  if digits.isEmpty then (none, cs)
  else
    (some (digits.foldl (fun n c ↦ 10 * n + (digit? c).getD 0) 0),
      cs.dropWhile isDigit)

/-- The number that a row of digits writes, single underscores between them
allowed. -/
def natural? (cs : List Char) : Option Nat :=
  let rec go (value : Nat) : List Char → Option Nat
    | [] => some value
    | '_' :: c :: cs =>
      match digit? c with
      | some d => go (10 * value + d) cs
      | none => none
    | c :: cs =>
      match digit? c with
      | some d => go (10 * value + d) cs
      | none => none
  match cs with
  | [] => none
  | c :: cs => (digit? c).bind fun d ↦ go d cs

/-- Whether a character may stand around a number: a blank that is none of
the four separators below the space. -/
def isPadding (c : Char) : Bool :=
  isBlank c && !(0x1c ≤ c.toNat && c.toNat ≤ 0x1f)

/-- The number that a text writes, with padding around it and one sign before
it allowed. -/
def integer? (s : String) : Option Int :=
  let cs := (s.toList.dropWhile isPadding).reverse.dropWhile isPadding
  match cs.reverse with
  | '-' :: cs => (natural? cs).map fun n ↦ -(n : Int)
  | '+' :: cs => (natural? cs).map fun n ↦ (n : Int)
  | cs => (natural? cs).map fun n ↦ (n : Int)

end Nameless.Text
