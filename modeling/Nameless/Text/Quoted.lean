import Nameless.Text.Printable

/-!
# Quoted text

A text is quoted with apostrophes, or with double quotes if it holds an
apostrophe and no double quote.  Backslashes, the quote itself, line ends and
tabs are escaped, and characters that are not to be shown are written by
their codes.
-/

namespace Nameless.Text

def quoteFor (s : String) : Char :=
  if s.contains '\'' && !s.contains '"' then '"' else '\''

/-- A number to base sixteen, with zeros before it up to a width. -/
def hex (width n : Nat) : List Char :=
  let digits := Nat.toDigits 16 n
  List.replicate (width - digits.length) '0' ++ digits

def coded (c : Char) : List Char :=
  let n := c.toNat
  if n < 0x100 then '\\' :: 'x' :: hex 2 n
  else if n < 0x10000 then '\\' :: 'u' :: hex 4 n
  else '\\' :: 'U' :: hex 8 n

/-- A character between two quotes, where only some are shown. -/
def escaped (isShown : Char → Bool) (quote c : Char) : List Char :=
  if c = '\\' then ['\\', '\\']
  else if c = quote then ['\\', c]
  else if c = '\n' then ['\\', 'n']
  else if c = '\r' then ['\\', 'r']
  else if c = '\t' then ['\\', 't']
  else if isShown c then [c]
  else coded c

def quotedShowing (isShown : Char → Bool) (s : String) : String :=
  let quote := quoteFor s
  String.ofList (quote :: s.toList.flatMap (escaped isShown quote) ++ [quote])

def quoted (s : String) : String := quotedShowing isPrintable s

/-- The quoted text with no character beyond ASCII. -/
def quotedAscii (s : String) : String :=
  quotedShowing (fun c ↦ isPrintable c && c.toNat < 0x80) s

end Nameless.Text
