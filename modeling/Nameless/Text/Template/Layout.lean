import Nameless.Text.Decimal
import Nameless.Text.Quoted

/-!
# Layouts

A layout says how wide a text is to be at least, at which side it is padded
and with what, and how much of it is shown at most.  Numbers are laid out by
the same writing, so that it has marks which a text refuses.
-/

namespace Nameless.Text.Template

/-- The largest number that a template may hold. -/
def largestNumber : Nat := 9223372036854775807

/-- Why a text cannot be laid out. -/
inductive LayoutFault where
  | numberTooLarge
  | noPrecision
  | twoGroupings
  | notALayout (text : String)
  | grouping (mark kind : Char)
  | unknownKind (kind : Char)
  | spaceForSign
  | sign
  | zeroSign
  | alternate
  | afterSign
deriving DecidableEq

/-- A character in a message, by its code if it is not printable ASCII. -/
def shown (c : Char) : String :=
  if 0x20 < c.toNat && c.toNat < 0x80 then c.toString
  else "\\x" ++ String.ofList (hex 1 c.toNat)

def LayoutFault.message : LayoutFault → String
  | numberTooLarge => "Too many decimal digits in format string"
  | noPrecision => "Format specifier missing precision"
  | twoGroupings => "Cannot specify both ',' and '_'."
  | notALayout text =>
    s!"Invalid format specifier '{text}' for object of type 'str'"
  | grouping mark kind => s!"Cannot specify '{mark}' with '{shown kind}'."
  | unknownKind kind =>
    s!"Unknown format code '{shown kind}' for object of type 'str'"
  | spaceForSign => "Space not allowed in string format specifier"
  | sign => "Sign not allowed in string format specifier"
  | zeroSign =>
    "Negative zero coercion (z) not allowed in string format specifier"
  | alternate =>
    "Alternate form (#) not allowed in string format specifier"
  | afterSign => "'=' alignment not allowed in string format specifier"

inductive Alignment where
  | left
  | right
  | center
  /-- Padding between a sign and its number. -/
  | afterSign
deriving DecidableEq

structure Layout where
  fill : Char
  alignment : Alignment
  sign? : Option Char
  dropsZeroSign : Bool
  isAlternate : Bool
  width : Nat
  grouping? : Option Char
  precision? : Option Nat
  kind : Char
deriving DecidableEq

namespace Layout

def alignment? : Char → Option Alignment
  | '<' => some .left
  | '>' => some .right
  | '^' => some .center
  | '=' => some .afterSign
  | _ => none

/-- The character to pad with and the side that a layout starts with. -/
def readAlignment (cs : List Char) :
    Option Char × Option Alignment × List Char :=
  match cs with
  | [] => (none, none, [])
  | c :: cs =>
    match cs.head?.bind alignment? with
    | some alignment => (some c, some alignment, cs.tail)
    | none =>
      match alignment? c with
      | some alignment => (none, some alignment, cs)
      | none => (none, none, c :: cs)

/-- The first character of a text, if it is one of the marks. -/
def readMark (marks : List Char) : List Char → Option Char × List Char
  | [] => (none, [])
  | c :: cs => if c ∈ marks then (some c, cs) else (none, c :: cs)

def readNumber (cs : List Char) :
    Except LayoutFault (Option Nat × List Char) :=
  match leadingNumber cs with
  | (none, cs) => .ok (none, cs)
  | (some n, cs) =>
    if largestNumber < n then .error .numberTooLarge else .ok (some n, cs)

/-- The mark between groups of digits, of which there may be one. -/
def readGrouping (cs : List Char) :
    Except LayoutFault (Option Char × List Char) :=
  match cs with
  | ',' :: '_' :: _ => .error .twoGroupings
  | '_' :: ',' :: _ => .error .twoGroupings
  | cs => .ok (readMark [',', '_'] cs)

def readPrecision (cs : List Char) :
    Except LayoutFault (Option Nat × List Char) :=
  match cs with
  | '.' :: cs => do
    let (precision?, rest) ← readNumber cs
    if precision?.isNone then throw .noPrecision
    return (precision?, rest)
  | cs => .ok (none, cs)

/-- The kinds of number whose digits may be grouped by a mark. -/
def groupedKinds (mark : Char) : List Char :=
  let kinds := ['d', 'e', 'f', 'g', 'E', 'F', 'G', '%', '\x00']
  if mark = '_' then 'b' :: 'o' :: 'x' :: 'X' :: kinds else kinds

/-- The layout that a text writes.  What is not said has a value of its
own. -/
def ofList (cs : List Char) : Except LayoutFault Layout := do
  let (fill?, alignment?, rest) := readAlignment cs
  let (sign?, rest) := readMark ['+', '-', ' '] rest
  let (zeroSign?, rest) := readMark ['z'] rest
  let (alternate?, rest) := readMark ['#'] rest
  let (zero?, rest) :=
    if fill?.isSome then (none, rest) else readMark ['0'] rest
  let (width?, rest) ← readNumber rest
  let (grouping?, rest) ← readGrouping rest
  let (precision?, rest) ← readPrecision rest
  if 1 < rest.length then throw (.notALayout (String.ofList cs))
  let kind := rest.headD 's'
  match grouping? with
  | none => pure ()
  | some mark =>
    if kind ∉ groupedKinds mark then throw (.grouping mark kind)
  return {
    fill := (fill? <|> zero?).getD ' '
    alignment := alignment?.getD .left
    sign?
    dropsZeroSign := zeroSign?.isSome
    isAlternate := alternate?.isSome
    width := width?.getD 0
    grouping?
    precision?
    kind
  }

/-- The first thing that a layout asks for and no text has. -/
def refusal? (layout : Layout) : Option LayoutFault :=
  if layout.kind ≠ 's' then some (.unknownKind layout.kind)
  else if layout.sign? = some ' ' then some .spaceForSign
  else if layout.sign?.isSome then some .sign
  else if layout.dropsZeroSign then some .zeroSign
  else if layout.isAlternate then some .alternate
  else if layout.alignment = .afterSign then some .afterSign
  else none

/-- Where padding of a given length goes: before and after the text. -/
def padding (layout : Layout) (length : Nat) : Nat × Nat :=
  match layout.alignment with
  | .right => (length, 0)
  | .center => (length / 2, length - length / 2)
  | _ => (0, length)

/-- A text laid out. -/
def apply (layout : Layout) (text : List Char) : List Char :=
  let cut := layout.precision?.elim text text.take
  let (before, after) := layout.padding (layout.width - cut.length)
  List.replicate before layout.fill ++ cut ++
    List.replicate after layout.fill

end Layout

/-- A text laid out as another text says. -/
def layOut (spec text : List Char) : Except LayoutFault (List Char) := do
  let layout ← Layout.ofList spec
  match layout.refusal? with
  | some e => throw e
  | none => return layout.apply text

/-- Nothing said about the layout leaves a text as it is. -/
@[simp] theorem layOut_nil (text : List Char) :
    layOut [] text = .ok text := by
  simp [layOut, Layout.ofList, Layout.readAlignment, Layout.readMark,
    Layout.readNumber, Layout.readGrouping, Layout.readPrecision,
    Layout.refusal?, Layout.apply, Layout.padding, leadingNumber,
    bind, Except.bind, pure, Except.pure]

end Nameless.Text.Template
