import Nameless.Text.Quoted

/-!
# Reading UTF-8

Bytes are read strictly: no overlong forms, no surrogates, nothing above the
last code point.  They are read in blocks.  A sequence that a block leaves
open goes on in the next one, and places count from the first byte of the
block, or of the sequence that was left open before it.
-/

namespace Nameless.Text.Utf8

inductive Cause where
  | start
  | continuation
  | cutOff
deriving DecidableEq

/-- Bytes that are no character: the first of them, its place, and how many
bytes are at fault. -/
structure Fault where
  byte : UInt8
  place : Nat
  width : Nat
  cause : Cause
deriving DecidableEq

def Cause.message : Cause → String
  | start => "invalid start byte"
  | continuation => "invalid continuation byte"
  | cutOff => "unexpected end of data"

def Fault.message (e : Fault) : String :=
  let what :=
    if e.width = 1 then
      let digits := String.ofList (hex 2 e.byte.toNat)
      s!"byte 0x{digits} in position {e.place}"
    else s!"bytes in position {e.place}-{e.place + e.width - 1}"
  s!"'utf-8' codec can't decode {what}: {e.cause.message}"

/-- The number of bytes that a sequence has by its first one. -/
def width? (byte : UInt8) : Option Nat :=
  if byte < 0x80 then some 1
  else if byte < 0xc2 then none
  else if byte < 0xe0 then some 2
  else if byte < 0xf0 then some 3
  else if byte < 0xf5 then some 4
  else none

/-- Whether a byte may come second after `first`. -/
def mayFollow (first byte : UInt8) : Bool :=
  let low : UInt8 :=
    if first = 0xe0 then 0xa0 else if first = 0xf0 then 0x90 else 0x80
  let high : UInt8 :=
    if first = 0xed then 0x9f else if first = 0xf4 then 0x8f else 0xbf
  low ≤ byte && byte ≤ high

def isContinuation (byte : UInt8) : Bool := 0x80 ≤ byte && byte ≤ 0xbf

/-- How many of the bytes after `first` go on its sequence. -/
def following (first : UInt8) (more : Nat) (bytes : List UInt8) : Nat :=
  match bytes.take more with
  | [] => 0
  | second :: rest =>
    if mayFollow first second then 1 + (rest.takeWhile isContinuation).length
    else 0

def codePoint (first : UInt8) (rest : List UInt8) : Nat :=
  let top :=
    match rest.length with
    | 0 => first.toNat
    | 1 => first.toNat % 0x20
    | 2 => first.toNat % 0x10
    | _ => first.toNat % 0x08
  rest.foldl (fun n byte ↦ 0x40 * n + byte.toNat % 0x40) top

/-- Whether `first` and `rest` begin a surrogate, which is refused, but not
before its end is known when `rest` is all there is. -/
def halfSurrogate (first : UInt8) (rest : List UInt8) : Bool :=
  match rest with
  | [second] => first == 0xed && 0xa0 ≤ second && second ≤ 0xbf
  | _ => false

/-- The characters of a block, the first byte of which stands at `place`, and
the sequence that it leaves open. -/
def decodeFrom (place : Nat) (bytes : List UInt8) :
    Except Fault (List Char × List UInt8) :=
  match bytes with
  | [] => .ok ([], [])
  | first :: rest =>
    match width? first with
    | none => .error ⟨first, place, 1, .start⟩
    | some width =>
      let more := width - 1
      let good := following first more rest
      if good = more then do
        let (cs, held) ← decodeFrom (place + width) (rest.drop more)
        return (Char.ofNat (codePoint first (rest.take more)) :: cs, held)
      else if good = rest.length || halfSurrogate first rest then
        .ok ([], first :: rest)
      else .error ⟨first, place, good + 1, .continuation⟩
termination_by bytes.length
decreasing_by simp only [List.length_drop, List.length_cons]; omega

/-- What is wrong with a sequence that is left open at the end. -/
def unfinished? : List UInt8 → Option Fault
  | [] => none
  | first :: rest =>
    if halfSurrogate first rest then some ⟨first, 0, 1, .continuation⟩
    else some ⟨first, 0, rest.length + 1, .cutOff⟩

def blockSize : Nat := 8192

/-- The characters of the bytes after those that were left open. -/
def decodeBlocks (held bytes : List UInt8) : Except Fault (List Char) :=
  match bytes with
  | [] =>
    match unfinished? held with
    | none => .ok []
    | some e => .error e
  | byte :: rest => do
    let block := (byte :: rest).take blockSize
    let (cs, held) ← decodeFrom 0 (held ++ block)
    let more ← decodeBlocks held ((byte :: rest).drop blockSize)
    return cs ++ more
termination_by bytes.length
decreasing_by
  simp only [List.length_drop, List.length_cons, blockSize]
  omega

def decode (bytes : List UInt8) : Except Fault (List Char) :=
  decodeBlocks [] bytes

end Nameless.Text.Utf8
