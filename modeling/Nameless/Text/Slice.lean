/-!
# Slices

A bound of a slice counts from the start of the text, or from its end if it
is negative.  Bounds outside the text are moved to its nearer end.
-/

namespace Nameless.Text

/-- The place in a text of that length that a bound means. -/
def place (length : Nat) (bound : Int) : Nat :=
  if bound < 0 then (bound + length).toNat else min bound.toNat length

def before (s : String) (stop : Int) : String :=
  String.ofList (s.toList.take (place s.length stop))

def after (s : String) (start : Int) : String :=
  String.ofList (s.toList.drop (place s.length start))

/-- The text between two bounds, empty if they are out of order. -/
def between (s : String) (start stop : Int) : String :=
  let low := place s.length start
  String.ofList ((s.toList.drop low).take (place s.length stop - low))

/-- A character written `n` times, or nothing if `n` is negative. -/
def copies (n : Int) (c : Char) : String :=
  String.ofList (List.replicate n.toNat c)

def find? (part whole : List Char) : Option Nat :=
  if part.isPrefixOf whole then some 0
  else
    match whole with
    | [] => none
    | _ :: rest => (find? part rest).map (· + 1)

end Nameless.Text
