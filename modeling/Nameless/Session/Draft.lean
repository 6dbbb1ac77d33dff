import Nameless.Text.Blank

/-!
# Statements from lines

A line may end in a comment, which `;;` starts.  A statement is one line, or
several joined by spaces: it goes on to the next line while more parentheses
are open than closed.
-/

namespace Nameless.Session

/-- The text of a statement and the number of its first line. -/
structure Draft where
  text : String
  number : Nat
deriving DecidableEq

def uncommented : List Char → List Char
  | [] => []
  | ';' :: ';' :: _ => []
  | c :: cs => c :: uncommented cs

def cleaned (line : String) : String :=
  Text.trim (String.ofList (uncommented line.toList))

def isOpen (text : String) : Bool :=
  decide (text.toList.count ')' < text.toList.count '(')

def joined (text line : String) : String := Text.trim (text ++ " " ++ line)

/-- The statements so far, the text of the last one, and whether it goes on
to the next line. -/
structure Assembly where
  drafts : List Draft
  text : String
  isOpen : Bool

/-- Takes in a line, which goes on with the last statement if `continues` is
set and there is one.  A line that is left blank begins no statement. -/
def takeLine (drafts : List Draft) (continues : Bool) (line : String)
    (number : Nat) : Assembly :=
  let line := cleaned line
  match continues, drafts.getLast? with
  | true, some last =>
    let text := joined last.text line
    ⟨drafts.dropLast ++ [⟨text, last.number⟩], text, isOpen text⟩
  | _, _ =>
    ⟨if line.isEmpty then drafts else drafts ++ [⟨line, number⟩], line,
      isOpen line⟩

/-- The statements that lines make after some others, the first of the lines
having the given number. -/
def takeLines (drafts : List Draft) (continues : Bool) (number : Nat) :
    List String → List Draft
  | [] => drafts
  | line :: lines =>
    let next := takeLine drafts continues line number
    takeLines next.drafts next.isOpen (number + 1) lines

def assemble (lines : List String) : List Draft := takeLines [] false 1 lines

end Nameless.Session
