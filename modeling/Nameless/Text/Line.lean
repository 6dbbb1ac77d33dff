/-!
# Lines

A line of a file ends with a line feed, a carriage return, or a carriage
return and a line feed.  A line at a prompt ends with a line feed only.  The
last line may lack its end.
-/

namespace Nameless.Text

def grow (c : Char) : List (List Char) → List (List Char)
  | [] => [[c]]
  | line :: lines => (c :: line) :: lines

/-- The lines of a file, their ends left out. -/
def fileLines : List Char → List (List Char)
  | [] => []
  | '\r' :: '\n' :: cs => [] :: fileLines cs
  | c :: cs =>
    if c = '\n' ∨ c = '\r' then [] :: fileLines cs
    else grow c (fileLines cs)

/-- The lines typed at a prompt, their ends left out. -/
def typedLines : List Char → List (List Char)
  | [] => []
  | c :: cs =>
    if c = '\n' then [] :: typedLines cs else grow c (typedLines cs)

end Nameless.Text
