import Nameless.Surface.Token
import Nameless.Text.Blank

/-!
# Lines typed at the prompt

A line is a command if its first word is the name of one.  A question mark
asks for help, and a line that begins with an exclamation mark is never a
command.  Everything else is part of a term.
-/

namespace Nameless.Shell

inductive Command where
  /-- Shows the step limit, or sets it if an argument is given. -/
  | limit (argument : String)
  | help
  | exit
  | endOfInput
  /-- A line that belongs to a term. -/
  | term (line : String)
deriving DecidableEq

def Command.named? (name argument : String) : Option Command :=
  if name = "limit" then some (.limit argument)
  else if name = "help" then some .help
  else if name = "exit" then some .exit
  else if name = "EOF" then some .endOfInput
  else none

/-- What a line without blanks around it asks for. -/
def Command.ofTrimmed (line : List Char) : Command :=
  let text := String.ofList line
  let name := line.takeWhile Surface.isNameChar
  let argument :=
    Text.trim (String.ofList (line.dropWhile Surface.isNameChar))
  (Command.named? (String.ofList name) argument).getD (.term text)

def Command.ofLine (line : String) : Command :=
  match (Text.trim line).toList with
  | '?' :: rest => .ofTrimmed ("help ".toList ++ rest)
  | '!' :: rest => .term (String.ofList ('!' :: rest))
  | cs => .ofTrimmed cs

/-- What a line asks for when a term with that text is still open.  The term
then takes every line as it is, except the one that ends the input. -/
def Command.whilePending (pending line : String) : Command :=
  if pending.isEmpty || line == "EOF" then .ofLine line else .term line

end Nameless.Shell
