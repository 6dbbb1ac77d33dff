import Nameless.Session.Basic
import Nameless.Shell.Command
import Nameless.Text.Decimal

/-!
# The shell

The shell gives lines to an interactive session and obeys a few commands.  No
failure that has a report stops it.
-/

namespace Nameless.Shell

open Console (write writeLine settle guardedBy)
open Session (atConsole change)
open Reduction (Limit)

def intro : String :=
  "De Bruijn λ-calculus reducer\n" ++
    "Type a term to reduce it, or 'help' for more information."

def prompt (session : Session) : String :=
  if session.pending.isEmpty then "λ> " else ".. "

def helpText (limit : Limit.Setting) : String :=
  "Type a λ-term to reduce it, e.g. '(λx.x) λy.y'. '\\' may be used " ++
    "instead of 'λ',\n" ++
  "and 'λx y.x' is short for 'λx.λy.x'. A term with open parentheses " ++
    "continues on the\n" ++
  "next line. Terms are reduced by β- and η-reduction for at most " ++
    limit.text ++ " steps;\n" ++
  "'limit N' changes that. Type 'exit' or press Ctrl-D to quit."

def limitOf? (argument : String) : Option Int :=
  if Text.isDecimal argument then
    (Text.natural? argument.toList).map fun n ↦ (n : Int)
  else none

/-- Sets the step limit if an argument is given, and shows it. -/
def setLimit (argument : String) : Task Desk Unit := do
  if !argument.isEmpty then
    match limitOf? argument with
    | some n => change fun s ↦ { s with limit := .steps n }
    | none =>
      throw (.ofReport (Report.about
        "step limit must be a non-negative integer, got '\x7b\x7d'"
        [argument] false false))
  let limit := (← get).session.limit
  atConsole (writeLine ("step limit: " ++ limit.text))

/-- Obeys a command and tells whether the shell is to stop. -/
def obey : Command → Task Desk Bool
  | .limit argument => do
    let _ ← guardedBy atConsole (setLimit argument)
    return false
  | .help => do
    let limit := (← get).session.limit
    atConsole (writeLine (helpText limit))
    return false
  | .exit => return true
  | .endOfInput => do
    change fun s ↦ { s with pending := "" }
    atConsole (writeLine "")
    return true
  | .term line => do
    let _ ← guardedBy atConsole (Session.feed line)
    return false

def step (line : String) : Task Desk Bool := do
  let pending := (← get).session.pending
  obey (Command.whilePending pending line)

/-- Shows the prompt and takes lines until one stops the shell.  After the
last line the input ends. -/
def loop : List String → Task Desk Unit
  | [] => do
    atConsole (write (prompt (← get).session))
    let _ ← step "EOF"
  | line :: lines => do
    atConsole (write (prompt (← get).session))
    let stop ← step line
    if !stop then loop lines

def converse (lines : List String) : Task Desk Unit := do
  atConsole (writeLine intro)
  loop lines

end Nameless.Shell
