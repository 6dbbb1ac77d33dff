import Nameless.CommandLine.Arguments
import Nameless.Shell.Basic

/-!
# The command line

The program reduces the statements of a file, or opens a shell if no file is
given.  What it prints and how it ends depend on nothing but its arguments,
the files that can be opened, the lines of its input and the style of its
messages.
-/

namespace Nameless

/-! ## Marks on a terminal -/

def Severity.colour : Severity → String
  | error => "31"
  | warning => "35"

/-- A terminal's codes for weight and colour, which stand around a text even
if it is empty. -/
def Style.coloured : Style where
  bold text := "\x1b[1m" ++ text ++ "\x1b[0m"
  vivid severity text :=
    "\x1b[1m\x1b[" ++ severity.colour ++ "m" ++ text ++ "\x1b[0m"

namespace CommandLine

/-! ## Texts -/

def usage : String := "usage: lc [-h] [--limit LIMIT] [file]\n"

def help : String :=
  usage ++ "\n" ++
  "Reduce untyped lambda calculus terms.\n\n" ++
  "positional arguments:\n" ++
  "  file           file to interpret and run (if empty, goes to " ++
    "command-line\n" ++
  "                 mode)\n\n" ++
  "options:\n" ++
  "  -h, --help     show this help message and exit\n" ++
  "  --limit LIMIT  maximum number of reduction steps per term " ++
    s!"(default {Session.defaultLimit})\n"

def refusal (fault : UsageFault) : String :=
  usage ++ "lc: error: " ++ fault.message ++ "\n"

/-! ## Runs -/

/-- How a run of the program ended, with what it wrote to its two outputs. -/
structure Ending where
  outcome : Except Failure Unit
  output : String
  errors : String

def withSession (session : Session) (task : Task Desk α) : Task Console α :=
  fun console ↦
    match task ⟨session, console⟩ with
    | .ok a desk => .ok a desk.console
    | .error e desk => .error e desk.console

def work (arguments : Arguments) (files : Files) (lines : List String) :
    Task Console Unit := do
  match arguments.file? with
  | some path =>
    let session ← Session.openAt files path arguments.limit false
    withSession session Session.run
  | none =>
    let session ←
      Session.openAt files Session.promptPath arguments.limit true
    withSession session (Shell.converse lines)

def execute (args : List String) (files : Files) (lines : List String)
    (style : Style) : Ending :=
  match understand args with
  | .help => ⟨.error (.exited (some 0)), help, ""⟩
  | .refuse fault => ⟨.error (.exited (some 2)), "", refusal fault⟩
  | .run arguments =>
    match Console.guarded (work arguments files lines) (.new style true) with
    | .ok _ console => ⟨.ok (), console.printed, ""⟩
    | .error e console => ⟨.error e, console.printed, ""⟩

end CommandLine
end Nameless
