import Nameless.CommandLine.Basic

/-!
# The program

Files are read from the disk and a dialogue is held with the terminal.  What
is said and done is decided elsewhere.
-/

namespace Nameless.Program

open CommandLine

def readFile? (path : String) : IO (Option (List UInt8)) := do
  try
    return some (← IO.FS.readBinFile path).toList
  catch _ =>
    return none

def filesFor (arguments : Arguments) : IO Files := do
  match arguments.file? with
  | none => return fun _ ↦ none
  | some path =>
    let bytes? ← readFile? path
    return fun name ↦ if name = path then bytes? else none

/-- Prints what a console took in, and empties it. -/
def flush (console : Console) : IO Console := do
  let output ← IO.getStdout
  output.putStr console.printed
  output.flush
  return { console with printed := "" }

/-- The next line of input, its end left out. -/
def nextLine : IO (Option String) := do
  let line ← (← IO.getStdin).getLine
  if line.isEmpty then return none
  return some (String.ofList (line.toList.takeWhile (· ≠ '\n')))

/-- Holds the dialogue until the shell stops or fails. -/
partial def converse (desk : Desk) : IO (Except Failure Unit × Console) := do
  let shown := Shell.prompt desk.session
  let console ←
    flush { desk.console with printed := desk.console.printed ++ shown }
  let line := (← nextLine).getD "EOF"
  match Shell.step line { desk with console } with
  | .ok true desk => return (.ok (), desk.console)
  | .ok false desk => converse desk
  | .error e desk => return (.error e, desk.console)

def codeOf : Failure → UInt32
  | .exited (some code) => UInt32.ofNat code.toNat
  | .exited none => 0
  | _ => 1

def openShell (arguments : Arguments) (style : Style) : IO UInt32 := do
  let opened :=
    Session.openAt (fun _ ↦ none) Session.promptPath arguments.limit true
      (.new style true)
  match opened with
  | .error e console =>
    let _ ← flush console
    return codeOf e
  | .ok session console =>
    let console := { console with printed := Shell.intro ++ "\n" }
    let (outcome, console) ← converse ⟨session, console⟩
    match Console.guarded (fun console ↦ match outcome with
        | .ok () => .ok () console
        | .error e => .error e console) console with
    | .ok _ console =>
      let _ ← flush console
      return 0
    | .error e console =>
      let _ ← flush console
      return codeOf e

def answer (args : List String) (files : Files) (style : Style) :
    IO UInt32 := do
  let ending := execute args files [] style
  (← IO.getStdout).putStr ending.output
  (← IO.getStderr).putStr ending.errors
  match ending.outcome with
  | .ok () => return 0
  | .error e => return codeOf e

def run (args : List String) : IO UInt32 := do
  let style : Style :=
    if ← (← IO.getStdout).isTty then .coloured else .plain
  match understand args with
  | .run arguments =>
    match arguments.file? with
    | some _ => answer args (← filesFor arguments) style
    | none => openShell arguments style
  | _ => answer args (fun _ ↦ none) style

end Nameless.Program

def main (args : List String) : IO UInt32 := Nameless.Program.run args
