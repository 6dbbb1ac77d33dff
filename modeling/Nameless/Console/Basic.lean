import Nameless.Failure
import Nameless.OrderedMap

/-!
# The console

The console takes what is printed and keeps a trace: for every file that was
opened, the line of it that is being worked on.  Warnings and errors are
announced with the place that the trace gives them.
-/

namespace Nameless

structure Place where
  line : String
  number : Int
deriving DecidableEq

abbrev Trace := OrderedMap String (Option Place)

structure Console where
  style : Style
  /-- Whether an error ends the program. -/
  isFatal : Bool
  trace : Trace
  printed : String

namespace Console

def new (style : Style) (isFatal : Bool) : Console :=
  ⟨style, isFatal, .empty, ""⟩

/-- Where in a line its expression at fault has the start of its span. -/
def column (line : String) (report : Report) : Int :=
  if report.expression.isEmpty then 0
  else
    ((Text.find? report.expression.toList line.toList).getD 0 : Nat) +
      report.start

/-- The line that is being worked on in the file opened last, if any. -/
def innermost (console : Console) : Option (String × Place) :=
  console.trace.entries.reverse.findSome? fun entry ↦
    entry.2.map fun place ↦ (entry.1, place)

/-- File, line and column of a report, or nothing if no line is being worked
on. -/
def location (console : Console) (report : Report) : String :=
  match console.innermost with
  | none => ""
  | some (file, place) =>
    let col := column place.line report
    s!"{file}:{place.number}:{col}: "

/-- The lines that are being worked on.  Empty ones do not count. -/
def active (console : Console) : List (String × Place) :=
  console.trace.entries.filterMap fun entry ↦
    match entry.2 with
    | none => none
    | some place => if place.line.isEmpty then none else some (entry.1, place)

def showActive (entry : String × Place) : String :=
  s!"  File '{entry.1}', line {entry.2.number}:\n" ++
    s!"    {entry.2.line}\n"

/-- What stands before an error: all active lines if there are several, and
the location if there is one. -/
def whereabouts (console : Console) (report : Report) : String :=
  match console.active with
  | [] => ""
  | [_] => console.style.bold (console.location report)
  | entries => "Traceback:\n" ++ String.join (entries.map showActive)

def write (text : String) : Task Console Unit :=
  modify fun c ↦ { c with printed := c.printed ++ text }

def writeLine (line : String) : Task Console Unit := write (line ++ "\n")

def registerFile (path : String) : Task Console Unit :=
  modify fun c ↦ { c with trace := c.trace.put path none }

def registerLine (path line : String) (number : Int) : Task Console Unit :=
  modify fun c ↦ { c with trace := c.trace.put path (some ⟨line, number⟩) }

def clearLine (path : String) : Task Console Unit := registerFile path

def clearLines : Task Console Unit :=
  modify fun c ↦ { c with trace := c.trace.fill none }

def writeDiagnosis (report : Report) (severity : Severity) :
    Task Console Unit := do
  let console ← get
  if report.isDiagnosed then
    writeLine (report.diagnose console.style severity)

def warn (report : Except Text.TemplateFault Report) :
    Task Console Unit := do
  let report ← Task.filled report
  let console ← get
  let style := console.style
  let message ← Task.filled (report.styledMessage style)
  writeLine (style.bold (console.location report) ++
    style.vivid .warning Severity.warning.label ++ message)
  writeDiagnosis report .warning

/-- Announces an error.  A fatal console then ends the program, and another
one forgets the lines that were being worked on. -/
def announce (report : Report) : Task Console Unit := do
  let console ← get
  let style := console.style
  let internal :=
    if report.isInternal then style.vivid .error "[internal] " else ""
  let message ← Task.filled (report.styledMessage style)
  writeLine (console.whereabouts report ++ internal ++
    style.vivid .error Severity.error.label ++ message)
  writeDiagnosis report .error
  if console.isFatal then throw (.exited (some 1)) else clearLines

end Console
end Nameless
