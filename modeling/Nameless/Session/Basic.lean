import Nameless.Console.Guard
import Nameless.Reduction.Reducer
import Nameless.Session.Draft
import Nameless.Text.Line

/-!
# Sessions

A session queues statements, reduces them under a step limit, and keeps the
results.  It works on a file as a whole or, at a prompt, line by line; then
it keeps the last result only, and the text of a statement that is still open.
-/

namespace Nameless

open Reduction (Limit)

/-- A statement that was read and waits to be reduced. -/
structure Statement where
  text : String
  term : Term
deriving DecidableEq

structure Session where
  path : String
  limit : Limit.Setting
  isInteractive : Bool
  queue : OrderedMap Int Statement
  /-- The latest result comes last. -/
  results : List Reduction.Reducer
  /-- The number of lines that came from the prompt. -/
  lineNumber : Nat
  pending : String

structure Desk where
  session : Session
  console : Console

/-- What may be read: the bytes of the files that can be opened. -/
abbrev Files := String → Option (List UInt8)

namespace Session

open Console (registerFile registerLine clearLine writeLine warn)

def promptPath : String := "<in>"

def defaultLimit : Int := 10000

def new (path : String) (limit : Limit.Setting) (isInteractive : Bool) : Session :=
  ⟨path, limit, isInteractive, .empty, [], 0, ""⟩

/-- A task that touches only the console. -/
def atConsole (task : Task Console α) : Task Desk α := fun desk ↦
  match task desk.console with
  | .ok a console => .ok a { desk with console }
  | .error e console => .error e { desk with console }

def change (f : Session → Session) : Task Desk Unit :=
  modify fun desk ↦ { desk with session := f desk.session }

/-- Reads a statement and queues it.  Its line stays on the trace if it
cannot be read. -/
def add (text : String) (number : Int) : Task Desk Unit := do
  let path := (← get).session.path
  atConsole (registerLine path text number)
  let term ← Task.parse text
  change fun s ↦ { s with queue := s.queue.put number ⟨text, term⟩ }
  atConsole (clearLine path)

def limitReached (text : String) (limit : Limit.Setting) :
    Except Text.TemplateFault Report :=
  Report.about
    "'\x7b\x7d' reached the step limit of \x7b\x7d and may not be in normal form"
    [text, limit.text] false false

/-- Prints the result of a statement and keeps it. -/
def keep (text : String) (reducer : Reduction.Reducer) (progressed : Bool) :
    Task Desk Unit := do
  if (← get).session.isInteractive then
    atConsole (writeLine ("input: " ++ text))
    if progressed then
      let result ← Task.display reducer.term .root
      atConsole (writeLine ("reduced: " ++ result))
    else atConsole (writeLine "not reducible")
    change fun s ↦ { s with results := [reducer] }
  else
    let result ← Task.display reducer.term .root
    atConsole (writeLine result)
    change fun s ↦ { s with results := s.results ++ [reducer] }

/-- Reduces a queued statement.  With a setting that is no limit it stays
queued and its line stays on the trace. -/
def runStatement (number : Int) (statement : Statement) : Task Desk Unit := do
  let session := (← get).session
  atConsole (registerLine session.path statement.text number)
  let limit ← Task.limit session.limit
  let run := Reduction.reduce statement.term limit
  change fun s ↦ { s with queue := s.queue.erase number }
  keep statement.text run.reducer run.progressed
  if run.progressed && run.limit.exhausted then
    atConsole (warn (limitReached statement.text session.limit))
  atConsole (clearLine session.path)

def runAll : List (Int × Statement) → Task Desk Unit
  | [] => pure ()
  | (number, statement) :: statements => do
    runStatement number statement
    runAll statements

def run : Task Desk Unit := do
  runAll (← get).session.queue.entries

/-- Takes a line from the prompt.  A statement that is still open waits for
more lines, and any other is reduced at once. -/
def feed (line : String) : Task Desk Unit := do
  change fun s ↦ { s with lineNumber := s.lineNumber + 1 }
  let session := (← get).session
  let text := cleaned (session.pending ++ " " ++ line)
  change fun s ↦ { s with pending := if isOpen text then text else "" }
  if !text.isEmpty && !isOpen text then
    add text session.lineNumber
    run

def pop : Task Desk Reduction.Reducer := do
  match (← get).session.results.getLast? with
  | none => throw (.mishap .noResult)
  | some reducer =>
    change fun s ↦ { s with results := s.results.dropLast }
    return reducer

def readLines (files : Files) (path : String) : Task Console (List String) :=
  if path.toList.contains '\x00' then throw (.mishap .brokenPath)
  else
    match files path with
    | none =>
      throw (.ofReport
        (Report.about "'\x7b\x7d' could not be opened" [path] false false))
    | some bytes =>
      match Text.Utf8.decode bytes with
      | .error e => throw (.mishap (.undecodable e))
      | .ok cs => return (Text.fileLines cs).map String.ofList

def addAll : List Draft → Task Desk Unit
  | [] => pure ()
  | draft :: drafts => do
    add draft.text draft.number
    addAll drafts

/-- Opens a session on a file, all of whose statements it queues, or on the
prompt, which only an interactive session may have. -/
def openAt (files : Files) (path : String) (limit : Limit.Setting)
    (isInteractive : Bool) : Task Console Session := do
  registerFile path
  if isInteractive then
    modify fun c ↦ { c with isFatal := false }
  let session := new path limit isInteractive
  if path = promptPath then
    if !isInteractive then
      throw (.ofReport
        (Report.about "'<in>' is a reserved filename" [""] true false))
    return session
  let drafts := assemble (← readLines files path)
  fun console ↦
    match addAll drafts ⟨session, console⟩ with
    | .ok _ desk => .ok desk.session desk.console
    | .error e desk => .error e desk.console

end Session
end Nameless
