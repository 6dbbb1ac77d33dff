import Nameless.Console.Basic

/-!
# Guarded tasks

A guard announces the failure of a task and swallows it.  It lets through a
request to end the program, and a mishap after announcing it.
-/

namespace Nameless

/-- A report about a mishap.  The mishap's text becomes part of the template,
so braces in it are read as fields. -/
def Mishap.report (m : Mishap) : Except Text.TemplateFault Report :=
  Report.about s!"unknown error: '{m.kind}: {m.message}'" [""] true true

namespace Console

def announceBare (message : String) : Task Console Unit := do
  announce (← Task.filled (Report.about message [""] true false))

/-- Announces a failure; fails itself if the failure is to be let through. -/
def settle : Failure → Task Console Unit
  | .rejected _ report => announce report
  | .reported report => announce report
  | .interrupted _ => announceBare "keyboard interrupt"
  | .tooDeep _ => announceBare "maximum nesting depth exceeded"
  | .exited code => throw (.exited code)
  | .mishap m => do
    announce (← Task.filled m.report)
    throw (.mishap m)

/-- The result of a task whose state has a console at hand, or nothing if its
failure was swallowed. -/
def guardedBy (atConsole : Task Console Unit → Task σ Unit) (task : Task σ α) :
    Task σ (Option α) :=
  tryCatch (some <$> task) fun failure ↦ do
    atConsole (settle failure)
    return none

def guarded (task : Task Console α) : Task Console (Option α) :=
  guardedBy id task

end Console
end Nameless
