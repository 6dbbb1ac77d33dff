import Nameless.Reduction.Limit
import Nameless.Surface.Printer
import Nameless.Surface.Rejection
import Nameless.Text.Utf8

/-!
# Failures

A task fails with a report about what it was given, on a request to stop, or
with a mishap: a failure of its own that nothing it was given should cause.
-/

namespace Nameless

inductive Mishap where
  | outOfScope (e : OutOfScope)
  | noLimit (e : Reduction.Limit.Fault)
  | notATerm (kind : String)
  | template (e : Text.TemplateFault)
  | undecodable (e : Text.Utf8.Fault)
  /-- A path with a null character in it. -/
  | brokenPath
  | noResult
  | other (kind text : String)
deriving DecidableEq

namespace Mishap

def kind : Mishap → String
  | outOfScope _ => "IndexError"
  | noLimit (.negative _) => "ValueError"
  | noLimit _ => "TypeError"
  | notATerm _ => "TypeError"
  | template (.noArgument _) => "IndexError"
  | template .noCharacter => "IndexError"
  | template (.unknownName _) => "KeyError"
  | template .notAnIndex => "TypeError"
  | template (.noAttribute _) => "AttributeError"
  | template _ => "ValueError"
  | undecodable _ => "UnicodeDecodeError"
  | brokenPath => "ValueError"
  | noResult => "IndexError"
  | other kind _ => kind

def message : Mishap → String
  | outOfScope e => e.message
  | noLimit e => e.message
  | notATerm kind => s!"cannot display {kind}"
  | template e => e.message
  | undecodable e => e.message
  | brokenPath => "embedded null byte"
  | noResult => "pop from empty list"
  | other _ text => text

end Mishap

inductive Failure where
  | rejected (rejection : Surface.Rejection) (report : Report)
  | reported (report : Report)
  | interrupted (text : String)
  | tooDeep (text : String)
  /-- The program is to end, with a code if one was given. -/
  | exited (code : Option Int)
  | mishap (mishap : Mishap)
deriving DecidableEq

namespace Failure

def message : Failure → String
  | rejected _ report => report.message
  | reported report => report.message
  | interrupted text => text
  | tooDeep text => text
  | exited none => ""
  | exited (some code) => toString code
  | mishap m => m.message

def ofRejection (r : Surface.Rejection) : Failure :=
  match r.report with
  | .ok report => rejected r report
  | .error e => mishap (.template e)

/-- The failure that carries a report, if there is one to carry. -/
def ofReport : Except Text.TemplateFault Report → Failure
  | .ok report => reported report
  | .error e => mishap (.template e)

end Failure

/-- A computation on a state that may fail.  What it did to the state before
it failed remains done. -/
abbrev Task := EStateM Failure

namespace Task

def parse (text : String) : Task σ Term :=
  match Surface.parse text with
  | .ok t => pure t
  | .error r => throw (.ofRejection r)

def filled (x : Except Text.TemplateFault α) : Task σ α :=
  match x with
  | .ok a => pure a
  | .error e => throw (.mishap (.template e))

def display (t : Term) (ctx : Context) : Task σ String :=
  match Surface.display t ctx with
  | .ok text => pure text
  | .error e => throw (.mishap (.outOfScope e))

def limit (setting : Reduction.Limit.Setting) : Task σ Reduction.Limit :=
  match Reduction.Limit.ofSetting setting with
  | .ok limit => pure limit
  | .error e => throw (.mishap (.noLimit e))

end Task
end Nameless
