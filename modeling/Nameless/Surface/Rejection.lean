import Nameless.Report.Basic
import Nameless.Surface.Parser

/-!
# Rejections

A rejection is a fault seen from the text as a whole: the text, the place of
the fault in it, and the cause.
-/

namespace Nameless.Surface

structure Rejection where
  text : String
  pos : Nat
  cause : Cause
deriving DecidableEq

namespace Rejection

def ofFault (text : List Char) (fault : Fault) : Rejection :=
  ⟨String.ofList text, text.length - fault.rest.length, fault.cause⟩

/-- The text from the place of the fault on. -/
def rest (r : Rejection) : String := Text.after r.text r.pos

/-- Whether nothing follows the place of the fault. -/
def isAtEnd (r : Rejection) : Bool := r.pos == r.text.length

def template (r : Rejection) : String :=
  match r.cause with
  | .noExpression =>
    if r.isAtEnd then "expected expression instead of end of input"
    else "expected expression instead of: '\x7b1\x7d'"
  | .leftOver =>
    "expected expression or end of input instead of: '\x7b1\x7d'"
  | .unbound _ => "variable '\x7b2\x7d' not found"
  | .noParameter => "expected parameter name instead of: '\x7b1\x7d'"
  | .noDot => "expected '.' instead of: '\x7b1\x7d'"
  | .unclosed =>
    if r.isAtEnd then "expected ')' instead of end of input"
    else "expected ')' instead of: '\x7b1\x7d'"

def excerpts (r : Rejection) : List String :=
  match r.cause with
  | .unbound name => [r.text, r.rest, name]
  | _ => [r.text, r.rest]

/-- Where the span at fault ends, or `-1` for the end of the text. -/
def stop (r : Rejection) : Int :=
  match r.cause with
  | .unbound name => r.pos + name.length
  | _ => -1

def report (r : Rejection) : Except Text.TemplateFault Report :=
  Report.new r.template r.excerpts r.pos r.stop true false

end Rejection

def parse (text : String) : Except Rejection Term :=
  (wholeTerm text.toList).outcome.mapError (Rejection.ofFault text.toList)

end Nameless.Surface
