import Nameless.Report.Style
import Nameless.Text.Slice
import Nameless.Text.Template.Basic

/-!
# Reports

A report is a message with excerpts filled into it.  The first excerpt is the
expression at fault, and a span of it is marked when the report is shown.
Bounds of the span are signed: what lies outside the expression is cut off.
-/

namespace Nameless

open Text (TemplateFault)

structure Report where
  template : String
  excerpts : List String
  start : Int
  stop : Int
  /-- Whether the expression is shown with its span marked. -/
  diagnosis : Bool
  /-- Whether the fault is the program's own. -/
  isInternal : Bool
  message : String
deriving DecidableEq

namespace Report

/-- The expression at fault, which is empty if there are no excerpts. -/
def expressionOf (excerpts : List String) : String := excerpts.headD ""

def expression (report : Report) : String := expressionOf report.excerpts

/-- A report, unless its template cannot be filled.  The span reaches to the
end of the expression if `stop` is `-1`. -/
def new (template : String) (excerpts : List String) (start stop : Int)
    (diagnosis isInternal : Bool) : Except TemplateFault Report := do
  let message ← Text.Template.format template excerpts
  let stop : Int := if stop = -1 then (expressionOf excerpts).length else stop
  return { template, excerpts, start, stop, diagnosis, isInternal, message }

def about (template : String) (excerpts : List String)
    (diagnosis isInternal : Bool) : Except TemplateFault Report :=
  new template excerpts 0 (-1) diagnosis isInternal

def styledMessage (report : Report) (style : Style) :
    Except TemplateFault String :=
  Text.Template.format report.template (report.excerpts.map style.bold)

/-- The expression with the span marked, and a line below that points to it.
The span has at least one place. -/
def diagnose (report : Report) (style : Style) (severity : Severity) :
    String :=
  let text := report.expression
  let start := report.start
  let stop := max report.stop (start + 1)
  "  " ++ Text.before text start ++
    style.vivid severity (Text.between text start stop) ++
      Text.after text stop ++ "\n" ++
    "  " ++ Text.copies start ' ' ++
      style.vivid severity ("^" ++ Text.copies (stop - start - 1) '~')

def isDiagnosed (report : Report) : Bool :=
  !report.isInternal && !report.expression.isEmpty && report.diagnosis

end Report
end Nameless
