/-!
# Styles

A message marks what weighs more in it and how severe it is.  What a marked
text looks like is up to the style.
-/

namespace Nameless

inductive Severity where
  | error
  | warning
deriving DecidableEq

def Severity.label : Severity → String
  | error => "error: "
  | warning => "warning: "

structure Style where
  bold : String → String
  vivid : Severity → String → String

namespace Style

/-- Marked texts look like all others. -/
def plain : Style where
  bold := id
  vivid _ := id

@[simp] theorem bold_plain (text : String) : plain.bold text = text := rfl

@[simp] theorem vivid_plain (severity : Severity) (text : String) :
    plain.vivid severity text = text := rfl

end Style
end Nameless
