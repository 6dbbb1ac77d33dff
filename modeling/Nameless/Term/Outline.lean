import Nameless.Term.Basic
import Nameless.Text.Quoted

/-!
# Outlines

The outline of a term names each of its nodes, with indices as they are.
-/

namespace Nameless.Term

def outline : Term → String
  | var k => s!"Variable({k})"
  | app fn arg => s!"Application({fn.outline}, {arg.outline})"
  | lam param body =>
    s!"Abstraction({Text.quoted param}, {body.outline})"

end Nameless.Term
