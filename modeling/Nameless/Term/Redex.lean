import Nameless.Term.Substitute

/-!
# Redexes at the root

A β-redex is an abstraction applied to an argument.  An η-redex is an
abstraction whose body applies a function to the bound variable and does not
use that variable otherwise.
-/

namespace Nameless.Term

/-- The contractum of `fn` applied to `arg`, if `fn` is an abstraction. -/
def beta? (fn arg : Term) : Option Term :=
  match fn with
  | lam _ body => (body.substitute 0 true (.full arg)).map Prod.fst
  | _ => none

/-- The contractum of the abstraction over `body`, or `body` handed back. -/
def eta (body : Term) : Except Term Term :=
  match body with
  | app fn (var 0) =>
    match fn.lower 0 1 with
    | .ok fn => .ok fn
    | .error fn => .error (app fn (var 0))
  | body => .error body

theorem eta_error {body u : Term} (h : eta body = .error u) : u = body := by
  unfold eta at h
  split at h
  · split at h
    · cases h
    · rename_i handed hfn
      cases h
      rw [lower_error hfn]
  · cases h
    rfl

end Nameless.Term
