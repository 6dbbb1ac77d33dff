/-!
# Nameless terms

A variable is the number of binders between it and the one it refers to, so
bound names carry no meaning: `lam` keeps one only for printing.  Indices are
integers.  An index that points past the outermost binder is a free variable,
and a negative one is a free variable that no context ever binds.
-/

namespace Nameless

inductive Term where
  | var (index : Int)
  | app (fn arg : Term)
  | lam (param : String) (body : Term)
deriving DecidableEq

namespace Term

def size : Term → Nat
  | var _ => 1
  | app fn arg => fn.size + arg.size + 1
  | lam _ body => body.size + 1

@[simp] theorem size_var (k : Int) : (var k).size = 1 := rfl

@[simp] theorem size_app (fn arg : Term) :
    (app fn arg).size = fn.size + arg.size + 1 := rfl

@[simp] theorem size_lam (param : String) (body : Term) :
    (lam param body).size = body.size + 1 := rfl

/-- Equality up to the names of parameters. -/
def alike : Term → Term → Bool
  | var i, var j => i == j
  | app f a, app g b => f.alike g && a.alike b
  | lam _ b, lam _ c => b.alike c
  | _, _ => false

@[simp] theorem alike_refl (t : Term) : t.alike t = true := by
  induction t with
  | var k => simp [alike]
  | app fn arg ihFn ihArg => simp [alike, ihFn, ihArg]
  | lam param body ih => simpa [alike] using ih

/-- The term carried inward under `count` further binders.  Indices below
`start` belong to binders carried along and stay as they are. -/
def shift (start count : Int) : Term → Term
  | var k => var (if start ≤ k then k + count else k)
  | app fn arg => app (fn.shift start count) (arg.shift start count)
  | lam param body => lam param (body.shift (start + 1) count)

@[simp] theorem shift_var (start count k : Int) :
    (var k).shift start count =
      var (if start ≤ k then k + count else k) := rfl

@[simp] theorem shift_app (start count : Int) (fn arg : Term) :
    (app fn arg).shift start count =
      app (fn.shift start count) (arg.shift start count) := rfl

@[simp] theorem shift_lam (start count : Int) (param : String)
    (body : Term) :
    (lam param body).shift start count =
      lam param (body.shift (start + 1) count) := rfl

@[simp] theorem size_shift (start count : Int) (t : Term) :
    (t.shift start count).size = t.size := by
  induction t generalizing start with
  | var k => simp
  | app fn arg ihFn ihArg => simp [ihFn, ihArg]
  | lam param body ih => simp [ih]

@[simp] theorem shift_zero (start : Int) (t : Term) :
    t.shift start 0 = t := by
  induction t generalizing start with
  | var k => simp
  | app fn arg ihFn ihArg => simp [ihFn, ihArg]
  | lam param body ih => simp [ih]

end Term
end Nameless
