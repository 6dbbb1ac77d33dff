import Nameless.Text.Quoted

/-!
# Binder contexts

A context lists the parameters of the enclosing abstractions, innermost
first, so that a variable's index is the place of its name in the list.  The
empty context is the one every closed term is read and written in.
-/

namespace Nameless

structure Context where
  names : List String
deriving DecidableEq

/-- An index that no binder of a context answers to. -/
structure OutOfScope where
  index : Int
  depth : Nat
deriving DecidableEq

def OutOfScope.message (e : OutOfScope) : String :=
  s!"invalid De Bruijn index {e.index} in a context of depth {e.depth}"

namespace Context

def root : Context := ⟨[]⟩

def push (ctx : Context) (name : String) : Context := ⟨name :: ctx.names⟩

def pushAll (ctx : Context) (names : List String) : Context :=
  names.foldl push ctx

def depth (ctx : Context) : Nat := ctx.names.length

def isRoot (ctx : Context) : Bool := ctx.names.isEmpty

def contains (ctx : Context) (name : String) : Bool :=
  ctx.names.contains name

/-- The number of binders between here and the innermost one of that name. -/
def indexOf? (ctx : Context) (name : String) : Option Nat :=
  ctx.names.idxOf? name

def nameAt (ctx : Context) : Int → Except OutOfScope String
  | .ofNat i =>
    match ctx.names[i]? with
    | some name => .ok name
    | none => .error ⟨i, ctx.depth⟩
  | idx => .error ⟨idx, ctx.depth⟩

/-- `name`, `name1`, `name2`, … -/
def candidate (name : String) : Nat → String
  | 0 => name
  | i + 1 => name ++ toString (i + 1)

/-- The first candidate for `name` that is unbound here.  The candidates are
distinct, so one of the first `depth + 1` is unbound. -/
def freshName (ctx : Context) (name : String) : String :=
  let tries := (List.range (ctx.depth + 1)).map (candidate name)
  (tries.find? fun x ↦ !ctx.contains x).getD name

def outline (ctx : Context) : String :=
  let names := ", ".intercalate (ctx.names.map Text.quoted)
  s!"Context([{names}])"

@[simp] theorem names_push (ctx : Context) (name : String) :
    (ctx.push name).names = name :: ctx.names := rfl

end Context
end Nameless
