import Nameless.Context
import Nameless.Term.Basic

/-!
# Writing terms

Parentheses stand only where reading needs them: around an abstraction on
either side of an application, and around an application that is an argument
or a body.  A parameter that is already bound further out is written under a
fresh name, so that every variable reads back as the binder it refers to.
-/

namespace Nameless.Surface

/-- Where a term stands, which decides its parentheses. -/
inductive Position where
  | top
  | function
  | argument
  | body
deriving DecidableEq

namespace Position

def enclosesApp : Position → Bool
  | argument => true
  | body => true
  | _ => false

def enclosesLam : Position → Bool
  | function => true
  | argument => true
  | _ => false

end Position

def parenthesized (enclosed : Bool) (text : List Char) : List Char :=
  if enclosed then '(' :: text ++ [')'] else text

def render (ctx : Context) (place : Position) :
    Term → Except OutOfScope (List Char)
  | .var k => do
    let name ← ctx.nameAt k
    return name.toList
  | .app fn arg => do
    let fn ← render ctx .function fn
    let arg ← render ctx .argument arg
    return parenthesized place.enclosesApp (fn ++ ' ' :: arg)
  | .lam param body => do
    let name := ctx.freshName param
    let body ← render (ctx.push name) .body body
    return parenthesized place.enclosesLam ('λ' :: name.toList ++ '.' :: body)

/-- The term as text, its free indices bound by `ctx`. -/
def display (t : Term) (ctx : Context) : Except OutOfScope String :=
  (render ctx .top t).map String.ofList

end Nameless.Surface
