import Nameless.Surface.Rejection

/-!
# Cursors

A cursor stands somewhere in a text.  Reading can be driven step by step: a
step that fails leaves the cursor where it stopped, and the next step goes on
from there.
-/

namespace Nameless.Surface

/-- A text and what is left of it from the cursor on. -/
structure Cursor where
  text : List Char
  rest : List Char
deriving DecidableEq

inductive Step where
  | whole
  | expression (ctx : Context)
  | atom (ctx : Context)
  /-- A binder whose sign was read. -/
  | binder (ctx : Context)
  | blanks
  | char (choices : List Char)
  | name

inductive Answer where
  | nothing
  | term (t : Term)
  | flag (found : Bool)
  | name (name : String)
  | rejected (rejection : Rejection)
deriving DecidableEq

namespace Cursor

def ofList (text : List Char) : Cursor := ⟨text, text⟩

def pos (c : Cursor) : Nat := c.text.length - c.rest.length

def isAtEnd (c : Cursor) : Bool := c.rest.isEmpty

/-- The answer of a reading that was given the text from the cursor on. -/
def after (c : Cursor) (answer : α → Answer) (r : Reading α) :
    Answer × Cursor :=
  match r.outcome with
  | .ok a => (answer a, { c with rest := r.rest })
  | .error e => (.rejected (.ofFault c.text e), { c with rest := r.rest })

def perform (c : Cursor) : Step → Answer × Cursor
  | .whole => c.after .term (wholeTerm c.rest)
  | .expression ctx => c.after .term (expression ctx c.rest)
  | .atom ctx => c.after (fun t ↦ t.elim .nothing .term) (atom? ctx c.rest)
  | .binder ctx => c.after .term (binder ctx c.rest)
  | .blanks => (.nothing, { c with rest := Text.trimStart c.rest })
  | .char choices =>
    match c.rest with
    | [] => (.flag false, c)
    | d :: rest =>
      if d ∈ choices then (.flag true, { c with rest }) else (.flag false, c)
  | .name =>
    match name? c.rest with
    | none => (.nothing, c)
    | some (name, rest) => (.name name, { c with rest })

end Cursor
end Nameless.Surface
