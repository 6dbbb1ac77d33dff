/-!
# Faults

Why the text of a term cannot be read, and from where on.
-/

namespace Nameless.Surface

inductive Cause where
  | noExpression
  /-- The expression is over, but the text is not. -/
  | leftOver
  | unbound (name : String)
  | noParameter
  | noDot
  | unclosed
deriving DecidableEq

/-- A cause and the text from its place on. -/
structure Fault where
  cause : Cause
  rest : List Char
deriving DecidableEq

/-- What reading came to, and the text that is left unread. -/
structure Reading (α : Type) where
  outcome : Except Fault α
  rest : List Char

namespace Reading

def done (a : α) (rest : List Char) : Reading α := ⟨.ok a, rest⟩

def failed (cause : Cause) (rest : List Char) : Reading α :=
  ⟨.error ⟨cause, rest⟩, rest⟩

def bind (r : Reading α) (next : α → List Char → Reading β) : Reading β :=
  match r.outcome with
  | .ok a => next a r.rest
  | .error e => ⟨.error e, r.rest⟩

end Reading
end Nameless.Surface
