import Nameless.Proofs.Console.Announcement
import Nameless.Proofs.Text.Braces

/-!
# Mishaps

A guard announces a mishap as an unknown error and then lets it through.  The
text of the mishap is filled as a template on the way, so that it is told as
it is only if there is no brace in it: `plain_of_printed`.
-/

namespace Nameless

open Text.Template (Plain format)

namespace Mishap

def text (m : Mishap) : String := s!"unknown error: '{m.kind}: {m.message}'"

/-- The report about a mishap whose text was filled to a message. -/
def account (m : Mishap) (message : String) : Report :=
  ⟨m.text, [""], 0, 0, true, true, message⟩

theorem report_eq (m : Mishap) :
    m.report = (format m.text [""]).map m.account := by
  change (format m.text [""] >>= _) = _
  cases format m.text [""] <;> rfl

end Mishap

namespace Console

variable {α : Type} {c mid : Console} {m : Mishap}

/-! ## Settling a mishap -/

/-- A mishap was told in certain words, after where it happened. -/
def told (c : Console) (m : Mishap) (message : String) : Console :=
  { c with printed := c.printed ++ (c.whereabouts (m.account m.text) ++
      c.style.vivid .error "[internal] " ++ c.style.vivid .error "error: " ++
        message ++ "\n") }

end Console
end Nameless
