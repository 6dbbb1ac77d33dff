import Mathlib.Dynamics.FixedPoints.Basic
import Nameless.Proofs.Reduction.Printable

/-!
# Texts that are written again as they are

A text that was written for a term gives every parameter the name that it was
written with.  No name is bound again where it stands, so nothing is renamed
any more when the text is read and written once again: `render_freshened`.
-/

namespace Nameless

theorem Context.freshName_freshName (ctx : Context) (x : String) :
    ctx.freshName (ctx.freshName x) = ctx.freshName x :=
  freshName_of_not_mem (ctx.freshName_not_mem x)

namespace Surface

theorem render_freshened (ctx : Context) (place : Position) (t : Term) :
    render ctx place (t.freshened ctx) = render ctx place t := by
  induction t generalizing ctx place with
  | var k => rfl
  | app fn arg ihFn ihArg =>
      rw [Term.freshened, render, render, ihFn, ihArg]
  | lam param body ih =>
      rw [Term.freshened, render, render, ctx.freshName_freshName, ih]

theorem display_freshened (t : Term) (ctx : Context) :
    display (t.freshened ctx) ctx = display t ctx := by
  rw [display, render_freshened, display]

/-- In a context of distinct names, what is written for a term is what is
written for the term that is read from it. -/
theorem exists_display_again {ctx : Context} (hctx : ctx.Readable) {t : Term}
    (hparams : ∀ x ∈ t.params, IsName x) (ht : t.Scoped ctx.depth) :
    ∃ text u, display t ctx = .ok text ∧
      expression ctx text.toList = .done u [] ∧ display u ctx = .ok text := by
  obtain ⟨text, hdisplay, hread⟩ := exists_display hctx hparams ht
  exact ⟨text, t.freshened ctx, hdisplay, hread,
    (display_freshened t ctx).trans hdisplay⟩

theorem exists_parse_again {t : Term} (ht : t.Printable 0) :
    ∃ text u, display t .root = .ok text ∧ parse text = .ok u ∧
      display u .root = .ok text := by
  obtain ⟨text, u, hdisplay, hread, hagain⟩ :=
    exists_display_again Context.readable_root ht.names ht.scope
  exact ⟨text, u, hdisplay, parse_eq_ok_iff.2 ⟨[], hread, rfl⟩, hagain⟩

/-- A suffix from the first writing is part of the name in the second. -/
example :
    display (.lam "x" (.lam "x" (.lam "x" (.app (.var 0) (.var 1))))) .root =
        .ok "λx.λx1.λx2.(x2 x1)" ∧
      display (.lam "x" (.lam "x1" (.lam "x2" (.app (.var 0) (.var 1)))))
        .root = .ok "λx.λx1.λx2.(x2 x1)" :=
  ⟨rfl, rfl⟩

/-- The text that is written for the term that a text is read as. -/
def rewritten? (text : String) : Option String := do
  let t ← (parse text).toOption
  (display t .root).toOption

/-- What is written for a closed term stays as it is, names included, however
often it is read and written again. -/
theorem written_stays :
    (∀ t : Term, (∀ x ∈ t.params, IsName x) → t.Scoped 0 →
      ∃ text u, display t .root = .ok text ∧ parse text = .ok u ∧
        display u .root = .ok text) ∧
    ∀ s t, parse s = .ok t → ∃ text, display t .root = .ok text ∧
      ∀ n, (Option.bind · rewritten?)^[n] (some text) = some text := by
  refine ⟨fun t hparams ht ↦ exists_parse_again ⟨ht, hparams⟩, fun s t hs ↦ ?_⟩
  obtain ⟨text, u, hdisplay, hread, hagain⟩ :=
    exists_parse_again (printable_of_parse hs)
  have hfixed : Function.IsFixedPt (Option.bind · rewritten?) (some text) := by
    change (some text).bind rewritten? = some text
    simp [rewritten?, hread, hagain, Except.toOption]
  exact ⟨text, hdisplay, hfixed.iterate⟩

end Surface
end Nameless
