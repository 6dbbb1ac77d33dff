import Nameless.Proofs.Reduction.Derivation

/-!
# Walks through the nodes around a place

A frame is a node with a place for one of its children.  What a walk does at a
node it does in one of four ways, whatever the node is: the limit is spent, the
term is normal, the node is contracted, or a walk of one child makes progress
and the node is looked at again.
-/

namespace Nameless.Reduction

open Term (Rule)

/-- A node around a place, with what stands beside the place. -/
inductive Frame where
  | fnSide (arg : Term)
  | argSide (fn : Term)
  | body (param : String)

namespace Frame

def wrap : Frame → Term → Term
  | fnSide arg, t => .app t arg
  | argSide fn, t => .app fn t
  | body param, t => .lam param t

/-- What a walk looks at before it comes to the place is normal. -/
def Passed : Frame → Prop
  | argSide fn => fn.Normal
  | _ => True

variable {frame : Frame} {t u : Term}

theorem step_wrap (frame : Frame) (h : Term.Step t u) :
    Term.Step (frame.wrap t) (frame.wrap u) := by
  cases frame with
  | fnSide arg => exact .fn arg h
  | argSide fn => exact .arg fn h
  | body param => exact .body param h

theorem normal_of_wrap (h : (frame.wrap t).Normal) : t.Normal := by
  cases frame with
  | fnSide arg => exact (Term.normal_app_iff.1 h).2.1
  | argSide fn => exact (Term.normal_app_iff.1 h).2.2
  | body param => exact (Term.normal_lam_iff.1 h).2

end Frame

namespace Walks

variable {limit mid left left' : Limit} {frame : Frame} {t t' u u' : Term}
  {progressed progressed' : Bool}

theorem unique (h : Walks limit t left u progressed)
    (h' : Walks limit t left' u' progressed') :
    left = left' ∧ u = u' ∧ progressed = progressed' := by
  obtain ⟨_, _, h⟩ := h.walk_eq
  obtain ⟨_, _, h'⟩ := h'.walk_eq
  rw [h, Walk.mk.injEq] at h'
  exact ⟨h'.2.1, h'.1, h'.2.2⟩

/-- Nothing is done under a limit that is spent. -/
theorem of_spent (h : Walks limit t left u progressed)
    (hlimit : limit.allows = false) : left = limit ∧ u = t := by
  obtain ⟨hleft, hu, -⟩ := h.unique (.spent t hlimit)
  exact ⟨hleft, hu⟩

theorem of_normal (limit : Limit) (h : t.Normal) :
    Walks limit t limit t false := by
  have hwalk := walks_walk limit t
  rw [hwalk.idle_of_normal h] at hwalk
  obtain ⟨hleft, hterm⟩ := hwalk.idle
  rwa [hleft, hterm] at hwalk

theorem allows_of_progress (h : Walks limit t left u true) :
    limit.allows = true := by
  cases h <;> assumption

theorem through (hroot : ¬ (frame.wrap t).IsRedex) (hpassed : frame.Passed)
    (ht : Walks limit t mid t' true)
    (hw : Walks mid (frame.wrap t') left u progressed) :
    Walks limit (frame.wrap t) left u true := by
  have h := ht.allows_of_progress
  cases frame with
  | fnSide arg => exact .fn h hroot ht hw
  | argSide fn => exact .arg h hroot (of_normal limit hpassed) ht hw
  | body param => exact .body h hroot ht hw

@[elab_as_elim]
theorem node_induction
    {motive : ∀ {limit left : Limit} {t u : Term} {progressed : Bool},
      Walks limit t left u progressed → Prop}
    (spent : ∀ {limit : Limit} (t : Term) (h : limit.allows = false),
      motive (.spent t h))
    (rest : ∀ {limit : Limit} {t : Term} (_ : limit.allows = true)
      (ht : t.Normal), motive (of_normal limit ht))
    (contract : ∀ {limit left : Limit} {t c u : Term} {progressed : Bool}
      (h : limit.allows = true) (hc : Rule t c)
      (hw : Walks limit.spend c left u progressed),
      motive hw → motive (.contract h hc hw))
    (child : ∀ {limit mid left : Limit} (frame : Frame) {t t' u : Term}
      {progressed : Bool} (hroot : ¬ (frame.wrap t).IsRedex)
      (hpassed : frame.Passed) (ht : Walks limit t mid t' true)
      (hw : Walks mid (frame.wrap t') left u progressed),
      motive ht → motive hw → motive (through hroot hpassed ht hw))
    (h : Walks limit t left u progressed) : motive h := by
  induction h with
  | spent t h => exact spent t h
  | var k h => exact rest h (Term.normal_var k)
  | contract h hc hw ih => exact contract h hc hw ih
  | @fn _ _ _ _ arg _ _ _ h hroot hfn hw ihFn ih =>
      exact child (.fnSide arg) hroot trivial hfn hw ihFn ih
  | @arg _ _ _ _ _ _ fn' _ _ _ h hroot hfn harg hw _ ihArg ih =>
      have hnormal := hfn.normal
      obtain ⟨rfl, rfl⟩ := hfn.idle
      exact child (.argSide fn') hroot (hnormal h) harg hw ihArg ih
  | app h hroot hfn harg =>
      have hfnNormal := hfn.normal
      have hargNormal := harg.normal
      obtain ⟨rfl, rfl⟩ := hfn.idle
      obtain ⟨rfl, rfl⟩ := harg.idle
      exact rest h
        (Term.normal_app_iff.2 ⟨hroot, hfnNormal h, hargNormal h⟩)
  | @body _ _ _ param _ _ _ _ h hroot hbody hw ihBody ih =>
      exact child (.body param) hroot trivial hbody hw ihBody ih
  | lam h hroot hbody =>
      have hbodyNormal := hbody.normal
      obtain ⟨rfl, rfl⟩ := hbody.idle
      exact rest h (Term.normal_lam_iff.2 ⟨hroot, hbodyNormal h⟩)

/-- A walk of a node that is no redex first walks its child, and goes on as a
walk of the node does that finds the child so. -/
theorem after_child (h : Walks limit (frame.wrap t) left u progressed)
    (hpassed : frame.Passed) (hrest : (frame.wrap t).IsRedex → t.Normal)
    (ht : Walks limit t mid t' progressed') :
    ∃ p, Walks mid (frame.wrap t') left u p := by
  cases progressed' with
  | false =>
      obtain ⟨rfl, rfl⟩ := ht.idle
      exact ⟨_, h⟩
  | true =>
      have hroot : ¬ (frame.wrap t).IsRedex := by
        intro hredex
        cases ht.idle_of_normal (hrest hredex)
      have hnext := walks_walk mid (frame.wrap t')
      obtain ⟨hleft, hu, -⟩ := h.unique (through hroot hpassed ht hnext)
      rw [← hleft, ← hu] at hnext
      exact ⟨_, hnext⟩

end Walks
end Nameless.Reduction
