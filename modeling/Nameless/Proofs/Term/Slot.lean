import Nameless.Proofs.Term.Instantiate
import Nameless.Term.Substitute

/-!
# Substitution through a slot

A value that may only be read is copied to every occurrence and stays in its
slot.  A value that may be taken leaves the slot exactly when the term does
not lower past the index, that is, when there is an occurrence to take it to.
In both cases the term that is built is the capture-avoiding substitution.
-/

namespace Nameless.Term

theorem substitute_read (t : Term) (idx : Int) (value : Term) :
    t.substitute idx false (.full value) =
      some (t.instantiate idx value, .full value) := by
  induction t generalizing idx with
  | var k =>
      rw [substitute_var]
      rcases lt_trichotomy k idx with hk | rfl | hk
      · rw [if_neg (by omega), if_neg (by omega), instantiate_var_lt hk]
      · rw [if_pos rfl, instantiate_var_self]
        rfl
      · rw [if_neg (by omega), if_pos hk, instantiate_var_gt hk]
  | app fn arg ihFn ihArg =>
      rw [substitute_app_false, ihFn, instantiate_app]
      simp [ihArg]
  | lam param body ih =>
      rw [substitute_lam, ih, instantiate_lam]
      rfl

/-- Without an occurrence, lowering is all that substitution does, and the
value stays in the slot. -/
theorem substitute_take_of_lower_ok {t u : Term} {idx : Int} (value : Term)
    (h : t.lower idx 1 = .ok u) :
    t.substitute idx true (.full value) = some (u, .full value) := by
  induction t generalizing idx u with
  | var k =>
      rw [substitute_var]
      simp only [lower] at h
      split at h
      · cases h
        rw [if_neg (by omega), if_pos (by omega)]
      · split at h
        · cases h
          rw [if_neg (by omega), if_neg (by omega)]
        · cases h
  | app fn arg ihFn ihArg =>
      simp only [lower] at h
      cases hfn : fn.lower idx 1 with
      | error handed => simp [hfn] at h
      | ok fn' =>
          cases harg : arg.lower idx 1 with
          | error handed => simp [hfn, harg] at h
          | ok arg' =>
              simp only [hfn, harg] at h
              cases h
              rw [substitute_app_of_ok _ harg, ihFn hfn]
              rfl
  | lam param body ih =>
      simp only [lower] at h
      cases hbody : body.lower (idx + 1) 1 with
      | error handed => simp [hbody] at h
      | ok body' =>
          simp only [hbody] at h
          cases h
          rw [substitute_lam, ih hbody]
          rfl

/-- With an occurrence, the last one takes the value out of the slot. -/
theorem substitute_take_of_lower_error {t u : Term} {idx : Int} (value : Term)
    (h : t.lower idx 1 = .error u) :
    t.substitute idx true (.full value) =
      some (t.instantiate idx value, .empty) := by
  induction t generalizing idx u with
  | var k =>
      have hk : k = idx := by
        simp only [lower] at h
        split at h
        · cases h
        · split at h
          · cases h
          · omega
      rw [substitute_var, if_pos hk, hk, instantiate_var_self]
      rfl
  | app fn arg ihFn ihArg =>
      simp only [lower] at h
      cases harg : arg.lower idx 1 with
      | ok arg' =>
          -- the argument is finished by lowering it, and the function takes
          cases hfn : fn.lower idx 1 with
          | ok fn' => simp [hfn, harg] at h
          | error handed =>
              rw [substitute_app_of_ok _ harg, ihFn hfn, instantiate_app,
                instantiate_of_lower_eq_ok harg]
              rfl
      | error handed =>
          rw [substitute_app_of_error _ harg, substitute_read, instantiate_app]
          simp [ihArg harg]
  | lam param body ih =>
      simp only [lower] at h
      cases hbody : body.lower (idx + 1) 1 with
      | ok body' => simp [hbody] at h
      | error handed =>
          rw [substitute_lam, ih hbody, instantiate_lam]
          rfl

theorem exists_substitute_take (t : Term) (idx : Int) (value : Term) :
    ∃ slot, t.substitute idx true (.full value) =
      some (t.instantiate idx value, slot) := by
  cases h : t.lower idx 1 with
  | ok u =>
      refine ⟨.full value, ?_⟩
      rw [substitute_take_of_lower_ok value h, instantiate_of_lower_eq_ok h]
  | error u => exact ⟨.empty, substitute_take_of_lower_error value h⟩

/-- Substitution has a result, and it is the capture-avoiding one whether the
value may be taken or only read. -/
theorem substitute_full_eq_instantiate (t value : Term) (idx : Int)
    (mayTake : Bool) :
    (t.substitute idx mayTake (.full value)).map Prod.fst =
      some (t.instantiate idx value) := by
  cases mayTake with
  | false => rw [substitute_read, Option.map_some]
  | true =>
      obtain ⟨slot, h⟩ := exists_substitute_take t idx value
      rw [h, Option.map_some]

/-! ## One substitution after another -/

/-- A copy of the term with a copy of a value in place of an index. -/
def replaced (t : Term) (idx : Int) (value : Term) (mayTake : Bool) :
    Option Term :=
  ((t.shift 0 0).substitute idx mayTake (.full (value.shift 0 0))).map
    Prod.fst

theorem replaced_eq_some (t : Term) (idx : Int) (value : Term)
    (mayTake : Bool) :
    t.replaced idx value mayTake = some (t.instantiate idx value) := by
  rw [replaced, shift_zero, shift_zero]
  cases mayTake with
  | false => rw [substitute_read, Option.map_some]
  | true =>
      obtain ⟨slot, h⟩ := exists_substitute_take t idx value
      rw [h, Option.map_some]

/-- Two indices may be given their values in either order, if the value of the
lower one is given that of the other as well.  Both orders come to one term,
names included, whichever of the values may be taken. -/
theorem replaced_in_either_order {i j : Nat} (h : i ≤ j) (t u v : Term) :
    ∃ w : Term,
      (∀ b b', (do
        let mid ← t.replaced i u b
        mid.replaced j v b') = some w) ∧
      ∀ b b' b'', (do
        let mid ← t.replaced (j + 1) v b
        let value ← u.replaced (j - i) v b'
        mid.replaced i value b'') = some w := by
  have hi : (0 : Int) ≤ i := Int.natCast_nonneg i
  have hij : (i : Int) ≤ j := Int.ofNat_le.2 h
  refine ⟨(t.instantiate i u).instantiate j v, fun b b' ↦ ?_,
    fun b b' b'' ↦ ?_⟩
  · simp only [replaced_eq_some, Option.bind_eq_bind, Option.bind_some]
  · simp only [replaced_eq_some, Option.bind_eq_bind, Option.bind_some,
      instantiate_instantiate hi hij]

/-- Below a binder, where the value of the lower index mentions the other. -/
theorem replaced_in_either_order_below_binder :
    (0 : Nat) ≤ 1 ∧ ∃ w : Term,
      w = .lam "x" (.app (.app (.var 1) (.var 6))
        (.app (.var 1) (.app (.var 0) (.var 6)))) ∧
      (∀ b b', (do
        let mid ← (Term.lam "x" (.app (.var 1) (.app (.var 2)
          (.app (.var 0) (.var 3))))).replaced (0 : Nat)
            (.app (.var 0) (.var 1)) b
        mid.replaced (1 : Nat) (.var 4) b') = some w) ∧
      ∀ b b' b'', (do
        let mid ← (Term.lam "x" (.app (.var 1) (.app (.var 2)
          (.app (.var 0) (.var 3))))).replaced ((1 : Nat) + 1) (.var 4) b
        let value ← (Term.app (.var 0) (.var 1)).replaced
          ((1 : Nat) - (0 : Nat)) (.var 4) b'
        mid.replaced (0 : Nat) value b'') = some w := by
  obtain ⟨w, hfirst, hsecond⟩ := replaced_in_either_order
    (show 0 ≤ 1 by decide)
    (.lam "x" (.app (.var 1) (.app (.var 2) (.app (.var 0) (.var 3)))))
    (.app (.var 0) (.var 1)) (.var 4)
  refine ⟨by decide, w, ?_, hfirst, hsecond⟩
  have hw := hfirst true true
  simp only [replaced_eq_some, Option.bind_eq_bind, Option.bind_some,
    Option.some.injEq] at hw
  rw [← hw]
  decide

end Nameless.Term
