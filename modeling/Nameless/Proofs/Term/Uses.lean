import Mathlib.Data.List.Basic
import Nameless.Proofs.Term.Lowering
import Nameless.Proofs.Term.Slot

/-!
# What substitution does to its slot

`substituteBy` leaves open how the value is asked for.  Asking a slot makes it
`substitute`, and asking a slot that keeps a record shows the uses in their
order: every occurrence reads the value, but the last one, if it may, takes
it.  Hence nothing is asked of a slot that is empty.
-/

namespace Nameless

namespace Slot

inductive Use where
  | read
  | take
deriving DecidableEq

/-- A slot and the uses that were made of it, the latest one last. -/
structure Recorded where
  slot : Slot
  uses : List Use

def Recorded.use (mayTake : Bool) (s : Recorded) : Option (Term × Recorded) :=
  (s.slot.use mayTake).map fun found ↦
    (found.1, ⟨found.2, s.uses ++ [if mayTake then .take else .read]⟩)

/-- The uses of a value that has `n` occurrences and may be taken. -/
def usesFor : Nat → List Use
  | 0 => []
  | n + 1 => List.replicate n .read ++ [.take]

/-- The slot of a value that had `n` occurrences and might be taken. -/
def leftAfter (value : Term) : Nat → Slot
  | 0 => full value
  | _ + 1 => empty

theorem length_usesFor (n : Nat) : (usesFor n).length = n := by
  cases n <;> simp [usesFor]

theorem count_take_usesFor_le (n : Nat) : (usesFor n).count .take ≤ 1 := by
  cases n <;> simp [usesFor, List.count_replicate]

/-- Nothing comes after the value was taken. -/
theorem eq_nil_of_usesFor {n : Nat} {before after : List Use}
    (h : usesFor n = before ++ .take :: after) : after = [] := by
  cases n with
  | zero => simp [usesFor] at h
  | succ n =>
      have hread : Use.take ∉ List.replicate n Use.read := by simp
      obtain ⟨-, -, hafter⟩ :=
        (List.append_cons_inj_of_notMem hread List.not_mem_nil).1 h
      exact hafter.symm

theorem replicate_read_append_usesFor (m n : Nat) :
    List.replicate m .read ++ usesFor (n + 1) = usesFor (m + (n + 1)) := by
  rw [usesFor, ← List.append_assoc, List.replicate_append_replicate]
  rfl

theorem isEmpty_leftAfter_iff (value : Term) (n : Nat) :
    (leftAfter value n).isEmpty = true ↔ 0 < n := by
  cases n <;> simp [leftAfter]

theorem leftAfter_eq_full_iff (value : Term) (n : Nat) :
    leftAfter value n = full value ↔ n = 0 := by
  cases n <;> simp [leftAfter, full, empty]

end Slot

namespace Term

open Slot (Recorded leftAfter usesFor)

variable {σ τ : Type}

/-- Substitution with the way in which the value is asked for left open. -/
def substituteBy (use : Bool → σ → Option (Term × σ)) :
    Term → Int → Bool → σ → Option (Term × σ)
  | var k, idx, mayTake, s =>
    if k = idx then
      (use mayTake s).map fun found ↦ (found.1.shift 0 idx, found.2)
    else if idx < k then some (var (k - 1), s)
    else some (var k, s)
  | app fn arg, idx, true, s =>
    match arg.lower idx 1 with
    | .ok arg => do
      let (fn, s) ← fn.substituteBy use idx true s
      return (app fn arg, s)
    | .error _ => do
      let (fn, s) ← fn.substituteBy use idx false s
      let (arg, s) ← arg.substituteBy use idx true s
      return (app fn arg, s)
  | app fn arg, idx, false, s => do
    let (fn, s) ← fn.substituteBy use idx false s
    let (arg, s) ← arg.substituteBy use idx false s
    return (app fn arg, s)
  | lam param body, idx, mayTake, s => do
    let (body, s) ← body.substituteBy use (idx + 1) mayTake s
    return (lam param body, s)

theorem substitute_eq_substituteBy (t : Term) (idx : Int) (mayTake : Bool)
    (slot : Slot) :
    t.substitute idx mayTake slot =
      t.substituteBy (fun mayTake slot ↦ slot.use mayTake) idx mayTake
        slot := by
  induction t generalizing idx mayTake slot with
  | var k => rw [substitute_var, substituteBy]
  | app fn arg ihFn ihArg =>
      cases mayTake with
      | false =>
          rw [substitute_app_false, substituteBy]
          simp only [ihFn, ihArg]
      | true =>
          rw [substituteBy]
          cases harg : arg.lower idx 1 with
          | ok arg' =>
              rw [substitute_app_of_ok _ harg]
              simp only [ihFn]
          | error handed =>
              rw [substitute_app_of_error _ harg]
              simp only [ihFn, ihArg]
  | lam param body ih =>
      rw [substitute_lam, substituteBy]
      simp only [ih]

/-- What is asked of a state may as well be asked of what it stands for. -/
theorem substituteBy_map {use : Bool → σ → Option (Term × σ)}
    {use' : Bool → τ → Option (Term × τ)} (f : σ → τ)
    (h : ∀ mayTake s, use' mayTake (f s) =
      (use mayTake s).map (Prod.map id f))
    (t : Term) (idx : Int) (mayTake : Bool) (s : σ) :
    t.substituteBy use' idx mayTake (f s) =
      (t.substituteBy use idx mayTake s).map (Prod.map id f) := by
  induction t generalizing idx mayTake s with
  | var k =>
      rw [substituteBy, substituteBy, h, Option.map_map]
      split
      · rw [Option.map_map]
        rfl
      · split <;> rfl
  | app fn arg ihFn ihArg =>
      cases mayTake with
      | false =>
          rw [substituteBy, substituteBy, ihFn]
          cases fn.substituteBy use idx false s with
          | none => rfl
          | some found => simp [ihArg, Option.bind_map]
      | true =>
          rw [substituteBy, substituteBy]
          cases arg.lower idx 1 with
          | ok arg' =>
              dsimp only
              rw [ihFn]
              cases fn.substituteBy use idx true s <;> rfl
          | error handed =>
              dsimp only
              rw [ihFn]
              cases fn.substituteBy use idx false s with
              | none => rfl
              | some found => simp [ihArg, Option.bind_map]
  | lam param body ih =>
      rw [substituteBy, substituteBy, ih]
      cases body.substituteBy use (idx + 1) mayTake s <;> rfl

/-- A record changes nothing in what is recorded. -/
theorem substitute_eq_recorded (t : Term) (idx : Int) (mayTake : Bool)
    (s : Recorded) :
    t.substitute idx mayTake s.slot =
      (t.substituteBy Recorded.use idx mayTake s).map
        (Prod.map id Recorded.slot) := by
  rw [substitute_eq_substituteBy]
  refine substituteBy_map Recorded.slot (fun mayTake s ↦ ?_) t idx mayTake s
  rw [Recorded.use, Option.map_map]
  cases s.slot.use mayTake <;> rfl

theorem substituteBy_recorded_read (t value : Term) (idx : Int)
    (uses : List Slot.Use) :
    t.substituteBy Recorded.use idx false ⟨.full value, uses⟩ =
      some (t.instantiate idx value, ⟨.full value,
        uses ++ List.replicate (t.occurrences idx) .read⟩) := by
  induction t generalizing idx uses with
  | var k =>
      rw [substituteBy]
      rcases lt_trichotomy k idx with hk | rfl | hk
      · rw [if_neg (by omega), if_neg (by omega), instantiate_var_lt hk,
          occurrences_var_of_ne (by omega)]
        simp
      · rw [if_pos rfl, instantiate_var_self, occurrences_var_self]
        rfl
      · rw [if_neg (by omega), if_pos hk, instantiate_var_gt hk,
          occurrences_var_of_ne (by omega)]
        simp
  | app fn arg ihFn ihArg =>
      rw [substituteBy, ihFn]
      simp [ihArg, List.replicate_append_replicate]
  | lam param body ih =>
      rw [substituteBy, ih]
      simp

theorem substituteBy_recorded_take (t value : Term) (idx : Int)
    (uses : List Slot.Use) :
    t.substituteBy Recorded.use idx true ⟨.full value, uses⟩ =
      some (t.instantiate idx value,
        ⟨leftAfter value (t.occurrences idx),
          uses ++ usesFor (t.occurrences idx)⟩) := by
  induction t generalizing idx uses with
  | var k =>
      rw [substituteBy]
      rcases lt_trichotomy k idx with hk | rfl | hk
      · rw [if_neg (by omega), if_neg (by omega), instantiate_var_lt hk,
          occurrences_var_of_ne (by omega)]
        simp [usesFor, leftAfter]
      · rw [if_pos rfl, instantiate_var_self, occurrences_var_self]
        rfl
      · rw [if_neg (by omega), if_pos hk, instantiate_var_gt hk,
          occurrences_var_of_ne (by omega)]
        simp [usesFor, leftAfter]
  | app fn arg ihFn ihArg =>
      rw [substituteBy]
      cases harg : arg.lower idx 1 with
      | ok arg' =>
          -- no use is left for the argument, and the function has the last one
          have hnone : arg.occurrences idx = 0 :=
            avoids_one_iff.1 (exists_lower_iff_avoids.1 ⟨arg', harg⟩)
          dsimp only
          rw [ihFn, occurrences_app, hnone, Nat.add_zero, instantiate_app,
            instantiate_of_lower_eq_ok harg]
          rfl
      | error handed =>
          have hsome : arg.occurrences idx ≠ 0 := by
            rw [Ne, ← avoids_one_iff, ← exists_lower_iff_avoids, harg]
            simp
          obtain ⟨n, hn⟩ := Nat.exists_eq_succ_of_ne_zero hsome
          dsimp only
          rw [substituteBy_recorded_read]
          simp only [Option.bind_eq_bind, Option.bind_some, ihArg]
          rw [occurrences_app, hn, List.append_assoc,
            Slot.replicate_read_append_usesFor]
          rfl
  | lam param body ih =>
      rw [substituteBy, ih]
      simp

/-- A value that may be taken is asked for once for each occurrence, and taken
at most once, after which it is not asked for any more.  It is gone if there
was an occurrence, and else still there.  A value that may only be read is
there in any case.  That there is a result says that no empty slot was asked. -/
theorem slot_used_in_order (t value : Term) (idx : Int) :
    (∃ u slot uses,
      t.substitute idx true (.full value) = some (u, slot) ∧
      t.substituteBy Recorded.use idx true ⟨.full value, []⟩ =
        some (u, ⟨slot, uses⟩) ∧
      uses.length = t.occurrences idx ∧ uses.count .take ≤ 1 ∧
      (∀ before after, uses = before ++ .take :: after → after = []) ∧
      (slot.isEmpty = true ↔ 0 < t.occurrences idx) ∧
      (slot = .full value ↔ t.occurrences idx = 0)) ∧
    ∃ u, t.substitute idx false (.full value) = some (u, .full value) ∧
      t.substituteBy Recorded.use idx false ⟨.full value, []⟩ =
        some (u, ⟨.full value,
          List.replicate (t.occurrences idx) .read⟩) := by
  have htake := substituteBy_recorded_take t value idx []
  have hread := substituteBy_recorded_read t value idx []
  rw [List.nil_append] at htake hread
  refine ⟨⟨_, _, _, ?_, htake, Slot.length_usesFor _,
    Slot.count_take_usesFor_le _, fun _ _ ↦ Slot.eq_nil_of_usesFor,
    Slot.isEmpty_leftAfter_iff _ _, Slot.leftAfter_eq_full_iff _ _⟩,
    _, substitute_read t idx value, hread⟩
  rw [substitute_eq_recorded t idx true ⟨.full value, []⟩, htake]
  rfl

end Term
end Nameless
