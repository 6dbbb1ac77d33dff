import Nameless.Proofs.Reduction.Derivation
import Nameless.Reduction.Reducer

/-!
# What a reducer's runs achieve

A run takes as many contraction steps as it charges to its limit, and a run
that leaves budget over ends with a normal term.  From then on the reducer
rests.
-/

namespace Nameless.Reduction.Reducer

open Relation (ReflTransGen)

theorem walks_reduce (reducer : Reducer) (limit : Limit) :
    Walks limit reducer.term (reducer.reduce limit).limit
      (reducer.reduce limit).reducer.term
      (reducer.reduce limit).progressed :=
  walks_walk limit reducer.term

theorem steps_reduce (reducer : Reducer) (limit : Limit) :
    (reducer.reduce limit).reducer.steps =
      reducer.steps +
        (limit.remaining - (reducer.reduce limit).limit.remaining).toNat := rfl

theorem reduce_of_spent (reducer : Reducer) {limit : Limit}
    (h : limit.allows = false) :
    reducer.reduce limit = ⟨reducer, limit, false⟩ := by
  simp [reduce, walk_of_spent h, Walk.idle]

/-- The exact account of a run on a budget of `n` steps. -/
theorem reduce_takes_steps (reducer : Reducer) (n : Nat) :
    ∃ k : Nat,
      Term.Steps k reducer.term (reducer.reduce ⟨n⟩).reducer.term ∧
      k ≤ n ∧
      (reducer.reduce ⟨n⟩).limit.remaining = n - k ∧
      ((reducer.reduce ⟨n⟩).progressed = true ↔ 0 < k) ∧
      (reducer.reduce ⟨n⟩).reducer.steps = reducer.steps + k ∧
      (k = 0 → (reducer.reduce ⟨n⟩).reducer.term = reducer.term) ∧
      ∀ limit t, ReflTransGen Enters (⟨n⟩, reducer.term) (limit, t) →
        0 ≤ limit.remaining ∧ 0 ≤ (walk limit t).left.remaining := by
  have hwalk := reducer.walks_reduce ⟨n⟩
  obtain ⟨k, hsteps, hleft, hprogress⟩ := hwalk.exists_steps
  have hnonneg := hwalk.left_nonneg (Int.natCast_nonneg n)
  refine ⟨k, hsteps, ?_, ?_, hprogress, ?_, ?_, ?_⟩
  · dsimp only at hleft
    omega
  · dsimp only at hleft
    omega
  · rw [steps_reduce]
    dsimp only at hleft ⊢
    omega
  · rintro rfl
    exact hsteps.eq_of_zero.symm
  · intro limit t hreach
    have hlimit := nonneg_of_reaches hreach (Int.natCast_nonneg n)
    exact ⟨hlimit, left_walk_nonneg hlimit t⟩

/-! ## Reducers at rest -/

/-- The runs of one reducer under limits given one after the other. -/
def runs (reducer : Reducer) : List Limit → List Run
  | [] => []
  | limit :: limits =>
    reducer.reduce limit :: (reducer.reduce limit).reducer.runs limits

theorem reduce_of_normal {reducer : Reducer} (h : reducer.term.Normal)
    (limit : Limit) : reducer.reduce limit = ⟨reducer, limit, false⟩ := by
  have hwalk := walks_walk limit reducer.term
  rw [hwalk.idle_of_normal h] at hwalk
  obtain ⟨hleft, hterm⟩ := hwalk.idle
  simp only [reduce, hterm, hleft, (walks_walk limit reducer.term).idle_of_normal h]
  simp

theorem runs_of_normal {reducer : Reducer} (h : reducer.term.Normal)
    (limits : List Limit) :
    reducer.runs limits = limits.map fun limit ↦ ⟨reducer, limit, false⟩ := by
  induction limits with
  | nil => rfl
  | cons limit limits ih =>
      rw [runs, reduce_of_normal h limit, ih, List.map_cons]

theorem reduce_progressed_eq_false_iff {reducer : Reducer} {limit : Limit}
    (hlimit : limit.allows = true) :
    (reducer.reduce limit).progressed = false ↔ reducer.term.Normal := by
  constructor
  · intro h
    have hwalk := reducer.walks_reduce limit
    rw [h] at hwalk
    obtain ⟨hleft, hterm⟩ := hwalk.idle
    rw [← hterm]
    apply hwalk.normal
    rw [hleft]
    exact hlimit
  · intro h
    rw [reduce_of_normal h limit]

theorem normal_of_left {reducer : Reducer} {limit : Limit}
    (h : 0 < (reducer.reduce limit).limit.remaining) :
    (reducer.reduce limit).reducer.term.Normal :=
  (reducer.walks_reduce limit).normal (Limit.allows_iff.2 h)

/-- Budget left over means a normal term, no progress under a positive limit
means that the term was normal, and after either of them the reducer rests
whatever limits are still to come. -/
theorem reduce_reaches_rest (reducer : Reducer) (limit : Limit) :
    (0 < (reducer.reduce limit).limit.remaining →
      (reducer.reduce limit).reducer.term.Normal) ∧
    (0 < limit.remaining →
      ((reducer.reduce limit).progressed = false ↔ reducer.term.Normal)) ∧
    ((reducer.reduce limit).progressed = false ∧ 0 < limit.remaining ∨
        0 < (reducer.reduce limit).limit.remaining →
      ∀ later : List Limit,
        (reducer.reduce limit).reducer.runs later =
          later.map fun limit' ↦
            ⟨(reducer.reduce limit).reducer, limit', false⟩) := by
  refine ⟨normal_of_left, ?_, ?_⟩
  · intro hlimit
    exact reduce_progressed_eq_false_iff (Limit.allows_iff.2 hlimit)
  · intro h later
    apply runs_of_normal
    rcases h with ⟨hidle, hlimit⟩ | hleft
    · have hnormal :=
        (reduce_progressed_eq_false_iff (Limit.allows_iff.2 hlimit)).1 hidle
      rwa [reduce_of_normal hnormal limit]
    · exact normal_of_left hleft

/-- `λz.(λw.w) z`, where the β-redex and the η-redex overlap. -/
def overlap : Term :=
  .lam "z" (.app (.lam "w" (.var 0)) (.var 0))

/-- `(λa.a) (λz.(λw.w) z) y`, which one run takes through the η-redex, and a
run that starts anew after the first step does not. -/
def delayed : Term :=
  .app (.app (.lam "a" (.var 0)) overlap) (.var 0)

theorem reduce_reaches_rest_delayed :
    0 < ((ofTerm delayed).reduce ⟨9⟩).limit.remaining ∧
    ((ofTerm delayed).reduce ⟨9⟩).reducer.term.Normal ∧
    ((ofTerm delayed).reduce ⟨9⟩).reducer.runs [⟨0⟩, ⟨4⟩] =
      [⟨((ofTerm delayed).reduce ⟨9⟩).reducer, ⟨0⟩, false⟩,
        ⟨((ofTerm delayed).reduce ⟨9⟩).reducer, ⟨4⟩, false⟩] := by
  have hleft : 0 < ((ofTerm delayed).reduce ⟨9⟩).limit.remaining := by cbv
  obtain ⟨hnormal, -, hrest⟩ := reduce_reaches_rest (ofTerm delayed) ⟨9⟩
  exact ⟨hleft, hnormal hleft, hrest (.inr hleft) [⟨0⟩, ⟨4⟩]⟩

end Nameless.Reduction.Reducer
