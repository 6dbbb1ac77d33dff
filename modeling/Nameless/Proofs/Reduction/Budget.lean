import Nameless.Proofs.Reduction.Frame
import Nameless.Proofs.Reduction.Reducer

/-!
# Larger budgets

A walk that is granted one step more goes the same way.  If there was budget
left already, it ends with the same term.  Otherwise it finds nothing to do
with the further step, or contracts one redex more: a limit that runs out deep
inside a term stops every node around, and none of them contracts anything
while the walk comes back to the root.
-/

namespace Nameless.Reduction

namespace Limit

/-- The limit with `k` further steps. -/
def extend (limit : Limit) (k : Nat) : Limit := ⟨limit.remaining + k⟩

@[simp] theorem remaining_extend (limit : Limit) (k : Nat) :
    (limit.extend k).remaining = limit.remaining + k := rfl

@[simp] theorem extend_zero (limit : Limit) : limit.extend 0 = limit :=
  Limit.ext (Int.add_zero _)

theorem extend_succ (limit : Limit) (k : Nat) :
    limit.extend (k + 1) = (limit.extend k).extend 1 :=
  Limit.ext (Int.add_assoc limit.remaining k 1).symm

theorem spend_extend (limit : Limit) (k : Nat) :
    (limit.extend k).spend = limit.spend.extend k :=
  Limit.ext (by simp only [remaining_spend, remaining_extend]; omega)

theorem spend_extend_one (limit : Limit) : (limit.extend 1).spend = limit :=
  Limit.ext (Int.add_sub_cancel limit.remaining 1)

theorem allows_extend {limit : Limit} (h : limit.allows = true) (k : Nat) :
    (limit.extend k).allows = true := by
  rw [allows_iff] at h ⊢
  rw [remaining_extend]
  omega

end Limit

variable {limit left : Limit} {t u : Term} {progressed : Bool}

/-- A single step either finds nothing to do or is one contraction. -/
theorem Walks.of_single (h : Walks limit t left u progressed)
    (hlimit : limit.remaining = 1) :
    left = limit ∧ u = t ∧ progressed = false ∨
      left = limit.spend ∧ Term.Step t u ∧ progressed = true := by
  obtain ⟨k, hsteps, hleft, hprogress⟩ := h.exists_steps
  have hnonneg := h.left_nonneg (by omega)
  cases hsteps with
  | refl =>
      refine .inl ⟨Limit.ext (by omega), rfl, ?_⟩
      simpa using hprogress
  | @head k _ _ _ hstep hrest =>
      have hk : k = 0 := by omega
      subst hk
      obtain rfl := hrest.eq_of_zero
      refine .inr ⟨Limit.ext ?_, hstep, hprogress.2 Nat.one_pos⟩
      rw [Limit.remaining_spend]
      omega

theorem walks_single_of_spent (t : Term) (h : limit.allows = false) :
    Walks (limit.extend 1) t (limit.extend 1) t false ∨
      ∃ v, Walks (limit.extend 1) t limit v true ∧ Term.Step t v := by
  by_cases hone : (limit.extend 1).allows = true
  · have hzero : limit.remaining = 0 := by
      rw [Limit.allows_iff, Limit.remaining_extend] at hone
      rw [← Bool.not_eq_true, Limit.allows_iff] at h
      omega
    have hwalk := walks_walk (limit.extend 1) t
    rcases hwalk.of_single (by simp [hzero]) with
      ⟨hleft, hterm, hidle⟩ | ⟨hleft, hstep, hprogress⟩
    · rw [hleft, hterm, hidle] at hwalk
      exact .inl hwalk
    · rw [hleft, hprogress, Limit.spend_extend_one] at hwalk
      exact .inr ⟨_, hwalk, hstep⟩
  · exact .inl (.spent t (Bool.eq_false_of_not_eq_true hone))

/-- One step more leaves a walk as it was with one step more left over, or
lets it contract one redex more where it had nothing left. -/
theorem Walks.extend_one (h : Walks limit t left u progressed) :
    Walks (limit.extend 1) t (left.extend 1) u progressed ∨
      left.allows = false ∧
        ∃ v, Walks (limit.extend 1) t left v true ∧ Term.Step u v := by
  induction h using Walks.node_induction with
  | spent t h =>
      rcases walks_single_of_spent t h with hw | hw
      · exact .inl hw
      · exact .inr ⟨h, hw⟩
  | rest h ht => exact .inl (.of_normal _ ht)
  | contract h hc hw ih =>
      have h' := Limit.allows_extend h 1
      rw [← Limit.spend_extend] at ih
      rcases ih with hw' | ⟨hspent, v, hw', hstep⟩
      · exact .inl (.contract h' hc hw')
      · exact .inr ⟨hspent, v, .contract h' hc hw', hstep⟩
  | child frame hroot hpassed ht hw ihChild ih =>
      rcases ihChild with ht' | ⟨hspent, t'', ht', hstep⟩
      · rcases ih with hw' | ⟨hspent, v, hw', hstep⟩
        · exact .inl (.through hroot hpassed ht' hw')
        · exact .inr ⟨hspent, v, .through hroot hpassed ht' hw', hstep⟩
      · -- the further step is spent in the child, and none is left
        obtain ⟨rfl, rfl⟩ := hw.of_spent hspent
        exact .inr ⟨hspent, frame.wrap t'',
          .through hroot hpassed ht' (.spent _ hspent), frame.step_wrap hstep⟩

/-- What a walk leaves over it does not miss. -/
theorem Walks.extend (h : Walks limit t left u progressed)
    (hleft : left.allows = true) (k : Nat) :
    Walks (limit.extend k) t (left.extend k) u progressed := by
  induction k with
  | zero => simpa using h
  | succ k ih =>
      rw [Limit.extend_succ limit, Limit.extend_succ left]
      exact ih.extend_one.resolve_right
        (by simp [Limit.allows_extend hleft k])

namespace Reducer

theorem reduce_of_walks {reducer : Reducer}
    (h : Walks limit reducer.term left u progressed) :
    reducer.reduce limit =
      ⟨⟨u, reducer.steps + (limit.remaining - left.remaining).toNat⟩, left,
        progressed⟩ := by
  obtain ⟨_, _, hwalk⟩ := h.walk_eq
  simp only [reduce, hwalk]

/-- A run that only leaves over what its limit was extended by. -/
theorem reduce_of_walks_extend {reducer : Reducer} {k : Nat}
    (h : Walks (limit.extend k) reducer.term
      ((reducer.reduce limit).limit.extend k)
      (reducer.reduce limit).reducer.term progressed) :
    reducer.reduce (limit.extend k) =
      ⟨(reducer.reduce limit).reducer, (reducer.reduce limit).limit.extend k,
        progressed⟩ := by
  rw [reduce_of_walks h, Limit.remaining_extend, Limit.remaining_extend,
    Int.add_sub_add_right, ← steps_reduce]

theorem reduce_extend (reducer : Reducer) (limit : Limit) (k : Nat)
    (hleft : 0 < (reducer.reduce limit).limit.remaining) :
    reducer.reduce (limit.extend k) =
      ⟨(reducer.reduce limit).reducer, (reducer.reduce limit).limit.extend k,
        (reducer.reduce limit).progressed⟩ :=
  reduce_of_walks_extend
    ((reducer.walks_reduce limit).extend (Limit.allows_iff.2 hleft) k)

theorem reduce_extend_one (reducer : Reducer) (limit : Limit) :
    reducer.reduce (limit.extend 1) =
        ⟨(reducer.reduce limit).reducer, (reducer.reduce limit).limit.extend 1,
          (reducer.reduce limit).progressed⟩ ∨
      ∃ v, Term.Step (reducer.reduce limit).reducer.term v ∧
        reducer.reduce (limit.extend 1) =
          ⟨⟨v, (reducer.reduce limit).reducer.steps + 1⟩,
            (reducer.reduce limit).limit, true⟩ := by
  rcases (reducer.walks_reduce limit).extend_one with h | ⟨-, v, h, hstep⟩
  · exact .inl (reduce_of_walks_extend h)
  · refine .inr ⟨v, hstep, ?_⟩
    have hle : (reducer.reduce limit).limit.remaining ≤ limit.remaining :=
      (walk limit reducer.term).left_le
    rw [reduce_of_walks h, Limit.remaining_extend, steps_reduce,
      Nat.add_assoc]
    congr 3
    omega

/-- A run that leaves budget over is the run on every larger budget.  A run
that leaves none has taken all its steps, and one step more is either left over
or contracts one redex of the term that it came to. -/
theorem larger_budget_extends_run (reducer : Reducer) (n : Nat) :
    0 < (reducer.reduce ⟨n⟩).limit.remaining ∧
        (∀ m : Nat,
          (reducer.reduce ⟨n + m⟩).reducer = (reducer.reduce ⟨n⟩).reducer) ∨
      (reducer.reduce ⟨n⟩).limit.remaining = 0 ∧
        (reducer.reduce ⟨n⟩).reducer.steps = reducer.steps + n ∧
        ((reducer.reduce ⟨n + 1⟩).reducer = (reducer.reduce ⟨n⟩).reducer ∧
            (reducer.reduce ⟨n + 1⟩).limit.remaining = 1 ∨
          Term.Step (reducer.reduce ⟨n⟩).reducer.term
              (reducer.reduce ⟨n + 1⟩).reducer.term ∧
            (reducer.reduce ⟨n + 1⟩).reducer.steps = reducer.steps + n + 1 ∧
            (reducer.reduce ⟨n + 1⟩).limit.remaining = 0) := by
  by_cases hleft : 0 < (reducer.reduce ⟨n⟩).limit.remaining
  · refine .inl ⟨hleft, fun m ↦ ?_⟩
    have hrun : reducer.reduce ⟨n + m⟩ = _ := reducer.reduce_extend ⟨n⟩ m hleft
    rw [hrun]
  · have hzero : (reducer.reduce ⟨n⟩).limit.remaining = 0 := by
      have := (reducer.walks_reduce ⟨n⟩).left_nonneg (Int.natCast_nonneg n)
      omega
    have hsteps : (reducer.reduce ⟨n⟩).reducer.steps = reducer.steps + n := by
      rw [steps_reduce, hzero, Int.sub_zero, Int.toNat_natCast]
    refine .inr ⟨hzero, hsteps, ?_⟩
    have hmore := reducer.reduce_extend_one ⟨n⟩
    rw [show (⟨n⟩ : Limit).extend 1 = ⟨n + 1⟩ from rfl] at hmore
    rcases hmore with hrun | ⟨v, hstep, hrun⟩
    · rw [hrun, Limit.remaining_extend, hzero]
      exact .inl ⟨rfl, rfl⟩
    · rw [hrun, hsteps, hzero]
      exact .inr ⟨hstep, rfl, rfl⟩

end Reducer

end Nameless.Reduction
