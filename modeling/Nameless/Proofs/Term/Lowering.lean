import Nameless.Proofs.Term.Occurrences

/-!
# Lowering undoes shifting

Shifting makes room for a band of binders that nothing refers to.  Such a band
is all that lowering needs: it takes the band away again, and it hands back
every other term as it was, although the halves of applications in it may have
been lowered and raised again before the refusal.
-/

namespace Nameless.Term

/-- No variable refers to one of the `count` binders from `start` on. -/
def Avoids (start count : Int) (t : Term) : Prop :=
  ∀ i, start ≤ i → i < start + count → t.occurrences i = 0

variable {start count : Int}

theorem avoids_var_iff {k : Int} :
    (var k).Avoids start count ↔ k < start ∨ start + count ≤ k := by
  constructor
  · intro h
    by_contra hband
    have hk := h k (by omega) (by omega)
    rw [occurrences_var_self] at hk
    cases hk
  · intro hk i hlow hhigh
    exact occurrences_var_of_ne (by omega)

theorem avoids_app_iff {fn arg : Term} :
    (app fn arg).Avoids start count ↔
      fn.Avoids start count ∧ arg.Avoids start count := by
  constructor
  · intro h
    constructor
    · intro i hlow hhigh
      exact (Nat.add_eq_zero_iff.1 (h i hlow hhigh)).1
    · intro i hlow hhigh
      exact (Nat.add_eq_zero_iff.1 (h i hlow hhigh)).2
  · rintro ⟨hfn, harg⟩ i hlow hhigh
    rw [occurrences_app, hfn i hlow hhigh, harg i hlow hhigh]

theorem avoids_lam_iff {param : String} {body : Term} :
    (lam param body).Avoids start count ↔ body.Avoids (start + 1) count := by
  constructor
  · intro h i hlow hhigh
    have hi := h (i - 1) (by omega) (by omega)
    rwa [occurrences_lam, Int.sub_add_cancel] at hi
  · intro h i hlow hhigh
    exact h (i + 1) (by omega) (by omega)

/-- A term can be lowered past the binders that it does not refer to. -/
theorem exists_lower_iff_avoids {t : Term} :
    (∃ u, t.lower start count = .ok u) ↔ t.Avoids start count := by
  induction t generalizing start with
  | var k =>
      rw [avoids_var_iff, lower]
      by_cases hhigh : start + count ≤ k
      · rw [if_pos hhigh]
        exact iff_of_true ⟨_, rfl⟩ (.inr hhigh)
      · rw [if_neg hhigh]
        by_cases hlow : k < start
        · rw [if_pos hlow]
          exact iff_of_true ⟨_, rfl⟩ (.inl hlow)
        · rw [if_neg hlow]
          refine iff_of_false ?_ (by omega)
          rintro ⟨_, h⟩
          cases h
  | app fn arg ihFn ihArg =>
      rw [avoids_app_iff, ← ihFn, ← ihArg, lower]
      cases fn.lower start count with
      | error fn' => simp
      | ok fn' =>
          cases arg.lower start count with
          | error arg' => simp
          | ok arg' => simp
  | lam param body ih =>
      rw [avoids_lam_iff, ← ih, lower]
      cases body.lower (start + 1) count with
      | error body' => simp
      | ok body' => simp

/-- A band of one binder is avoided by the terms in which its index does not
occur. -/
theorem avoids_one_iff {idx : Int} {t : Term} :
    t.Avoids idx 1 ↔ t.occurrences idx = 0 := by
  constructor
  · intro h
    exact h idx le_rfl (by omega)
  · intro h i hlow hhigh
    rwa [show i = idx by omega]

/-- Lowering gives the term that the shift took here, of which there is at most
one; there is one exactly if nothing refers to the band.  Otherwise the term is
handed back as it was, names and all. -/
theorem lower_inverts_shift (t : Term) (start count : Nat) :
    (∀ u, t.lower start count = .ok u ↔ u.shift start count = t) ∧
    ((∃ u, t.lower start count = .ok u) ↔
      ∃! u : Term, u.shift start count = t) ∧
    ((∃ u : Term, u.shift start count = t) ↔ t.Avoids start count) ∧
    (∀ u, t.lower start count = .error u ↔
      ¬ t.Avoids start count ∧ u = t) ∧
    (t.shift start count).lower start count = .ok t := by
  have hcount : (0 : Int) ≤ count := Int.natCast_nonneg count
  have hok : ∀ u, t.lower start count = .ok u ↔ u.shift start count = t :=
    fun u ↦ lower_eq_ok_iff hcount
  have hband : (∃ u : Term, u.shift start count = t) ↔
      t.Avoids start count := by
    rw [← exists_lower_iff_avoids]
    exact exists_congr fun u ↦ (hok u).symm
  refine ⟨hok, ?_, hband, ?_, lower_shift start hcount t⟩
  · constructor
    · rintro ⟨u, hu⟩
      refine ⟨u, (hok u).1 hu, fun v hv ↦ ?_⟩
      exact shift_injective hcount (hv.trans ((hok u).1 hu).symm)
    · rintro ⟨u, hu, -⟩
      exact ⟨u, (hok u).2 hu⟩
  · intro u
    cases h : t.lower start count with
    | ok v =>
        have havoids : t.Avoids start count :=
          exists_lower_iff_avoids.1 ⟨v, h⟩
        simp [havoids]
    | error v =>
        have hrefers : ¬ t.Avoids start count := by
          rw [← exists_lower_iff_avoids, h]
          simp
        rw [lower_error h]
        simp [hrefers, eq_comm]

end Nameless.Term
