import Nameless.Proofs.Term.Weight

/-!
# Outermost contraction

The outermost contraction takes the first redex that a look at the root, then
at the function, the argument or the body comes to, be it a β-redex or an
η-redex.  It brings every term that has a normal form nearer to one, and no
contraction at any other place undoes that.
-/

namespace Nameless.Term

open Relation (ReflTransGen)

inductive Outermost : Term → Term → Prop
  | here {t u : Term} (h : Rule t u) : Outermost t u
  | fn {fn fn' : Term} (arg : Term) (hroot : ¬ (app fn arg).IsRedex)
      (h : Outermost fn fn') : Outermost (app fn arg) (app fn' arg)
  | arg {fn arg arg' : Term} (hroot : ¬ (app fn arg).IsRedex)
      (hfn : fn.Normal) (h : Outermost arg arg') :
      Outermost (app fn arg) (app fn arg')
  | body (param : String) {body body' : Term}
      (hroot : ¬ (lam param body).IsRedex) (h : Outermost body body') :
      Outermost (lam param body) (lam param body')

theorem Outermost.step {t u : Term} (h : Outermost t u) : Step t u := by
  induction h with
  | here h => exact .here h
  | fn arg _ _ ih => exact .fn arg ih
  | arg _ _ _ ih => exact .arg _ ih
  | body param _ _ ih => exact .body param ih

theorem not_isLam_of_not_isRedex {fn arg : Term}
    (h : ¬ (app fn arg).IsRedex) : ¬ fn.IsLam := by
  intro hlam
  obtain ⟨param, body, rfl⟩ := exists_lam_of_isLam hlam
  exact h ⟨_, .beta param body arg⟩

theorem BetaNormal.of_step {t u : Term} (ht : t.BetaNormal)
    (h : Step t u) : u.BetaNormal := by
  obtain ⟨n, hn⟩ := (Parallel.of_step h).exists_weighs
  exact (hn.betaNormal ht).1

theorem BetaNormal.size_lt_of_step {t u : Term} (ht : t.BetaNormal)
    (h : Step t u) : u.size < t.size := by
  induction h with
  | here h =>
      cases h with
      | beta => exact absurd trivial ht.1
      | eta param fn =>
          rw [raise_eq_shift, size_lam, size_app, size_shift]
          omega
  | fn arg _ ih =>
      have := ih ht.2.1
      simp only [size_app]
      omega
  | arg fn _ ih =>
      have := ih ht.2.2
      simp only [size_app]
      omega
  | body param _ ih =>
      have := ih ht
      simp only [size_lam]
      omega

/-! ## Progress towards a β-normal term -/

/-- An η-contraction at the root makes the leftmost β-contraction superfluous,
or takes away a node that stands before it. -/
theorem advances_of_eta (param : String) (fn : Term) :
    (∃ t, Leftmost (lam param (app (fn.shift 0 1) (var 0))) t ∧
      Parallel t fn) ∨
    fn.front < (lam param (app (fn.shift 0 1) (var 0))).front ∧
      (fn.BetaNormal →
        (lam param (app (fn.shift 0 1) (var 0))).BetaNormal) := by
  by_cases hlam : fn.IsLam
  · obtain ⟨param', body, rfl⟩ := exists_lam_of_isLam hlam
    refine .inl ⟨lam param body, ?_, .lam param param' (.refl body)⟩
    have hbody := Leftmost.beta param' (body.shift (0 + 1) 1) (var 0)
    rw [instantiate_shift_var] at hbody
    exact .body param hbody
  · have hroot : ¬ (fn.shift 0 1).IsLam := by rwa [isLam_shift]
    refine .inr ⟨?_, fun hnormal ↦ ⟨hroot, by rwa [betaNormal_shift], trivial⟩⟩
    by_cases hnormal : (fn.shift 0 1).BetaNormal
    · have hle := front_le_size fn
      rw [front_lam, front_app_of_betaNormal _ hroot hnormal, size_shift]
      omega
    · rw [front_lam, front_app_of_not_betaNormal _ hroot hnormal, front_shift]
      omega

theorem Outermost.advances {t u : Term} (h : Outermost t u) :
    (∃ t', Leftmost t t' ∧ Parallel t' u) ∨
      u.front < t.front ∧ (u.BetaNormal → t.BetaNormal) ∧
        (u.IsLam → t.IsLam) := by
  induction h with
  | here h =>
      cases h with
      | beta param body arg => exact .inl ⟨_, .beta param body arg, .refl _⟩
      | eta param fn =>
          rw [raise_eq_shift]
          rcases advances_of_eta param _ with hpart | ⟨hfront, hnormal⟩
          · exact .inl hpart
          · exact .inr ⟨hfront, hnormal, fun _ ↦ trivial⟩
  | @fn fn fn' arg hroot h ih =>
      have hlam := not_isLam_of_not_isRedex hroot
      rcases ih with ⟨mid, hmid, hpar⟩ | ⟨hfront, hback, hlam'⟩
      · exact .inl ⟨_, .fn arg hlam hmid, .app hpar (.refl arg)⟩
      · have hnotLam := mt hlam' hlam
        refine .inr ⟨?_, ?_, (absurd · not_isLam_app)⟩
        · by_cases hnormal : fn.BetaNormal
          · have hsize := hnormal.size_lt_of_step h.step
            rw [front_app_of_betaNormal arg hlam hnormal,
              front_app_of_betaNormal arg hnotLam (hnormal.of_step h.step)]
            omega
          · rw [front_app_of_not_betaNormal arg hlam hnormal,
              front_app_of_not_betaNormal arg hnotLam (mt hback hnormal)]
            exact hfront
        · rintro ⟨-, hfn, harg⟩
          exact ⟨hlam, hback hfn, harg⟩
  | @arg fn arg arg' hroot hfn _ ih =>
      have hlam := not_isLam_of_not_isRedex hroot
      rcases ih with ⟨mid, hmid, hpar⟩ | ⟨hfront, hback, -⟩
      · exact .inl ⟨_, .arg hlam hfn.betaNormal hmid, .app (.refl fn) hpar⟩
      · refine .inr ⟨?_, ?_, (absurd · not_isLam_app)⟩
        · rw [front_app_of_betaNormal arg hlam hfn.betaNormal,
            front_app_of_betaNormal arg' hlam hfn.betaNormal]
          omega
        · rintro ⟨-, hnormal, harg⟩
          exact ⟨hlam, hnormal, hback harg⟩
  | body param _ _ ih =>
      rcases ih with ⟨mid, hmid, hpar⟩ | ⟨hfront, hback, -⟩
      · exact .inl ⟨_, .body param hmid, .lam param param hpar⟩
      · refine .inr ⟨?_, hback, fun _ ↦ trivial⟩
        rw [front_lam, front_lam]
        omega

/-- Fewer than `k` leftmost steps away from a β-normal term, or `k` steps with
fewer than `w` nodes before the next redex. -/
def Nearer (k w : Nat) (t : Term) : Prop :=
  ∃ j, Settles j t ∧ (j < k ∨ j = k ∧ t.front < w)

theorem Settles.exists_of_leftmost {k : Nat} {t u : Term}
    (ht : Settles k t) (h : Leftmost t u) :
    ∃ j, k = j + 1 ∧ Settles j u := by
  cases ht with
  | here hnormal => exact absurd hnormal h.not_betaNormal
  | @step j _ u' h' hu =>
      rw [h'.unique h] at hu
      exact ⟨j, rfl, hu⟩

theorem Nearer.of_step {k w : Nat} {t u : Term} (ht : Nearer k w t)
    (h : Step t u) : Nearer k w u := by
  obtain ⟨j, hj, hnear⟩ := ht
  obtain ⟨n, hn⟩ := (Parallel.of_step h).exists_weighs
  obtain ⟨i, hij, hi, hfront⟩ := hj.of_weighs hn
  refine ⟨i, hi, ?_⟩
  by_cases heq : i = j
  · have := hfront heq
    omega
  · omega

theorem Nearer.of_steps {k w : Nat} {t u : Term} (ht : Nearer k w t)
    (h : ReflTransGen Step t u) : Nearer k w u := by
  induction h with
  | refl => exact ht
  | tail _ hstep ih => exact ih.of_step hstep

theorem Settles.nearer_of_outermost {k : Nat} {t u : Term}
    (ht : Settles k t) (h : Outermost t u) : Nearer k t.front u := by
  rcases h.advances with ⟨t', ht', hpar⟩ | ⟨hfront, -, -⟩
  · obtain ⟨j, rfl, hj⟩ := ht.exists_of_leftmost ht'
    obtain ⟨n, hn⟩ := hpar.exists_weighs
    obtain ⟨i, hij, hi, -⟩ := hj.of_weighs hn
    exact ⟨i, hi, by omega⟩
  · obtain ⟨n, hn⟩ := (Parallel.of_step h.step).exists_weighs
    obtain ⟨i, hik, hi, -⟩ := ht.of_weighs hn
    exact ⟨i, hi, by omega⟩

/-- What is true of a term whenever it is true of all nearer ones is true of
every term that has a way to a β-normal term. -/
theorem Settles.nearer_induction {P : Term → Prop}
    (step : ∀ {k t}, Settles k t → (∀ u, Nearer k t.front u → P u) → P t)
    {t : Term} (ht : ∃ k, Settles k t) : P t := by
  obtain ⟨k, ht⟩ := ht
  induction k using Nat.strongRecOn generalizing t with
  | ind k ihk =>
      induction hw : t.front using Nat.strongRecOn generalizing t with
      | ind w ihw =>
          subst hw
          refine step ht fun u hu ↦ ?_
          obtain ⟨j, hj, hless | ⟨rfl, hfront⟩⟩ := hu
          · exact ihk j hless hj
          · exact ihw u.front hfront hj rfl

end Nameless.Term
