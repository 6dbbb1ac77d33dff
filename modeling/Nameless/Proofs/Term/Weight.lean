import Nameless.Proofs.Term.Leftmost
import Nameless.Proofs.Term.Occurrences
import Nameless.Proofs.Term.Parallel

/-!
# The weight of a parallel step

The weight of a parallel step is the number of contractions that make it one
after the other from the outside in: what an argument takes is counted once
for each copy of it.  A leftmost contraction either was one of those, and then
what is left of the parallel step weighs less, or it can be made after the
parallel step as well.  Hence parallel steps never make the way to a β-normal
term longer, and they do not lead from a term without such a way to one that
has it.
-/

namespace Nameless.Term

open Relation (ReflTransGen)

/-- A parallel step with its weight. -/
inductive Weighs : Nat → Term → Term → Prop
  | var (k : Int) : Weighs 0 (var k) (var k)
  | app {m n : Nat} {fn fn' arg arg' : Term} (hfn : Weighs m fn fn')
      (harg : Weighs n arg arg') :
      Weighs (m + n) (app fn arg) (app fn' arg')
  | lam (param param' : String) {n : Nat} {body body' : Term}
      (h : Weighs n body body') :
      Weighs n (lam param body) (lam param' body')
  | beta (param : String) {m n : Nat} {body body' arg arg' : Term}
      (hbody : Weighs m body body') (harg : Weighs n arg arg') :
      Weighs (m + body'.occurrences 0 * n + 1) (app (lam param body) arg)
        (body'.instantiate 0 arg')
  | eta (param : String) {n : Nat} {fn fn' : Term} (h : Weighs n fn fn') :
      Weighs (n + 1) (lam param (app (fn.shift 0 1) (var 0))) fn'

theorem Parallel.exists_weighs {t u : Term} (h : Parallel t u) :
    ∃ n, Weighs n t u := by
  induction h with
  | var k => exact ⟨0, .var k⟩
  | app _ _ ihFn ihArg =>
      obtain ⟨m, hfn⟩ := ihFn
      obtain ⟨n, harg⟩ := ihArg
      exact ⟨_, .app hfn harg⟩
  | lam param param' _ ih =>
      obtain ⟨n, h⟩ := ih
      exact ⟨n, .lam param param' h⟩
  | beta param _ _ ihBody ihArg =>
      obtain ⟨m, hbody⟩ := ihBody
      obtain ⟨n, harg⟩ := ihArg
      exact ⟨_, .beta param hbody harg⟩
  | eta param _ ih =>
      obtain ⟨n, h⟩ := ih
      exact ⟨n + 1, .eta param h⟩

namespace Weighs

theorem rename {n : Nat} {param : String} {body u : Term}
    (h : Weighs n (Term.lam param body) u) (param' : String) :
    Weighs n (Term.lam param' body) u := by
  cases h with
  | lam _ param'' h => exact .lam param' param'' h
  | eta _ h => exact .eta param' h

theorem shift {n : Nat} {t u : Term} (h : Weighs n t u) {start count : Int}
    (hstart : 0 ≤ start) (hcount : 0 ≤ count) :
    Weighs n (t.shift start count) (u.shift start count) := by
  induction h generalizing start with
  | var k =>
      rw [shift_var]
      exact .var _
  | app _ _ ihFn ihArg => exact .app (ihFn hstart) (ihArg hstart)
  | lam param param' _ ih => exact .lam param param' (ih (by omega))
  | @beta param m n body body' arg arg' _ _ ihBody ihArg =>
      rw [shift_instantiate le_rfl hstart hcount, Int.sub_zero,
        ← occurrences_shift_of_lt hcount (show 0 < start + 1 by omega) body']
      exact .beta param (ihBody (by omega)) (ihArg hstart)
  | eta param _ ih =>
      rw [shift_lam, shift_app, shift_var_lt (by omega),
        ← shift_shift_comm hstart hcount (by omega)]
      exact .eta param (ih hstart)

/-- The value's step is made once for each occurrence of the index that is
left. -/
theorem instantiate {m n : Nat} {t u v w : Term} (h : Weighs m t u)
    (hv : Weighs n v w) {idx : Int} (hidx : 0 ≤ idx) :
    Weighs (m + u.occurrences idx * n) (t.instantiate idx v)
      (u.instantiate idx w) := by
  induction h generalizing idx with
  | var k =>
      rcases lt_trichotomy k idx with hk | rfl | hk
      · rw [instantiate_var_lt hk, instantiate_var_lt hk,
          occurrences_var_of_ne (by omega), Nat.zero_mul]
        exact .var k
      · rw [instantiate_var_self, instantiate_var_self, occurrences_var_self,
          Nat.one_mul, Nat.zero_add]
        exact hv.shift le_rfl hidx
      · rw [instantiate_var_gt hk, instantiate_var_gt hk,
          occurrences_var_of_ne (by omega), Nat.zero_mul]
        exact .var (k - 1)
  | app _ _ ihFn ihArg =>
      rw [occurrences_app, Nat.add_mul, Nat.add_add_add_comm]
      exact .app (ihFn hidx) (ihArg hidx)
  | lam param param' _ ih =>
      rw [instantiate_lam, instantiate_lam]
      exact .lam param param' (ih (by omega))
  | @beta param k l body body' arg arg' _ _ ihBody ihArg =>
      have hsucc : 0 < idx + 1 := by omega
      have hstep := Weighs.beta param (ihBody hsucc.le) (ihArg hidx)
      rw [occurrences_instantiate_of_lt le_rfl hsucc] at hstep
      rw [instantiate_app, instantiate_lam,
        instantiate_instantiate le_rfl hidx, Int.sub_zero,
        occurrences_instantiate le_rfl hidx, Int.sub_zero]
      convert hstep using 1
      simp only [Nat.add_mul, Nat.mul_add, Nat.mul_assoc]
      omega
  | @eta param k fn fn' _ ih =>
      rw [instantiate_lam, instantiate_app, instantiate_var_lt (by omega),
        instantiate_shift le_rfl hidx (by omega), Nat.add_right_comm]
      exact .eta param (ih hidx)

theorem betaNormal {n : Nat} {t u : Term} (h : Weighs n t u)
    (ht : t.BetaNormal) :
    u.BetaNormal ∧ (u.IsLam → t.IsLam) ∧ u.size ≤ t.size ∧
      u.front ≤ t.front := by
  induction h with
  | var k => exact ⟨trivial, id, le_rfl, le_rfl⟩
  | app _ _ ihFn ihArg =>
      obtain ⟨hroot, hfn, harg⟩ := ht
      obtain ⟨hfn', hlam, hfnSize, -⟩ := ihFn hfn
      obtain ⟨harg', -, hargSize, hfront⟩ := ihArg harg
      have hroot' := mt hlam hroot
      refine ⟨⟨hroot', hfn', harg'⟩, (absurd · not_isLam_app), ?_, ?_⟩
      · simp only [size_app]
        omega
      · rw [front_app_of_betaNormal _ hroot hfn,
          front_app_of_betaNormal _ hroot' hfn']
        omega
  | lam param param' _ ih =>
      obtain ⟨hbody, -, hsize, hfront⟩ := ih ht
      refine ⟨hbody, fun _ ↦ trivial, ?_, ?_⟩
      · simp only [size_lam]
        omega
      · simp only [front_lam]
        omega
  | beta param _ _ => exact absurd trivial ht.1
  | eta param _ ih =>
      obtain ⟨hroot, hfn, -⟩ := betaNormal_app.1 ht
      obtain ⟨hu, -, hsize, -⟩ := ih ((betaNormal_shift ..).1 hfn)
      have hfront := front_le_size
      refine ⟨hu, fun _ ↦ trivial, ?_, ?_⟩
      · simp only [size_lam, size_app, size_shift]
        omega
      · rw [front_lam, front_app_of_betaNormal _ hroot hfn, size_shift]
        exact (hfront _).trans (by omega)

/-! ## Leftmost contractions next to a parallel step -/

private theorem leftmost_eta {n : Nat} {param : String} {fn u body : Term}
    (h : Weighs n fn u)
    (ih : ∀ {fn'}, Leftmost fn fn' →
      (∃ m < n, Weighs m fn' u) ∨
        ∃ m u', Leftmost u u' ∧ Weighs m fn' u' ∧ (u.IsLam → fn.IsLam) ∧
          u.front ≤ fn.front)
    (hbody : Leftmost (Term.app (fn.shift 0 1) (Term.var 0)) body) :
    (∃ m < n + 1, Weighs m (Term.lam param body) u) ∨
      ∃ m u', Leftmost u u' ∧ Weighs m (Term.lam param body) u' ∧
        u.front ≤ (Term.lam param
          (Term.app (fn.shift 0 1) (Term.var 0))).front := by
  rcases hbody.app_inv with ⟨param', inner, hfn, rfl⟩ |
      ⟨fn', hroot, rfl, hfn⟩ | ⟨arg', _, _, _, harg⟩
  · -- the body is a β-redex, and contracting it gives back the function
    obtain ⟨core, rfl, rfl⟩ := exists_lam_of_shift_eq hfn
    rw [instantiate_shift_var]
    exact .inl ⟨n, Nat.lt_succ_self n, h.rename param⟩
  · have hnormal := hfn.not_betaNormal
    obtain ⟨fn', rfl, hcore⟩ := hfn.exists_of_shift le_rfl (by omega)
    rcases ih hcore with ⟨m, hm, h'⟩ | ⟨m, u', hu, h', -, hfront⟩
    · exact .inl ⟨m + 1, Nat.succ_lt_succ hm, .eta param h'⟩
    · refine .inr ⟨m + 1, u', hu, .eta param h', ?_⟩
      rw [front_lam, front_app_of_not_betaNormal _ hroot hnormal, front_shift]
      omega
  · cases harg

private theorem leftmost_beta {m k : Nat} {param : String}
    {body fn arg arg' : Term} (hfn : Weighs m (Term.lam param body) fn)
    (harg : Weighs k arg arg') :
    (∃ j < m + k, Weighs j (body.instantiate 0 arg) (Term.app fn arg')) ∨
      ∃ j u', Leftmost (Term.app fn arg') u' ∧
        Weighs j (body.instantiate 0 arg) u' ∧
        (Term.app fn arg').front ≤
          (Term.app (Term.lam param body) arg).front := by
  cases hfn with
  | lam _ param' hbody =>
      refine .inr ⟨_, _, .beta param' _ arg', hbody.instantiate harg le_rfl,
        ?_⟩
      rw [front_app_of_isLam _ (isLam_lam ..)]
      exact Nat.zero_le _
  | @eta _ j core _ hcore =>
      -- contracting the η-redex or the β-redex around it gives the same term
      refine .inl ⟨j + k, by omega, ?_⟩
      rw [instantiate_app, instantiate_var_self,
        instantiate_shift_cancel le_rfl (by omega), Int.sub_self, shift_zero,
        shift_zero]
      exact .app hcore harg

/-- A leftmost contraction was part of the parallel step, or it is left over
and still the leftmost one.  In the second case no more nodes stand before it
than did. -/
theorem leftmost {n : Nat} {t t' u : Term} (h : Weighs n t u)
    (ht : Leftmost t t') :
    (∃ m < n, Weighs m t' u) ∨
      ∃ m u', Leftmost u u' ∧ Weighs m t' u' ∧ (u.IsLam → t.IsLam) ∧
        u.front ≤ t.front := by
  induction h generalizing t' with
  | var k => cases ht
  | @app m k fn fn' arg arg' hfn harg ihFn ihArg =>
      cases ht with
      | beta param body _ =>
          rcases leftmost_beta hfn harg with hpart | ⟨j, u', hu, h', hfront⟩
          · exact .inl hpart
          · exact .inr ⟨j, u', hu, h', (absurd · not_isLam_app), hfront⟩
      | @fn _ mid _ hroot hmid =>
          rcases ihFn hmid with ⟨j, hj, h'⟩ | ⟨j, u', hu, h', hlam, hfront⟩
          · exact .inl ⟨j + k, by omega, .app h' harg⟩
          · have hroot' := mt hlam hroot
            refine .inr ⟨j + k, _, .fn arg' hroot' hu, .app h' harg,
              (absurd · not_isLam_app), ?_⟩
            rw [front_app_of_not_betaNormal _ hroot hmid.not_betaNormal,
              front_app_of_not_betaNormal _ hroot' hu.not_betaNormal]
            exact hfront
      | @arg _ _ mid hroot hnormal hmid =>
          obtain ⟨hnormal', hlam, hsize, -⟩ := hfn.betaNormal hnormal
          have hroot' := mt hlam hroot
          rcases ihArg hmid with ⟨j, hj, h'⟩ | ⟨j, u', hu, h', -, hfront⟩
          · exact .inl ⟨m + j, by omega, .app hfn h'⟩
          · refine .inr ⟨m + j, _, .arg hroot' hnormal' hu, .app hfn h',
              (absurd · not_isLam_app), ?_⟩
            rw [front_app_of_betaNormal _ hroot hnormal,
              front_app_of_betaNormal _ hroot' hnormal']
            omega
  | lam param param' _ ih =>
      cases ht with
      | body _ hbody =>
          rcases ih hbody with ⟨j, hj, h'⟩ | ⟨j, u', hu, h', -, hfront⟩
          · exact .inl ⟨j, hj, .lam param param' h'⟩
          · refine .inr ⟨j, _, .body param' hu, .lam param param' h',
              fun _ ↦ trivial, ?_⟩
            rw [front_lam, front_lam]
            omega
  | beta param hbody harg _ _ =>
      cases ht with
      | beta => exact .inl ⟨_, Nat.lt_succ_self _, hbody.instantiate harg le_rfl⟩
      | fn _ hroot _ => exact absurd trivial hroot
      | arg hroot _ _ => exact absurd trivial hroot
  | eta param h ih =>
      cases ht with
      | body _ hbody =>
          rcases leftmost_eta h ih hbody with hpart | ⟨m, u', hu, h', hfront⟩
          · exact .inl hpart
          · exact .inr ⟨m, u', hu, h', fun _ ↦ trivial, hfront⟩

end Weighs

/-! ## The way to a β-normal term -/

/-- A parallel step does not make the way longer, and where it leaves it as
long as it was, no more nodes come to stand before the next redex. -/
theorem Settles.of_weighs {k n : Nat} {t u : Term} (ht : Settles k t)
    (h : Weighs n t u) :
    ∃ j ≤ k, Settles j u ∧ (j = k → u.front ≤ t.front) := by
  induction ht generalizing n u with
  | here hnormal =>
      obtain ⟨hu, -, -, hfront⟩ := h.betaNormal hnormal
      exact ⟨0, le_rfl, .here hu, fun _ ↦ hfront⟩
  | step hstep _ ih =>
      rcases h.leftmost hstep with ⟨m, -, h'⟩ | ⟨m, u', hu, h', -, hfront⟩
      · obtain ⟨j, hj, hsettles, -⟩ := ih h'
        exact ⟨j, by omega, hsettles, fun _ ↦ by omega⟩
      · obtain ⟨j, hj, hsettles, -⟩ := ih h'
        exact ⟨j + 1, by omega, .step hu hsettles, fun _ ↦ hfront⟩

private theorem exists_settles_of_next {n : Nat} {t u : Term}
    (h : Weighs n t u)
    (hnext : ∀ {m t' u'}, Leftmost u u' → Weighs m t' u' →
      ∃ k, Settles k t') : ∃ k, Settles k t := by
  induction n using Nat.strongRecOn generalizing t with
  | ind n ih =>
      by_cases hnormal : t.BetaNormal
      · exact ⟨0, .here hnormal⟩
      · obtain ⟨t', ht⟩ := exists_leftmost hnormal
        rcases h.leftmost ht with ⟨m, hm, h'⟩ | ⟨m, u', hu, h', -, -⟩
        · obtain ⟨k, hk⟩ := ih m hm h'
          exact ⟨k + 1, .step ht hk⟩
        · obtain ⟨k, hk⟩ := hnext hu h'
          exact ⟨k + 1, .step ht hk⟩

theorem Settles.exists_of_weighs {k n : Nat} {t u : Term}
    (hu : Settles k u) (h : Weighs n t u) : ∃ j, Settles j t := by
  induction hu generalizing n t with
  | here hnormal =>
      exact exists_settles_of_next h fun hstep _ ↦
        absurd hnormal hstep.not_betaNormal
  | step hstep _ ih =>
      refine exists_settles_of_next h fun hstep' h' ↦ ?_
      rw [← hstep.unique hstep'] at h'
      exact ih h'

/-- A term that can be brought to a normal form by contractions of either
kind is brought to a β-normal one by leftmost β-contractions. -/
theorem exists_settles_of_normal {t v : Term}
    (h : ReflTransGen Step t v) (hv : v.Normal) : ∃ k, Settles k t := by
  induction h using ReflTransGen.head_induction_on with
  | refl => exact ⟨0, .here hv.betaNormal⟩
  | head hstep _ ih =>
      obtain ⟨k, hk⟩ := ih
      obtain ⟨n, hn⟩ := (Parallel.of_step hstep).exists_weighs
      exact hk.exists_of_weighs hn

end Nameless.Term
