import Nameless.Proofs.Term.Alike

/-!
# Parallel contraction

One parallel step contracts any of the redexes a term shows, innermost ones
first, and may rename every parameter on the way.  With the names out of the
way the two rules agree wherever they overlap, and a term's complete
development is a common target of all its parallel steps.
-/

namespace Nameless.Term

inductive Parallel : Term → Term → Prop
  | var (k : Int) : Parallel (var k) (var k)
  | app {fn fn' arg arg' : Term} (hfn : Parallel fn fn')
      (harg : Parallel arg arg') : Parallel (app fn arg) (app fn' arg')
  | lam (param param' : String) {body body' : Term}
      (h : Parallel body body') : Parallel (lam param body) (lam param' body')
  | beta (param : String) {body body' arg arg' : Term}
      (hbody : Parallel body body') (harg : Parallel arg arg') :
      Parallel (app (lam param body) arg) (body'.instantiate 0 arg')
  | eta (param : String) {fn fn' : Term} (h : Parallel fn fn') :
      Parallel (lam param (app (fn.shift 0 1) (var 0))) fn'

namespace Parallel

theorem of_alike {t u : Term} (h : t.alike u = true) : Parallel t u := by
  induction t generalizing u with
  | var k =>
      obtain rfl := alike_var_iff.1 h
      exact .var k
  | app fn arg ihFn ihArg =>
      obtain ⟨fn', arg', rfl, hfn, harg⟩ := alike_app_iff.1 h
      exact .app (ihFn hfn) (ihArg harg)
  | lam param body ih =>
      obtain ⟨param', body', rfl, hbody⟩ := alike_lam_iff.1 h
      exact .lam param param' (ih hbody)

theorem refl (t : Term) : Parallel t t := of_alike (alike_refl t)

theorem of_step {t u : Term} (h : Step t u) : Parallel t u := by
  induction h with
  | here h =>
      cases h with
      | beta param body arg => exact .beta param (refl body) (refl arg)
      | eta param fn =>
          rw [raise_eq_shift]
          exact .eta param (refl _)
  | fn arg _ ih => exact .app ih (refl arg)
  | arg fn _ ih => exact .app (refl fn) ih
  | body param _ ih => exact .lam param param ih

/-! ## Steps under shifts and substitutions -/

theorem shift {t u : Term} (h : Parallel t u) {start count : Int}
    (hstart : 0 ≤ start) (hcount : 0 ≤ count) :
    Parallel (t.shift start count) (u.shift start count) := by
  induction h generalizing start with
  | var k => exact refl _
  | app _ _ ihFn ihArg => exact .app (ihFn hstart) (ihArg hstart)
  | lam param param' _ ih => exact .lam param param' (ih (by omega))
  | beta param _ _ ihBody ihArg =>
      rw [shift_instantiate le_rfl hstart hcount, Int.sub_zero]
      exact .beta param (ihBody (by omega)) (ihArg hstart)
  | eta param _ ih =>
      rw [shift_lam, shift_app, shift_var_lt (by omega),
        ← shift_shift_comm hstart hcount (by omega)]
      exact .eta param (ih hstart)

theorem instantiate {t u v w : Term} (h : Parallel t u) (hv : Parallel v w)
    {idx : Int} (hidx : 0 ≤ idx) :
    Parallel (t.instantiate idx v) (u.instantiate idx w) := by
  induction h generalizing idx with
  | var k =>
      rcases lt_trichotomy k idx with hk | rfl | hk
      · rw [instantiate_var_lt hk, instantiate_var_lt hk]
        exact .var k
      · rw [instantiate_var_self, instantiate_var_self]
        exact hv.shift le_rfl hidx
      · rw [instantiate_var_gt hk, instantiate_var_gt hk]
        exact .var (k - 1)
  | app _ _ ihFn ihArg => exact .app (ihFn hidx) (ihArg hidx)
  | lam param param' _ ih =>
      rw [instantiate_lam, instantiate_lam]
      exact .lam param param' (ih (by omega))
  | beta param _ _ ihBody ihArg =>
      rw [instantiate_app, instantiate_lam,
        instantiate_instantiate le_rfl hidx, Int.sub_zero]
      exact .beta param (ihBody (by omega)) (ihArg hidx)
  | eta param _ ih =>
      rw [instantiate_lam, instantiate_app, instantiate_var_lt (by omega),
        instantiate_shift le_rfl hidx (by omega)]
      exact .eta param (ih hidx)

/-! ## Steps out of an application or an abstraction -/

theorem app_inv {fn arg u : Term} (h : Parallel (Term.app fn arg) u) :
    (∃ fn' arg', u = Term.app fn' arg' ∧ Parallel fn fn' ∧ Parallel arg arg') ∨
      ∃ param body body' arg', fn = Term.lam param body ∧
        u = body'.instantiate 0 arg' ∧
        Parallel body body' ∧ Parallel arg arg' := by
  cases h with
  | app hfn harg => exact .inl ⟨_, _, rfl, hfn, harg⟩
  | beta param hbody harg => exact .inr ⟨param, _, _, _, rfl, rfl, hbody, harg⟩

theorem lam_inv {param : String} {body u : Term}
    (h : Parallel (Term.lam param body) u) :
    (∃ param' body', u = Term.lam param' body' ∧ Parallel body body') ∨
      ∃ fn : Term, body = Term.app (fn.shift 0 1) (Term.var 0) ∧
        Parallel fn u := by
  cases h with
  | lam _ param' h => exact .inl ⟨param', _, rfl, h⟩
  | eta _ h => exact .inr ⟨_, rfl, h⟩

/-- A step out of a raised term is a raised step. -/
theorem exists_of_shift {t u : Term} {start count : Int} (hstart : 0 ≤ start)
    (hcount : 0 ≤ count) (h : Parallel (t.shift start count) u) :
    ∃ u' : Term, u = u'.shift start count ∧ Parallel t u' := by
  generalize hs : t.shift start count = s at h
  induction h generalizing t start with
  | var k =>
      obtain ⟨j, rfl⟩ := exists_var_of_shift_eq hs
      exact ⟨.var j, hs.symm, .var j⟩
  | app _ _ ihFn ihArg =>
      obtain ⟨fn, arg, rfl, hfn, harg⟩ := exists_app_of_shift_eq hs
      obtain ⟨fn', rfl, hfn'⟩ := ihFn hstart hfn
      obtain ⟨arg', rfl, harg'⟩ := ihArg hstart harg
      exact ⟨.app fn' arg', rfl, .app hfn' harg'⟩
  | lam _ param' _ ih =>
      obtain ⟨body, rfl, hbody⟩ := exists_lam_of_shift_eq hs
      obtain ⟨body', rfl, hbody'⟩ := ih (by omega) hbody
      exact ⟨.lam param' body', rfl, .lam _ param' hbody'⟩
  | beta _ _ _ ihBody ihArg =>
      obtain ⟨fn, arg, rfl, hfn, harg⟩ := exists_app_of_shift_eq hs
      obtain ⟨body, rfl, hbody⟩ := exists_lam_of_shift_eq hfn
      obtain ⟨body', rfl, hbody'⟩ := ihBody (by omega) hbody
      obtain ⟨arg', rfl, harg'⟩ := ihArg hstart harg
      refine ⟨body'.instantiate 0 arg', ?_, .beta _ hbody' harg'⟩
      rw [shift_instantiate le_rfl hstart hcount, Int.sub_zero]
  | eta _ _ ih =>
      obtain ⟨body, rfl, hbody⟩ := exists_lam_of_shift_eq hs
      obtain ⟨fn, arg, rfl, hfn, harg⟩ := exists_app_of_shift_eq hbody
      obtain ⟨core, rfl, hcore⟩ :=
        exists_shift_of_shift_eq_shift hstart hcount (by omega) hfn
      obtain rfl := eq_var_zero_of_shift (by omega) hcount harg
      obtain ⟨u', rfl, hu'⟩ := ih hstart hcore.symm
      exact ⟨u', rfl, .eta _ hu'⟩

/-! ## Overlaps -/

/-- A contracted application whose function took an η-step. -/
theorem beta_eta_overlap {core fn arg arg' body : Term}
    (hcore : Parallel core fn)
    (hbody : ∀ {u}, Parallel (.app (core.shift 0 1) (.var 0)) u →
      Parallel u body)
    (harg : Parallel arg arg') :
    Parallel (.app fn arg) (body.instantiate 0 arg') := by
  have hraised : Parallel (.app (core.shift 0 1) (.var 0))
      (.app (fn.shift 0 1) (.var 0)) :=
    .app (hcore.shift le_rfl (by omega)) (.var 0)
  have hresult := (hbody hraised).instantiate harg le_rfl
  rw [instantiate_app, instantiate_var_self,
    instantiate_shift_cancel le_rfl (by omega), Int.sub_self, shift_zero,
    shift_zero] at hresult
  exact hresult

/-- An abstraction over a raised function whose body took a step. -/
theorem eta_beta_overlap {fn body target : Term} (param : String)
    (hfn : ∀ {u}, Parallel fn u → Parallel u target)
    (hbody : Parallel (.app (fn.shift 0 1) (.var 0)) body) :
    Parallel (.lam param body) target := by
  rcases hbody.app_inv with ⟨fn', arg', rfl, hfn', harg'⟩ |
      ⟨param', inner, inner', arg', hs, rfl, hinner, harg'⟩
  · obtain ⟨core, rfl, hcore⟩ := exists_of_shift le_rfl (by omega) hfn'
    cases harg'
    exact .eta param (hfn hcore)
  · obtain ⟨core, rfl, rfl⟩ := exists_lam_of_shift_eq hs
    obtain ⟨core', rfl, hcore⟩ :=
      exists_of_shift (by omega) (by omega) hinner
    cases harg'
    rw [instantiate_shift_var]
    exact hfn (.lam param' param hcore)

end Parallel

/-! ## Complete developments -/

theorem size_lt_of_eta_eq_ok (param : String) {body u : Term}
    (h : eta body = .ok u) : u.size < (lam param body).size := by
  rw [eta_eq_ok_iff.1 h, raise_eq_shift]
  simp
  omega

/-- All redexes that the term shows, contracted. -/
def develop (t : Term) : Term :=
  match t with
  | var k => var k
  | app (lam _ body) arg => body.develop.instantiate 0 arg.develop
  | app fn arg => app fn.develop arg.develop
  | lam param body =>
    match hbody : eta body with
    | .ok fn =>
      have := size_lt_of_eta_eq_ok param hbody
      fn.develop
    | .error _ => lam param body.develop
termination_by t.size
decreasing_by
  all_goals simp_all
  all_goals omega

theorem Parallel.to_develop {t u : Term} (h : Parallel t u) :
    Parallel u t.develop := by
  fun_induction develop t generalizing u with
  | case1 k =>
      cases h
      exact .var k
  | case2 param body arg ihBody ihArg =>
      rcases h.app_inv with ⟨fn', arg', rfl, hfn, harg⟩ |
          ⟨param', inner, inner', arg', hs, rfl, hinner, harg⟩
      · -- an η-step may have taken the abstraction away from the β-redex
        rcases hfn.lam_inv with ⟨param', body', rfl, hbody⟩ | ⟨core, rfl, hcore⟩
        · exact .beta param' (ihBody hbody) (ihArg harg)
        · exact beta_eta_overlap hcore ihBody (ihArg harg)
      · cases hs
        exact (ihBody hinner).instantiate (ihArg harg) le_rfl
  | case3 fn arg hne ihFn ihArg =>
      rcases h.app_inv with ⟨fn', arg', rfl, hfn, harg⟩ |
          ⟨param, inner, _, _, hs, _, _, _⟩
      · exact .app (ihFn hfn) (ihArg harg)
      · exact (hne param inner hs).elim
  | case4 param body fn heta _ ih =>
      rw [eta_eq_ok_iff.1 heta, raise_eq_shift] at h
      rcases h.lam_inv with ⟨param', body', rfl, hbody⟩ | ⟨core, hs, hcore⟩
      · -- a β-step in the body may have taken the application away
        exact eta_beta_overlap param' ih hbody
      · rw [Term.app.injEq] at hs
        obtain rfl := shift_injective (by omega) hs.1
        exact ih hcore
  | case5 param body handed heta ih =>
      rcases h.lam_inv with ⟨param', body', rfl, hbody⟩ | ⟨core, rfl, hcore⟩
      · exact .lam param' param (ih hbody)
      · rw [← raise_eq_shift, eta_raise] at heta
        cases heta

theorem Parallel.diamond {t u v : Term} (hu : Parallel t u)
    (hv : Parallel t v) : ∃ w, Parallel u w ∧ Parallel v w :=
  ⟨t.develop, hu.to_develop, hv.to_develop⟩

theorem Parallel.alike_of_normal {t u : Term} (h : Parallel t u)
    (ht : t.Normal) : t.alike u = true := by
  induction h with
  | var k => exact alike_refl _
  | app _ _ ihFn ihArg =>
      obtain ⟨-, hfn, harg⟩ := normal_app_iff.1 ht
      exact alike_app_iff.2 ⟨_, _, rfl, ihFn hfn, ihArg harg⟩
  | lam _ param' _ ih =>
      obtain ⟨-, hbody⟩ := normal_lam_iff.1 ht
      exact alike_lam_iff.2 ⟨param', _, rfl, ih hbody⟩
  | beta param _ _ =>
      exact absurd ⟨_, .beta param _ _⟩ (normal_app_iff.1 ht).1
  | eta param _ =>
      rw [← raise_eq_shift] at ht
      exact absurd ⟨_, .eta param _⟩ (normal_lam_iff.1 ht).1

end Nameless.Term
