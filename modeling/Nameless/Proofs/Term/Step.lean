import Mathlib.Logic.Relation
import Nameless.Proofs.Term.Slot
import Nameless.Term.Redex

/-!
# Contraction steps and normal terms

The two rules of reduction are stated through capture-avoiding substitution
and raising.  A step applies one of them at some position, and a term is normal
when no position holds a redex.  What `beta?` and `eta` contract is exactly
what the rules allow.
-/

namespace Nameless.Term

open Relation (ReflTransGen)

inductive Rule : Term → Term → Prop
  | beta (param : String) (body arg : Term) :
      Rule (app (lam param body) arg) (body.instantiate 0 arg)
  | eta (param : String) (fn : Term) :
      Rule (lam param (app (fn.raise 1) (var 0))) fn

/-- What the reducer's own attempts at a node put in its place. -/
inductive Contraction : Term → Term → Prop
  | beta {fn arg u : Term} (h : beta? fn arg = some u) :
      Contraction (app fn arg) u
  | eta {param : String} {body u : Term} (h : Term.eta body = .ok u) :
      Contraction (lam param body) u

/-- `R` at one position of a term, all else unchanged. -/
inductive Anywhere (R : Term → Term → Prop) : Term → Term → Prop
  | here {t u : Term} (h : R t u) : Anywhere R t u
  | fn {fn fn' : Term} (arg : Term) (h : Anywhere R fn fn') :
      Anywhere R (app fn arg) (app fn' arg)
  | arg (fn : Term) {arg arg' : Term} (h : Anywhere R arg arg') :
      Anywhere R (app fn arg) (app fn arg')
  | body (param : String) {body body' : Term} (h : Anywhere R body body') :
      Anywhere R (lam param body) (lam param body')

abbrev Step : Term → Term → Prop := Anywhere Rule

theorem Anywhere.mono {R S : Term → Term → Prop} (hRS : ∀ t u, R t u → S t u)
    {t u : Term} (h : Anywhere R t u) : Anywhere S t u := by
  induction h with
  | here h => exact .here (hRS _ _ h)
  | fn arg _ ih => exact .fn arg ih
  | arg fn _ ih => exact .arg fn ih
  | body param _ ih => exact .body param ih

/-! ## What the attempts contract -/

theorem beta?_lam (param : String) (body arg : Term) :
    beta? (lam param body) arg = some (body.instantiate 0 arg) := by
  obtain ⟨slot, h⟩ := exists_substitute_take body 0 arg
  rw [beta?, h, Option.map_some]

theorem beta?_eq_some_iff {fn arg u : Term} :
    beta? fn arg = some u ↔
      ∃ param body, fn = lam param body ∧ u = body.instantiate 0 arg := by
  constructor
  · intro h
    cases fn with
    | var k => cases h
    | app f a => cases h
    | lam param body =>
        rw [beta?_lam] at h
        exact ⟨param, body, rfl, (Option.some.inj h).symm⟩
  · rintro ⟨param, body, rfl, rfl⟩
    exact beta?_lam param body arg

theorem eta_raise (fn : Term) : eta (app (fn.raise 1) (var 0)) = .ok fn := by
  rw [raise_eq_shift, eta, lower_shift 0 (by omega)]

theorem eta_eq_ok_iff {body u : Term} :
    eta body = .ok u ↔ body = app (u.raise 1) (var 0) := by
  constructor
  · intro h
    unfold eta at h
    split at h
    · split at h
      · rename_i fn' hfn
        cases h
        rw [raise_eq_shift, shift_of_lower_eq_ok hfn]
      · cases h
    · cases h
  · rintro rfl
    exact eta_raise u

theorem contraction_iff_rule {t u : Term} : Contraction t u ↔ Rule t u := by
  constructor
  · intro h
    cases h with
    | beta h =>
        obtain ⟨param, body, rfl, rfl⟩ := beta?_eq_some_iff.1 h
        exact .beta param body _
    | eta h =>
        rw [eta_eq_ok_iff.1 h]
        exact .eta _ u
  · intro h
    cases h with
    | beta param body arg => exact .beta (beta?_lam param body arg)
    | eta param fn => exact .eta (eta_raise u)

theorem anywhere_contraction_iff {t u : Term} :
    Anywhere Contraction t u ↔ Step t u :=
  ⟨Anywhere.mono fun _ _ ↦ contraction_iff_rule.1,
    Anywhere.mono fun _ _ ↦ contraction_iff_rule.2⟩

theorem Step.app_inv {fn arg u : Term} (h : Step (app fn arg) u) :
    beta? fn arg = some u ∨ (∃ fn', u = app fn' arg ∧ Step fn fn') ∨
      ∃ arg', u = app fn arg' ∧ Step arg arg' := by
  cases h with
  | here h =>
      cases contraction_iff_rule.2 h with
      | beta h => exact .inl h
  | fn _ h => exact .inr (.inl ⟨_, rfl, h⟩)
  | arg _ h => exact .inr (.inr ⟨_, rfl, h⟩)

theorem Step.lam_inv {param : String} {body u : Term}
    (h : Step (lam param body) u) :
    eta body = .ok u ∨ ∃ body', u = lam param body' ∧ Step body body' := by
  cases h with
  | here h =>
      cases contraction_iff_rule.2 h with
      | eta h => exact .inl h
  | body _ h => exact .inr ⟨_, rfl, h⟩

/-! ## Runs of a given length -/

/-- `n` steps in a row. -/
inductive Steps : Nat → Term → Term → Prop
  | refl (t : Term) : Steps 0 t t
  | head {n : Nat} {t u v : Term} (h : Step t u) (hs : Steps n u v) :
      Steps (n + 1) t v

namespace Steps

theorem trans {m n : Nat} {t u v : Term} (h : Steps m t u)
    (h' : Steps n u v) : Steps (m + n) t v := by
  induction h with
  | refl t => rwa [Nat.zero_add]
  | head hstep _ ih =>
      rw [Nat.add_right_comm]
      exact .head hstep (ih h')

theorem map {f : Term → Term} (hf : ∀ {t u}, Step t u → Step (f t) (f u))
    {n : Nat} {t u : Term} (h : Steps n t u) : Steps n (f t) (f u) := by
  induction h with
  | refl t => exact .refl (f t)
  | head hstep _ ih => exact .head (hf hstep) ih

theorem eq_of_zero {t u : Term} (h : Steps 0 t u) : t = u := by
  cases h
  rfl

theorem reflTransGen {n : Nat} {t u : Term} (h : Steps n t u) :
    ReflTransGen Step t u := by
  induction h with
  | refl t => exact .refl
  | head hstep _ ih => exact .head hstep ih

end Steps

/-! ## Normal terms -/

/-- The second term stands at some position of the first. -/
inductive Holds : Term → Term → Prop
  | here (t : Term) : Holds t t
  | fn {fn s : Term} (arg : Term) (h : Holds fn s) : Holds (app fn arg) s
  | arg (fn : Term) {arg s : Term} (h : Holds arg s) : Holds (app fn arg) s
  | body (param : String) {body s : Term} (h : Holds body s) :
      Holds (lam param body) s

def IsRedex (t : Term) : Prop := ∃ u, Rule t u

/-- No position holds a redex. -/
def Normal (t : Term) : Prop := ∀ s, Holds t s → ¬ s.IsRedex

theorem isRedex_app_iff {fn arg : Term} :
    (app fn arg).IsRedex ↔ ∃ u, beta? fn arg = some u := by
  constructor
  · rintro ⟨u, h⟩
    cases contraction_iff_rule.2 h with
    | beta hu => exact ⟨u, hu⟩
  · rintro ⟨u, hu⟩
    exact ⟨u, contraction_iff_rule.1 (.beta hu)⟩

theorem isRedex_lam_iff {param : String} {body : Term} :
    (lam param body).IsRedex ↔ ∃ u, eta body = .ok u := by
  constructor
  · rintro ⟨u, h⟩
    cases contraction_iff_rule.2 h with
    | eta hu => exact ⟨u, hu⟩
  · rintro ⟨u, hu⟩
    exact ⟨u, contraction_iff_rule.1 (.eta hu)⟩

theorem Rule.shift {t u : Term} (h : Rule t u) {start count : Int}
    (hstart : 0 ≤ start) (hcount : 0 ≤ count) :
    Rule (t.shift start count) (u.shift start count) := by
  cases h with
  | beta param body arg =>
      rw [shift_instantiate le_rfl hstart hcount, Int.sub_zero]
      exact .beta param _ _
  | eta param fn =>
      rw [raise_eq_shift, shift_lam, shift_app, shift_var_lt (by omega),
        ← shift_shift_comm hstart hcount (by omega), ← raise_eq_shift]
      exact .eta param _

theorem IsRedex.of_shift {t : Term} {start count : Int} (hstart : 0 ≤ start)
    (hcount : 0 ≤ count) (h : (t.shift start count).IsRedex) :
    t.IsRedex := by
  obtain ⟨u, hu⟩ := h
  generalize ht : t.shift start count = s at hu
  cases hu with
  | beta param body arg =>
      obtain ⟨fn, arg, rfl, hfn, -⟩ := exists_app_of_shift_eq ht
      obtain ⟨body, rfl, -⟩ := exists_lam_of_shift_eq hfn
      exact ⟨_, .beta param body arg⟩
  | eta param fn =>
      rw [raise_eq_shift] at ht
      obtain ⟨body, rfl, hbody⟩ := exists_lam_of_shift_eq ht
      obtain ⟨fn, arg, rfl, hfn, harg⟩ := exists_app_of_shift_eq hbody
      obtain ⟨core, rfl, -⟩ :=
        exists_shift_of_shift_eq_shift hstart hcount (by omega) hfn
      obtain rfl := eq_var_zero_of_shift (by omega) hcount harg
      rw [← raise_eq_shift]
      exact ⟨core, .eta param core⟩

theorem not_isRedex_app_iff {fn arg : Term} :
    ¬ (app fn arg).IsRedex ↔ beta? fn arg = none := by
  rw [isRedex_app_iff]
  cases beta? fn arg with
  | none => simp
  | some u => simp

theorem not_isRedex_lam_iff {param : String} {body : Term} :
    ¬ (lam param body).IsRedex ↔ eta body = .error body := by
  rw [isRedex_lam_iff]
  cases h : eta body with
  | ok u => simp
  | error handed => simp [eta_error h]

theorem normal_var (k : Int) : (var k).Normal := by
  rintro s hs ⟨u, hu⟩
  cases hs
  cases hu

theorem normal_app_iff {fn arg : Term} :
    (app fn arg).Normal ↔
      ¬ (app fn arg).IsRedex ∧ fn.Normal ∧ arg.Normal := by
  constructor
  · intro h
    exact ⟨h _ (.here _), fun s hs ↦ h s (.fn arg hs),
      fun s hs ↦ h s (.arg fn hs)⟩
  · rintro ⟨hroot, hfn, harg⟩ s hs
    cases hs with
    | here => exact hroot
    | fn _ hs => exact hfn s hs
    | arg _ hs => exact harg s hs

theorem normal_lam_iff {param : String} {body : Term} :
    (lam param body).Normal ↔
      ¬ (lam param body).IsRedex ∧ body.Normal := by
  constructor
  · intro h
    exact ⟨h _ (.here _), fun s hs ↦ h s (.body param hs)⟩
  · rintro ⟨hroot, hbody⟩ s hs
    cases hs with
    | here => exact hroot
    | body _ hs => exact hbody s hs

theorem not_step_of_normal {t u : Term} (ht : t.Normal) : ¬ Step t u := by
  intro h
  induction h with
  | here h => exact ht _ (.here _) ⟨_, h⟩
  | fn arg _ ih => exact ih (normal_app_iff.1 ht).2.1
  | arg fn _ ih => exact ih (normal_app_iff.1 ht).2.2
  | body param _ ih => exact ih (normal_lam_iff.1 ht).2

theorem Steps.eq_zero_of_normal {n : Nat} {t u : Term} (h : Steps n t u)
    (ht : t.Normal) : n = 0 := by
  cases h with
  | refl => rfl
  | head hstep _ => exact absurd hstep (not_step_of_normal ht)

end Nameless.Term
