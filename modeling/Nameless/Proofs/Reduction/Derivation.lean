import Nameless.Proofs.Term.Step
import Nameless.Reduction.Walk

/-!
# Derivations of walks

A derivation shows how a walk came about, with one rule for each way in which
a look at a node can end.  By induction on it, a walk charges its limit one
step for each contraction, makes progress exactly when it contracted
something, and leaves a normal term when it leaves budget.
-/

namespace Nameless.Reduction

open Term (Rule)

/-- The walk of a term under a limit, what it leaves of the limit, the term it
ends with, and whether it made progress. -/
inductive Walks : Limit → Term → Limit → Term → Bool → Prop
  | spent {limit : Limit} (t : Term) (h : limit.allows = false) :
      Walks limit t limit t false
  | var {limit : Limit} (k : Int) (h : limit.allows = true) :
      Walks limit (.var k) limit (.var k) false
  | contract {limit left : Limit} {t c u : Term} {progressed : Bool}
      (h : limit.allows = true) (hc : Rule t c)
      (hw : Walks limit.spend c left u progressed) :
      Walks limit t left u true
  | fn {limit mid left : Limit} {fn arg fn' u : Term} {progressed : Bool}
      (h : limit.allows = true) (hroot : ¬ (Term.app fn arg).IsRedex)
      (hfn : Walks limit fn mid fn' true)
      (hw : Walks mid (.app fn' arg) left u progressed) :
      Walks limit (.app fn arg) left u true
  | arg {limit mid last left : Limit} {fn arg fn' arg' u : Term}
      {progressed : Bool}
      (h : limit.allows = true) (hroot : ¬ (Term.app fn arg).IsRedex)
      (hfn : Walks limit fn mid fn' false) (harg : Walks mid arg last arg' true)
      (hw : Walks last (.app fn' arg') left u progressed) :
      Walks limit (.app fn arg) left u true
  | app {limit mid left : Limit} {fn arg fn' arg' : Term}
      (h : limit.allows = true) (hroot : ¬ (Term.app fn arg).IsRedex)
      (hfn : Walks limit fn mid fn' false)
      (harg : Walks mid arg left arg' false) :
      Walks limit (.app fn arg) left (.app fn' arg') false
  | body {limit mid left : Limit} {param : String} {body body' u : Term}
      {progressed : Bool}
      (h : limit.allows = true) (hroot : ¬ (Term.lam param body).IsRedex)
      (hbody : Walks limit body mid body' true)
      (hw : Walks mid (.lam param body') left u progressed) :
      Walks limit (.lam param body) left u true
  | lam {limit left : Limit} {param : String} {body body' : Term}
      (h : limit.allows = true) (hroot : ¬ (Term.lam param body).IsRedex)
      (hbody : Walks limit body left body' false) :
      Walks limit (.lam param body) left (.lam param body') false

theorem walks_walk (limit : Limit) (t : Term) :
    Walks limit t (walk limit t).left (walk limit t).term
      (walk limit t).progressed := by
  fun_induction walk limit t with
  | case1 limit h _ k => exact .var k h
  | case2 limit h _ fn arg contractum hbeta _ ih =>
      exact .contract h (Term.contraction_iff_rule.1 (.beta hbeta)) ih
  | case3 limit h _ fn arg hbeta fn' left _ _ hfn _ ihFn ih =>
      rw [hfn] at ihFn
      exact .fn h (Term.not_isRedex_app_iff.2 hbeta) ihFn ih
  | case4 limit h _ fn arg hbeta fn' left _ _ hfn arg' last _ _ harg _ ihFn
      ihArg ih =>
      rw [hfn] at ihFn
      rw [harg] at ihArg
      exact .arg h (Term.not_isRedex_app_iff.2 hbeta) ihFn ihArg ih
  | case5 limit h _ fn arg hbeta fn' left _ _ hfn arg' last _ _ harg ihFn
      ihArg =>
      rw [hfn] at ihFn
      rw [harg] at ihArg
      exact .app h (Term.not_isRedex_app_iff.2 hbeta) ihFn ihArg
  | case6 limit h _ param body contractum heta _ ih =>
      exact .contract h (Term.contraction_iff_rule.1 (.eta heta)) ih
  | case7 limit h _ param body handed heta _ body' left _ _ hbody _ ihBody ih =>
      obtain rfl := Term.eta_error heta
      rw [hbody] at ihBody
      exact .body h (Term.not_isRedex_lam_iff.2 heta) ihBody ih
  | case8 limit h _ param body handed heta _ body' left _ _ hbody ihBody =>
      obtain rfl := Term.eta_error heta
      rw [hbody] at ihBody
      exact .lam h (Term.not_isRedex_lam_iff.2 heta) ihBody
  | case9 limit t h => exact .spent t (Bool.eq_false_of_not_eq_true h)

variable {limit left : Limit} {t u : Term} {progressed : Bool}

theorem Walks.walk_eq (h : Walks limit t left u progressed) :
    ∃ hle hlt, walk limit t = ⟨u, left, progressed, hle, hlt⟩ := by
  induction h with
  | spent t h => exact ⟨_, _, walk_of_spent h t⟩
  | var k h => exact ⟨_, _, walk_var _ k⟩
  | contract h hc hw ih =>
      obtain ⟨_, _, ih⟩ := ih
      cases Term.contraction_iff_rule.2 hc with
      | beta hbeta =>
          rw [walk_app_of_some h hbeta, ih]
          exact ⟨_, _, rfl⟩
      | eta heta =>
          rw [walk_lam_of_ok h _ heta, ih]
          exact ⟨_, _, rfl⟩
  | fn h hroot _ _ ihFn ih =>
      obtain ⟨_, _, ihFn⟩ := ihFn
      obtain ⟨_, _, ih⟩ := ih
      rw [walk_app_of_none h (Term.not_isRedex_app_iff.1 hroot), ihFn]
      dsimp only
      rw [ih]
      exact ⟨_, _, rfl⟩
  | arg h hroot _ _ _ ihFn ihArg ih =>
      obtain ⟨_, _, ihFn⟩ := ihFn
      obtain ⟨_, _, ihArg⟩ := ihArg
      obtain ⟨_, _, ih⟩ := ih
      rw [walk_app_of_none h (Term.not_isRedex_app_iff.1 hroot), ihFn]
      dsimp only
      rw [ihArg]
      dsimp only
      rw [ih]
      exact ⟨_, _, rfl⟩
  | app h hroot _ _ ihFn ihArg =>
      obtain ⟨_, _, ihFn⟩ := ihFn
      obtain ⟨_, _, ihArg⟩ := ihArg
      rw [walk_app_of_none h (Term.not_isRedex_app_iff.1 hroot), ihFn]
      dsimp only
      rw [ihArg]
      exact ⟨_, _, rfl⟩
  | body h hroot _ _ ihBody ih =>
      obtain ⟨_, _, ihBody⟩ := ihBody
      obtain ⟨_, _, ih⟩ := ih
      rw [walk_lam_of_error h _ (Term.not_isRedex_lam_iff.1 hroot), ihBody]
      dsimp only
      rw [ih]
      exact ⟨_, _, rfl⟩
  | lam h hroot _ ihBody =>
      obtain ⟨_, _, ihBody⟩ := ihBody
      rw [walk_lam_of_error h _ (Term.not_isRedex_lam_iff.1 hroot), ihBody]
      exact ⟨_, _, rfl⟩

/-! ## Budget and contractions -/

theorem Walks.exists_steps (h : Walks limit t left u progressed) :
    ∃ n : Nat, Term.Steps n t u ∧ left.remaining + n = limit.remaining ∧
      (progressed = true ↔ 0 < n) := by
  induction h with
  | spent t h => exact ⟨0, .refl t, by simp, by simp⟩
  | var k h => exact ⟨0, .refl _, by simp, by simp⟩
  | contract h hc hw ih =>
      obtain ⟨n, hn, hleft, _⟩ := ih
      refine ⟨n + 1, .head (.here hc) hn, ?_, by simp⟩
      rw [Limit.remaining_spend] at hleft
      push_cast
      omega
  | @fn limit mid left fn arg fn' u progressed h hroot hfn hw ihFn ih =>
      obtain ⟨m, hm, hmid, hpos⟩ := ihFn
      obtain ⟨n, hn, hleft, _⟩ := ih
      refine ⟨m + n, (hm.map (.fn arg)).trans hn, ?_, ?_⟩
      · push_cast
        omega
      · have := hpos.1 rfl
        simp
        omega
  | @arg limit mid last left fn arg fn' arg' u progressed h hroot hfn harg hw
      ihFn ihArg ih =>
      obtain ⟨l, hl, hmid, _⟩ := ihFn
      obtain ⟨m, hm, hlast, hpos⟩ := ihArg
      obtain ⟨n, hn, hleft, _⟩ := ih
      have hchildren := (hl.map (.fn arg)).trans (hm.map (.arg fn'))
      refine ⟨l + m + n, hchildren.trans hn, ?_, ?_⟩
      · push_cast
        omega
      · have := hpos.1 rfl
        simp
        omega
  | @app limit mid left fn arg fn' arg' h hroot hfn harg ihFn ihArg =>
      obtain ⟨m, hm, hmid, hmpos⟩ := ihFn
      obtain ⟨n, hn, hleft, hnpos⟩ := ihArg
      refine ⟨m + n, (hm.map (.fn arg)).trans (hn.map (.arg fn')), ?_, ?_⟩
      · push_cast
        omega
      · simp at hmpos hnpos ⊢
        omega
  | @body limit mid left param body body' u progressed h hroot hbody hw ihBody
      ih =>
      obtain ⟨m, hm, hmid, hpos⟩ := ihBody
      obtain ⟨n, hn, hleft, _⟩ := ih
      refine ⟨m + n, (hm.map (.body param)).trans hn, ?_, ?_⟩
      · push_cast
        omega
      · have := hpos.1 rfl
        simp
        omega
  | @lam limit left param body body' h hroot hbody ihBody =>
      obtain ⟨n, hn, hleft, hpos⟩ := ihBody
      exact ⟨n, hn.map (.body param), hleft, hpos⟩

theorem Walks.idle (h : Walks limit t left u false) :
    left = limit ∧ u = t := by
  obtain ⟨n, hn, hleft, hpos⟩ := h.exists_steps
  have hzero : n = 0 := by simpa using hpos
  subst hzero
  exact ⟨Limit.ext (by simpa using hleft), hn.eq_of_zero.symm⟩

theorem Walks.left_nonneg (h : Walks limit t left u progressed)
    (hlimit : 0 ≤ limit.remaining) : 0 ≤ left.remaining := by
  induction h with
  | spent t h => exact hlimit
  | var k h => exact hlimit
  | contract h hc hw ih =>
      have := Limit.allows_iff.1 h
      apply ih
      rw [Limit.remaining_spend]
      omega
  | fn h hroot hfn hw ihFn ih => exact ih (ihFn hlimit)
  | arg h hroot hfn harg hw ihFn ihArg ih => exact ih (ihArg (ihFn hlimit))
  | app h hroot hfn harg ihFn ihArg => exact ihArg (ihFn hlimit)
  | body h hroot hbody hw ihBody ih => exact ih (ihBody hlimit)
  | lam h hroot hbody ihBody => exact ihBody hlimit

/-! ## Normal terms -/

/-- A walk that stops with budget left has looked at every node in vain. -/
theorem Walks.normal (h : Walks limit t left u progressed)
    (hleft : left.allows = true) : u.Normal := by
  induction h with
  | spent t h =>
      rw [h] at hleft
      cases hleft
  | var k h => exact Term.normal_var k
  | contract h hc hw ih => exact ih hleft
  | fn h hroot hfn hw ihFn ih => exact ih hleft
  | arg h hroot hfn harg hw ihFn ihArg ih => exact ih hleft
  | app h hroot hfn harg ihFn ihArg =>
      -- no child made progress, so the node that was no redex still stands
      obtain ⟨rfl, rfl⟩ := harg.idle
      have hfnNormal := ihFn hleft
      obtain ⟨-, rfl⟩ := hfn.idle
      exact Term.normal_app_iff.2 ⟨hroot, hfnNormal, ihArg hleft⟩
  | body h hroot hbody hw ihBody ih => exact ih hleft
  | lam h hroot hbody ihBody =>
      have hbodyNormal := ihBody hleft
      obtain ⟨-, rfl⟩ := hbody.idle
      exact Term.normal_lam_iff.2 ⟨hroot, hbodyNormal⟩

theorem Walks.idle_of_normal (h : Walks limit t left u progressed)
    (ht : t.Normal) : progressed = false := by
  obtain ⟨n, hn, -, hpos⟩ := h.exists_steps
  rw [hn.eq_zero_of_normal ht] at hpos
  simpa using hpos

/-! ## The points of a walk -/

/-- A walk in the first state walks a child in the second. -/
inductive Descends : Limit × Term → Limit × Term → Prop
  | fn {limit : Limit} {fn arg : Term} (h : limit.allows = true)
      (hbeta : Term.beta? fn arg = none) :
      Descends (limit, .app fn arg) (limit, fn)
  | arg {limit : Limit} {fn arg : Term} (h : limit.allows = true)
      (hbeta : Term.beta? fn arg = none)
      (hfn : (walk limit fn).progressed = false) :
      Descends (limit, .app fn arg) ((walk limit fn).left, arg)
  | body {limit : Limit} {param : String} {body handed : Term}
      (h : limit.allows = true) (heta : Term.eta body = .error handed) :
      Descends (limit, .lam param body) (limit, handed)

/-- A walk in the first state looks at its node again in the second. -/
inductive Repeats : Limit × Term → Limit × Term → Prop
  | contract {limit : Limit} {t c : Term} (h : limit.allows = true)
      (hc : Term.Contraction t c) : Repeats (limit, t) (limit.spend, c)
  | fn {limit : Limit} {fn arg : Term} (h : limit.allows = true)
      (hbeta : Term.beta? fn arg = none)
      (hfn : (walk limit fn).progressed = true) :
      Repeats (limit, .app fn arg)
        ((walk limit fn).left, .app (walk limit fn).term arg)
  | arg {limit : Limit} {fn arg : Term} (h : limit.allows = true)
      (hbeta : Term.beta? fn arg = none)
      (hfn : (walk limit fn).progressed = false)
      (harg : (walk (walk limit fn).left arg).progressed = true) :
      Repeats (limit, .app fn arg)
        ((walk (walk limit fn).left arg).left,
          .app (walk limit fn).term (walk (walk limit fn).left arg).term)
  | body {limit : Limit} {param : String} {body handed : Term}
      (h : limit.allows = true) (heta : Term.eta body = .error handed)
      (hbody : (walk limit handed).progressed = true) :
      Repeats (limit, .lam param body)
        ((walk limit handed).left, .lam param (walk limit handed).term)

/-- A walk in the first state goes on in the second. -/
def Enters (s s' : Limit × Term) : Prop := Descends s s' ∨ Repeats s s'

theorem left_walk_nonneg (h : 0 ≤ limit.remaining) (t : Term) :
    0 ≤ (walk limit t).left.remaining :=
  (walks_walk limit t).left_nonneg h

theorem Enters.nonneg {s s' : Limit × Term} (h : Enters s s') :
    0 ≤ s'.1.remaining := by
  rcases h with h | h
  · cases h with
    | fn h hbeta => exact (Limit.allows_iff.1 h).le
    | arg h hbeta hfn => exact left_walk_nonneg (Limit.allows_iff.1 h).le _
    | body h heta => exact (Limit.allows_iff.1 h).le
  · cases h with
    | contract h hc =>
        have := Limit.allows_iff.1 h
        rw [Limit.remaining_spend]
        omega
    | fn h hbeta hfn => exact left_walk_nonneg (Limit.allows_iff.1 h).le _
    | arg h hbeta hfn harg =>
        exact left_walk_nonneg (left_walk_nonneg (Limit.allows_iff.1 h).le _) _
    | body h heta hbody => exact left_walk_nonneg (Limit.allows_iff.1 h).le _

theorem nonneg_of_reaches {s s' : Limit × Term}
    (h : Relation.ReflTransGen Enters s s') (hs : 0 ≤ s.1.remaining) :
    0 ≤ s'.1.remaining := by
  induction h with
  | refl => exact hs
  | tail _ h _ => exact h.nonneg

end Nameless.Reduction
