import Nameless.Proofs.Term.Step

/-!
# Leftmost β-contraction

A term that is not β-normal has one β-redex that stands before all others: no
redex encloses it, and none stands to its left.  Contracting that one is a
function of the term, so the number of such steps after which a term is
β-normal, if there is one, is a function of the term as well.
-/

namespace Nameless.Term

def IsLam : Term → Prop
  | lam _ _ => True
  | _ => False

instance decidableIsLam : (t : Term) → Decidable t.IsLam
  | var _ => .isFalse nofun
  | app _ _ => .isFalse nofun
  | lam _ _ => .isTrue trivial

@[simp] theorem isLam_lam (param : String) (body : Term) :
    (lam param body).IsLam := trivial

@[simp] theorem not_isLam_app {fn arg : Term} : ¬ (app fn arg).IsLam := nofun

theorem exists_lam_of_isLam {t : Term} (h : t.IsLam) :
    ∃ param body, t = lam param body := by
  cases t with
  | var k => cases h
  | app fn arg => cases h
  | lam param body => exact ⟨param, body, rfl⟩

@[simp] theorem isLam_shift (start count : Int) (t : Term) :
    (t.shift start count).IsLam ↔ t.IsLam := by
  cases t <;> rfl

/-- No position holds a β-redex. -/
def BetaNormal : Term → Prop
  | var _ => True
  | app fn arg => ¬ fn.IsLam ∧ fn.BetaNormal ∧ arg.BetaNormal
  | lam _ body => body.BetaNormal

instance decidableBetaNormal : (t : Term) → Decidable t.BetaNormal
  | var _ => .isTrue trivial
  | app fn arg =>
    have := decidableBetaNormal fn
    have := decidableBetaNormal arg
    inferInstanceAs (Decidable (¬ fn.IsLam ∧ fn.BetaNormal ∧ arg.BetaNormal))
  | lam _ body => decidableBetaNormal body

@[simp] theorem betaNormal_var (k : Int) : (var k).BetaNormal := trivial

@[simp] theorem betaNormal_app {fn arg : Term} :
    (app fn arg).BetaNormal ↔
      ¬ fn.IsLam ∧ fn.BetaNormal ∧ arg.BetaNormal := .rfl

@[simp] theorem betaNormal_lam {param : String} {body : Term} :
    (lam param body).BetaNormal ↔ body.BetaNormal := .rfl

@[simp] theorem betaNormal_shift (start count : Int) (t : Term) :
    (t.shift start count).BetaNormal ↔ t.BetaNormal := by
  induction t generalizing start with
  | var k => simp
  | app fn arg ihFn ihArg => simp [ihFn, ihArg]
  | lam param body ih => simp [ih]

theorem Normal.betaNormal {t : Term} (h : t.Normal) : t.BetaNormal := by
  induction t with
  | var k => trivial
  | app fn arg ihFn ihArg =>
      obtain ⟨hroot, hfn, harg⟩ := normal_app_iff.1 h
      refine ⟨?_, ihFn hfn, ihArg harg⟩
      intro hlam
      obtain ⟨param, body, rfl⟩ := exists_lam_of_isLam hlam
      exact hroot ⟨_, .beta param body arg⟩
  | lam param body ih => exact ih (normal_lam_iff.1 h).2

/-- The β-redex that stands before all others is contracted. -/
inductive Leftmost : Term → Term → Prop
  | beta (param : String) (body arg : Term) :
      Leftmost (app (lam param body) arg) (body.instantiate 0 arg)
  | fn {fn fn' : Term} (arg : Term) (hfn : ¬ fn.IsLam)
      (h : Leftmost fn fn') : Leftmost (app fn arg) (app fn' arg)
  | arg {fn arg arg' : Term} (hfn : ¬ fn.IsLam) (hnormal : fn.BetaNormal)
      (h : Leftmost arg arg') : Leftmost (app fn arg) (app fn arg')
  | body (param : String) {body body' : Term} (h : Leftmost body body') :
      Leftmost (lam param body) (lam param body')

namespace Leftmost

theorem not_betaNormal {t u : Term} (h : Leftmost t u) : ¬ t.BetaNormal := by
  induction h with
  | beta param body arg => exact fun hnormal ↦ hnormal.1 trivial
  | fn arg _ _ ih => exact fun hnormal ↦ ih hnormal.2.1
  | arg _ _ _ ih => exact fun hnormal ↦ ih hnormal.2.2
  | body param _ ih => exact ih

theorem app_inv {fn arg u : Term} (h : Leftmost (app fn arg) u) :
    (∃ param body, fn = lam param body ∧ u = body.instantiate 0 arg) ∨
    (∃ fn', ¬ fn.IsLam ∧ u = app fn' arg ∧ Leftmost fn fn') ∨
    ∃ arg', ¬ fn.IsLam ∧ fn.BetaNormal ∧ u = app fn arg' ∧
      Leftmost arg arg' := by
  cases h with
  | beta param body arg => exact .inl ⟨param, body, rfl, rfl⟩
  | fn _ hfn h => exact .inr (.inl ⟨_, hfn, rfl, h⟩)
  | arg hfn hnormal h => exact .inr (.inr ⟨_, hfn, hnormal, rfl, h⟩)

theorem unique {t u v : Term} (hu : Leftmost t u) (hv : Leftmost t v) :
    u = v := by
  induction hu generalizing v with
  | beta param body arg =>
      cases hv with
      | beta => rfl
      | fn _ hfn _ => exact absurd trivial hfn
      | arg hfn _ _ => exact absurd trivial hfn
  | fn arg hfn h ih =>
      cases hv with
      | beta => exact absurd trivial hfn
      | fn _ _ h' => rw [ih h']
      | arg _ hnormal _ => exact absurd hnormal h.not_betaNormal
  | arg hfn hnormal h ih =>
      cases hv with
      | beta => exact absurd trivial hfn
      | fn _ _ h' => exact absurd hnormal h'.not_betaNormal
      | arg _ _ h' => rw [ih h']
  | body param h ih =>
      cases hv with
      | body _ h' => rw [ih h']

theorem exists_of_shift {start count : Int} (hstart : 0 ≤ start)
    (hcount : 0 ≤ count) {t u : Term}
    (h : Leftmost (t.shift start count) u) :
    ∃ u' : Term, u = u'.shift start count ∧ Leftmost t u' := by
  generalize hs : t.shift start count = s at h
  induction h generalizing t start with
  | beta param body arg =>
      obtain ⟨fn, arg, rfl, hfn, rfl⟩ := exists_app_of_shift_eq hs
      obtain ⟨body, rfl, rfl⟩ := exists_lam_of_shift_eq hfn
      refine ⟨body.instantiate 0 arg, ?_, .beta param body arg⟩
      rw [shift_instantiate le_rfl hstart hcount, Int.sub_zero]
  | fn _ hfn _ ih =>
      obtain ⟨fn, arg, rfl, rfl, rfl⟩ := exists_app_of_shift_eq hs
      rw [isLam_shift] at hfn
      obtain ⟨fn', rfl, h⟩ := ih hstart rfl
      exact ⟨app fn' arg, rfl, .fn arg hfn h⟩
  | arg hfn hnormal _ ih =>
      obtain ⟨fn, arg, rfl, rfl, rfl⟩ := exists_app_of_shift_eq hs
      rw [isLam_shift] at hfn
      rw [betaNormal_shift] at hnormal
      obtain ⟨arg', rfl, h⟩ := ih hstart rfl
      exact ⟨app fn arg', rfl, .arg hfn hnormal h⟩
  | body param _ ih =>
      obtain ⟨body, rfl, rfl⟩ := exists_lam_of_shift_eq hs
      obtain ⟨body', rfl, h⟩ := ih (by omega) rfl
      exact ⟨lam param body', rfl, .body param h⟩

end Leftmost

theorem exists_leftmost {t : Term} (h : ¬ t.BetaNormal) :
    ∃ u, Leftmost t u := by
  induction t with
  | var k => exact absurd trivial h
  | app fn arg ihFn ihArg =>
      by_cases hlam : fn.IsLam
      · obtain ⟨param, body, rfl⟩ := exists_lam_of_isLam hlam
        exact ⟨_, .beta param body arg⟩
      · by_cases hfn : fn.BetaNormal
        · obtain ⟨arg', harg⟩ := ihArg fun harg ↦ h ⟨hlam, hfn, harg⟩
          exact ⟨_, .arg hlam hfn harg⟩
        · obtain ⟨fn', hfn'⟩ := ihFn hfn
          exact ⟨_, .fn arg hlam hfn'⟩
  | lam param body ih =>
      obtain ⟨body', hbody⟩ := ih h
      exact ⟨_, .body param hbody⟩

/-- After `k` leftmost steps the term is β-normal. -/
inductive Settles : Nat → Term → Prop
  | here {t : Term} (h : t.BetaNormal) : Settles 0 t
  | step {k : Nat} {t u : Term} (h : Leftmost t u) (hu : Settles k u) :
      Settles (k + 1) t

/-! ## What stands before the leftmost β-redex -/

/-- The number of nodes that stand before the leftmost β-redex, or near to the
size of a term that is β-normal. -/
def front : Term → Nat
  | var _ => 1
  | app fn arg =>
    if fn.IsLam then 0
    else if fn.BetaNormal then fn.size + arg.front
    else fn.front
  | lam _ body => body.front + 1

@[simp] theorem front_lam (param : String) (body : Term) :
    (lam param body).front = body.front + 1 := rfl

theorem front_app_of_isLam {fn : Term} (arg : Term) (hfn : fn.IsLam) :
    (app fn arg).front = 0 := by
  rw [front, if_pos hfn]

theorem front_app_of_betaNormal {fn : Term} (arg : Term) (hfn : ¬ fn.IsLam)
    (hnormal : fn.BetaNormal) :
    (app fn arg).front = fn.size + arg.front := by
  rw [front, if_neg hfn, if_pos hnormal]

theorem front_app_of_not_betaNormal {fn : Term} (arg : Term)
    (hfn : ¬ fn.IsLam) (hnormal : ¬ fn.BetaNormal) :
    (app fn arg).front = fn.front := by
  rw [front, if_neg hfn, if_neg hnormal]

theorem front_le_size (t : Term) : t.front ≤ t.size := by
  induction t with
  | var k => rfl
  | app fn arg ihFn ihArg =>
      rw [size_app, front]
      split
      · omega
      · split <;> omega
  | lam param body ih =>
      rw [size_lam, front_lam]
      omega

theorem front_shift (start count : Int) (t : Term) :
    (t.shift start count).front = t.front := by
  induction t generalizing start with
  | var k => rfl
  | app fn arg ihFn ihArg =>
      rw [shift_app, front, front, size_shift, ihFn, ihArg]
      simp only [isLam_shift, betaNormal_shift]
  | lam param body ih => rw [shift_lam, front_lam, front_lam, ih]

end Nameless.Term
