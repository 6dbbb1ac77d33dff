import Mathlib.Order.Defs.LinearOrder
import Mathlib.Algebra.Order.Ring.Int
import Nameless.Term.Lower

/-!
# Capture-avoiding substitution

`raise` and `instantiate` say occurrence by occurrence what a term looks like
after its free indices moved or one of them was given a value.  The laws below
relate both to `shift`, which carries a term below binders in general.
-/

namespace Nameless.Term

/-- Rewrites each variable, told how many binders lie above it. -/
def mapVars (f : Nat → Int → Term) (depth : Nat) : Term → Term
  | var k => f depth k
  | app fn arg => app (fn.mapVars f depth) (arg.mapVars f depth)
  | lam param body => lam param (body.mapVars f (depth + 1))

theorem mapVars_succ (f : Nat → Int → Term) (depth : Nat) (t : Term) :
    t.mapVars f (depth + 1) = t.mapVars (fun d ↦ f (d + 1)) depth := by
  induction t generalizing depth with
  | var k => rfl
  | app fn arg ihFn ihArg => simp only [mapVars, ihFn, ihArg]
  | lam param body ih => simp only [mapVars, ih]

/-- The term with all its free indices raised by `count`. -/
def raise (t : Term) (count : Int) : Term :=
  t.mapVars (fun depth k ↦ var (if k < depth then k else k + count)) 0

/-- The term with `value` in place of the free index `idx`, and the indices
above it closing the gap. -/
def instantiate (t : Term) (idx : Int) (value : Term) : Term :=
  t.mapVars
    (fun depth k ↦
      if k < idx + depth then var k
      else if k = idx + depth then value.raise (idx + depth)
      else var (k - 1)) 0

theorem shift_eq_mapVars (start count : Int) (t : Term) :
    t.shift start count =
      t.mapVars
        (fun depth k ↦ var (if k < start + depth then k else k + count)) 0 := by
  induction t generalizing start with
  | var k =>
      simp only [shift, mapVars]
      congr 1
      split <;> split <;> omega
  | app fn arg ihFn ihArg => simp only [shift, mapVars, ihFn, ihArg]
  | lam param body ih =>
      simp only [shift, mapVars, ih, mapVars_succ]
      congr 2
      funext depth k
      congr 3
      push_cast
      omega

theorem raise_eq_shift (t : Term) (count : Int) :
    t.raise count = t.shift 0 count := by
  simp [raise, shift_eq_mapVars]

theorem instantiate_var (k idx : Int) (value : Term) :
    (var k).instantiate idx value =
      if k < idx then var k
      else if k = idx then value.shift 0 idx
      else var (k - 1) := by
  simp [instantiate, mapVars, raise_eq_shift]

@[simp] theorem instantiate_app (fn arg : Term) (idx : Int) (value : Term) :
    (app fn arg).instantiate idx value =
      app (fn.instantiate idx value) (arg.instantiate idx value) := rfl

@[simp] theorem instantiate_lam (param : String) (body : Term) (idx : Int)
    (value : Term) :
    (lam param body).instantiate idx value =
      lam param (body.instantiate (idx + 1) value) := by
  simp only [instantiate, mapVars, mapVars_succ]
  congr 2
  funext depth k
  have hdepth : idx + ((depth + 1 : Nat) : Int) = idx + 1 + depth := by
    push_cast
    omega
  rw [hdepth]

theorem instantiate_var_lt {k idx : Int} (h : k < idx) (value : Term) :
    (var k).instantiate idx value = var k := by
  rw [instantiate_var, if_pos h]

@[simp] theorem instantiate_var_self (idx : Int) (value : Term) :
    (var idx).instantiate idx value = value.shift 0 idx := by
  rw [instantiate_var, if_neg (by omega), if_pos rfl]

theorem instantiate_var_gt {k idx : Int} (h : idx < k) (value : Term) :
    (var k).instantiate idx value = var (k - 1) := by
  rw [instantiate_var, if_neg (by omega), if_neg (by omega)]

/-! ## Shifts of shifts -/

theorem shift_var_lt {start k : Int} (h : k < start) (count : Int) :
    (var k).shift start count = var k := by
  rw [shift_var, if_neg (by omega)]

theorem shift_var_ge {start k : Int} (h : start ≤ k) (count : Int) :
    (var k).shift start count = var (k + count) := by
  rw [shift_var, if_pos h]

theorem exists_var_of_shift_eq {start count k : Int} {t : Term}
    (h : t.shift start count = var k) : ∃ j, t = var j := by
  cases t with
  | var j => exact ⟨j, rfl⟩
  | app fn arg => cases h
  | lam param body => cases h

theorem eq_var_zero_of_shift {start count : Int} {t : Term}
    (hstart : 0 < start) (hcount : 0 ≤ count)
    (h : t.shift start count = var 0) : t = var 0 := by
  obtain ⟨k, rfl⟩ := exists_var_of_shift_eq h
  rw [shift_var, var.injEq] at h
  split at h
  · omega
  · rw [h]

theorem exists_app_of_shift_eq {start count : Int} {t fn arg : Term}
    (h : t.shift start count = app fn arg) :
    ∃ fn' arg', t = app fn' arg' ∧
      fn'.shift start count = fn ∧ arg'.shift start count = arg := by
  cases t with
  | var j => cases h
  | app fn' arg' => exact ⟨fn', arg', rfl, app.inj h⟩
  | lam param body => cases h

theorem exists_lam_of_shift_eq {start count : Int} {param : String}
    {t body : Term} (h : t.shift start count = lam param body) :
    ∃ body', t = lam param body' ∧ body'.shift (start + 1) count = body := by
  cases t with
  | var j => cases h
  | app fn arg => cases h
  | lam param' body' =>
      obtain ⟨rfl, hbody⟩ := lam.inj h
      exact ⟨body', rfl, hbody⟩

/-- A band of new binders may be opened in two halves. -/
theorem shift_shift_add {start between count : Int} (more : Int)
    (hlow : start ≤ between) (hhigh : between ≤ start + count) (t : Term) :
    (t.shift start count).shift between more =
      t.shift start (count + more) := by
  induction t generalizing start between with
  | var k =>
      rcases lt_or_ge k start with hk | hk
      · rw [shift_var_lt hk, shift_var_lt (by omega), shift_var_lt hk]
      · rw [shift_var_ge hk, shift_var_ge (by omega), shift_var_ge hk,
          Int.add_assoc]
  | app fn arg ihFn ihArg =>
      simp only [shift_app, ihFn hlow hhigh, ihArg hlow hhigh]
  | lam param body ih =>
      simp only [shift_lam]
      rw [ih (by omega) (by omega)]

/-- Two separate bands of new binders may be opened in either order. -/
theorem shift_shift_comm {low start count more : Int} (h : low ≤ start)
    (hcount : 0 ≤ count) (hmore : 0 ≤ more) (t : Term) :
    (t.shift start count).shift low more =
      (t.shift low more).shift (start + more) count := by
  induction t generalizing low start with
  | var k =>
      rcases lt_or_ge k low with hl | hl
      · rw [shift_var_lt (by omega), shift_var_lt hl, shift_var_lt (by omega)]
      · rcases lt_or_ge k start with hs | hs
        · rw [shift_var_lt hs, shift_var_ge hl, shift_var_lt (by omega)]
        · rw [shift_var_ge hs, shift_var_ge (by omega), shift_var_ge hl,
            shift_var_ge (by omega)]
          congr 1
          omega
  | app fn arg ihFn ihArg => simp only [shift_app, ihFn h, ihArg h]
  | lam param body ih =>
      simp only [shift_lam]
      rw [ih (by omega), show start + 1 + more = start + more + 1 by omega]

/-- A term that was opened twice, at two separate bands, was opened from one
term. -/
theorem exists_shift_of_shift_eq_shift {low start count more : Int}
    (h : low ≤ start) (hcount : 0 ≤ count) (hmore : 0 ≤ more) {t u : Term}
    (heq : t.shift (start + more) count = u.shift low more) :
    ∃ core : Term, t = core.shift low more ∧ u = core.shift start count := by
  induction t generalizing low start u with
  | var k =>
      obtain ⟨j, rfl⟩ := exists_var_of_shift_eq heq.symm
      rcases lt_or_ge j low with hj | hj
      · rw [shift_var_lt hj] at heq
        have hk : k = j := by
          simp only [shift_var, var.injEq] at heq
          split at heq <;> omega
        subst hk
        exact ⟨var k, (shift_var_lt hj more).symm,
          (shift_var_lt (by omega) count).symm⟩
      · rw [shift_var_ge hj] at heq
        rcases lt_or_ge k (start + more) with hk | hk
        · rw [shift_var_lt hk] at heq
          cases heq
          exact ⟨var j, (shift_var_ge hj more).symm,
            (shift_var_lt (by omega) count).symm⟩
        · rw [shift_var_ge hk, var.injEq] at heq
          refine ⟨var (k - more), ?_, ?_⟩
          · rw [shift_var_ge (by omega), Int.sub_add_cancel]
          · rw [shift_var_ge (by omega)]
            congr 1
            omega
  | app fn arg ihFn ihArg =>
      obtain ⟨fn', arg', rfl, hfn, harg⟩ := exists_app_of_shift_eq heq.symm
      obtain ⟨f, rfl, rfl⟩ := ihFn h hfn.symm
      obtain ⟨a, rfl, rfl⟩ := ihArg h harg.symm
      exact ⟨app f a, rfl, rfl⟩
  | lam param body ih =>
      obtain ⟨body', rfl, hbody⟩ := exists_lam_of_shift_eq heq.symm
      rw [show start + more + 1 = start + 1 + more by omega] at hbody
      obtain ⟨b, rfl, rfl⟩ := ih (by omega) hbody.symm
      exact ⟨lam param b, rfl, rfl⟩

theorem lower_shift (start : Int) {count : Int} (hcount : 0 ≤ count)
    (t : Term) : (t.shift start count).lower start count = .ok t := by
  induction t generalizing start with
  | var k =>
      rcases lt_or_ge k start with hk | hk
      · rw [shift_var_lt hk, lower, if_neg (by omega), if_pos hk]
      · rw [shift_var_ge hk, lower, if_pos (by omega), Int.add_sub_cancel]
  | app fn arg ihFn ihArg => simp only [shift_app, lower, ihFn, ihArg]
  | lam param body ih => simp only [shift_lam, lower, ih]

theorem shift_injective {start count : Int} (hcount : 0 ≤ count)
    {t u : Term} (h : t.shift start count = u.shift start count) : t = u := by
  have hlower := lower_shift start hcount t
  rw [h, lower_shift start hcount u] at hlower
  exact (Except.ok.inj hlower).symm

theorem lower_eq_ok_iff {start count : Int} (hcount : 0 ≤ count)
    {t u : Term} : t.lower start count = .ok u ↔ u.shift start count = t := by
  constructor
  · exact shift_of_lower_eq_ok
  · rintro rfl
    exact lower_shift start hcount u

/-! ## Instantiation and shifts -/

/-- Instantiating a binder that was only just opened closes it again. -/
theorem instantiate_shift_cancel {start idx count : Int} (hlow : start ≤ idx)
    (hhigh : idx < start + count) (t value : Term) :
    (t.shift start count).instantiate idx value = t.shift start (count - 1) := by
  induction t generalizing start idx with
  | var k =>
      rcases lt_or_ge k start with hk | hk
      · rw [shift_var_lt hk, shift_var_lt hk, instantiate_var_lt (by omega)]
      · rw [shift_var_ge hk, shift_var_ge hk, instantiate_var_gt (by omega)]
        congr 1
        omega
  | app fn arg ihFn ihArg =>
      simp only [shift_app, instantiate_app, ihFn hlow hhigh, ihArg hlow hhigh]
  | lam param body ih =>
      simp only [shift_lam, instantiate_lam]
      rw [ih (by omega) (by omega)]

theorem instantiate_of_lower_eq_ok {t u : Term} {idx : Int}
    (h : t.lower idx 1 = .ok u) (value : Term) : t.instantiate idx value = u := by
  rw [← shift_of_lower_eq_ok h, instantiate_shift_cancel le_rfl (by omega),
    Int.sub_self, shift_zero]

theorem shift_instantiate {idx start count : Int} (hidx : 0 ≤ idx)
    (h : idx ≤ start) (hcount : 0 ≤ count) (t value : Term) :
    (t.instantiate idx value).shift start count =
      (t.shift (start + 1) count).instantiate idx
        (value.shift (start - idx) count) := by
  induction t generalizing idx start with
  | var k =>
      rcases lt_trichotomy k idx with hk | rfl | hk
      · rw [instantiate_var_lt hk, shift_var_lt (by omega),
          shift_var_lt (by omega), instantiate_var_lt hk]
      · rw [instantiate_var_self, shift_var_lt (by omega),
          instantiate_var_self, shift_shift_comm (by omega) hcount hidx,
          Int.sub_add_cancel]
      · rw [instantiate_var_gt hk]
        rcases lt_or_ge k (start + 1) with hs | hs
        · rw [shift_var_lt (by omega), shift_var_lt hs, instantiate_var_gt hk]
        · rw [shift_var_ge (by omega), shift_var_ge hs,
            instantiate_var_gt (by omega)]
          congr 1
          omega
  | app fn arg ihFn ihArg =>
      simp only [shift_app, instantiate_app, ihFn hidx h, ihArg hidx h]
  | lam param body ih =>
      simp only [shift_lam, instantiate_lam]
      rw [ih (by omega) (by omega), Int.add_sub_add_right]

theorem instantiate_shift {start idx count : Int} (hstart : 0 ≤ start)
    (h : start ≤ idx) (hcount : 0 ≤ count) (t value : Term) :
    (t.shift start count).instantiate (idx + count) value =
      (t.instantiate idx value).shift start count := by
  induction t generalizing start idx with
  | var k =>
      rcases lt_or_ge k start with hs | hs
      · rw [shift_var_lt hs, instantiate_var_lt (by omega),
          instantiate_var_lt (by omega), shift_var_lt hs]
      · rw [shift_var_ge hs]
        rcases lt_trichotomy k idx with hk | rfl | hk
        · rw [instantiate_var_lt (by omega), instantiate_var_lt hk,
            shift_var_ge hs]
        · rw [instantiate_var_self, instantiate_var_self,
            shift_shift_add count hstart (by omega)]
        · rw [instantiate_var_gt (by omega), instantiate_var_gt hk,
            shift_var_ge (by omega)]
          congr 1
          omega
  | app fn arg ihFn ihArg =>
      simp only [shift_app, instantiate_app, ihFn hstart h, ihArg hstart h]
  | lam param body ih =>
      simp only [shift_lam, instantiate_lam]
      rw [← ih (by omega) (by omega), Int.add_right_comm]

/-- The substitution lemma. -/
theorem instantiate_instantiate {i j : Int} (hi : 0 ≤ i) (h : i ≤ j)
    (t u v : Term) :
    (t.instantiate i u).instantiate j v =
      (t.instantiate (j + 1) v).instantiate i (u.instantiate (j - i) v) := by
  induction t generalizing i j with
  | var k =>
      rcases lt_trichotomy k i with hk | rfl | hk
      · rw [instantiate_var_lt hk, instantiate_var_lt (by omega),
          instantiate_var_lt (by omega), instantiate_var_lt hk]
      · rw [instantiate_var_self, instantiate_var_lt (by omega),
          instantiate_var_self, ← instantiate_shift (by omega) (by omega) hi,
          Int.sub_add_cancel]
      · rw [instantiate_var_gt hk]
        rcases lt_trichotomy k (j + 1) with hj | rfl | hj
        · rw [instantiate_var_lt (by omega), instantiate_var_lt hj,
            instantiate_var_gt hk]
        · -- `v` was carried below the binder of `i` and does not mention it
          rw [Int.add_sub_cancel, instantiate_var_self, instantiate_var_self,
            instantiate_shift_cancel hi (by omega), Int.add_sub_cancel]
        · rw [instantiate_var_gt (by omega), instantiate_var_gt hj,
            instantiate_var_gt (by omega)]
  | app fn arg ihFn ihArg => simp only [instantiate_app, ihFn hi h, ihArg hi h]
  | lam param body ih =>
      simp only [instantiate_lam]
      rw [ih (by omega) (by omega), Int.add_sub_add_right]

theorem instantiate_shift_var {idx : Int} (t : Term) :
    (t.shift (idx + 1) 1).instantiate idx (var 0) = t := by
  induction t generalizing idx with
  | var k =>
      rcases lt_trichotomy k idx with hk | rfl | hk
      · rw [shift_var_lt (by omega), instantiate_var_lt hk]
      · rw [shift_var_lt (by omega), instantiate_var_self, shift_var_ge le_rfl,
          Int.zero_add]
      · rw [shift_var_ge (by omega), instantiate_var_gt (by omega),
          Int.add_sub_cancel]
  | app fn arg ihFn ihArg => simp only [shift_app, instantiate_app, ihFn, ihArg]
  | lam param body ih => simp only [shift_lam, instantiate_lam, ih]

end Nameless.Term
