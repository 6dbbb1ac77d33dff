import Nameless.Proofs.Term.Instantiate

/-!
# Free occurrences of an index

How often a free index occurs in a term, and what becomes of that number when
the term is carried below binders or one of its indices is given a value.
-/

namespace Nameless.Term

/-- How often the free index `i` occurs. -/
def occurrences : Term → Int → Nat
  | var k, i => if k = i then 1 else 0
  | app fn arg, i => fn.occurrences i + arg.occurrences i
  | lam _ body, i => body.occurrences (i + 1)

@[simp] theorem occurrences_app (fn arg : Term) (i : Int) :
    (app fn arg).occurrences i = fn.occurrences i + arg.occurrences i := rfl

@[simp] theorem occurrences_lam (param : String) (body : Term) (i : Int) :
    (lam param body).occurrences i = body.occurrences (i + 1) := rfl

@[simp] theorem occurrences_var_self (i : Int) :
    (var i).occurrences i = 1 := by
  simp [occurrences]

theorem occurrences_var_of_ne {k i : Int} (h : k ≠ i) :
    (var k).occurrences i = 0 := by
  simp [occurrences, h]

/-! ## Below further binders -/

theorem occurrences_shift_of_lt {start count i : Int} (hcount : 0 ≤ count)
    (h : i < start) (t : Term) :
    (t.shift start count).occurrences i = t.occurrences i := by
  induction t generalizing start i with
  | var k =>
      rcases lt_or_ge k start with hk | hk
      · rw [shift_var_lt hk]
      · rw [shift_var_ge hk, occurrences_var_of_ne (by omega),
          occurrences_var_of_ne (by omega)]
  | app fn arg ihFn ihArg =>
      rw [shift_app, occurrences_app, occurrences_app, ihFn h, ihArg h]
  | lam param body ih =>
      rw [shift_lam, occurrences_lam, occurrences_lam, ih (by omega)]

/-- Nothing refers to a binder that was only just opened. -/
theorem occurrences_shift_of_opened {start count i : Int} (hlow : start ≤ i)
    (hhigh : i < start + count) (t : Term) :
    (t.shift start count).occurrences i = 0 := by
  induction t generalizing start i with
  | var k =>
      rcases lt_or_ge k start with hk | hk
      · rw [shift_var_lt hk, occurrences_var_of_ne (by omega)]
      · rw [shift_var_ge hk, occurrences_var_of_ne (by omega)]
  | app fn arg ihFn ihArg =>
      rw [shift_app, occurrences_app, ihFn hlow hhigh, ihArg hlow hhigh]
  | lam param body ih =>
      rw [shift_lam, occurrences_lam, ih (by omega) (by omega)]

theorem occurrences_shift_add {start count i : Int} (hcount : 0 ≤ count)
    (h : start ≤ i) (t : Term) :
    (t.shift start count).occurrences (i + count) = t.occurrences i := by
  induction t generalizing start i with
  | var k =>
      rcases lt_or_ge k start with hk | hk
      · rw [shift_var_lt hk, occurrences_var_of_ne (by omega),
          occurrences_var_of_ne (by omega)]
      · rw [shift_var_ge hk, occurrences, occurrences]
        simp only [Int.add_left_inj]
  | app fn arg ihFn ihArg =>
      rw [shift_app, occurrences_app, occurrences_app, ihFn h, ihArg h]
  | lam param body ih =>
      rw [shift_lam, occurrences_lam, occurrences_lam,
        show i + count + 1 = i + 1 + count by omega, ih (by omega)]

/-! ## With a value in place of an index -/

theorem occurrences_instantiate_of_lt {idx i : Int} (hi : 0 ≤ i)
    (h : i < idx) (t value : Term) :
    (t.instantiate idx value).occurrences i = t.occurrences i := by
  induction t generalizing idx i with
  | var k =>
      rcases lt_trichotomy k idx with hk | rfl | hk
      · rw [instantiate_var_lt hk]
      · rw [instantiate_var_self, occurrences_var_of_ne (by omega),
          occurrences_shift_of_opened hi (by omega)]
      · rw [instantiate_var_gt hk, occurrences_var_of_ne (by omega),
          occurrences_var_of_ne (by omega)]
  | app fn arg ihFn ihArg =>
      rw [instantiate_app, occurrences_app, occurrences_app, ihFn hi h,
        ihArg hi h]
  | lam param body ih =>
      rw [instantiate_lam, occurrences_lam, occurrences_lam,
        ih (by omega) (by omega)]

/-- An index from `idx` on occurs where it did, and once in every copy of the
value for each occurrence there. -/
theorem occurrences_instantiate {idx i : Int} (hidx : 0 ≤ idx)
    (h : idx ≤ i) (t value : Term) :
    (t.instantiate idx value).occurrences i =
      t.occurrences (i + 1) +
        t.occurrences idx * value.occurrences (i - idx) := by
  induction t generalizing idx i with
  | var k =>
      rcases lt_trichotomy k idx with hk | rfl | hk
      · rw [instantiate_var_lt hk, occurrences_var_of_ne (by omega),
          occurrences_var_of_ne (by omega), occurrences_var_of_ne (by omega),
          Nat.zero_mul]
      · have hvalue :=
          occurrences_shift_add hidx (show 0 ≤ i - k by omega) value
        rw [Int.sub_add_cancel] at hvalue
        rw [instantiate_var_self, hvalue, occurrences_var_of_ne (by omega),
          occurrences_var_self, Nat.zero_add, Nat.one_mul]
      · rw [instantiate_var_gt hk, occurrences_var_of_ne (i := idx) (by omega),
          Nat.zero_mul, Nat.add_zero, occurrences, occurrences]
        simp only [Int.sub_eq_iff_eq_add]
  | app fn arg ihFn ihArg =>
      rw [instantiate_app, occurrences_app, occurrences_app, occurrences_app,
        ihFn hidx h, ihArg hidx h, Nat.add_mul]
      omega
  | lam param body ih =>
      rw [instantiate_lam, occurrences_lam, occurrences_lam, occurrences_lam,
        ih (by omega) (by omega), Int.add_sub_add_right]

end Nameless.Term
