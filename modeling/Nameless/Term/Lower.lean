import Nameless.Term.Basic

/-!
# Lowering past binders

Lowering carries a term outward past `count` binders, which only works when
no variable refers to one of them.  A refused lowering hands a term back: the
half of an application that was already lowered is raised again, and
`lower_error` says that what is handed back is the term as it was.
-/

namespace Nameless.Term

/-- The term with the binders `start, …, start + count - 1` taken away, or the
term handed back if it refers to one of them. -/
def lower (start count : Int) : Term → Except Term Term
  | var k =>
    if start + count ≤ k then .ok (var (k - count))
    else if k < start then .ok (var k)
    else .error (var k)
  | app fn arg =>
    match fn.lower start count with
    | .error fn => .error (app fn arg)
    | .ok lowered =>
      match arg.lower start count with
      | .error arg => .error (app (lowered.shift start count) arg)
      | .ok arg => .ok (app lowered arg)
  | lam param body =>
    match body.lower (start + 1) count with
    | .error body => .error (lam param body)
    | .ok body => .ok (lam param body)

theorem shift_of_lower_eq_ok {start count : Int} {t u : Term}
    (h : t.lower start count = .ok u) : u.shift start count = t := by
  induction t generalizing start u with
  | var k =>
      simp only [lower] at h
      split at h
      · cases h
        rw [shift_var, if_pos (by omega)]
        congr 1
        omega
      · split at h
        · cases h
          rw [shift_var, if_neg (by omega)]
        · cases h
  | app fn arg ihFn ihArg =>
      simp only [lower] at h
      cases hf : fn.lower start count with
      | error fn' => simp [hf] at h
      | ok f =>
          cases ha : arg.lower start count with
          | error arg' => simp [hf, ha] at h
          | ok a =>
              simp only [hf, ha] at h
              cases h
              simp [ihFn hf, ihArg ha]
  | lam param body ih =>
      simp only [lower] at h
      cases hb : body.lower (start + 1) count with
      | error body' => simp [hb] at h
      | ok b =>
          simp only [hb] at h
          cases h
          simp [ih hb]

theorem lower_error {start count : Int} {t u : Term}
    (h : t.lower start count = .error u) : u = t := by
  induction t generalizing start u with
  | var k =>
      simp only [lower] at h
      split at h
      · cases h
      · split at h
        · cases h
        · cases h
          rfl
  | app fn arg ihFn ihArg =>
      simp only [lower] at h
      cases hf : fn.lower start count with
      | error fn' =>
          simp only [hf] at h
          cases h
          rw [ihFn hf]
      | ok f =>
          cases ha : arg.lower start count with
          | error arg' =>
              simp only [hf, ha] at h
              cases h
              rw [shift_of_lower_eq_ok hf, ihArg ha]
          | ok a => simp [hf, ha] at h
  | lam param body ih =>
      simp only [lower] at h
      cases hb : body.lower (start + 1) count with
      | error body' =>
          simp only [hb] at h
          cases h
          rw [ih hb]
      | ok b => simp [hb] at h

end Nameless.Term
