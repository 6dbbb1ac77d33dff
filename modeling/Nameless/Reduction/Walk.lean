import Nameless.Reduction.Limit
import Nameless.Term.Redex

/-!
# Walks under a limit

A walk looks at a node before its children: it contracts a redex at the node,
and otherwise walks the function, the argument or the body.  When that made
progress the node is looked at again, since it may have become a redex.  The
walk ends when a look makes no progress or when the limit is spent.

Every repetition spends at least one step and every descent goes to a smaller
term, so a walk ends although a β-step may make the term larger.
-/

namespace Nameless.Reduction

open Term (beta? eta)

/-- Where a walk that set out with `limit` has come to. -/
structure Walk (limit : Limit) where
  term : Term
  left : Limit
  progressed : Bool
  left_le : left.remaining ≤ limit.remaining
  left_lt : progressed = true → left.remaining < limit.remaining

namespace Walk

variable {limit left : Limit}

def idle (t : Term) : Walk limit := ⟨t, limit, false, Int.le_refl _, nofun⟩

/-- The walk went on with what was left of its limit. -/
def resumed (w : Walk left) (h : left.remaining < limit.remaining) :
    Walk limit :=
  ⟨w.term, w.left, true, Int.le_of_lt (Int.lt_of_le_of_lt w.left_le h),
    fun _ ↦ Int.lt_of_le_of_lt w.left_le h⟩

end Walk

theorem size_le_of_eta_error {body handed : Term}
    (h : eta body = .error handed) : handed.size ≤ body.size :=
  Nat.le_of_eq (congrArg Term.size (Term.eta_error h))

def walk (limit : Limit) (t : Term) : Walk limit :=
  if hlimit : limit.allows then
    have := Limit.allows_iff.1 hlimit
    match t with
    | .var k => .idle (.var k)
    | .app fn arg =>
      match beta? fn arg with
      | some contractum =>
        have := limit.spend_lt
        (walk limit.spend contractum).resumed this
      | none =>
        match walk limit fn with
        | ⟨fn, left, true, _, hlt⟩ =>
          have := hlt rfl
          (walk left (.app fn arg)).resumed this
        | ⟨fn, left, false, hle, _⟩ =>
          match walk left arg with
          | ⟨arg, last, true, _, hlt⟩ =>
            have := hlt rfl
            (walk last (.app fn arg)).resumed (Int.lt_of_lt_of_le this hle)
          | ⟨arg, last, false, hle', _⟩ =>
            ⟨.app fn arg, last, false, Int.le_trans hle' hle, nofun⟩
    | .lam param body =>
      match hbody : eta body with
      | .ok contractum =>
        have := limit.spend_lt
        (walk limit.spend contractum).resumed this
      | .error handed =>
        have := size_le_of_eta_error hbody
        match walk limit handed with
        | ⟨body, left, true, _, hlt⟩ =>
          have := hlt rfl
          (walk left (.lam param body)).resumed this
        | ⟨body, left, false, hle, _⟩ => ⟨.lam param body, left, false, hle, nofun⟩
  else .idle t
termination_by (limit.remaining.toNat, t.size)
decreasing_by
  all_goals simp_wf
  all_goals omega

variable {limit : Limit} {fn arg body contractum : Term}

@[simp] theorem walk_var (limit : Limit) (k : Int) :
    walk limit (.var k) = .idle (.var k) := by
  rw [walk.eq_def]
  split <;> rfl

theorem walk_of_spent (h : limit.allows = false) (t : Term) :
    walk limit t = .idle t := by
  rw [walk.eq_def]
  simp [h]

theorem walk_app_of_some (h : limit.allows = true)
    (hbeta : beta? fn arg = some contractum) :
    walk limit (.app fn arg) =
      (walk limit.spend contractum).resumed limit.spend_lt := by
  rw [walk.eq_def]
  simp [h, hbeta]

theorem walk_app_of_none (h : limit.allows = true)
    (hbeta : beta? fn arg = none) :
    walk limit (.app fn arg) =
      match walk limit fn with
      | ⟨fn, left, true, _, hlt⟩ => (walk left (.app fn arg)).resumed (hlt rfl)
      | ⟨fn, left, false, hle, _⟩ =>
        match walk left arg with
        | ⟨arg, last, true, _, hlt⟩ =>
          (walk last (.app fn arg)).resumed (Int.lt_of_lt_of_le (hlt rfl) hle)
        | ⟨arg, last, false, hle', _⟩ =>
          ⟨.app fn arg, last, false, Int.le_trans hle' hle, nofun⟩ := by
  rw [walk.eq_def]
  simp [h, hbeta]

theorem walk_lam_of_ok (h : limit.allows = true) (param : String)
    (hbody : eta body = .ok contractum) :
    walk limit (.lam param body) =
      (walk limit.spend contractum).resumed limit.spend_lt := by
  rw [walk.eq_def]
  simp only [h, ↓reduceDIte]
  split
  · rename_i found
    rw [hbody] at found
    cases found
    rfl
  · rename_i found
    rw [hbody] at found
    cases found

theorem walk_lam_of_error (h : limit.allows = true) (param : String)
    {handed : Term} (hbody : eta body = .error handed) :
    walk limit (.lam param body) =
      match walk limit handed with
      | ⟨body, left, true, _, hlt⟩ =>
        (walk left (.lam param body)).resumed (hlt rfl)
      | ⟨body, left, false, hle, _⟩ =>
        ⟨.lam param body, left, false, hle, nofun⟩ := by
  rw [walk.eq_def]
  simp only [h, ↓reduceDIte]
  split
  · rename_i found
    rw [hbody] at found
    cases found
  · rename_i found
    rw [hbody] at found
    cases found
    rfl

end Nameless.Reduction
