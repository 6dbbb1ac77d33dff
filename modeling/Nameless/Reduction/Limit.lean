/-!
# Step limits

A limit is what is left of a budget of reduction steps.  It starts at zero or
above.  Spending does not look at what is left, so a spent limit that is
charged again goes below zero; it then counts as spent, but no longer as
exhausted.
-/

namespace Nameless.Reduction

@[ext] structure Limit where
  remaining : Int
deriving DecidableEq

namespace Limit

inductive Fault where
  | negative (n : Int)
  | foreign (kind : String)
  /-- What was set is no number, so that it is neither negative nor not. -/
  | unordered (kind : String)
deriving DecidableEq

def Fault.message : Fault → String
  | negative n => s!"step limit must be non-negative, got {n}"
  | foreign kind => s!"step limit must be a StepLimit or an int, got {kind}"
  | unordered kind =>
    s!"'<' not supported between instances of '{kind}' and 'int'"

/-- A budget of `n` steps, unless `n` is negative. -/
def ofInt (n : Int) : Except Fault Limit :=
  if n < 0 then .error (.negative n) else .ok ⟨n⟩

inductive Offer where
  | limit (limit : Limit)
  | steps (n : Int)
  | foreign (kind : String)
deriving DecidableEq

/-- A limit stands for itself, and a number for a new limit. -/
def ofOffer : Offer → Except Fault Limit
  | .limit limit => .ok limit
  | .steps n => ofInt n
  | .foreign kind => .error (.foreign kind)

inductive Setting where
  | steps (n : Int)
  /-- A value that is no number, with the text that shows it. -/
  | foreign (kind text : String)
deriving DecidableEq

def Setting.text : Setting → String
  | steps n => toString n
  | foreign _ text => text

/-- The limit that was set, if that is one. -/
def ofSetting : Setting → Except Fault Limit
  | .steps n => ofInt n
  | .foreign kind _ => .error (.unordered kind)

def spend (limit : Limit) : Limit := ⟨limit.remaining - 1⟩

def exhausted (limit : Limit) : Bool := limit.remaining == 0

def allows (limit : Limit) : Bool := decide (0 < limit.remaining)

def outline (limit : Limit) : String := s!"StepLimit({limit.remaining})"

theorem allows_iff {limit : Limit} :
    limit.allows = true ↔ 0 < limit.remaining := by
  simp [allows]

@[simp] theorem remaining_spend (limit : Limit) :
    limit.spend.remaining = limit.remaining - 1 := rfl

theorem spend_lt (limit : Limit) :
    limit.spend.remaining < limit.remaining := by
  rw [remaining_spend]
  omega

@[simp] theorem ofInt_natCast (n : Nat) : ofInt (n : Int) = .ok ⟨n⟩ := by
  simp [ofInt]

@[simp] theorem ofSetting_steps (n : Int) :
    ofSetting (.steps n) = ofInt n := rfl

end Limit
end Nameless.Reduction
