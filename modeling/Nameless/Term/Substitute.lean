import Nameless.Term.Lower

/-!
# Substitution through a slot

The value that is put in place of an index waits in a slot.  Every occurrence
reads it, except that the last one may take it out.  Reading or taking from an
empty slot has no result.
-/

namespace Nameless

/-- The value to be put in place of an index, until it is taken. -/
structure Slot where
  value? : Option Term
deriving DecidableEq

namespace Slot

def full (value : Term) : Slot := ⟨some value⟩

def empty : Slot := ⟨none⟩

def isEmpty (slot : Slot) : Bool := slot.value?.isNone

def read (slot : Slot) : Option (Term × Slot) :=
  slot.value?.map fun value ↦ (value, slot)

def take (slot : Slot) : Option (Term × Slot) :=
  slot.value?.map fun value ↦ (value, empty)

def use (slot : Slot) (mayTake : Bool) : Option (Term × Slot) :=
  if mayTake then slot.take else slot.read

@[simp] theorem isEmpty_full (value : Term) :
    (full value).isEmpty = false := rfl

@[simp] theorem isEmpty_empty : empty.isEmpty = true := rfl

end Slot

namespace Term

/-- Puts the slot's value in place of every occurrence of `idx` and closes the
gap that `idx` leaves behind.  The value is meant `idx + 1` binders further
out, hence the shift.

With `mayTake`, the last occurrence takes the value.  An argument that lowers
does not mention `idx`, and is then done: lowering is all that substitution
would do to it.  Only the function side is left to take the value. -/
def substitute (t : Term) (idx : Int) (mayTake : Bool) (slot : Slot) :
    Option (Term × Slot) :=
  match t with
  | var k =>
    if k = idx then
      (slot.use mayTake).map fun (value, slot) ↦ (value.shift 0 idx, slot)
    else if idx < k then some (var (k - 1), slot)
    else some (var k, slot)
  | app fn arg =>
    if mayTake then
      match harg : arg.lower idx 1 with
      | .ok arg => do
        let (fn, slot) ← fn.substitute idx true slot
        return (app fn arg, slot)
      | .error handed => do
        have : handed.size = arg.size := congrArg size (lower_error harg)
        let (fn, slot) ← fn.substitute idx false slot
        let (arg, slot) ← handed.substitute idx true slot
        return (app fn arg, slot)
    else do
      let (fn, slot) ← fn.substitute idx false slot
      let (arg, slot) ← arg.substitute idx false slot
      return (app fn arg, slot)
  | lam param body => do
    let (body, slot) ← body.substitute (idx + 1) mayTake slot
    return (lam param body, slot)
termination_by t.size
decreasing_by
  all_goals simp only [size_app, size_lam]
  all_goals omega

theorem substitute_var (k idx : Int) (mayTake : Bool) (slot : Slot) :
    (var k).substitute idx mayTake slot =
      if k = idx then
        (slot.use mayTake).map fun found ↦ (found.1.shift 0 idx, found.2)
      else if idx < k then some (var (k - 1), slot)
      else some (var k, slot) := by
  rw [substitute]

theorem substitute_app_false (fn arg : Term) (idx : Int) (slot : Slot) :
    (app fn arg).substitute idx false slot = (do
      let (fn, slot) ← fn.substitute idx false slot
      let (arg, slot) ← arg.substitute idx false slot
      return (app fn arg, slot)) := by
  rw [substitute]
  rfl

/-- An argument without `idx` is lowered, and the function may take. -/
theorem substitute_app_of_ok {fn arg lowered : Term} {idx : Int}
    (slot : Slot) (h : arg.lower idx 1 = .ok lowered) :
    (app fn arg).substitute idx true slot = (do
      let (fn, slot) ← fn.substitute idx true slot
      return (app fn lowered, slot)) := by
  rw [substitute]
  simp only [if_true]
  split
  · rename_i u hu
    rw [h] at hu
    cases hu
    rfl
  · rename_i u hu
    rw [h] at hu
    cases hu

/-- An argument with `idx` is the one that may take. -/
theorem substitute_app_of_error {fn arg handed : Term} {idx : Int}
    (slot : Slot) (h : arg.lower idx 1 = .error handed) :
    (app fn arg).substitute idx true slot = (do
      let (fn, slot) ← fn.substitute idx false slot
      let (arg, slot) ← arg.substitute idx true slot
      return (app fn arg, slot)) := by
  rw [substitute]
  simp only [if_true]
  split
  · rename_i u hu
    rw [h] at hu
    cases hu
  · rename_i u hu
    rw [lower_error hu]

theorem substitute_lam (param : String) (body : Term) (idx : Int)
    (mayTake : Bool) (slot : Slot) :
    (lam param body).substitute idx mayTake slot = (do
      let (body, slot) ← body.substitute (idx + 1) mayTake slot
      return (lam param body, slot)) := by
  rw [substitute]

end Term
end Nameless
