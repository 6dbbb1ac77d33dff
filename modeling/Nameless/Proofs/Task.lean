import Nameless.Session.Basic

/-!
# Tasks step by step

How a task goes on after a part of it succeeded, and how it ends after a part
of it failed.
-/

namespace Nameless

namespace Task

variable {σ α β : Type} {s mid : σ} {e : Failure}

theorem bind_of_ok {x : Task σ α} {a : α} (h : x s = .ok a mid)
    (f : α → Task σ β) : (x >>= f) s = f a mid := by
  change EStateM.bind x f s = _
  rw [EStateM.bind, h]

theorem bind_of_error {x : Task σ α} (h : x s = .error e mid)
    (f : α → Task σ β) : (x >>= f) s = .error e mid := by
  change EStateM.bind x f s = _
  rw [EStateM.bind, h]

/-- A task of two parts that succeeded did so in both. -/
theorem exists_of_bind_eq_ok {x : Task σ α} {f : α → Task σ β} {b : β}
    (h : (x >>= f) s = .ok b mid) :
    ∃ a s', x s = .ok a s' ∧ f a s' = .ok b mid := by
  cases hx : x s with
  | ok a s' =>
      rw [bind_of_ok hx] at h
      exact ⟨a, s', rfl, h⟩
  | error e s' =>
      rw [bind_of_error hx] at h
      cases h

theorem tryCatch_of_ok {x : Task σ α} {a : α} (h : x s = .ok a mid)
    (handle : Failure → Task σ α) : tryCatch x handle s = .ok a mid := by
  change EStateM.tryCatch x handle s = _
  delta EStateM.tryCatch
  dsimp only
  rw [h]

theorem tryCatch_of_error {x : Task σ α} (h : x s = .error e mid)
    (handle : Failure → Task σ α) : tryCatch x handle s = handle e mid := by
  change EStateM.tryCatch x handle s = _
  delta EStateM.tryCatch
  dsimp only
  rw [h]
  rfl

theorem get_bind (f : σ → Task σ β) (s : σ) :
    ((get : Task σ σ) >>= f) s = f s s := rfl

theorem parse_of_ok {text : String} {t : Term}
    (h : Surface.parse text = .ok t) (s : σ) :
    Task.parse text s = .ok t s := by
  rw [Task.parse, h]
  rfl

theorem display_of_ok {t : Term} {ctx : Context} {text : String}
    (h : Surface.display t ctx = .ok text) (s : σ) :
    Task.display t ctx s = .ok text s := by
  rw [Task.display, h]
  rfl

theorem filled_ok (a : α) (s : σ) : Task.filled (.ok a) s = .ok a s := rfl

theorem limit_steps (n : Nat) (s : σ) :
    Task.limit (.steps n) s = .ok ⟨n⟩ s := by
  rw [Task.limit, Reduction.Limit.ofSetting_steps,
    Reduction.Limit.ofInt_natCast]
  rfl

/-! ## What is left -/

/-- The state that a task leaves, whether it succeeds or fails. -/
def leaves (task : Task σ α) (s : σ) : σ :=
  match task s with
  | .ok _ last => last
  | .error _ last => last

theorem leaves_of_ok {task : Task σ α} {a : α} (h : task s = .ok a mid) :
    task.leaves s = mid := by
  rw [leaves, h]

theorem leaves_of_error {task : Task σ α} (h : task s = .error e mid) :
    task.leaves s = mid := by
  rw [leaves, h]

/-- Whatever becomes of the task, a state that has `P` is left with it. -/
def Keeps (P : σ → Prop) (task : Task σ α) : Prop :=
  ∀ s, P s → P (task.leaves s)

theorem keeps_throw (P : σ → Prop) (e : Failure) :
    Keeps P (throw e : Task σ α) := fun _ h ↦ h

theorem keeps_filled (P : σ → Prop) (x : Except Text.TemplateFault α) :
    Keeps P (filled x : Task σ α) := by
  intro s h
  cases x with
  | ok a => exact h
  | error e => exact h

theorem Keeps.bind {P : σ → Prop} {x : Task σ α} {f : α → Task σ β}
    (hx : Keeps P x) (hf : ∀ a, Keeps P (f a)) : Keeps P (x >>= f) := by
  intro s h
  have hmid := hx s h
  cases hrun : x s with
  | ok a mid =>
      rw [leaves_of_ok hrun] at hmid
      rw [leaves, bind_of_ok hrun]
      exact hf a mid hmid
  | error e mid =>
      rw [leaves_of_error hrun] at hmid
      rw [leaves_of_error (bind_of_error hrun f)]
      exact hmid

end Task

namespace Session

variable {α : Type} {desk : Desk} {console : Console}

theorem atConsole_of_ok {task : Task Console α} {a : α}
    (h : task desk.console = .ok a console) :
    atConsole task desk = .ok a { desk with console } := by
  rw [atConsole, h]

theorem atConsole_writeLine (line : String) (desk : Desk) :
    atConsole (Console.writeLine line) desk = .ok () { desk with
      console := { desk.console with
        printed := desk.console.printed ++ (line ++ "\n") } } := rfl

theorem change_apply (f : Session → Session) (desk : Desk) :
    change f desk = .ok () { desk with session := f desk.session } := rfl

end Session

namespace Console

variable {σ α : Type} {s mid last : σ} {e : Failure}
  {atConsole : Task Console Unit → Task σ Unit} {task : Task σ α}

theorem guardedBy_of_ok {a : α} (h : task s = .ok a mid) :
    guardedBy atConsole task s = .ok (some a) mid := by
  have hmap : (some <$> task) s = .ok (some a) mid := by
    change EStateM.map some task s = _
    rw [EStateM.map, h]
  exact Task.tryCatch_of_ok hmap _

theorem guardedBy_of_error (h : task s = .error e mid) :
    guardedBy atConsole task s =
      (do atConsole (settle e); return none : Task σ (Option α)) mid := by
  have hmap : (some <$> task) s = .error e mid := by
    change EStateM.map some task s = _
    rw [EStateM.map, h]
  exact Task.tryCatch_of_error hmap _

/-- A failure that was announced is swallowed. -/
theorem guardedBy_of_settled (h : task s = .error e mid)
    (hsettle : atConsole (settle e) mid = .ok () last) :
    guardedBy atConsole task s = .ok none last := by
  rw [guardedBy_of_error h, Task.bind_of_ok hsettle]
  rfl

theorem leaves_guardedBy_of_error (h : task s = .error e mid) :
    (guardedBy atConsole task).leaves s =
      (atConsole (settle e)).leaves mid := by
  rw [Task.leaves, guardedBy_of_error h]
  cases hsettle : atConsole (settle e) mid with
  | ok _ last =>
      rw [Task.bind_of_ok hsettle, Task.leaves_of_ok hsettle]
      rfl
  | error _ last =>
      rw [Task.bind_of_error hsettle, Task.leaves_of_error hsettle]

end Console
end Nameless
