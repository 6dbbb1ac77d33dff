import Nameless.Proofs.Session.Assembly
import Nameless.Proofs.Session.Statement
import Nameless.Proofs.Surface.Message

/-!
# Lines from the prompt

A line from the prompt leaves a statement open, says nothing, or completes a
statement.  Then the statement is run if it can be read, and dropped if not.
-/

namespace Nameless.Session

open Console (Quiet)
open Surface (Rejection parse)

variable {session : Session} {console : Console} {text : String}

/-! ## Queueing -/

theorem add_of_ok {t : Term} (h : parse text = .ok t) (number : Int)
    (session : Session) (console : Console) :
    add text number ⟨session, console⟩ = .ok ()
      ⟨{ session with queue := session.queue.put number ⟨text, t⟩ },
        { console with trace := console.trace.put session.path none }⟩ := by
  let registered : Console := { console with
    trace := console.trace.put session.path (some ⟨text, number⟩) }
  have hread : Task.parse text (⟨session, registered⟩ : Desk) =
      .ok t ⟨session, registered⟩ := Task.parse_of_ok h _
  have hregister : atConsole
      (Console.registerLine session.path text number) ⟨session, console⟩ =
        .ok () ⟨session, registered⟩ := rfl
  refine (Task.get_bind _ _).trans ((Task.bind_of_ok hregister _).trans ?_)
  refine (Task.bind_of_ok hread _).trans ?_
  rw [← OrderedMap.put_put console.trace session.path
    (some ⟨text, number⟩) none]
  rfl

/-- The line of a statement that cannot be read stays registered. -/
theorem add_of_error {r : Rejection} (h : parse text = .error r)
    (number : Int) (session : Session) (console : Console) :
    add text number ⟨session, console⟩ = .error (.rejected r r.account)
      ⟨session, { console with
        trace := console.trace.put session.path (some ⟨text, number⟩) }⟩ := by
  let registered : Console := { console with
    trace := console.trace.put session.path (some ⟨text, number⟩) }
  have hread : Task.parse text (⟨session, registered⟩ : Desk) =
      .error (.rejected r r.account) ⟨session, registered⟩ := by
    rw [Task.parse, h, ← Rejection.ofRejection_eq]
    rfl
  have hregister : atConsole
      (Console.registerLine session.path text number) ⟨session, console⟩ =
        .ok () ⟨session, registered⟩ := rfl
  refine (Task.get_bind _ _).trans ((Task.bind_of_ok hregister _).trans ?_)
  exact Task.bind_of_error hread _

/-! ## Feeding -/

/-- The text of the statement that a line goes on with or begins. -/
def textWith (session : Session) (line : String) : String :=
  cleaned (session.pending ++ " " ++ line)

/-- The session once a line left that much pending. -/
def taking (session : Session) (pending : String) : Session :=
  { session with lineNumber := session.lineNumber + 1, pending }

/-- The rest of a feed, once the text of the line is known. -/
theorem feed_eq (line : String) (session : Session) (console : Console) :
    feed line ⟨session, console⟩ =
      (if !(session.textWith line).isEmpty && !isOpen (session.textWith line)
        then do
          add (session.textWith line) (session.lineNumber + 1 : Nat)
          run
        else pure () : Task Desk Unit)
        ⟨session.taking
          (if isOpen (session.textWith line) then session.textWith line else ""),
          console⟩ := by
  let counted : Session :=
    { session with lineNumber := session.lineNumber + 1 }
  have hcount : change (fun s ↦ { s with lineNumber := s.lineNumber + 1 })
      ⟨session, console⟩ = .ok () ⟨counted, console⟩ := rfl
  refine (Task.bind_of_ok hcount _).trans ?_
  refine (Task.get_bind _ _).trans ?_
  refine (Task.bind_of_ok (change_apply _ _) _).trans ?_
  rfl

theorem feed_of_open {line : String} (h : isOpen (session.textWith line) = true)
    (console : Console) :
    feed line ⟨session, console⟩ =
      .ok () ⟨session.taking (session.textWith line), console⟩ := by
  rw [feed_eq, h]
  simp only [Bool.not_true, Bool.and_false, Bool.false_eq_true, if_false]
  rfl

theorem feed_of_empty {line : String} (h : session.textWith line = "")
    (console : Console) :
    feed line ⟨session, console⟩ = .ok () ⟨session.taking "", console⟩ := by
  rw [feed_eq, h, not_isOpen_empty]
  rfl

theorem feed_of_closed {line : String}
    (hopen : isOpen (session.textWith line) = false)
    (hempty : session.textWith line ≠ "") (console : Console) :
    feed line ⟨session, console⟩ =
      (do
        add (session.textWith line) (session.lineNumber + 1 : Nat)
        run : Task Desk Unit) ⟨session.taking "", console⟩ := by
  have hbool : (session.textWith line).isEmpty = false :=
    String.isEmpty_eq_false_iff.2 hempty
  rw [feed_eq, hopen, hbool]
  rfl

theorem feed_of_error {line : String} {r : Rejection}
    (hopen : isOpen (session.textWith line) = false)
    (hempty : session.textWith line ≠ "")
    (h : parse (session.textWith line) = .error r) (console : Console) :
    feed line ⟨session, console⟩ = .error (.rejected r r.account)
      ⟨session.taking "", { console with
        trace := console.trace.put session.path
          (some ⟨session.textWith line, (session.lineNumber + 1 : Nat)⟩) }⟩ := by
  rw [feed_of_closed hopen hempty]
  exact Task.bind_of_error (add_of_error h _ _ _) _

/-- A statement that a line completes is run at once and leaves only its
result. -/
theorem feed_of_ok {line : String} {t : Term} {n : Nat} (hquiet : console.Quiet)
    (hlimit : session.limit = .steps n) (hqueue : session.queue = .empty)
    (hopen : isOpen (session.textWith line) = false)
    (hempty : session.textWith line ≠ "")
    (h : parse (session.textWith line) = .ok t) :
    ∃ said console',
      Tells session console.style n
        ((session.lineNumber + 1 : Nat), ⟨session.textWith line, t⟩) said ∧
      feed line ⟨session, console⟩ = .ok ()
        ⟨{ session.taking "" with
          results := session.resultsWith
            [resultOf n
              ((session.lineNumber + 1 : Nat), ⟨session.textWith line, t⟩)] },
          console'⟩ ∧
      console'.Quiet ∧ console'.style = console.style ∧
      console'.isFatal = console.isFatal ∧
      console'.printed = console.printed ++ said := by
  let entry : Int × Statement :=
    ((session.lineNumber + 1 : Nat), ⟨session.textWith line, t⟩)
  let queued : Session := { session.taking "" with queue := ⟨[entry]⟩ }
  let cleared : Console :=
    { console with trace := console.trace.put session.path none }
  have hadd : add (session.textWith line) (session.lineNumber + 1 : Nat)
      ⟨session.taking "", console⟩ = .ok () ⟨queued, cleared⟩ := by
    have hput : session.queue.put entry.1 entry.2 = ⟨[entry]⟩ := by
      rw [hqueue]
      rfl
    refine (add_of_ok h _ _ _).trans ?_
    change EStateM.Result.ok () (⟨{ session.taking "" with
      queue := session.queue.put entry.1 entry.2 }, cleared⟩ : Desk) = _
    rw [hput]
  have hsound : Sound queued.queue.entries := by
    intro other hother
    rw [List.mem_singleton.1 hother]
    exact h
  obtain ⟨told, console', htold, hrun, hquiet', hstyle, hfatal, hprinted⟩ :=
    run_apply queued (hquiet.put session.path) hlimit hsound
  obtain ⟨said, hsaid, rfl⟩ := exists_of_forall₂_singleton htold
  have hdone : queued.afterQueue n = { session.taking "" with
      results := session.resultsWith [resultOf n entry] } := by
    change { queued with queue := .empty, results := _ } = _
    rw [← hqueue]
    rfl
  rw [hdone] at hrun
  refine ⟨said, console', hsaid, ?_, hquiet', hstyle, hfatal, ?_⟩
  · rw [feed_of_closed hopen hempty]
    exact (Task.bind_of_ok hadd _).trans hrun
  · rw [hprinted]
    simp

end Nameless.Session
