import Nameless.Proofs.Console.Announcement
import Nameless.Proofs.Reduction.Printable
import Nameless.Proofs.Text.Filling

/-!
# Running queued statements

A statement whose text was read runs to its end: its result is printed, it
leaves the queue, and its line is cleared.  `Tells` is what is printed for one
statement, `run_apply` puts the statements of a queue together.
-/

namespace Nameless.Session

open Console (Quiet writeLine_apply warn_apply)
open Reduction (reduce)
open Surface (display parse)
open Text.Template (Plain format format_next_next)

/-! ## The warning about the limit -/

/-- The warning that a statement took all of its `n` steps. -/
def limitWarning (style : Style) (path : String) (number : Int)
    (text : String) (n : Nat) : String :=
  style.bold s!"{path}:{number}:0: " ++
    style.vivid .warning Severity.warning.label ++
      ("'" ++ style.bold text ++ "' reached the step limit of " ++
        style.bold (toString (n : Int)) ++
          " and may not be in normal form") ++ "\n"

theorem format_limitReached (text number : String) :
    format
        "'\x7b\x7d' reached the step limit of \x7b\x7d and may not be in normal form"
        [text, number] =
      .ok ("'" ++ text ++ "' reached the step limit of " ++ number ++
        " and may not be in normal form") :=
  format_next_next "'" "' reached the step limit of "
    " and may not be in normal form" (by simp) (by decide) (by decide)
    (by decide) text number

/-- While the line of a statement is registered, the warning about it names
that line. -/
theorem warn_limitReached (console : Console) (hquiet : console.Quiet)
    (path text : String) (number : Int) (n : Nat) :
    Console.warn (limitReached text (.steps n))
        { console with
          trace := console.trace.put path (some ⟨text, number⟩) } =
      .ok () { console with
        trace := console.trace.put path (some ⟨text, number⟩)
        printed := console.printed ++
          limitWarning console.style path number text n } := by
  obtain ⟨report, hreport, hexpression, hstart, hdiagnosis, hstyled⟩ :
      ∃ report, limitReached text (.steps n) = .ok report ∧
        report.expression = text ∧ report.start = 0 ∧
        report.diagnosis = false ∧
        report.styledMessage console.style =
          .ok ("'" ++ console.style.bold text ++
            "' reached the step limit of " ++
            console.style.bold (toString (n : Int)) ++
            " and may not be in normal form") := by
    rw [limitReached, Report.about, Report.new, format_limitReached]
    exact ⟨_, rfl, rfl, rfl, rfl, format_limitReached _ _⟩
  let registered : Console := { console with
    trace := console.trace.put path (some ⟨text, number⟩) }
  have hlocation : registered.location report = s!"{path}:{number}:0: " := by
    rw [Console.location, Console.innermost_put hquiet]
    dsimp only
    rw [Console.column_self hexpression fun _ ↦ hstart, hstart]
    simp only [String.append_assoc]
    rfl
  have hshown : report.isDiagnosed = false := by
    simp [Report.isDiagnosed, hdiagnosis]
  have hwarn := warn_apply (c := registered) hstyled
  rw [Console.warningText, hlocation, Console.diagnosisText, hshown] at hwarn
  rw [hreport]
  simpa only [limitWarning, Bool.false_eq_true, if_false,
    String.append_empty] using hwarn

/-! ## One statement -/

/-- The lines about a result: at a prompt the input, and what it is reduced to
if a step was taken; in a file the result alone. -/
def resultText (isInteractive : Bool) (text shown : String)
    (progressed : Bool) : String :=
  if isInteractive then
    "input: " ++ text ++ "\n" ++
      (if progressed then "reduced: " ++ shown ++ "\n" else "not reducible\n")
  else shown ++ "\n"

/-- The result of a statement and the warning that may follow it. -/
def Tells (session : Session) (style : Style) (n : Nat)
    (entry : Int × Statement) (said : String) : Prop :=
  ∃ shown,
    display (reduce entry.2.term ⟨n⟩).reducer.term .root = .ok shown ∧
    said =
      resultText session.isInteractive entry.2.text shown
          (reduce entry.2.term ⟨n⟩).progressed ++
        if (reduce entry.2.term ⟨n⟩).progressed &&
            (reduce entry.2.term ⟨n⟩).limit.exhausted then
          limitWarning style session.path entry.1 entry.2.text n
        else ""

/-- The results of a session once others came in. -/
def resultsWith (session : Session) (reducers : List Reduction.Reducer) :
    List Reduction.Reducer :=
  if session.isInteractive then
    reducers.getLast?.elim session.results fun reducer ↦ [reducer]
  else session.results ++ reducers

/-- What a statement is reduced to in at most `n` steps. -/
def resultOf (n : Nat) (entry : Int × Statement) : Reduction.Reducer :=
  (reduce entry.2.term ⟨n⟩).reducer

/-- The session once a queued statement was run. -/
def afterStatement (n : Nat) (session : Session)
    (entry : Int × Statement) : Session :=
  { session with
    queue := session.queue.erase entry.1
    results := session.resultsWith [resultOf n entry] }

theorem tells_afterStatement {session : Session} {style : Style} {n : Nat}
    {entry : Int × Statement} {said : String} (other : Int × Statement)
    (h : Tells (session.afterStatement n other) style n entry said) :
    Tells session style n entry said := by
  obtain ⟨shown, hshown, hsaid⟩ := h
  exact ⟨shown, hshown, hsaid⟩

theorem exists_shown {text : String} {t : Term} (h : parse text = .ok t)
    (limit : Reduction.Limit) :
    ∃ shown, display (reduce t limit).reducer.term .root = .ok shown := by
  have hreach := (Reduction.Reducer.ofTerm t).reaches_reduce limit
  have hprintable := (Surface.printable_of_parse h).of_within
    (Term.Within.of_steps hreach)
  obtain ⟨shown, -, hshown, -, -⟩ := Surface.exists_display_parse hprintable
  exact ⟨shown, hshown⟩

theorem keep_apply (desk : Desk) (text : String) {shown : String}
    {reducer : Reduction.Reducer} (progressed : Bool)
    (h : display reducer.term .root = .ok shown) :
    keep text reducer progressed desk = .ok ()
      ⟨{ desk.session with results := desk.session.resultsWith [reducer] },
        { desk.console with
          printed := desk.console.printed ++
            resultText desk.session.isInteractive text shown progressed }⟩ := by
  have hdisplay : ∀ desk : Desk,
      Task.display reducer.term .root desk = .ok shown desk :=
    Task.display_of_ok h
  refine (Task.get_bind _ desk).trans ?_
  by_cases hmode : desk.session.isInteractive = true
  · rw [if_pos hmode]
    refine (Task.bind_of_ok (atConsole_writeLine _ desk) _).trans ?_
    by_cases hprogressed : progressed = true
    · rw [if_pos hprogressed]
      refine (Task.bind_of_ok (hdisplay _) _).trans ?_
      refine (Task.bind_of_ok (atConsole_writeLine _ _) _).trans ?_
      refine (change_apply _ _).trans ?_
      simp [resultsWith, resultText, hmode, hprogressed, String.append_assoc]
    · rw [if_neg hprogressed]
      refine (Task.bind_of_ok (atConsole_writeLine _ _) _).trans ?_
      refine (change_apply _ _).trans ?_
      simp [resultsWith, resultText, hmode, hprogressed, String.append_assoc]
  · rw [if_neg hmode]
    refine (Task.bind_of_ok (hdisplay desk) _).trans ?_
    refine (Task.bind_of_ok (atConsole_writeLine _ desk) _).trans ?_
    refine (change_apply _ _).trans ?_
    simp [resultsWith, resultText, hmode]

theorem runStatement_apply {session : Session} {console : Console}
    {text : String} {t : Term} {n : Nat} (hquiet : console.Quiet)
    (hlimit : session.limit = .steps n) (hread : parse text = .ok t)
    (number : Int) :
    ∃ said, Tells session console.style n (number, ⟨text, t⟩) said ∧
      runStatement number ⟨text, t⟩ ⟨session, console⟩ = .ok ()
        ⟨session.afterStatement n (number, ⟨text, t⟩),
          { console with
            trace := console.trace.put session.path none
            printed := console.printed ++ said }⟩ := by
  obtain ⟨shown, hshown⟩ := exists_shown hread ⟨n⟩
  refine ⟨_, ⟨shown, hshown, rfl⟩, ?_⟩
  let run := reduce t ⟨n⟩
  let place : Place := ⟨text, number⟩
  let registered : Console :=
    { console with trace := console.trace.put session.path (some place) }
  let dequeued : Session := { session with queue := session.queue.erase number }
  let kept : Session := session.afterStatement n (number, ⟨text, t⟩)
  let told : Console :=
    { console with
      printed := console.printed ++
        resultText session.isInteractive text shown run.progressed }
  let toldRegistered : Console :=
    { told with trace := told.trace.put session.path (some place) }
  have hregister : atConsole
      (Console.registerLine session.path text number) ⟨session, console⟩ =
        .ok () ⟨session, registered⟩ := rfl
  have hstart : Task.limit session.limit (⟨session, registered⟩ : Desk) =
      .ok ⟨n⟩ ⟨session, registered⟩ := by
    rw [hlimit]
    exact Task.limit_steps n _
  have hdequeue : change (fun s ↦ { s with queue := s.queue.erase number })
      ⟨session, registered⟩ = .ok () ⟨dequeued, registered⟩ := rfl
  have hkeep : keep text run.reducer run.progressed ⟨dequeued, registered⟩ =
      .ok () ⟨kept, toldRegistered⟩ := keep_apply _ text _ hshown
  -- A line registered and cleared leaves the trace as one cleared at once.
  have hclear : ∀ printed, atConsole (Console.clearLine session.path)
      ⟨kept, { toldRegistered with printed }⟩ = .ok () ⟨kept,
        { console with
          trace := console.trace.put session.path none, printed }⟩ := by
    intro printed
    rw [← OrderedMap.put_put console.trace session.path (some place) none]
    rfl
  refine (Task.get_bind _ _).trans ((Task.bind_of_ok hregister _).trans ?_)
  refine (Task.bind_of_ok hstart _).trans ?_
  refine (Task.bind_of_ok hdequeue _).trans ?_
  refine (Task.bind_of_ok hkeep _).trans ?_
  dsimp only
  by_cases hunfinished : (run.progressed && run.limit.exhausted) = true
  · rw [if_pos hunfinished, if_pos hunfinished, ← String.append_assoc]
    have hwarn : atConsole (Console.warn (limitReached text session.limit))
        ⟨kept, toldRegistered⟩ = .ok () ⟨kept, { toldRegistered with
          printed := told.printed ++
            limitWarning console.style session.path number text n }⟩ := by
      rw [hlimit]
      exact atConsole_of_ok (warn_limitReached told hquiet _ _ _ _)
    exact (Task.bind_of_ok hwarn _).trans (hclear _)
  · rw [if_neg hunfinished, if_neg hunfinished, String.append_empty]
    exact hclear _

/-! ## A whole queue -/

theorem exists_of_forall₂_singleton {α β : Type} {R : α → β → Prop} {a : α}
    {bs : List β} (h : List.Forall₂ R [a] bs) : ∃ b, R a b ∧ bs = [b] := by
  simpa [List.forall₂_cons_left_iff] using h

/-- The text of every queued statement was read as its term. -/
def Sound (entries : List (Int × Statement)) : Prop :=
  ∀ entry ∈ entries, parse entry.2.text = .ok entry.2.term

theorem Sound.put {queue : OrderedMap Int Statement} {text : String} {t : Term}
    (h : Sound queue.entries) (hread : parse text = .ok t) (number : Int) :
    Sound (queue.put number ⟨text, t⟩).entries := by
  obtain ⟨before, after, hput, hbefore, hafter⟩ :=
    OrderedMap.exists_putIn number (⟨text, t⟩ : Statement) queue.entries
  intro entry hentry
  change entry ∈ OrderedMap.putIn number _ queue.entries at hentry
  rw [hput, List.mem_append, List.mem_cons] at hentry
  rcases hentry with hmem | rfl | hmem
  · exact h entry (hbefore hmem)
  · exact hread
  · exact h entry (hafter hmem)

theorem runAll_apply {n : Nat} {entries : List (Int × Statement)}
    (hsound : Sound entries) (session : Session) (console : Console)
    (hquiet : console.Quiet) (hlimit : session.limit = .steps n) :
    ∃ told console', List.Forall₂ (Tells session console.style n) entries told ∧
      runAll entries ⟨session, console⟩ =
        .ok () ⟨entries.foldl (afterStatement n) session, console'⟩ ∧
      console'.Quiet ∧ console'.style = console.style ∧
      console'.isFatal = console.isFatal ∧
      console'.printed = console.printed ++ String.join told := by
  induction entries generalizing session console with
  | nil =>
      exact ⟨[], console, .nil, rfl, hquiet, rfl, rfl, by simp⟩
  | cons entry entries ih =>
      obtain ⟨number, text, t⟩ := entry
      have hread : parse text = .ok t :=
        hsound (number, ⟨text, t⟩) List.mem_cons_self
      obtain ⟨said, hsaid, hrun⟩ := runStatement_apply hquiet hlimit hread number
      obtain ⟨told, console', htold, hrest, hquiet', hstyle, hfatal, hprinted⟩ :=
        ih (fun entry h ↦ hsound entry (List.mem_cons_of_mem _ h))
          (session.afterStatement n (number, ⟨text, t⟩))
          { console with
            trace := console.trace.put session.path none
            printed := console.printed ++ said } (hquiet.put session.path) hlimit
      have htold' : List.Forall₂ (Tells session console.style n) entries told :=
        htold.imp fun _ _ ↦ tells_afterStatement _
      refine ⟨said :: told, console', .cons hsaid htold',
        (Task.bind_of_ok hrun _).trans hrest, hquiet', hstyle, hfatal, ?_⟩
      rw [hprinted, String.join_cons, String.append_assoc]

theorem resultsWith_cons (session : Session) (reducer : Reduction.Reducer)
    (reducers : List Reduction.Reducer) :
    { session with results := session.resultsWith [reducer] }.resultsWith
        reducers = session.resultsWith (reducer :: reducers) := by
  by_cases hmode : session.isInteractive = true
  · cases hlast : reducers.getLast? with
    | none => simp [resultsWith, hmode, List.getLast?_cons, hlast]
    | some last => simp [resultsWith, hmode, List.getLast?_cons, hlast]
  · simp [resultsWith, hmode]

/-- A session after statements were run has lost them and got their
results. -/
theorem foldl_afterStatement (n : Nat) (entries : List (Int × Statement))
    (session : Session) :
    entries.foldl (afterStatement n) session = { session with
      queue := ⟨session.queue.entries.filter fun entry ↦
        entry.1 ∉ entries.map Prod.fst⟩
      results := session.resultsWith (entries.map (resultOf n)) } := by
  induction entries generalizing session with
  | nil => simp [resultsWith]
  | cons entry entries ih =>
      have hqueue : (session.queue.erase entry.1).entries.filter (fun other ↦
          other.1 ∉ entries.map Prod.fst) =
          session.queue.entries.filter fun other ↦
            other.1 ∉ (entry :: entries).map Prod.fst := by
        rw [OrderedMap.erase, List.filter_filter]
        refine List.filter_congr fun other _ ↦ ?_
        rw [Bool.eq_iff_iff]
        simp [and_comm]
      have hresults := resultsWith_cons session (resultOf n entry)
        (entries.map (resultOf n))
      rw [List.foldl_cons, ih, ← hqueue, List.map_cons (f := resultOf n),
        ← hresults]
      rfl

/-- The session once its whole queue was run. -/
def afterQueue (n : Nat) (session : Session) : Session :=
  { session with
    queue := .empty
    results :=
      session.resultsWith (session.queue.entries.map (resultOf n)) }

/-- A session runs its whole queue, in order, and nothing stays queued. -/
theorem run_apply {n : Nat} (session : Session) {console : Console}
    (hquiet : console.Quiet) (hlimit : session.limit = .steps n)
    (hsound : Sound session.queue.entries) :
    ∃ told console', List.Forall₂ (Tells session console.style n)
        session.queue.entries told ∧
      run ⟨session, console⟩ = .ok () ⟨session.afterQueue n, console'⟩ ∧
      console'.Quiet ∧ console'.style = console.style ∧
      console'.isFatal = console.isFatal ∧
      console'.printed = console.printed ++ String.join told := by
  obtain ⟨told, console', htold, hrun, hrest⟩ :=
    runAll_apply hsound session console hquiet hlimit
  have hqueue : session.queue.entries.filter (fun entry ↦
      entry.1 ∉ session.queue.entries.map Prod.fst) = [] := by
    rw [List.filter_eq_nil_iff]
    intro entry hentry
    simpa using ⟨entry.2, hentry⟩
  refine ⟨told, console', htold, ?_, hrest⟩
  refine (Task.get_bind _ _).trans (hrun.trans ?_)
  rw [foldl_afterStatement, hqueue]
  rfl

end Nameless.Session
