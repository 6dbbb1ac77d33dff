import Nameless.Proofs.Session.Comment
import Nameless.Proofs.Session.Opening
import Nameless.Shell.Basic

/-!
# The shell between two lines

Whatever line the shell is given, it does not fail, and it ends where it began:
nothing is queued, no line is registered, at most one result is kept, the limit
is a number, and what is pending is a statement with an open parenthesis.
`Settled` says so, `step_settled` is the step, and `shell_stays_settled` the
run from an opened session on.
-/

namespace Nameless

namespace Shell

open Console (Quiet)
open Session (Waiting atConsole openAt_prompt promptPath)

/-- The state of the shell between two lines. -/
structure Settled (desk : Desk) : Prop where
  /-- Nothing is queued. -/
  queue : desk.session.queue = .empty
  /-- No line is registered. -/
  quiet : desk.console.Quiet
  results : desk.session.results.length ≤ 1
  limit : ∃ n : Nat, desk.session.limit = .steps n
  pending : desk.session.pending = "" ∨ Waiting desk.session.pending
  isInteractive : desk.session.isInteractive = true
  isFatal : desk.console.isFatal = false

variable {desk : Desk} {session : Session} {console : Console}

/-! ## Commands -/

theorem Settled.print (h : Settled ⟨session, console⟩) (text : String) :
    Settled ⟨session, { console with printed := console.printed ++ text }⟩ where
  queue := h.queue
  quiet := h.quiet
  results := h.results
  limit := h.limit
  pending := h.pending
  isInteractive := h.isInteractive
  isFatal := h.isFatal

/-- An announced error clears the lines that were registered. -/
theorem Settled.announced {report : Report} {message : String}
    (h : Settled ⟨session, console⟩) (trace : Trace)
    (hmessage : report.styledMessage console.style = .ok message) :
    ∃ console',
      Console.announce report { console with trace } = .ok () console' ∧
      Settled ⟨session, console'⟩ := by
  have hannounce :=
    Console.announce_apply (c := { console with trace }) hmessage
  have hfatal : console.isFatal = false := h.isFatal
  rw [if_neg (by simp [hfatal])] at hannounce
  exact ⟨_, hannounce, h.queue, Console.quiet_fill _, h.results, h.limit,
    h.pending, h.isInteractive, hfatal⟩

theorem exists_of_limitOf? {argument : String} {k : Int}
    (h : limitOf? argument = some k) : ∃ n : Nat, k = n := by
  rw [limitOf?] at h
  by_cases hdecimal : Text.isDecimal argument = true
  · rw [if_pos hdecimal] at h
    cases hnumber : Text.natural? argument.toList with
    | none => simp [hnumber] at h
    | some n => exact ⟨n, by simpa [hnumber] using h.symm⟩
  · rw [if_neg hdecimal] at h
    cases h

theorem format_badLimit (argument : String) :
    Text.Template.format
        "step limit must be a non-negative integer, got '\x7b\x7d'"
        [argument] =
      .ok ("step limit must be a non-negative integer, got '" ++ argument ++
        "'") :=
  Text.Template.format_next "step limit must be a non-negative integer, got '"
    "'" (by simp) (by decide) (by decide) argument

/-- A bad argument is reported, and the limit stays. -/
theorem setLimit_of_none {argument : String} (hargument : argument ≠ "")
    (h : limitOf? argument = none) (desk : Desk) :
    ∃ report, setLimit argument desk = .error (.reported report) desk ∧
      ∀ style, ∃ message, report.styledMessage style = .ok message := by
  have hbool : argument.isEmpty = false :=
    String.isEmpty_eq_false_iff.2 hargument
  obtain ⟨report, hreport, hstyled⟩ : ∃ report,
      Report.about "step limit must be a non-negative integer, got '\x7b\x7d'"
        [argument] false false = .ok report ∧
      ∀ style, ∃ message, report.styledMessage style = .ok message := by
    rw [Report.about, Report.new, format_badLimit]
    exact ⟨_, rfl, fun style ↦ ⟨_, format_badLimit (style.bold argument)⟩⟩
  refine ⟨report, ?_, hstyled⟩
  rw [setLimit, hbool, h, hreport]
  rfl

theorem setLimit_of_some {argument : String} (hargument : argument ≠ "")
    {n : Nat} (h : limitOf? argument = some n) (session : Session)
    (console : Console) :
    setLimit argument ⟨session, console⟩ = .ok ()
      ⟨{ session with limit := .steps n }, { console with
        printed := console.printed ++
          ("step limit: " ++ (Reduction.Limit.Setting.steps n).text ++ "\n") }⟩ := by
  have hbool : argument.isEmpty = false :=
    String.isEmpty_eq_false_iff.2 hargument
  rw [setLimit, hbool, h]
  rfl

theorem setLimit_empty (session : Session) (console : Console) :
    setLimit "" ⟨session, console⟩ = .ok ()
      ⟨session, { console with
        printed := console.printed ++
          ("step limit: " ++ session.limit.text ++ "\n") }⟩ := rfl

theorem setLimit_settled (argument : String) (h : Settled desk) :
    ∃ done desk', Console.guardedBy atConsole (setLimit argument) desk =
      .ok done desk' ∧ Settled desk' := by
  obtain ⟨session, console⟩ := desk
  by_cases hargument : argument = ""
  · subst hargument
    exact ⟨_, _, Console.guardedBy_of_ok (setLimit_empty session console),
      h.print _⟩
  cases hlimit : limitOf? argument with
  | none =>
      obtain ⟨report, hreport, hstyled⟩ :=
        setLimit_of_none hargument hlimit ⟨session, console⟩
      obtain ⟨message, hmessage⟩ := hstyled console.style
      obtain ⟨console', hannounce, hsettled⟩ :=
        h.announced console.trace hmessage
      exact ⟨_, _, Console.guardedBy_of_settled hreport
        (Session.atConsole_of_ok hannounce), hsettled⟩
  | some k =>
      obtain ⟨n, rfl⟩ := exists_of_limitOf? hlimit
      have hset : Settled ⟨{ session with limit := .steps n }, console⟩ :=
        ⟨h.queue, h.quiet, h.results, ⟨n, rfl⟩, h.pending, h.isInteractive,
          h.isFatal⟩
      exact ⟨_, _, Console.guardedBy_of_ok
        (setLimit_of_some hargument hlimit session console), hset.print _⟩

/-! ## Terms -/

theorem feed_settled (line : String) (h : Settled desk) :
    ∃ done desk', Console.guardedBy atConsole (Session.feed line) desk =
      .ok done desk' ∧ Settled desk' := by
  obtain ⟨session, console⟩ := desk
  obtain ⟨n, hlimit⟩ := h.limit
  have hdropped : Settled ⟨session.taking "", console⟩ :=
    ⟨h.queue, h.quiet, h.results, h.limit, .inl rfl, h.isInteractive, h.isFatal⟩
  by_cases hopen : Session.isOpen (session.textWith line) = true
  · exact ⟨_, _, Console.guardedBy_of_ok (Session.feed_of_open hopen console),
      h.queue, h.quiet, h.results, h.limit,
      .inr (Session.waiting_cleaned hopen), h.isInteractive, h.isFatal⟩
  rw [Bool.not_eq_true] at hopen
  by_cases hempty : session.textWith line = ""
  · exact ⟨_, _, Console.guardedBy_of_ok (Session.feed_of_empty hempty console),
      hdropped⟩
  cases hread : Surface.parse (session.textWith line) with
  | error r =>
      -- The line that is still registered is cleared with the announcement.
      obtain ⟨console', hannounce, hsettled⟩ := hdropped.announced
        (console.trace.put session.path
          (some ⟨session.textWith line, (session.lineNumber + 1 : Nat)⟩))
        (r.styledMessage_account console.style)
      exact ⟨_, _, Console.guardedBy_of_settled
        (Session.feed_of_error hopen hempty hread console)
        (Session.atConsole_of_ok hannounce), hsettled⟩
  | ok t =>
      obtain ⟨said, console', -, hfeed, hquiet, -, hfatal, -⟩ :=
        Session.feed_of_ok h.quiet hlimit h.queue hopen hempty hread
      have hmode : session.isInteractive = true := h.isInteractive
      refine ⟨_, _, Console.guardedBy_of_ok hfeed, h.queue, hquiet, ?_,
        h.limit, .inl rfl, h.isInteractive, hfatal.trans h.isFatal⟩
      simp [Session.resultsWith, hmode]

/-! ## Lines -/

theorem obey_settled (command : Command) (h : Settled desk) :
    ∃ stop desk', obey command desk = .ok stop desk' ∧ Settled desk' := by
  cases command with
  | limit argument =>
      obtain ⟨done, desk', hset, hsettled⟩ := setLimit_settled argument h
      exact ⟨false, desk', Task.bind_of_ok hset _, hsettled⟩
  | help => exact ⟨false, _, rfl, h.print _⟩
  | exit => exact ⟨true, desk, rfl, h⟩
  | endOfInput =>
      have hdropped : Settled
          ⟨{ desk.session with pending := "" }, desk.console⟩ :=
        ⟨h.queue, h.quiet, h.results, h.limit, .inl rfl, h.isInteractive,
          h.isFatal⟩
      exact ⟨true, _, rfl, hdropped.print _⟩
  | term line =>
      obtain ⟨done, desk', hfeed, hsettled⟩ := feed_settled line h
      exact ⟨false, desk', Task.bind_of_ok hfeed _, hsettled⟩

theorem step_settled (line : String) (h : Settled desk) :
    ∃ stop desk', step line desk = .ok stop desk' ∧ Settled desk' :=
  obey_settled _ h

/-- Gives lines to the shell one after the other, also after one that asked it
to stop. -/
def takeAll : List String → Task Desk Unit
  | [] => pure ()
  | line :: lines => do
    let _ ← step line
    takeAll lines

theorem takeAll_settled (lines : List String) (h : Settled desk) :
    ∃ desk', takeAll lines desk = .ok () desk' ∧ Settled desk' := by
  induction lines generalizing desk with
  | nil => exact ⟨desk, rfl, h⟩
  | cons line lines ih =>
      obtain ⟨stop, mid, hstep, hmid⟩ := step_settled line h
      obtain ⟨desk', hrest, hsettled⟩ := ih hmid
      exact ⟨desk', (Task.bind_of_ok hstep _).trans hrest, hsettled⟩

theorem settled_of_openAt (style : Style) (isFatal : Bool) (n : Nat) :
    Settled ⟨Session.new promptPath (.steps n) true,
      { Console.new style isFatal with
        trace := (Console.new style isFatal).trace.put promptPath none
        isFatal := false }⟩ where
  queue := rfl
  quiet := (Console.quiet_new style isFatal).put promptPath
  results := Nat.zero_le 1
  limit := ⟨n, rfl⟩
  pending := .inl rfl
  isInteractive := rfl
  isFatal := rfl

/-- From an opened prompt on, no line makes the shell fail, and after each line
the shell is settled. -/
theorem shell_stays_settled (files : Files) (style : Style) (isFatal : Bool)
    (n : Nat) (lines : List String) :
    ∃ session console desk,
      Session.openAt files promptPath (.steps n) true
          (.new style isFatal) = .ok session console ∧
      takeAll lines ⟨session, console⟩ = .ok () desk ∧ Settled desk := by
  have hopen := openAt_prompt files (.steps n) (.new style isFatal)
  obtain ⟨desk, htake, hsettled⟩ :=
    takeAll_settled lines (settled_of_openAt style isFatal n)
  exact ⟨_, _, desk, hopen, htake, hsettled⟩

end Shell
end Nameless
