import Nameless.CommandLine.Basic
import Nameless.Proofs.Console.Diagnosis
import Nameless.Proofs.Session.Opening
import Nameless.Proofs.Surface.Spacing
import Nameless.Proofs.Text.Numeral

/-!
# Running a file

A file whose statements can all be read is run from its first statement to its
last.  Otherwise the first statement that cannot be read is the only one that
is heard of.
-/

namespace Nameless.CommandLine

open Console (Quiet)
open Reduction (reduce)
open Session (Accepted BeginsIn Draft Holds Queued Tells assemble limitWarning
  openAt promptPath)
open Surface (Rejection display parse)

/-! ## The arguments -/

theorem roleOf_of_head {arg : String} (h : arg.toList.head? ≠ some '-') :
    roleOf arg = .value := by
  rw [roleOf]
  split
  case h_6 => rfl
  all_goals
    rename_i harg
    exact absurd (by rw [harg]; rfl) h

theorem roleOf_limit : roleOf "--limit" = .option .limit none := by decide

theorem head?_toString (n : Nat) : (toString n).toList.head? ≠ some '-' := by
  intro h
  rw [Nat.toString_eq_ofList_toDigits, String.toList_ofList] at h
  have hdigit : '-'.isDigit = true :=
    Nat.isDigit_of_mem_toDigits (by decide) (by decide) (List.mem_of_mem_head? h)
  exact absurd hdigit (by decide)

theorem setLimit_toString (p : Progress) (n : Nat) :
    p.setLimit (toString n) = .ok (p.withLimit (.steps n)) := by
  have hseparator : toString n ≠ "--" := by
    intro h
    apply head?_toString n
    rw [h]
    rfl
  have hnonneg : ¬ (n : Int) < 0 := by omega
  rw [Progress.setLimit, if_neg hseparator, Text.integer?_toString]
  simp only [if_neg hnonneg]

theorem understand_of_roles {file number : String}
    {limit : Reduction.Limit.Setting} (hfile : roleOf file = .value)
    (hnumber : roleOf number = .value)
    (hset : ∀ p : Progress, p.setLimit number = .ok (p.withLimit limit)) :
    understand [file, "--limit", number] = .run ⟨some file, limit⟩ := by
  have hambiguous : ambiguous? [file, "--limit", number] = none := by
    simp [ambiguous?, List.takeWhile, hfile, roleOf_limit, hnumber]
  rw [understand, hambiguous]
  simp only [understandFrom, hfile, roleOf_limit, hnumber, hset, if_true]
  rfl

theorem understand_file {file : String} (h : file.toList.head? ≠ some '-')
    (n : Nat) :
    understand [file, "--limit", toString n] = .run ⟨some file, .steps n⟩ :=
  understand_of_roles (roleOf_of_head h) (roleOf_of_head (head?_toString n))
    fun p ↦ setLimit_toString p n

/-! ## The work -/

theorem withSession_of_ok {α : Type} {session : Session} {console : Console}
    {task : Task Desk α} {a : α} {desk : Desk}
    (h : task ⟨session, console⟩ = .ok a desk) :
    withSession session task console = .ok a desk.console := by
  rw [withSession, h]

/-- What is printed about a statement of a file: its result, and the warning if
all of the steps were used and there was one. -/
def Reports (style : Style) (file : String) (n : Nat) (draft : Draft)
    (said : String) : Prop :=
  ∃ t shown, parse draft.text = .ok t ∧
    display (reduce t ⟨n⟩).reducer.term .root = .ok shown ∧
    said = shown ++ "\n" ++
      if 1 ≤ n ∧ (reduce t ⟨n⟩).reducer.steps = n then
        limitWarning style file draft.number draft.text n
      else ""

/-- The warning is due exactly if there was a step and all were taken. -/
theorem unfinished_iff (t : Term) (n : Nat) :
    ((reduce t ⟨n⟩).progressed && (reduce t ⟨n⟩).limit.exhausted) = true ↔
      1 ≤ n ∧ (reduce t ⟨n⟩).reducer.steps = n := by
  let reducer := Reduction.Reducer.ofTerm t
  obtain ⟨k, -, hleft, hprogressed⟩ := (reducer.walks_reduce ⟨n⟩).exists_steps
  change (reduce t ⟨n⟩).limit.remaining + k = (n : Int) at hleft
  change (reduce t ⟨n⟩).progressed = true ↔ 0 < k at hprogressed
  have hsteps : (reduce t ⟨n⟩).reducer.steps = k := by
    change 0 + ((n : Int) - (reduce t ⟨n⟩).limit.remaining).toNat = k
    omega
  rw [Bool.and_eq_true, hprogressed, hsteps, Reduction.Limit.exhausted,
    beq_iff_eq]
  omega

theorem Reports.of_tells (session : Session) {style : Style} {n : Nat}
    {draft : Draft} {entry : Int × Statement} {said : String}
    (hmode : session.isInteractive = false) (hdraft : Queued draft entry)
    (h : Tells session style n entry said) :
    Reports style session.path n draft said := by
  obtain ⟨shown, hshown, rfl⟩ := h
  refine ⟨entry.2.term, shown, hdraft.term, hshown, ?_⟩
  rw [Session.resultText, hmode, hdraft.text, hdraft.number]
  simp only [Bool.false_eq_true, if_false, unfinished_iff]

/-- What is printed about a statement that cannot be read. -/
def rejectionText (style : Style) (file : String) (number : Nat)
    (r : Rejection) : String :=
  style.bold s!"{file}:{number}:{r.pos}: " ++
    style.vivid .error Severity.error.label ++ r.messageWith style.bold ++
      "\n" ++ r.account.diagnose style .error ++ "\n"

theorem errorText_rejected {console : Console} (hquiet : console.Quiet)
    (file : String) {text : String} {r : Rejection} (htext : text ≠ "")
    (h : parse text = .error r) (number : Nat) :
    { console with
        trace := console.trace.put file (some ⟨text, number⟩) }.errorText
          r.account (r.messageWith console.style.bold) =
      rejectionText console.style file number r :=
  Console.errorText_rejected hquiet file htext h

/-- A guarded task that is refused on a fatal console ends the program with the
error it announces. -/
theorem guarded_of_rejected {console registered : Console}
    {task : Task Console Unit} {r : Rejection} {said : String}
    (hfatal : registered.isFatal = true)
    (htask : task console = .error (.rejected r r.account) registered)
    (hsaid : registered.errorText r.account
      (r.messageWith registered.style.bold) = said) :
    Console.guarded task console = .error (.exited (some 1))
      { registered with printed := registered.printed ++ said } := by
  have hannounce := Console.announce_apply (c := registered)
    (r.styledMessage_account registered.style)
  rw [if_pos hfatal, hsaid] at hannounce
  rw [Console.guarded, Console.guardedBy_of_error htask]
  exact Task.bind_of_error hannounce _

/-! ## Whole files -/

variable {files : Files} {file : String} {lines : List String}

theorem execute_file (hoption : file.toList.head? ≠ some '-') (n : Nat)
    (files : Files) (input : List String) (style : Style) :
    execute [file, "--limit", toString n] files input style =
      match Console.guarded (do
          let session ← openAt files file (.steps n) false
          withSession session Session.run) (.new style true) with
      | .ok _ console => ⟨.ok (), console.printed, ""⟩
      | .error e console => ⟨.error e, console.printed, ""⟩ := by
  rw [execute, understand_file hoption]
  rfl

theorem execute_of_accepted (hname : file ≠ promptPath)
    (hoption : file.toList.head? ≠ some '-') (hfile : Holds files file lines)
    (haccepted : ∀ draft ∈ assemble lines, Accepted draft) (n : Nat)
    (style : Style) (input : List String) :
    ∃ session console told desk,
      openAt files file (.steps n) false (.new style true) =
        .ok session console ∧
      Session.run ⟨session, console⟩ = .ok () desk ∧
      desk.session.queue = .empty ∧
      List.Forall₂ (Reports style file n) (assemble lines) told ∧
      execute [file, "--limit", toString n] files input style =
        ⟨.ok (), String.join told, ""⟩ := by
  obtain ⟨session, console, told, console', hopen, hqueued, rfl, hmode, -, htold,
    hrun, hsaid⟩ := Session.run_of_accepted n style hname hfile haccepted
  have hreport : ∀ draft entry said, Queued draft entry →
      Tells session style n entry said →
        Reports style session.path n draft said :=
    fun _ _ _ hdraft hsaid ↦ Reports.of_tells session hmode hdraft hsaid
  have hreports : List.Forall₂ (Reports style session.path n) (assemble lines)
      told := Session.forall₂_comp hreport hqueued htold
  refine ⟨session, console, told, _, hopen, hrun, rfl, hreports, ?_⟩
  have hwork : (do
      let opened ← openAt files session.path (.steps n) false
      withSession opened Session.run : Task Console Unit)
        (.new style true) = .ok () console' :=
    (Task.bind_of_ok hopen _).trans (withSession_of_ok hrun)
  rw [execute_file hoption, Console.guarded, Console.guardedBy_of_ok hwork]
  dsimp only
  rw [hsaid]

theorem execute_of_rejected (hname : file ≠ promptPath)
    (hoption : file.toList.head? ≠ some '-') (hfile : Holds files file lines)
    {before after : List Draft} {draft : Draft} {r : Rejection}
    (hdrafts : assemble lines = before ++ draft :: after)
    (haccepted : ∀ draft ∈ before, Accepted draft)
    (hrejected : parse draft.text = .error r) (n : Nat) (style : Style)
    (input : List String) :
    (∃ console, openAt files file (.steps n) false (.new style true) =
        .error (.rejected r r.account) console ∧ console.printed = "") ∧
      execute [file, "--limit", toString n] files input style =
        ⟨.error (.exited (some 1)), rejectionText style file draft.number r,
          ""⟩ := by
  obtain ⟨trace, hquiet, hopen⟩ :=
    Session.openAt_of_rejected (.steps n) false (by simp) hname hfile hdrafts
      haccepted hrejected (Console.quiet_new style true)
  have hdraft : draft ∈ assemble lines := by simp [hdrafts]
  have hsaid := errorText_rejected hquiet file
    (Session.begins_assemble hdraft).1.ne_empty hrejected draft.number
  -- The session is not opened, so that there is none to run.
  have hwork : (do
      let session ← openAt files file (.steps n) false
      withSession session Session.run : Task Console Unit)
        (.new style true) = .error (.rejected r r.account) _ :=
    Task.bind_of_error hopen _
  refine ⟨⟨_, hopen, rfl⟩, ?_⟩
  rw [execute_file hoption, guarded_of_rejected rfl hwork hsaid]
  simp [Console.new]

theorem exists_first_rejected {drafts : List Draft}
    (h : ∃ draft ∈ drafts, ¬ Accepted draft) :
    ∃ before draft after r, drafts = before ++ draft :: after ∧
      (∀ draft ∈ before, Accepted draft) ∧ parse draft.text = .error r := by
  induction drafts with
  | nil =>
      obtain ⟨draft, hdraft, -⟩ := h
      cases hdraft
  | cons first drafts ih =>
      cases hread : parse first.text with
      | error r => exact ⟨[], first, drafts, r, rfl, by simp, hread⟩
      | ok t =>
          have hfirst : Accepted first := ⟨t, hread⟩
          have hlater : ∃ draft ∈ drafts, ¬ Accepted draft := by
            obtain ⟨draft, hdraft, hrejected⟩ := h
            rcases List.mem_cons.1 hdraft with rfl | hdraft
            · exact absurd hfirst hrejected
            · exact ⟨draft, hdraft, hrejected⟩
          obtain ⟨before, draft, after, r, rfl, hbefore, hrejected⟩ := ih hlater
          refine ⟨first :: before, draft, after, r, rfl, ?_, hrejected⟩
          intro other hother
          rcases List.mem_cons.1 hother with rfl | hother
          · exact hfirst
          · exact hbefore other hother

/-- A file is run as a whole or not at all.  If all of its statements can be
read, each of them is reported, in the order of the file, with the line it
begins on.  Else the session is not opened, and only the first statement that
cannot be read is reported. -/
theorem file_runs_whole_or_not {files : Files} {file : String}
    {lines : List String} (hname : file ≠ promptPath)
    (hoption : file.toList.head? ≠ some '-') (hfile : Holds files file lines)
    (n : Nat) (style : Style) (input : List String) :
    (∀ draft ∈ assemble lines, BeginsIn 1 lines draft) ∧
    ((∀ draft ∈ assemble lines, Accepted draft) →
      ∃ session console told desk,
        openAt files file (.steps n) false (.new style true) =
          .ok session console ∧
        Session.run ⟨session, console⟩ = .ok () desk ∧
        desk.session.queue = .empty ∧
        List.Forall₂ (Reports style file n) (assemble lines) told ∧
        execute [file, "--limit", toString n] files input style =
          ⟨.ok (), String.join told, ""⟩) ∧
    ((∃ draft ∈ assemble lines, ¬ Accepted draft) →
      ∃ before draft after r, assemble lines = before ++ draft :: after ∧
        (∀ draft ∈ before, Accepted draft) ∧ parse draft.text = .error r ∧
        (∃ console, openAt files file (.steps n) false (.new style true) =
            .error (.rejected r r.account) console ∧ console.printed = "") ∧
        execute [file, "--limit", toString n] files input style =
          ⟨.error (.exited (some 1)), rejectionText style file draft.number r,
            ""⟩) := by
  refine ⟨fun draft h ↦ (Session.begins_assemble h).2, ?_, ?_⟩
  · intro haccepted
    exact execute_of_accepted hname hoption hfile haccepted n style input
  · intro hsome
    obtain ⟨before, draft, after, r, hdrafts, haccepted, hrejected⟩ :=
      exists_first_rejected hsome
    exact ⟨before, draft, after, r, hdrafts, haccepted, hrejected,
      execute_of_rejected hname hoption hfile hdrafts haccepted hrejected n
        style input⟩

/-- A file with the line `λx.x` and one with the line `x`. -/
def samples : Files := fun path ↦
  if path = "good.lc" then some (Text.fileBytes ["λx.x"])
  else if path = "bad.lc" then some (Text.fileBytes ["x"])
  else none

theorem holds_good : Holds samples "good.lc" ["λx.x"] :=
  Session.holds_fileBytes (by decide) rfl (by decide)

theorem holds_bad : Holds samples "bad.lc" ["x"] :=
  Session.holds_fileBytes (by decide) rfl (by decide)

theorem assemble_good : assemble ["λx.x"] = [⟨"λx.x", 1⟩] := rfl

theorem assemble_bad : assemble ["x"] = [⟨"x", 1⟩] := rfl

theorem accepted_good : Accepted ⟨"λx.x", 1⟩ := by
  let whole : Surface.Phrase := .binder "x" [] (.simple (.name "x"))
  have hread : Surface.Reads "λx.x".toList whole.tokens [] := by
    repeat first
      | exact .nil
      | refine .cons rfl ?_
  exact ⟨_, Surface.parse_of_reads hread rfl⟩

theorem not_accepted_bad : ¬ Accepted ⟨"x", 1⟩ := by
  rintro ⟨t, h⟩
  obtain ⟨c, rest, hcs, hc⟩ := Surface.head_of_parse h
  obtain ⟨rfl, rfl⟩ := List.cons.inj hcs
  rcases hc with hc | hc
  · exact absurd hc (by decide)
  · exact absurd hc (by decide)

theorem file_runs_whole_or_not_samples :
    "good.lc" ≠ promptPath ∧ "good.lc".toList.head? ≠ some '-' ∧
    Holds samples "good.lc" ["λx.x"] ∧
    (∃ told, List.Forall₂ (Reports .plain "good.lc" 3) [⟨"λx.x", 1⟩] told ∧
      execute ["good.lc", "--limit", toString 3] samples [] .plain =
        ⟨.ok (), String.join told, ""⟩) ∧
    "bad.lc" ≠ promptPath ∧ "bad.lc".toList.head? ≠ some '-' ∧
    Holds samples "bad.lc" ["x"] ∧
    ∃ draft r, draft ∈ assemble ["x"] ∧ parse draft.text = .error r ∧
      execute ["bad.lc", "--limit", toString 0] samples [] .plain =
        ⟨.error (.exited (some 1)),
          rejectionText .plain "bad.lc" draft.number r, ""⟩ := by
  have hgood : "good.lc" ≠ promptPath ∧ "good.lc".toList.head? ≠ some '-' := by
    decide
  have hbad : "bad.lc" ≠ promptPath ∧ "bad.lc".toList.head? ≠ some '-' := by
    decide
  obtain ⟨-, hwhole, -⟩ :=
    file_runs_whole_or_not hgood.1 hgood.2 holds_good 3 .plain []
  obtain ⟨-, -, hnot⟩ :=
    file_runs_whole_or_not hbad.1 hbad.2 holds_bad 0 .plain []
  rw [assemble_good] at hwhole
  obtain ⟨_, _, told, _, -, -, -, htold, hrun⟩ :=
    hwhole (by simpa using accepted_good)
  obtain ⟨before, draft, after, r, hdrafts, -, hrejected, -, hfail⟩ :=
    hnot ⟨_, by rw [assemble_bad]; exact List.mem_singleton_self _,
      not_accepted_bad⟩
  have hdraft : draft ∈ assemble ["x"] := by simp [hdrafts]
  exact ⟨hgood.1, hgood.2, holds_good, ⟨told, htold, hrun⟩, hbad.1, hbad.2,
    holds_bad, draft, r, hdraft, hrejected, hfail⟩

end Nameless.CommandLine
