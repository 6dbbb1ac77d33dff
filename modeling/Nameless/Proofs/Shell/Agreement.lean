import Nameless.Proofs.Session.Opening
import Nameless.Proofs.Shell.Invariant
import Nameless.Proofs.Surface.Spacing

/-!
# Files and the shell

The lines of a file may as well be typed: if all of its statements can be read,
the shell takes none of its lines for a command and runs the same statements.
While a statement is open, the file session and the shell hold texts of it that
may differ in their blanks, but not in their words: `Follows`.
-/

namespace Nameless

namespace Shell

open Console (Quiet)
open Reduction (reduce)
open Session (Accepted Draft GoesOn Holds Queued Tells Trimmed Waiting assemble
  cleaned extended gather isOpen openAt openAt_prompt promptPath)
open Surface (parse)
open Text (trim words)

/-! ## Lines that are no commands -/

theorem named?_empty (argument : String) : Command.named? "" argument = none := by
  rw [Command.named?, if_neg (by decide), if_neg (by decide),
    if_neg (by decide), if_neg (by decide)]

/-- A line is no command unless it begins with a name, a question mark or an
exclamation mark. -/
theorem ofLine_eq_term {line : String}
    (h : ∀ c ∈ (trim line).toList.head?,
      c ≠ '?' ∧ c ≠ '!' ∧ Surface.isNameChar c = false) :
    Command.ofLine line = .term (trim line) := by
  rw [Command.ofLine]
  split
  · rename_i rest hline
    exact absurd rfl (h '?' (by rw [hline]; rfl)).1
  · rename_i rest hline
    exact absurd rfl (h '!' (by rw [hline]; rfl)).2.1
  · have hname : (trim line).toList.takeWhile Surface.isNameChar = [] := by
      cases hline : (trim line).toList with
      | nil => rfl
      | cons c rest =>
          have hc := (h c (by rw [hline]; rfl)).2.2
          rw [List.takeWhile_cons_of_neg (by simp [hc])]
    rw [Command.ofTrimmed, hname, String.ofList_nil, named?_empty,
      String.ofList_toList]
    rfl

/-! ## Runs of the shell -/

/-- What the shell does with lines, all of which it takes for parts of terms:
a line leaves the last result and what was printed as they were, or completes
a statement, which is run under a limit of `n` steps at once. -/
inductive Runs (n : Nat) : Desk → List String → List Statement → Desk → Prop
  | nil (desk : Desk) : Runs n desk [] [] desk
  | waits {desk mid last : Desk} {line text : String} {lines : List String}
      {statements : List Statement}
      (hcommand : Command.whilePending desk.session.pending line = .term text)
      (hstep : step line desk = .ok false mid)
      (hresults : mid.session.results = desk.session.results)
      (hprinted : mid.console.printed = desk.console.printed)
      (hrest : Runs n mid lines statements last) :
      Runs n desk (line :: lines) statements last
  | runs {desk mid last : Desk} {line text said : String} {lines : List String}
      {statement : Statement} {statements : List Statement} {number : Int}
      (hcommand : Command.whilePending desk.session.pending line = .term text)
      (hstep : step line desk = .ok false mid)
      (hlimit : desk.session.limit = .steps n)
      (hread : parse statement.text = .ok statement.term)
      (hsaid : Tells desk.session desk.console.style n (number, statement) said)
      (hprinted : mid.console.printed = desk.console.printed ++ said)
      (hresults : mid.session.results = [(reduce statement.term ⟨n⟩).reducer])
      (hrest : Runs n mid lines statements last) :
      Runs n desk (line :: lines) (statement :: statements) last

/-! ## The statement that is open -/

/-- What is pending at the prompt is what is open in the file, up to blanks. -/
def Follows : Option Draft → String → Prop
  | none, pending => pending = ""
  | some draft, pending =>
    Waiting pending ∧ words pending.toList = words draft.text.toList

variable {open? : Option Draft} {line pending : String} {number : Nat}

theorem isOpen_of_words {text text' : String}
    (h : words text.toList = words text'.toList) : isOpen text = isOpen text' := by
  have hcount : ∀ c, Text.isBlank c = false →
      text.toList.count c = text'.toList.count c := by
    intro c hc
    rw [← Text.count_words hc, h, Text.count_words hc]
  rw [isOpen, isOpen, hcount '(' (by decide), hcount ')' (by decide)]

theorem eq_empty_of_words {text : String} (htrim : trim text = text)
    (h : words text.toList = []) : text = "" := by
  have hfilter := Text.flatten_words text.toList
  rw [h, List.flatten_nil, eq_comm, List.filter_eq_nil_iff] at hfilter
  have hblank : Text.trimStart text.toList = [] := by
    rw [Text.trimStart, List.dropWhile_eq_nil_iff]
    simpa using hfilter
  rw [Text.trimStart_of_trim htrim] at hblank
  exact String.toList_eq_nil_iff.1 hblank

/-- What a statement that is read begins with. -/
def BeginsTerm (text : String) : Prop :=
  ∃ c ∈ text.toList.head?, c = '(' ∨ Surface.isBinderSign c = true

theorem ofLine_of_beginsTerm (h : cleaned line ≠ "" → BeginsTerm (cleaned line)) :
    Command.ofLine line = .term (trim line) := by
  apply ofLine_eq_term
  intro c hc
  rcases Session.head?_trim_line hc with hhead | ⟨rfl, -⟩
  · have hline : cleaned line ≠ "" := by
      intro hempty
      rw [hempty] at hhead
      cases hhead
    obtain ⟨d, hd, hbegins⟩ := h hline
    obtain rfl : d = c := Option.some.inj (hd.symm.trans hhead)
    rcases hbegins with rfl | hsign
    · decide
    · have hne : ∀ e, Surface.isBinderSign e = false → d ≠ e := by
        rintro e he rfl
        rw [hsign] at he
        cases he
      have hname : Surface.isNameChar d = false := by
        cases hd : Surface.isNameChar d with
        | false => rfl
        | true =>
            have hsymbol := Surface.symbol?_eq_none_of_isNameChar hd
            rw [Surface.symbol?_eq_sign_iff.2 hsign] at hsymbol
            cases hsymbol
      exact ⟨hne '?' (by decide), hne '!' (by decide), hname⟩
  · decide

theorem whilePending_empty (line : String) :
    Command.whilePending "" line = Command.ofLine line := by
  have hempty : "".isEmpty = true := String.isEmpty_iff.2 rfl
  rw [Command.whilePending, hempty, Bool.true_or, if_pos rfl]

/-- The shell takes a line of the file for a part of a term, and puts together
a text with the words of the statement in the file. -/
theorem exists_command (hEOF : line ≠ "EOF") (hfollows : Follows open? pending)
    (hbegins : open? = none → cleaned line ≠ "" → BeginsTerm (cleaned line))
    (number : Nat) :
    ∃ text, Command.whilePending pending line = .term text ∧
      words (cleaned (pending ++ " " ++ text)).toList =
        words (extended open? line number).text.toList := by
  cases open? with
  | none =>
      obtain rfl : pending = "" := hfollows
      refine ⟨trim line,
        (whilePending_empty line).trans (ofLine_of_beginsTerm (hbegins rfl)), ?_⟩
      rw [Session.words_cleaned_append (by simp), Session.words_uncommented_trim,
        ← Session.words_cleaned, String.toList_empty, Text.words_nil,
        List.nil_append, extended]
  | some draft =>
      obtain ⟨hwaiting, hwords⟩ := hfollows
      have hpending : pending.isEmpty = false := by
        by_contra hempty
        rw [Bool.not_eq_false, String.isEmpty_iff] at hempty
        have hopen := hwaiting.isOpen
        rw [hempty] at hopen
        simp at hopen
      have hline : (line == "EOF") = false := beq_eq_false_iff_ne.2 hEOF
      refine ⟨line, ?_, ?_⟩
      · rw [Command.whilePending, hpending, hline, Bool.or_false,
          if_neg Bool.false_ne_true]
      · rw [Session.words_cleaned_append hwaiting.uncommented, hwords,
          ← Session.words_joined, extended]

/-! ## Lines one after the other -/

theorem step_of_feed {desk mid : Desk} {text : String}
    (hfeed : Session.feed text desk = .ok () mid)
    (hcommand : Command.whilePending desk.session.pending line = .term text) :
    step line desk = .ok false mid := by
  change obey (Command.whilePending desk.session.pending line) desk = _
  rw [hcommand]
  exact Task.bind_of_ok (Console.guardedBy_of_ok hfeed) _

theorem Settled.of_step {desk mid : Desk} {stop : Bool} (h : Settled desk)
    (hstep : step line desk = .ok stop mid) : Settled mid := by
  obtain ⟨stop', mid', hstep', hsettled⟩ := step_settled line h
  cases hstep.symm.trans hstep'
  exact hsettled

theorem beginsTerm_of_parse {text : String} (htrimmed : Trimmed text) {t : Term}
    (h : parse text = .ok t) : BeginsTerm text := by
  obtain ⟨c, rest, hcs, hc⟩ := Surface.head_of_parse h
  rw [Text.trimStart_of_trim htrimmed.trim_eq] at hcs
  exact ⟨c, by rw [hcs]; rfl, hc⟩

theorem not_isOpen_of_parse {text : String} {t : Term}
    (h : parse text = .ok t) : isOpen text = false := by
  rw [isOpen, Surface.balanced_of_parse h]
  simp

/-- A line that begins a statement that is read begins like it. -/
theorem beginsTerm_of_accepted (hopen : ∀ first ∈ open?, Trimmed first.text)
    {lines : List String}
    (haccepted : ∀ draft ∈ gather open? number (line :: lines), Accepted draft)
    (hnone : open? = none) (hline : cleaned line ≠ "") :
    BeginsTerm (cleaned line) := by
  subst hnone
  obtain ⟨draft, hdraft, -, hpart⟩ := Session.exists_goesOn_extended
    line number hopen (fun _ ↦ hline) lines
  obtain ⟨t, hread⟩ := haccepted draft hdraft
  have htrimmed := (Session.begins_gather (line :: lines) hopen draft hdraft).1
  obtain ⟨c, hc, hbegins⟩ := beginsTerm_of_parse htrimmed hread
  refine ⟨c, ?_, hbegins⟩
  obtain ⟨tail, htail⟩ := hpart
  change (cleaned line).toList ++ tail = draft.text.toList at htail
  rw [← htail] at hc
  cases hchars : (cleaned line).toList with
  | nil => exact absurd (String.toList_eq_nil_iff.1 hchars) hline
  | cons d rest =>
      rw [hchars] at hc
      exact hc

/-- A statement that the shell runs is the one in the file, up to blanks. -/
structure Same (draft : Draft) (statement : Statement) : Prop where
  words : words statement.text.toList = words draft.text.toList
  term : parse draft.text = .ok statement.term

/-- The shell runs the statements that are still to come in a file. -/
theorem runs_gather {n : Nat} (lines : List String)
    (hEOF : ∀ line ∈ lines, line ≠ "EOF")
    (hopen : ∀ first ∈ open?, Trimmed first.text)
    (haccepted : ∀ draft ∈ gather open? number lines, Accepted draft)
    {session : Session} {console : Console}
    (hsettled : Settled ⟨session, console⟩)
    (hlimit : session.limit = .steps n)
    (hfollows : Follows open? session.pending) :
    ∃ statements last, Runs n ⟨session, console⟩ lines statements last ∧
      Settled last ∧ last.session.pending = "" ∧
      List.Forall₂ Same (gather open? number lines) statements := by
  -- `Settled` and `Follows` are kept by each line; what the line does in the
  -- file says which of the three ways of feeding it is taken.
  induction lines generalizing open? number session console with
  | nil =>
      cases open? with
      | none =>
          exact ⟨[], _, .nil _, hsettled, hfollows, .nil⟩
      | some draft =>
          obtain ⟨t, hread⟩ := haccepted draft (List.mem_singleton_self _)
          obtain ⟨hwaiting, hwords⟩ := hfollows
          have hclosed := isOpen_of_words hwords
          rw [not_isOpen_of_parse hread] at hclosed
          exact absurd hwaiting.isOpen (of_decide_eq_false hclosed)
  | cons line lines ih =>
      obtain ⟨text, hcommand, hwords⟩ := exists_command
        (hEOF line List.mem_cons_self) hfollows
        (beginsTerm_of_accepted hopen haccepted) number
      change words (session.textWith text).toList = _ at hwords
      have hisOpen := isOpen_of_words hwords
      have hEOF' : ∀ line ∈ lines, line ≠ "EOF" :=
        fun line h ↦ hEOF line (List.mem_cons_of_mem _ h)
      by_cases hblank : open? = none ∧ cleaned line = ""
      · obtain ⟨rfl, hline⟩ := hblank
        have hnone : words (session.textWith text).toList = [] := by
          rw [hwords, extended, hline]
          rfl
        have hempty : session.textWith text = "" :=
          eq_empty_of_words (Text.trim_trim _) hnone
        have hstep :=
          step_of_feed (Session.feed_of_empty hempty console) hcommand
        rw [Session.gather_of_blank hline] at haccepted ⊢
        obtain ⟨statements, last, hruns, hrest⟩ := ih hEOF' hopen haccepted
          (hsettled.of_step hstep) hlimit rfl
        exact ⟨statements, last, .waits hcommand hstep rfl rfl hruns, hrest⟩
      rw [not_and] at hblank
      have htrimmed := Session.trimmed_extended hopen hblank number
      cases hext : isOpen (extended open? line number).text with
      | true =>
          have htext := hisOpen.trans hext
          have hstep :=
            step_of_feed (Session.feed_of_open htext console) hcommand
          rw [Session.gather_of_open hext] at haccepted ⊢
          obtain ⟨statements, last, hruns, hrest⟩ := ih hEOF'
            (by rintro first ⟨⟩; exact htrimmed) haccepted
            (hsettled.of_step hstep) hlimit
            ⟨Session.waiting_cleaned htext, hwords⟩
          exact ⟨statements, last, .waits hcommand hstep rfl rfl hruns, hrest⟩
      | false =>
          have htext := hisOpen.trans hext
          rw [Session.gather_of_closed hext hblank] at haccepted ⊢
          obtain ⟨t, hread⟩ := haccepted _ List.mem_cons_self
          have hread' := Surface.parse_of_words hwords.symm hread
          have hempty : session.textWith text ≠ "" := by
            intro hempty
            apply htrimmed.ne_empty
            apply eq_empty_of_words htrimmed.trim_eq
            rw [← hwords, hempty]
            rfl
          obtain ⟨said, console', hsaid, hfeed, -, -, -, hprinted⟩ :=
            Session.feed_of_ok hsettled.quiet hlimit hsettled.queue htext hempty
              hread'
          have hstep := step_of_feed hfeed hcommand
          have hmode : session.isInteractive = true := hsettled.isInteractive
          have hlater : ∀ draft ∈ gather none (number + 1) lines,
              Accepted draft :=
            fun draft h ↦ haccepted draft (List.mem_cons_of_mem _ h)
          obtain ⟨statements, last, hruns, hlast, hpending, hsame⟩ := ih hEOF'
            (by simp) hlater (hsettled.of_step hstep) hlimit rfl
          have hfirst : Same (extended open? line number)
              ⟨session.textWith text, t⟩ := ⟨hwords, hread⟩
          refine ⟨_, last, ?_, hlast, hpending, .cons hfirst hsame⟩
          refine .runs hcommand hstep hlimit hread' hsaid hprinted ?_ hruns
          simp [Session.resultsWith, hmode, Session.resultOf]

/-! ## Files and prompts -/

/-- A statement that is queued from a file and one that the shell runs have the
same words and are the same term. -/
structure Agrees (entry : Int × Statement) (statement : Statement) : Prop where
  words : words statement.text.toList = words entry.2.text.toList
  term : statement.term = entry.2.term

theorem Agrees.of_same {entry : Int × Statement} {draft : Draft}
    {statement : Statement} (hqueued : Queued draft entry)
    (hsame : Same draft statement) : Agrees entry statement where
  words := by rw [hsame.words, hqueued.text]
  term := Except.ok.inj (hsame.term.symm.trans hqueued.term)

theorem results_of_agrees {n : Nat} {entries : List (Int × Statement)}
    {statements : List Statement} (h : List.Forall₂ Agrees entries statements) :
    entries.map (Session.resultOf n) =
      statements.map fun statement ↦ (reduce statement.term ⟨n⟩).reducer := by
  induction h with
  | nil => rfl
  | cons hagrees _ ih =>
      rw [List.map_cons, List.map_cons, ih, Session.resultOf, hagrees.term]

/-- If all statements of a file can be read, then its lines, typed one after the
other at a prompt, are no commands, run the same statements in the same order
to the same results, and leave nothing open. -/
theorem shell_agrees_with_file (lines : List String)
    (hends : ∀ line ∈ lines, '\n' ∉ line.toList ∧ '\r' ∉ line.toList)
    (hEOF : ∀ line ∈ lines, line ≠ "EOF")
    (haccepted : ∀ draft ∈ assemble lines, Accepted draft) (n : Nat)
    (style : Style) :
    (∀ path : String, '\x00' ∉ path.toList →
      Holds (fun _ ↦ some (Text.fileBytes lines)) path lines) ∧
    ∀ files path, path ≠ promptPath → Holds files path lines →
      ∃ fileSession fileConsole fileDesk shellSession shellConsole shellDesk
          statements,
        openAt files path (.steps n) false (.new style true) =
          .ok fileSession fileConsole ∧
        Session.run ⟨fileSession, fileConsole⟩ = .ok () fileDesk ∧
        openAt files promptPath (.steps n) true (.new style true) =
          .ok shellSession shellConsole ∧
        Runs n ⟨shellSession, shellConsole⟩ lines statements shellDesk ∧
        List.Forall₂ Agrees fileSession.queue.entries statements ∧
        fileDesk.session.results =
          statements.map (fun statement ↦ (reduce statement.term ⟨n⟩).reducer) ∧
        shellDesk.session.pending = "" := by
  refine ⟨fun path hpath ↦ Session.holds_fileBytes hpath rfl hends, ?_⟩
  intro files path hpath hfile
  obtain ⟨fileSession, fileConsole, _, _, hopen, hqueued, -, hmode, hresults, -,
    hrun, -⟩ := Session.run_of_accepted n style hpath hfile haccepted
  rw [Session.assemble_eq_gather] at haccepted hqueued
  obtain ⟨statements, last, hruns, -, hpending, hsame⟩ :=
    runs_gather lines hEOF (by simp) haccepted
      (settled_of_openAt style true n) rfl rfl
  have hflip : List.Forall₂ (flip Queued) fileSession.queue.entries
      (gather none 1 lines) := List.Forall₂.flip hqueued
  have hagree : ∀ entry draft statement, flip Queued entry draft →
      Same draft statement → Agrees entry statement :=
    fun _ _ _ hqueued hsame ↦ Agrees.of_same hqueued hsame
  have hagrees : List.Forall₂ Agrees fileSession.queue.entries statements :=
    Session.forall₂_comp hagree hflip hsame
  refine ⟨fileSession, fileConsole, _, _, _, last, statements, hopen, hrun,
    openAt_prompt files (.steps n) (.new style true), hruns, hagrees, ?_,
    hpending⟩
  rw [← results_of_agrees hagrees, Session.afterQueue]
  simp [Session.resultsWith, hmode, hresults]

/-- A statement on two lines with a comment after it, and a line without one. -/
def spread : List String := ["(λx.x", ") λy.y ;; both", ";; none"]

theorem assemble_spread : assemble spread = [⟨"(λx.x ) λy.y", 1⟩] := rfl

theorem accepted_spread : Accepted ⟨"(λx.x ) λy.y", 1⟩ := by
  let whole : Surface.Phrase := .apply
    (.group (.binder "x" [] (.simple (.name "x"))))
    (.binder "y" [] (.simple (.name "y")))
  have hread : Surface.Reads "(λx.x ) λy.y".toList whole.tokens [] := by
    repeat first
      | exact .nil
      | refine .cons rfl ?_
  exact ⟨_, Surface.parse_of_reads hread rfl⟩

theorem shell_agrees_with_file_spread :
    let files : Files := fun _ ↦ some (Text.fileBytes spread)
    (∀ line ∈ spread, '\n' ∉ line.toList ∧ '\r' ∉ line.toList) ∧
    (∀ line ∈ spread, line ≠ "EOF") ∧
    (∀ draft ∈ assemble spread, Accepted draft) ∧
    Holds files "f.lc" spread ∧
    ∃ fileSession fileConsole fileDesk shellSession shellConsole shellDesk
        statements,
      openAt files "f.lc" (.steps (5 : Nat)) false (.new .plain true) =
        .ok fileSession fileConsole ∧
      Session.run ⟨fileSession, fileConsole⟩ = .ok () fileDesk ∧
      openAt files promptPath (.steps (5 : Nat)) true (.new .plain true) =
        .ok shellSession shellConsole ∧
      Runs 5 ⟨shellSession, shellConsole⟩ spread statements shellDesk ∧
      List.Forall₂ Agrees fileSession.queue.entries statements ∧
      fileDesk.session.results =
        statements.map (fun statement ↦ (reduce statement.term ⟨5⟩).reducer) ∧
      shellDesk.session.pending = "" := by
  have hends : ∀ line ∈ spread, '\n' ∉ line.toList ∧ '\r' ∉ line.toList := by
    decide
  have hEOF : ∀ line ∈ spread, line ≠ "EOF" := by decide
  have haccepted : ∀ draft ∈ assemble spread, Accepted draft := by
    simpa [assemble_spread] using accepted_spread
  obtain ⟨hholds, hagree⟩ :=
    shell_agrees_with_file spread hends hEOF haccepted 5 .plain
  have hfile := hholds "f.lc" (by decide)
  exact ⟨hends, hEOF, haccepted, hfile, hagree _ "f.lc" (by decide) hfile⟩

end Shell
end Nameless
