import Nameless.Proofs.Console.Diagnosis
import Nameless.Proofs.Session.Office

/-!
# Sessions that share a console

Whatever sessions do in turn, no block of work leaves a line registered:
`afterBlock_orderly` is the step and `after_orderly` the run.  The error about
a statement that cannot be read is therefore about that statement alone.
-/

namespace Nameless

open Session (Accepted assemble isOpen openAt promptPath)
open Surface (Rejection parse)

/-! ## Work at a desk -/

namespace Session

variable {session : Session} {console : Console} {style : Style}
  {text : String}

/-- A session whose limit is a number, and whose queue holds what was read. -/
structure Ready (session : Session) : Prop where
  limit : ∃ n : Nat, session.limit = .steps n
  sound : Sound session.queue.entries

theorem ready_new (path : String) (n : Nat) (isInteractive : Bool) :
    (new path (.steps n) isInteractive).Ready :=
  ⟨⟨n, rfl⟩, fun _ hentry ↦ absurd hentry List.not_mem_nil⟩

theorem add_ready {t : Term} (h : session.Ready) (hcalm : console.Calm style)
    (hread : parse text = .ok t) (number : Int) :
    ∃ desk, add text number ⟨session, console⟩ = .ok () desk ∧
      desk.session.Ready ∧ desk.console.Calm style :=
  ⟨_, add_of_ok hread number session console,
    ⟨h.limit, h.sound.put hread number⟩, hcalm.put session.path⟩

theorem run_ready (h : session.Ready) (hcalm : console.Calm style) :
    ∃ desk, run ⟨session, console⟩ = .ok () desk ∧
      desk.session.Ready ∧ desk.console.Calm style := by
  obtain ⟨n, hlimit⟩ := h.limit
  obtain ⟨told, console', -, hrun, hquiet, hstyle, hfatal, -⟩ :=
    run_apply session hcalm.quiet hlimit h.sound
  exact ⟨_, hrun, ⟨h.limit, fun _ hentry ↦ absurd hentry List.not_mem_nil⟩,
    hquiet, hfatal.trans hcalm.isFatal, hstyle.trans hcalm.style_eq⟩

/-- A line from the prompt that completes no statement, or one that can be
read. -/
theorem feed_ready (line : String) (h : session.Ready)
    (hcalm : console.Calm style)
    (hread : isOpen (session.textWith line) = false →
      session.textWith line ≠ "" → ∃ t, parse (session.textWith line) = .ok t) :
    ∃ desk, feed line ⟨session, console⟩ = .ok () desk ∧
      desk.session.Ready ∧ desk.console.Calm style := by
  cases hopen : isOpen (session.textWith line) with
  | true =>
      exact ⟨_, feed_of_open hopen console, ⟨h.limit, h.sound⟩, hcalm⟩
  | false =>
      by_cases hempty : session.textWith line = ""
      · exact ⟨_, feed_of_empty hempty console, ⟨h.limit, h.sound⟩, hcalm⟩
      obtain ⟨t, ht⟩ := hread hopen hempty
      have htaking : (session.taking "").Ready := ⟨h.limit, h.sound⟩
      obtain ⟨mid, hadd, hready, hcalm'⟩ :=
        add_ready htaking hcalm ht (session.lineNumber + 1 : Nat)
      obtain ⟨desk, hrun, hdesk⟩ := run_ready hready hcalm'
      refine ⟨desk, ?_, hdesk⟩
      rw [feed_of_closed hopen hempty]
      exact (Task.bind_of_ok hadd _).trans hrun

end Session

/-! ## One block -/

namespace Office

variable {office : Office} {style : Style} {block : Block} {i : Nat}
  {session : Session} {task : Task Desk Unit}

/-- The state of an office between two blocks. -/
structure Orderly (office : Office) (style : Style) : Prop where
  /-- No line is registered. -/
  calm : office.console.Calm style
  ready : ∀ session ∈ office.sessions, session.Ready

theorem Orderly.ready_get (h : office.Orderly style)
    (hi : office.sessions[i]? = some session) : session.Ready :=
  h.ready session (List.mem_of_getElem? hi)

theorem Orderly.ready_set (h : office.Orderly style) (i : Nat)
    (hsession : session.Ready) :
    ∀ other ∈ office.sessions.set i session, other.Ready := by
  intro other hother
  rcases List.mem_or_eq_of_mem_set hother with hmem | rfl
  · exact h.ready other hmem
  · exact hsession

/-- The office with a line registered on its console. -/
def registering (office : Office) (path : String) (place : Place) : Office :=
  { office with console := { office.console with
      trace := office.console.trace.put path (some place) } }

/-- How a block may end.  If a statement of it cannot be read, it says nothing,
and leaves the line of that statement registered, and no other. -/
inductive Ends (office : Office) (style : Style) :
    Option Refusal → EStateM.Result Failure Office Unit → Prop
  | done {last : Office} (h : last.Orderly style) :
      Ends office style none (.ok () last)
  | failed {last : Office} {e : Failure} (h : last.Orderly style)
      (hrefused : ∀ r report, e ≠ .rejected r report) :
      Ends office style none (.error e last)
  | refused {mid : Office} {refusal : Refusal} (h : mid.Orderly style)
      (hprinted : mid.console.printed = office.console.printed) :
      Ends office style (some refusal)
        (.error (.rejected refusal.rejection refusal.rejection.account)
          (mid.registering refusal.path refusal.place))

theorem ends_of_ready (h : office.Orderly style)
    (hi : office.sessions[i]? = some session)
    (htask : ∃ desk, task ⟨session, office.console⟩ = .ok () desk ∧
      desk.session.Ready ∧ desk.console.Calm style) :
    office.Ends style none (atDesk i task office) := by
  obtain ⟨desk, hrun, hsession, hcalm⟩ := htask
  rw [atDesk_of_ok hi hrun]
  exact .done ⟨hcalm, h.ready_set i hsession⟩

theorem ends_of_rejected {last : Session} {path : String} {place : Place}
    {r : Rejection} (h : office.Orderly style)
    (hi : office.sessions[i]? = some session) (hlast : last.Ready)
    (htask : task ⟨session, office.console⟩ =
      .error (.rejected r r.account) ⟨last, { office.console with
        trace := office.console.trace.put path (some place) }⟩) :
    office.Ends style (some ⟨path, place, r⟩) (atDesk i task office) := by
  let mid := office.withDesk i ⟨last, office.console⟩
  have hmid : mid.Orderly style := ⟨h.calm, h.ready_set i hlast⟩
  rw [atDesk_of_error hi htask]
  exact .refused hmid rfl

theorem add_ends (h : office.Orderly style) (i : Nat) (text : String)
    (number : Int) :
    office.Ends style (office.refusal? (.add i text number))
      ((Block.add i text number).work office) := by
  rw [Block.work]
  cases hi : office.sessions[i]? with
  | none =>
      rw [refusal?_add_of_none hi, atDesk_of_none hi]
      exact .done h
  | some session =>
      have hready := h.ready_get hi
      rw [refusal?_add hi]
      cases hread : parse text with
      | ok t =>
          rw [refusalOf?_eq_none_iff.2 ⟨t, hread⟩]
          exact ends_of_ready h hi
            (Session.add_ready hready h.calm hread number)
      | error r =>
          rw [refusalOf?_eq_some_iff.2 ⟨r, hread, rfl⟩]
          exact ends_of_rejected h hi hready
            (Session.add_of_error hread number session office.console)

theorem feed_ends (h : office.Orderly style) (i : Nat) (line : String) :
    office.Ends style (office.refusal? (.feed i line))
      ((Block.feed i line).work office) := by
  rw [Block.work, refusal?, statements]
  cases hi : office.sessions[i]? with
  | none =>
      rw [atDesk_of_none hi]
      exact .done h
  | some session =>
      have hready := h.ready_get hi
      dsimp only
      by_cases hunread : session.textWith line = "" ∨
          isOpen (session.textWith line) = true
      · rw [if_pos hunread]
        refine ends_of_ready h hi (Session.feed_ready line hready h.calm ?_)
        intro hopen hempty
        simp [hopen, hempty] at hunread
      rw [if_neg hunread, List.findSome?_singleton]
      rw [not_or, Bool.not_eq_true] at hunread
      cases hread : parse (session.textWith line) with
      | ok t =>
          rw [refusalOf?_eq_none_iff.2 ⟨t, hread⟩]
          exact ends_of_ready h hi
            (Session.feed_ready line hready h.calm fun _ _ ↦ ⟨t, hread⟩)
      | error r =>
          have htaking : (session.taking "").Ready :=
            ⟨hready.limit, hready.sound⟩
          rw [refusalOf?_eq_some_iff.2 ⟨r, hread, rfl⟩]
          exact ends_of_rejected h hi htaking
            (Session.feed_of_error hunread.2 hunread.1 hread office.console)

theorem run_ends (h : office.Orderly style) (i : Nat) :
    office.Ends style (office.refusal? (.run i))
      ((Block.run i).work office) := by
  rw [Block.work, refusal?, statements]
  cases hi : office.sessions[i]? with
  | none =>
      rw [atDesk_of_none hi]
      exact .done h
  | some session =>
      exact ends_of_ready h hi (Session.run_ready (h.ready_get hi) h.calm)

theorem Orderly.opened {console : Console} (h : office.Orderly style)
    (hsession : session.Ready) (hcalm : console.Calm style) :
    (Office.mk (office.sessions ++ [session]) console).Orderly style where
  calm := hcalm
  ready := by
    intro other hother
    rcases List.mem_append.1 hother with hmem | hmem
    · exact h.ready other hmem
    · exact (List.mem_singleton.1 hmem) ▸ hsession

theorem opening_prompt_ends (h : office.Orderly style) (files : Files)
    (limit : Nat) (isInteractive : Bool) :
    office.Ends style
      (office.refusal? (.opening files promptPath limit isInteractive))
      ((Block.opening files promptPath limit isInteractive).work office) := by
  have hcalm := h.calm.put promptPath
  rw [refusal?, statements, if_pos rfl]
  cases isInteractive with
  | true =>
      rw [work_opening_of_ok (Session.openAt_prompt files _ _)]
      exact .done (h.opened (Session.ready_new promptPath limit true)
        ⟨hcalm.quiet, rfl, hcalm.style_eq⟩)
  | false =>
      rw [work_opening_of_error (Session.openAt_reserved files _ _)]
      exact .failed ⟨hcalm, h.ready⟩ (Session.ofReport_ne_rejected _)

theorem opening_file_ends {path : String} (h : office.Orderly style)
    (hpath : path ≠ promptPath) (files : Files) (limit : Nat)
    (isInteractive : Bool) :
    office.Ends style
      (office.refusal? (.opening files path limit isInteractive))
      ((Block.opening files path limit isInteractive).work office) := by
  have hmode : isInteractive = true → office.console.isFatal = false :=
    fun _ ↦ h.calm.isFatal
  rw [refusal?, statements, if_neg hpath]
  rcases Session.holds_or_not files path with
    ⟨lines, hfile⟩ | ⟨e, hunread, hrefused⟩
  · rw [Session.readLines_of_holds hfile]
    dsimp only
    rw [List.findSome?_map]
    cases hfound : (assemble lines).findSome? _ with
    | none =>
        have haccepted : ∀ draft ∈ assemble lines, Accepted draft :=
          fun draft hdraft ↦ refusalOf?_eq_none_iff.1
            (List.findSome?_eq_none_iff.1 hfound draft hdraft)
        obtain ⟨entries, trace, hqueued, hquiet, hopen⟩ :=
          Session.openAt_of_accepted (.steps limit) isInteractive hmode hpath
            hfile haccepted h.calm.quiet
        rw [work_opening_of_ok hopen]
        exact .done (h.opened ⟨⟨limit, rfl⟩, Session.sound_of_queued hqueued⟩
          ⟨hquiet, h.calm.isFatal, h.calm.style_eq⟩)
    | some refusal =>
        obtain ⟨before, draft, after, hdrafts, hrefusal, hbefore⟩ :=
          List.findSome?_eq_some_iff.1 hfound
        obtain ⟨r, hread, rfl⟩ := refusalOf?_eq_some_iff.1 hrefusal
        have haccepted : ∀ draft ∈ before, Accepted draft :=
          fun draft hdraft ↦ refusalOf?_eq_none_iff.1 (hbefore draft hdraft)
        obtain ⟨trace, hquiet, hopen⟩ :=
          Session.openAt_of_rejected (.steps limit) isInteractive hmode hpath
            hfile hdrafts haccepted hread h.calm.quiet
        let mid : Office :=
          { office with console := { office.console with trace } }
        have hmid : mid.Orderly style :=
          ⟨⟨hquiet, h.calm.isFatal, h.calm.style_eq⟩, h.ready⟩
        rw [work_opening_of_error hopen]
        exact .refused hmid rfl
  · have hopen : openAt files path (.steps limit) isInteractive
        office.console = .error e { office.console with
          trace := office.console.trace.put path none } :=
      (Session.openAt_file hpath _ hmode).trans
        (Task.bind_of_error (hunread _) _)
    rw [hunread, work_opening_of_error hopen]
    exact .failed ⟨h.calm.put path, h.ready⟩ hrefused

theorem work_ends (h : office.Orderly style) (block : Block) :
    office.Ends style (office.refusal? block) (block.work office) := by
  cases block with
  | opening files path limit isInteractive =>
      by_cases hpath : path = promptPath
      · rw [hpath]
        exact opening_prompt_ends h files limit isInteractive
      · exact opening_file_ends h hpath files limit isInteractive
  | add i text number => exact add_ends h i text number
  | feed i line => exact feed_ends h i line
  | run i => exact run_ends h i

/-! ## One block after the other -/

/-- A refused statement is reported, and its line is cleared. -/
theorem afterBlock_of_refused {mid : Office} {refusal : Refusal}
    (hmid : mid.Orderly style)
    (h : block.work office =
      .error (.rejected refusal.rejection refusal.rejection.account)
        (mid.registering refusal.path refusal.place)) :
    office.afterBlock block = { mid with console := { mid.console with
      printed := mid.console.printed ++
        (mid.registering refusal.path refusal.place).console.errorText
          refusal.rejection.account
          (refusal.rejection.messageWith mid.console.style.bold)
      trace :=
        (mid.registering refusal.path refusal.place).console.trace.fill
          none } } := by
  have hannounce := Console.announce_apply
    (c := (mid.registering refusal.path refusal.place).console)
    (refusal.rejection.styledMessage_account mid.console.style)
  have hfatal : (mid.registering refusal.path
      refusal.place).console.isFatal = false := hmid.calm.isFatal
  rw [if_neg (by simp [hfatal])] at hannounce
  rw [afterBlock_of_error h, Console.settle, Task.leaves_of_ok hannounce]
  rfl

theorem afterBlock_orderly (h : office.Orderly style) (block : Block) :
    (office.afterBlock block).Orderly style := by
  have hends := work_ends h block
  generalize hresult : block.work office = result at hends
  generalize office.refusal? block = refusal? at hends
  cases hends with
  | done hlast => rwa [afterBlock_of_ok hresult]
  | failed hlast =>
      rw [afterBlock_of_error hresult]
      exact ⟨Console.settle_calm style _ _ hlast.calm, hlast.ready⟩
  | refused hmid =>
      rw [afterBlock_of_refused hmid hresult]
      exact ⟨⟨Console.quiet_fill _, hmid.calm.isFatal, hmid.calm.style_eq⟩,
        hmid.ready⟩

theorem after_orderly (style : Style) (blocks : List Block) :
    (after style blocks).Orderly style := by
  have hnew : (new style).Orderly style :=
    ⟨⟨Console.quiet_new style false, rfl, rfl⟩,
      fun _ h ↦ absurd h List.not_mem_nil⟩
  have hrun : ∀ (blocks : List Block) (office : Office),
      office.Orderly style → (blocks.foldl afterBlock office).Orderly style := by
    intro blocks
    induction blocks with
    | nil => exact fun _ h ↦ h
    | cons block blocks ih => exact fun _ h ↦ ih _ (afterBlock_orderly h block)
  exact hrun blocks (new style) hnew

/-- Work that fails halfway leaves no line registered either, if its guard
swallows the failure. -/
theorem quiet_of_swallowed {task : Task Office Unit} {mid last : Office}
    {e : Failure} (h : task office = .error e mid)
    (hswallowed : Console.guardedBy atConsole task office = .ok none last) :
    last.console.Quiet := by
  rw [Console.guardedBy_of_error h] at hswallowed
  obtain ⟨_, settled, hsettle, hreturn⟩ :=
    Task.exists_of_bind_eq_ok hswallowed
  cases hreturn
  rw [atConsole] at hsettle
  cases hconsole : Console.settle e mid.console with
  | ok _ console =>
      rw [hconsole] at hsettle
      cases hsettle
      exact Console.quiet_of_settle hconsole
  | error e' console =>
      rw [hconsole] at hsettle
      cases hsettle

/-- A block is rejected for the first of its statements that cannot be read,
and for nothing else. -/
theorem work_rejected_iff (h : office.Orderly style) (r : Rejection) :
    (∃ report last, block.work office = .error (.rejected r report) last) ↔
      ∃ refusal, office.refusal? block = some refusal ∧
        refusal.rejection = r := by
  have hends := work_ends h block
  generalize block.work office = result at hends
  generalize office.refusal? block = refusal? at hends
  cases hends with
  | done hlast => simp
  | failed hlast hrefused => simpa using hrefused r
  | refused hmid => simp

/-- What is printed about a statement that cannot be read, colours off. -/
theorem printed_of_refusal {refusal : Refusal} (h : office.Orderly .plain)
    (hrefusal : office.refusal? block = some refusal)
    (hline : refusal.place.line ≠ "") :
    (office.afterBlock block).console.printed = office.console.printed ++
      Console.reported refusal.path refusal.place refusal.rejection := by
  have hread := parse_of_refusal? hrefusal
  have hends := work_ends h block
  generalize hresult : block.work office = result at hends
  rw [hrefusal] at hends
  cases hends with
  | refused hmid hprinted =>
      rw [afterBlock_of_refused hmid hresult, ← hprinted,
        ← Console.errorText_rejected_plain hmid.calm.quiet hmid.calm.style_eq
          refusal.path hline hread]
      rfl

/-- After every block no line is registered, and even work that is broken off
leaves none if its guard goes on.  A block is rejected for its first statement
that cannot be read, and all it prints then, without colours, is where the
statement is and where it goes wrong, and the statement, marked. -/
theorem rejections_reported_in_place :
    (∀ style blocks, (after style blocks).console.Quiet) ∧
    (∀ (task : Task Office Unit) office e mid last,
      task office = .error e mid →
      Console.guardedBy atConsole task office = .ok none last →
      last.console.Quiet) ∧
    (∀ style blocks block r,
      (∃ report last, block.work (after style blocks) =
        .error (.rejected r report) last) ↔
      ∃ refusal, (after style blocks).refusal? block = some refusal ∧
        refusal.rejection = r) ∧
    ∀ blocks block refusal,
      (after .plain blocks).refusal? block = some refusal →
      refusal.place.line ≠ "" →
      (after .plain (blocks ++ [block])).console.printed =
        (after .plain blocks).console.printed ++
          Console.reported refusal.path refusal.place refusal.rejection ∧
      refusal.rejection.IsAbout refusal.place.line ∧
      ∀ x, refusal.rejection.cause = .unbound x →
        refusal.rejection.markEnd = refusal.rejection.pos + x.length ∧
        Text.between refusal.place.line refusal.rejection.pos
          refusal.rejection.markEnd = x := by
  refine ⟨fun style blocks ↦ (after_orderly style blocks).calm.quiet,
    fun _ _ _ _ _ ↦ quiet_of_swallowed,
    fun style blocks block r ↦ work_rejected_iff (after_orderly style blocks) r,
    fun blocks block refusal hrefusal hline ↦ ?_⟩
  have habout := Surface.isAbout_of_parse (parse_of_refusal? hrefusal)
  refine ⟨?_, habout, fun x hcause ↦
    ⟨habout.markEnd_eq hcause, habout.between_eq hcause⟩⟩
  rw [after_append]
  exact printed_of_refusal (after_orderly .plain blocks) hrefusal hline

/-- A session on an empty file, and one at the prompt, where a statement is
still open. -/
def emptyAndOpen : List Block :=
  [.opening (fun _ ↦ some []) "f.lc" 3 false,
    .opening (fun _ ↦ none) promptPath 5 true,
    .feed 1 "(λx."]

theorem after_emptyAndOpen :
    after .plain emptyAndOpen =
      ⟨[.new "f.lc" (.steps 3) false,
        (Session.new promptPath (.steps 5) true).taking "(λx."],
        .plain, false, ⟨[("f.lc", none), (promptPath, none)]⟩, ""⟩ := by
  have hfile : Session.Holds (fun _ ↦ some []) "f.lc" [] :=
    Session.holds_fileBytes (by decide) rfl (by simp)
  have hopen : openAt (fun _ ↦ some []) "f.lc" (.steps 3) false
      (new .plain).console = .ok (.new "f.lc" (.steps 3) false)
        ⟨.plain, false, ⟨[("f.lc", none)]⟩, ""⟩ :=
    Session.openAt_eq_addAll (by decide) hfile _ (by simp)
  rw [after, emptyAndOpen, List.foldl_cons,
    afterBlock_of_ok (work_opening_of_ok hopen)]
  rfl

theorem parse_x : parse "x" = .error ⟨"x", 0, .unbound "x"⟩ := by
  rw [parse, Surface.wholeTerm, Surface.expression, Surface.chain,
    Surface.atom?]
  rfl

theorem rejections_reported_in_place_emptyAndOpen :
    (after .plain (emptyAndOpen ++ [.add 0 "x" 7])).console.printed =
      "f.lc:7:0: error: variable 'x' not found\n  x\n  ^\n" := by
  have hrefusal : (after .plain emptyAndOpen).refusal? (.add 0 "x" 7) =
      some ⟨"f.lc", ⟨"x", 7⟩, ⟨"x", 0, .unbound "x"⟩⟩ := by
    rw [after_emptyAndOpen, refusal?_add rfl]
    exact refusalOf?_eq_some_iff.2 ⟨_, parse_x, rfl⟩
  rw [(rejections_reported_in_place.2.2.2 _ _ _ hrefusal (by decide)).1,
    after_emptyAndOpen]
  rfl

end Office
end Nameless
