import Nameless.Proofs.Session.Prompt
import Nameless.Proofs.Text.Encoding

/-!
# Sessions on files

A session on a file queues the statements of the file, all of them or none: a
statement that cannot be read keeps the session from being opened.
-/

namespace Nameless

namespace OrderedMap

variable {κ α : Type} [DecidableEq κ]

/-- A new key comes last. -/
theorem put_of_not_mem {m : OrderedMap κ α} {key : κ} (h : key ∉ m.keys)
    (value : α) : m.put key value = ⟨m.entries ++ [(key, value)]⟩ := by
  obtain ⟨entries⟩ := m
  rw [put, mk.injEq]
  induction entries with
  | nil => rfl
  | cons entry entries ih =>
      rw [keys, List.map_cons, List.mem_cons, not_or] at h
      rw [putIn, if_neg (fun heq ↦ h.1 heq.symm), ih h.2]
      rfl

end OrderedMap

namespace Session

open Console (Quiet)
open Surface (Rejection parse)

variable {session : Session} {console : Console} {drafts : List Draft}

/-! ## Reading the lines -/

theorem ofReport_ne_rejected (x : Except Text.TemplateFault Report)
    (r : Rejection) (report : Report) :
    Failure.ofReport x ≠ .rejected r report := by
  intro h
  cases x with
  | ok _ => cases h
  | error _ => cases h

/-- A file is there, and its bytes are the text of these lines. -/
structure Holds (files : Files) (path : String) (lines : List String) :
    Prop where
  unbroken : '\x00' ∉ path.toList
  readable : ∃ bytes cs, files path = some bytes ∧
    Text.Utf8.decode bytes = .ok cs ∧
    (Text.fileLines cs).map String.ofList = lines

/-- Lines without an end in them are the lines of the file of their bytes. -/
theorem holds_fileBytes {files : Files} {path : String} {lines : List String}
    (hpath : '\x00' ∉ path.toList)
    (hbytes : files path = some (Text.fileBytes lines))
    (hends : ∀ line ∈ lines, '\n' ∉ line.toList ∧ '\r' ∉ line.toList) :
    Holds files path lines where
  unbroken := hpath
  readable := by
    refine ⟨_, _, hbytes, Text.Utf8.decode_encode _, ?_⟩
    rw [Text.fileLines_ended (by simpa using hends), List.map_map]
    simp [Function.comp_def]

theorem readLines_of_holds {files : Files} {path : String} {lines : List String}
    (h : Holds files path lines) (console : Console) :
    readLines files path console = .ok lines console := by
  obtain ⟨bytes, cs, hbytes, hdecode, rfl⟩ := h.readable
  have hpath : path.toList.contains '\x00' = false := by
    simpa using h.unbroken
  rw [readLines, hpath]
  simp only [Bool.false_eq_true, if_false, hbytes, hdecode]
  rfl

/-- A file that does not hold lines is reported as such, or it breaks off the
opening; no statement is to blame. -/
theorem holds_or_not (files : Files) (path : String) :
    (∃ lines, Holds files path lines) ∨
      ∃ e, (∀ console, readLines files path console = .error e console) ∧
        ∀ r report, e ≠ .rejected r report := by
  by_cases hbroken : path.toList.contains '\x00' = true
  · refine .inr ⟨.mishap .brokenPath, fun console ↦ ?_,
      fun _ _ ↦ Failure.noConfusion⟩
    rw [readLines, if_pos hbroken]
    rfl
  cases hbytes : files path with
  | none =>
      refine .inr ⟨.ofReport (Report.about
        "'\x7b\x7d' could not be opened" [path] false false),
        fun console ↦ ?_, ofReport_ne_rejected _⟩
      rw [readLines, if_neg hbroken, hbytes]
      rfl
  | some bytes =>
      cases hdecode : Text.Utf8.decode bytes with
      | error e =>
          refine .inr ⟨.mishap (.undecodable e), fun console ↦ ?_,
            fun _ _ ↦ Failure.noConfusion⟩
          rw [readLines, if_neg hbroken, hbytes]
          dsimp only
          rw [hdecode]
          rfl
      | ok cs =>
          exact .inl ⟨_, by simpa using hbroken, bytes, cs, hbytes, hdecode,
            rfl⟩

/-! ## Queueing the statements -/

theorem forall₂_comp {α β γ : Type} {R : α → β → Prop} {S : β → γ → Prop}
    {T : α → γ → Prop} (hcomp : ∀ a b c, R a b → S b c → T a c)
    {as : List α} {bs : List β} {cs : List γ} (hR : List.Forall₂ R as bs)
    (hS : List.Forall₂ S bs cs) : List.Forall₂ T as cs := by
  induction hR generalizing cs with
  | nil =>
      cases hS
      exact .nil
  | cons hab _ ih =>
      obtain ⟨c, cs, hbc, hrest, rfl⟩ := List.forall₂_cons_left_iff.1 hS
      exact .cons (hcomp _ _ _ hab hbc) (ih hrest)

/-- A statement that can be read. -/
def Accepted (draft : Draft) : Prop := ∃ t, parse draft.text = .ok t

/-- What a statement that was read is queued as. -/
structure Queued (draft : Draft) (entry : Int × Statement) : Prop where
  number : entry.1 = draft.number
  text : entry.2.text = draft.text
  term : parse draft.text = .ok entry.2.term

theorem sound_of_queued {entries : List (Int × Statement)}
    (h : List.Forall₂ Queued drafts entries) : Sound entries := by
  induction h with
  | nil => exact fun entry h ↦ absurd h List.not_mem_nil
  | cons hqueued _ ih =>
      intro entry hentry
      rcases List.mem_cons.1 hentry with rfl | hentry
      · rw [hqueued.text]
        exact hqueued.term
      · exact ih entry hentry

theorem addAll_of_accepted (session : Session)
    (haccepted : ∀ draft ∈ drafts, Accepted draft)
    (hordered : drafts.Pairwise (·.number < ·.number))
    (hnew : ∀ draft ∈ drafts, (draft.number : Int) ∉ session.queue.keys)
    (hquiet : console.Quiet) :
    ∃ entries trace, List.Forall₂ Queued drafts entries ∧
      { console with trace }.Quiet ∧
      addAll drafts ⟨session, console⟩ = .ok ()
        ⟨{ session with queue := ⟨session.queue.entries ++ entries⟩ },
          { console with trace }⟩ := by
  induction drafts generalizing session console with
  | nil =>
      refine ⟨[], console.trace, .nil, hquiet, ?_⟩
      rw [List.append_nil]
      rfl
  | cons draft drafts ih =>
      obtain ⟨t, hread⟩ := haccepted draft List.mem_cons_self
      obtain ⟨hlater, hordered⟩ := List.pairwise_cons.1 hordered
      let entry : Int × Statement := (draft.number, ⟨draft.text, t⟩)
      let queued : Session :=
        { session with queue := ⟨session.queue.entries ++ [entry]⟩ }
      let cleared : Console :=
        { console with trace := console.trace.put session.path none }
      have hadd : add draft.text draft.number ⟨session, console⟩ =
          .ok () ⟨queued, cleared⟩ := by
        rw [add_of_ok hread, OrderedMap.put_of_not_mem
          (hnew draft List.mem_cons_self)]
      -- Numbers grow, so no statement takes the place of one queued before.
      have hnew' : ∀ other ∈ drafts, (other.number : Int) ∉ queued.queue.keys := by
        intro other hother hmem
        rw [OrderedMap.keys, List.map_append, List.mem_append] at hmem
        rcases hmem with hmem | hmem
        · exact hnew other (List.mem_cons_of_mem _ hother) hmem
        · have hsame : (other.number : Int) = draft.number :=
            List.mem_singleton.1 hmem
          have := hlater other hother
          omega
      obtain ⟨entries, trace, hqueued, hquiet', hrest⟩ :=
        ih queued (fun other h ↦ haccepted other (List.mem_cons_of_mem _ h))
          hordered hnew' (hquiet.put session.path)
      refine ⟨entry :: entries, trace, .cons ⟨rfl, rfl, hread⟩ hqueued, hquiet',
        (Task.bind_of_ok hadd _).trans (hrest.trans ?_)⟩
      rw [List.append_assoc]
      rfl

/-- Queueing stops at the first statement that cannot be read, and leaves its
line registered. -/
theorem addAll_of_rejected (session : Session) {before : List Draft}
    {draft : Draft} {r : Rejection}
    (haccepted : ∀ draft ∈ before, Accepted draft)
    (hrejected : parse draft.text = .error r) (hquiet : console.Quiet)
    (after : List Draft) :
    ∃ session' trace, { console with trace }.Quiet ∧
      addAll (before ++ draft :: after) ⟨session, console⟩ =
        .error (.rejected r r.account) ⟨session', { console with
          trace := trace.put session.path
            (some ⟨draft.text, draft.number⟩) }⟩ := by
  induction before generalizing session console with
  | nil =>
      exact ⟨session, console.trace, hquiet,
        Task.bind_of_error (add_of_error hrejected _ _ _) _⟩
  | cons first before ih =>
      obtain ⟨t, hread⟩ := haccepted first List.mem_cons_self
      obtain ⟨session', trace, hquiet', hrest⟩ :=
        ih { session with
            queue := session.queue.put first.number ⟨first.text, t⟩ }
          (fun other h ↦ haccepted other (List.mem_cons_of_mem _ h))
          (hquiet.put session.path)
      exact ⟨session', trace, hquiet',
        (Task.bind_of_ok (add_of_ok hread _ _ _) _).trans hrest⟩

/-! ## Opening -/

variable {files : Files} {path : String} {lines : List String}

/-- Opening a file reads its lines and queues its statements. -/
theorem openAt_file (hpath : path ≠ promptPath)
    (limit : Reduction.Limit.Setting) {isInteractive : Bool}
    (hmode : isInteractive = true → console.isFatal = false) :
    openAt files path limit isInteractive console =
      (do
        let drafts := assemble (← readLines files path)
        fun console ↦
          match addAll drafts ⟨new path limit isInteractive, console⟩ with
          | .ok _ desk => .ok desk.session desk.console
          | .error e desk => .error e desk.console : Task Console Session)
        { console with trace := console.trace.put path none } := by
  have hregister : Console.registerFile path console =
      .ok () { console with trace := console.trace.put path none } := rfl
  rw [openAt]
  refine (Task.bind_of_ok hregister _).trans ?_
  rw [if_neg hpath]
  cases isInteractive with
  | false => rfl
  | true =>
      rw [← hmode rfl]
      rfl

theorem openAt_eq_addAll (hpath : path ≠ promptPath)
    (hfile : Holds files path lines) (limit : Reduction.Limit.Setting)
    {isInteractive : Bool}
    (hmode : isInteractive = true → console.isFatal = false) :
    openAt files path limit isInteractive console =
      match addAll (assemble lines) ⟨new path limit isInteractive,
          { console with trace := console.trace.put path none }⟩ with
      | .ok _ desk => .ok desk.session desk.console
      | .error e desk => .error e desk.console :=
  (openAt_file hpath limit hmode).trans
    (Task.bind_of_ok (readLines_of_holds hfile _) _)

theorem openAt_of_accepted (limit : Reduction.Limit.Setting)
    (isInteractive : Bool)
    (hmode : isInteractive = true → console.isFatal = false)
    (hpath : path ≠ promptPath)
    (hfile : Holds files path lines)
    (haccepted : ∀ draft ∈ assemble lines, Accepted draft)
    (hquiet : console.Quiet) :
    ∃ entries trace, List.Forall₂ Queued (assemble lines) entries ∧
      { console with trace }.Quiet ∧
      openAt files path limit isInteractive console = .ok
        { new path limit isInteractive with queue := ⟨entries⟩ }
        { console with trace } := by
  obtain ⟨entries, trace, hqueued, hquiet', hadd⟩ :=
    addAll_of_accepted (new path limit isInteractive) haccepted
      (numbers_assemble lines) (fun _ _ ↦ List.not_mem_nil) (hquiet.put path)
  refine ⟨entries, trace, hqueued, hquiet', ?_⟩
  rw [openAt_eq_addAll hpath hfile limit hmode, hadd]
  rfl

/-- A file is opened and run at once: each of its statements is queued and
told of. -/
theorem run_of_accepted (n : Nat) (style : Style) (hpath : path ≠ promptPath)
    (hfile : Holds files path lines)
    (haccepted : ∀ draft ∈ assemble lines, Accepted draft) :
    ∃ session console told console',
      openAt files path (.steps n) false (.new style true) =
        .ok session console ∧
      List.Forall₂ Queued (assemble lines) session.queue.entries ∧
      session.path = path ∧ session.isInteractive = false ∧
      session.results = [] ∧
      List.Forall₂ (Tells session style n) session.queue.entries told ∧
      run ⟨session, console⟩ = .ok () ⟨session.afterQueue n, console'⟩ ∧
      console'.printed = String.join told := by
  obtain ⟨entries, trace, hqueued, hquiet, hopen⟩ :=
    openAt_of_accepted (.steps n) false (by simp) hpath hfile haccepted
      (Console.quiet_new style true)
  let session : Session := { new path (.steps n) false with queue := ⟨entries⟩ }
  obtain ⟨told, console', htold, hrun, -, -, -, hprinted⟩ :=
    run_apply session hquiet rfl (sound_of_queued hqueued)
  refine ⟨session, _, told, console', hopen, hqueued, rfl, rfl, rfl, htold, hrun,
    ?_⟩
  rw [hprinted]
  exact String.empty_append

theorem openAt_of_rejected (limit : Reduction.Limit.Setting)
    (isInteractive : Bool)
    (hmode : isInteractive = true → console.isFatal = false)
    (hpath : path ≠ promptPath)
    (hfile : Holds files path lines) {before after : List Draft} {draft : Draft}
    {r : Rejection} (hdrafts : assemble lines = before ++ draft :: after)
    (haccepted : ∀ draft ∈ before, Accepted draft)
    (hrejected : parse draft.text = .error r) (hquiet : console.Quiet) :
    ∃ trace, { console with trace }.Quiet ∧
      openAt files path limit isInteractive console =
        .error (.rejected r r.account) { console with
          trace := trace.put path (some ⟨draft.text, draft.number⟩) } := by
  obtain ⟨session', trace, hquiet', hadd⟩ :=
    addAll_of_rejected (new path limit isInteractive) haccepted hrejected
      (hquiet.put path) after
  refine ⟨trace, hquiet', ?_⟩
  rw [openAt_eq_addAll hpath hfile limit hmode, hdrafts, hadd]
  rfl

/-- The prompt has no lines to read before the first is typed. -/
theorem openAt_prompt (files : Files) (limit : Reduction.Limit.Setting)
    (console : Console) :
    openAt files promptPath limit true console =
      .ok (new promptPath limit true)
        { console with
          trace := console.trace.put promptPath none, isFatal := false } := by
  rw [openAt, if_pos rfl, if_pos rfl]
  rfl

/-- The name of the prompt is not for files. -/
theorem openAt_reserved (files : Files) (limit : Reduction.Limit.Setting)
    (console : Console) :
    openAt files promptPath limit false console =
      .error (.ofReport
        (Report.about "'<in>' is a reserved filename" [""] true false))
        { console with trace := console.trace.put promptPath none } := by
  rw [openAt, if_pos rfl]
  rfl

end Session
end Nameless
