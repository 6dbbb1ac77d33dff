import Nameless.Proofs.Session.Statement

/-!
# Unfinished results

A session that prints a term with a redex left in it should say so, and it
should call a term irreducible only if it is.  `Candid` states this for one
statement.  It holds under every limit that allows a step, and not under the
limit of no steps: there a reducible term looks like one that is at rest.
-/

namespace Nameless.Session

open Console (Quiet)
open Reduction (reduce)
open Reduction.Reducer (ofTerm)
open Surface (display parse)

/-- What is said about a statement does not pass off an unfinished result as
final: the warning follows a result with a redex in it, and at a prompt a
term for which no step is reported has none. -/
def Candid (session : Session) (style : Style) (n : Nat)
    (entry : Int × Statement) (said : String) : Prop :=
  ∃ shown warned,
    display (resultOf n entry).term .root = .ok shown ∧
    said = resultText session.isInteractive entry.2.text shown
      (reduce entry.2.term ⟨n⟩).progressed ++ warned ∧
    (¬ (resultOf n entry).term.Normal →
      warned = limitWarning style session.path entry.1 entry.2.text n) ∧
    (session.isInteractive = true →
      (reduce entry.2.term ⟨n⟩).progressed = false → entry.2.term.Normal)

/-- Under a limit of `n` steps every run of a session is candid about each of
its statements. -/
def CandidRuns (n : Nat) : Prop :=
  ∀ (session : Session) (console : Console), console.Quiet →
    session.limit = .steps n → Sound session.queue.entries →
    ∃ told desk,
      run ⟨session, console⟩ = .ok () desk ∧
      desk.console.printed = console.printed ++ String.join told ∧
      List.Forall₂ (Candid session console.style n) session.queue.entries told

/-- A run that was allowed a step and did not end at a normal term took a step
and has nothing left. -/
theorem spent_of_not_normal {t : Term} {n : Nat} (hn : 1 ≤ n)
    (h : ¬ (reduce t ⟨n⟩).reducer.term.Normal) :
    (reduce t ⟨n⟩).progressed = true ∧
      (reduce t ⟨n⟩).limit.exhausted = true := by
  have hwalk := (ofTerm t).walks_reduce ⟨n⟩
  have hnonneg : 0 ≤ (reduce t ⟨n⟩).limit.remaining :=
    hwalk.left_nonneg (Int.natCast_nonneg n)
  have hleft : ¬ 0 < (reduce t ⟨n⟩).limit.remaining := by
    intro hpos
    exact h (Reduction.Reducer.normal_of_left hpos)
  constructor
  · by_contra hidle
    rw [Bool.not_eq_true] at hidle
    change Reduction.Walks _ _ _ _ (reduce t ⟨n⟩).progressed at hwalk
    rw [hidle] at hwalk
    have hlimit : (reduce t ⟨n⟩).limit = ⟨n⟩ := hwalk.idle.1
    rw [hlimit] at hleft
    dsimp only at hleft
    omega
  · have hzero : (reduce t ⟨n⟩).limit.remaining = 0 := by omega
    simp [Reduction.Limit.exhausted, hzero]

theorem Tells.candid {session : Session} {style : Style} {n : Nat}
    {entry : Int × Statement} {said : String} (hn : 1 ≤ n)
    (h : Tells session style n entry said) :
    Candid session style n entry said := by
  obtain ⟨shown, hshown, rfl⟩ := h
  refine ⟨shown, _, hshown, rfl, ?_, ?_⟩
  · intro hunfinished
    obtain ⟨hprogressed, hspent⟩ := spent_of_not_normal hn hunfinished
    rw [hprogressed, hspent]
    rfl
  · intro _ hidle
    have hallows : (⟨n⟩ : Reduction.Limit).allows = true := by
      rw [Reduction.Limit.allows_iff]
      dsimp only
      omega
    exact (Reduction.Reducer.reduce_progressed_eq_false_iff hallows).1 hidle

/-! ## The limit of no steps -/

/-- `(λx.x) (λy.y)`. -/
def identities : Term := .app (.lam "x" (.var 0)) (.lam "y" (.var 0))

theorem parse_identities : parse "(λx.x) (λy.y)" = .ok identities := by
  let whole : Surface.Phrase := .apply
    (.group (.binder "x" [] (.simple (.name "x"))))
    (.simple (.group (.binder "y" [] (.simple (.name "y")))))
  have hread : Surface.Reads "(λx.x) (λy.y)".toList whole.tokens [] := by
    repeat first
      | exact .nil
      | refine .cons rfl ?_
  exact Surface.parse_of_reads hread rfl

theorem not_normal_identities : ¬ identities.Normal := fun h ↦
  (Term.normal_app_iff.1 h).1 ⟨_, .beta "x" _ _⟩

/-- A session with one reducible statement and no step to spend on it. -/
def stepless : Session :=
  { new "f.lc" (.steps 0) false with
    queue := ⟨[(1, ⟨"(λx.x) (λy.y)", identities⟩)]⟩ }

theorem sound_stepless : Sound stepless.queue.entries := by
  intro entry hentry
  rw [List.mem_singleton.1 hentry]
  exact parse_identities

theorem display_identities :
    display identities .root = .ok "(λx.x) (λy.y)" := rfl

theorem reduce_identities : reduce identities ⟨(0 : Nat)⟩ =
    ⟨ofTerm identities, ⟨(0 : Nat)⟩, false⟩ :=
  Reduction.Reducer.reduce_of_spent (ofTerm identities) rfl

theorem eq_of_display_identities {shown : String}
    (h : display (reduce identities ⟨(0 : Nat)⟩).reducer.term .root =
      .ok shown) : shown = "(λx.x) (λy.y)" := by
  rw [reduce_identities] at h
  exact Except.ok.inj (h.symm.trans display_identities)

theorem run_stepless :
    ∃ desk, run ⟨stepless, .new .plain true⟩ = .ok () desk ∧
      desk.console.printed = "(λx.x) (λy.y)\n" := by
  obtain ⟨told, console, htold, hrun, -, -, -, hprinted⟩ :=
    run_apply (n := 0) stepless (Console.quiet_new .plain true) rfl sound_stepless
  refine ⟨_, hrun, hprinted.trans ?_⟩
  obtain ⟨said, ⟨shown, hshown, hsaid⟩, rfl⟩ := exists_of_forall₂_singleton htold
  dsimp only at hsaid
  rw [hsaid, eq_of_display_identities hshown, reduce_identities]
  rfl

theorem limitWarning_ne_empty (style : Style) (path : String) (number : Int)
    (text : String) (n : Nat) : limitWarning style path number text n ≠ "" := by
  intro h
  have hlength := congrArg String.length h
  rw [limitWarning, String.length_append] at hlength
  simp at hlength

theorem pos_of_candidRuns {n : Nat} (h : CandidRuns n) : 1 ≤ n := by
  by_contra hn
  obtain rfl : n = 0 := by omega
  obtain ⟨desk, hrun, hprinted⟩ := run_stepless
  obtain ⟨told, desk', hrun', hprinted', htold⟩ :=
    h stepless (.new .plain true) (Console.quiet_new .plain true) rfl
      sound_stepless
  obtain ⟨said, ⟨shown, warned, hshown, hsaid, hwarned, -⟩, rfl⟩ :=
    exists_of_forall₂_singleton htold
  have hdesk : desk = desk' := by
    cases hrun.symm.trans hrun'
    rfl
  have hsaid' : said = "(λx.x) (λy.y)\n" ++ warned := by
    rw [hsaid, eq_of_display_identities hshown]
    rfl
  -- All that is printed is the result, which leaves nothing for a warning.
  have hempty : warned = "" := by
    have hsame : "(λx.x) (λy.y)\n" = "(λx.x) (λy.y)\n" ++ warned := by
      rw [← hdesk, hprinted, hsaid'] at hprinted'
      simpa [Console.new] using hprinted'
    exact (String.append_right_inj _).1 (hsame.symm.trans String.append_empty.symm)
  have hunfinished :
      ¬ (resultOf 0 (1, ⟨"(λx.x) (λy.y)", identities⟩)).term.Normal := by
    rw [resultOf, reduce_identities]
    exact not_normal_identities
  rw [hwarned hunfinished] at hempty
  exact limitWarning_ne_empty _ _ _ _ _ hempty

/-- Sessions are candid about their results under the limits that allow a step,
and under no others. -/
theorem candidRuns_iff (n : Nat) : CandidRuns n ↔ 1 ≤ n := by
  constructor
  · exact pos_of_candidRuns
  · intro hn session console hquiet hlimit hsound
    obtain ⟨told, console', htold, hrun, -, -, -, hprinted⟩ :=
      run_apply session hquiet hlimit hsound
    exact ⟨told, _, hrun, hprinted, htold.imp fun _ _ h ↦ h.candid hn⟩

/-- Without a step a reducible statement is printed as it is, and nothing warns
of the redex in it. -/
theorem stepless_hides_redex :
    parse "(λx.x) (λy.y)" = .ok identities ∧ ¬ identities.Normal ∧
      display identities .root = .ok "(λx.x) (λy.y)" ∧
      ∃ desk, run ⟨stepless, .new .plain true⟩ = .ok () desk ∧
        desk.console.printed = "(λx.x) (λy.y)\n" :=
  ⟨parse_identities, not_normal_identities, display_identities, run_stepless⟩

end Nameless.Session
