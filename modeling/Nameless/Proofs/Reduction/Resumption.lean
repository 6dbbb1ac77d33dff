import Nameless.Proofs.Reduction.Confluence
import Nameless.Proofs.Term.Outermost

/-!
# Runs one after the other

Every run starts at the root again, so its first step is the outermost
contraction of what the runs before it left.  That is enough for a row of runs
to find the normal form of every term that has one, on whatever positive
limits.  A single run may miss it: a walk does not leave a function side that
is no abstraction before that side is normal, and the side need not have a
normal form of its own.
-/

namespace Nameless.Reduction

open Relation (ReflTransGen)

variable {limit left : Limit} {t u : Term} {progressed : Bool}

theorem Walks.reaches (h : Walks limit t left u progressed) :
    ReflTransGen Term.Step t u := by
  obtain ⟨n, hn, -, -⟩ := h.exists_steps
  exact hn.reflTransGen

theorem Walks.left_le (h : Walks limit t left u progressed) :
    left.remaining ≤ limit.remaining := by
  obtain ⟨n, -, hleft, -⟩ := h.exists_steps
  omega

/-- A walk that makes progress begins with the outermost contraction. -/
theorem Walks.exists_outermost (h : Walks limit t left u true) :
    ∃ t', Term.Outermost t t' ∧ ReflTransGen Term.Step t' u := by
  generalize hp : true = p at h
  induction h with
  | spent t h => cases hp
  | var k h => cases hp
  | contract h hc hw ih => exact ⟨_, .here hc, hw.reaches⟩
  | @fn _ _ _ _ arg _ _ _ h hroot hfn hw ihFn ih =>
      obtain ⟨fn', hout, hreach⟩ := ihFn rfl
      have hlift := hreach.lift (Term.app · arg) fun _ _ ↦ Term.Anywhere.fn arg
      exact ⟨_, .fn arg hroot hout, hlift.trans hw.reaches⟩
  | @arg _ _ _ _ _ _ fn' _ _ _ h hroot hfn harg hw ihFn ihArg ih =>
      -- the function made no progress under a positive limit
      obtain ⟨rfl, rfl⟩ := hfn.idle
      obtain ⟨arg', hout, hreach⟩ := ihArg rfl
      have hlift := hreach.lift (Term.app fn') fun _ _ ↦ Term.Anywhere.arg fn'
      exact ⟨_, .arg hroot (hfn.normal h) hout, hlift.trans hw.reaches⟩
  | app h hroot hfn harg ihFn ihArg => cases hp
  | @body _ _ _ param _ _ _ _ h hroot hbody hw ihBody ih =>
      obtain ⟨body', hout, hreach⟩ := ihBody rfl
      have hlift := hreach.lift (Term.lam param) fun _ _ ↦
        Term.Anywhere.body param
      exact ⟨_, .body param hroot hout, hlift.trans hw.reaches⟩
  | lam h hroot hbody ihBody => cases hp

/-- A walk that leaves an application with budget over has brought its
function side to a normal form. -/
theorem Walks.exists_normal_fn {fn arg : Term}
    (h : Walks limit (.app fn arg) left u progressed)
    (hroot : ¬ (Term.app fn arg).IsRedex) (hleft : left.allows = true) :
    ∃ fn', ReflTransGen Term.Step fn fn' ∧ fn'.Normal := by
  have hpos := Limit.allows_iff.1 hleft
  cases h with
  | spent _ hspent =>
      rw [hspent] at hleft
      cases hleft
  | contract h hc hw => exact absurd ⟨_, hc⟩ hroot
  | fn h _ hfn hw =>
      have := hw.left_le
      exact ⟨_, hfn.reaches, hfn.normal (Limit.allows_iff.2 (by omega))⟩
  | arg h _ hfn harg hw =>
      obtain ⟨rfl, rfl⟩ := hfn.idle
      exact ⟨_, .refl, hfn.normal h⟩
  | app h _ hfn harg =>
      obtain ⟨rfl, rfl⟩ := hfn.idle
      exact ⟨_, .refl, hfn.normal h⟩

namespace Reducer

/-- The reducer that runs under these limits, one after the other, leave. -/
def after (reducer : Reducer) (limits : List Limit) : Reducer :=
  limits.foldl (fun reducer limit ↦ (reducer.reduce limit).reducer) reducer

@[simp] theorem after_cons (reducer : Reducer) (limit : Limit)
    (limits : List Limit) :
    reducer.after (limit :: limits) =
      (reducer.reduce limit).reducer.after limits := rfl

theorem reaches_after (reducer : Reducer) (limits : List Limit) :
    ReflTransGen Term.Step reducer.term (reducer.after limits).term := by
  induction limits generalizing reducer with
  | nil => exact .refl
  | cons limit limits ih =>
      exact (reducer.reaches_reduce limit).trans (ih _)

/-- The first `m` of a sequence of limits. -/
def firstLimits (limits : Nat → Nat) (m : Nat) : List Limit :=
  (List.range m).map fun i ↦ ⟨limits i⟩

theorem firstLimits_succ (limits : Nat → Nat) (m : Nat) :
    firstLimits limits (m + 1) =
      ⟨limits 0⟩ :: firstLimits (fun i ↦ limits (i + 1)) m := by
  simp [firstLimits, List.range_succ_eq_map]

/-- The run that follows on the first `m` runs of the sequence. -/
def runAfter (reducer : Reducer) (limits : Nat → Nat) (m : Nat) : Run :=
  (reducer.after (firstLimits limits m)).reduce ⟨limits m⟩

theorem runAfter_succ (reducer : Reducer) (limits : Nat → Nat) (m : Nat) :
    reducer.runAfter limits (m + 1) =
      (reducer.reduce ⟨limits 0⟩).reducer.runAfter
        (fun i ↦ limits (i + 1)) m := by
  rw [runAfter, runAfter, firstLimits_succ, after_cons]

/-- A run that leaves no budget has made an outermost contraction. -/
theorem exists_outermost_of_spent {reducer : Reducer} {n : Nat}
    (hn : 0 < n) (h : ¬ 0 < (reducer.reduce ⟨n⟩).limit.remaining) :
    ∃ t', Term.Outermost reducer.term t' ∧
      ReflTransGen Term.Step t' (reducer.reduce ⟨n⟩).reducer.term := by
  have hwalk := reducer.walks_reduce ⟨n⟩
  obtain ⟨k, -, hleft, hprogress⟩ := hwalk.exists_steps
  have hk : 0 < k := by
    dsimp only at hleft
    omega
  rw [hprogress.2 hk] at hwalk
  exact hwalk.exists_outermost

theorem exists_runAfter_left {t : Term} (ht : ∃ k, Term.Settles k t) :
    ∀ (reducer : Reducer), reducer.term = t →
      ∀ limits : Nat → Nat, (∀ i, 0 < limits i) →
        ∃ m, 0 < (reducer.runAfter limits m).limit.remaining := by
  refine Term.Settles.nearer_induction (P := fun t ↦
    ∀ (reducer : Reducer), reducer.term = t →
      ∀ limits : Nat → Nat, (∀ i, 0 < limits i) →
        ∃ m, 0 < (reducer.runAfter limits m).limit.remaining) ?_ ht
  rintro k _ hk ih reducer rfl limits hpos
  by_cases hleft : 0 < (reducer.reduce ⟨limits 0⟩).limit.remaining
  · exact ⟨0, hleft⟩
  · obtain ⟨t', hout, hreach⟩ := exists_outermost_of_spent (hpos 0) hleft
    have hnear := (hk.nearer_of_outermost hout).of_steps hreach
    obtain ⟨m, hm⟩ := ih _ hnear (reducer.reduce ⟨limits 0⟩).reducer rfl
      (fun i ↦ limits (i + 1)) fun i ↦ hpos (i + 1)
    refine ⟨m + 1, ?_⟩
    rw [runAfter_succ]
    exact hm

/-- The term `(λw.w w) (λw.w w)`, which contracts to itself. -/
def loop : Term :=
  .app (.lam "w" (.app (.var 0) (.var 0)))
    (.lam "w" (.app (.var 0) (.var 0)))

/-- The term `λz.z Ω`, with `loop` for `Ω`. -/
def pending : Term := .lam "z" (.app (.var 0) loop)

/-- The term `(λi.i) (λz.z Ω) (λa.λb.b)`, whose function side has no normal
form. -/
def deferred : Term :=
  .app (.app (.lam "i" (.var 0)) pending) (.lam "a" (.lam "b" (.var 0)))

theorem deferred_reaches :
    ReflTransGen (Term.Anywhere Term.Contraction) deferred
      (.lam "b" (.var 0)) := by
  have hfn : Term.Anywhere Term.Contraction deferred
      (.app pending (.lam "a" (.lam "b" (.var 0)))) :=
    .fn _ (.here (.beta (by cbv)))
  have hroot : Term.Anywhere Term.Contraction
      (.app pending (.lam "a" (.lam "b" (.var 0))))
      (.app (.lam "a" (.lam "b" (.var 0))) loop) :=
    .here (.beta (by cbv))
  have hlast : Term.Anywhere Term.Contraction
      (.app (.lam "a" (.lam "b" (.var 0))) loop) (.lam "b" (.var 0)) :=
    .here (.beta (by cbv))
  exact .head hfn (.head hroot (.single hlast))

/-- On whatever positive limits the runs of a reducer are made, one of them
leaves budget over and a normal term, if contractions at any places lead to
one. -/
theorem resumed_runs_find_normal_form {t v : Term}
    (h : ReflTransGen (Term.Anywhere Term.Contraction) t v) (hv : v.Normal)
    (limits : Nat → Nat) (hpos : ∀ i, 0 < limits i) :
    ∃ m, 0 < ((ofTerm t).runAfter limits m).limit.remaining ∧
      ((ofTerm t).runAfter limits m).reducer.term.Normal := by
  have hsettles :=
    Term.exists_settles_of_normal (Term.steps_of_contractions h) hv
  obtain ⟨m, hm⟩ :=
    exists_runAfter_left hsettles (ofTerm t) rfl limits hpos
  exact ⟨m, hm, normal_of_left hm⟩

theorem resumed_runs_find_normal_form_deferred :
    ReflTransGen (Term.Anywhere Term.Contraction) deferred
      (.lam "b" (.var 0)) ∧
    (Term.lam "b" (.var 0)).Normal ∧ (∀ i : Nat, 0 < i + 1) ∧
    ∃ m, 0 < ((ofTerm deferred).runAfter (· + 1) m).limit.remaining ∧
      ((ofTerm deferred).runAfter (· + 1) m).reducer.term.Normal :=
  ⟨deferred_reaches, normal_lam_var_zero "b", Nat.succ_pos,
    resumed_runs_find_normal_form deferred_reaches (normal_lam_var_zero "b")
      (· + 1) Nat.succ_pos⟩

/-! ## A normal form that a single run misses -/

theorem eq_of_step_loop {u : Term} (h : Term.Step loop u) : u = loop := by
  have hself : (Term.lam "w" (.app (.var 0) (.var 0))).Normal :=
    Term.normal_lam_iff.2 ⟨Term.not_isRedex_lam_iff.2 (by cbv),
      Term.normal_app_iff.2 ⟨Term.not_isRedex_app_iff.2 rfl,
        Term.normal_var 0, Term.normal_var 0⟩⟩
  rcases h.app_inv with hbeta | ⟨_, _, hfn⟩ | ⟨_, _, harg⟩
  · rw [Term.beta?_lam, Term.instantiate_app, Term.instantiate_var_self,
      Term.shift_zero] at hbeta
    exact (Option.some.inj hbeta).symm
  · exact absurd hfn (Term.not_step_of_normal hself)
  · exact absurd harg (Term.not_step_of_normal hself)

theorem eq_of_step_pending {u : Term} (h : Term.Step pending u) :
    u = pending := by
  rcases h.lam_inv with heta | ⟨body, rfl, hbody⟩
  · cases heta
  · rcases hbody.app_inv with hbeta | ⟨_, _, hfn⟩ | ⟨arg, rfl, harg⟩
    · cases hbeta
    · exact absurd hfn (Term.not_step_of_normal (Term.normal_var 0))
    · rw [eq_of_step_loop harg]
      rfl

theorem not_normal_pending : ¬ pending.Normal := by
  intro h
  have hloop := (Term.normal_app_iff.1 (Term.normal_lam_iff.1 h).2).2.2
  exact (Term.normal_app_iff.1 hloop).1 ⟨_, .beta "w" _ _⟩

theorem deferred_fn_has_no_normal_form {u : Term}
    (h : ReflTransGen Term.Step (.app (.lam "i" (.var 0)) pending) u) :
    ¬ u.Normal := by
  have hshape : u = .app (.lam "i" (.var 0)) pending ∨ u = pending := by
    induction h with
    | refl => exact .inl rfl
    | tail _ hstep ih =>
        rcases ih with rfl | rfl
        · rcases hstep.app_inv with hbeta | ⟨_, _, hfn⟩ | ⟨arg, rfl, harg⟩
          · rw [Term.beta?_lam, Term.instantiate_var_self,
              Term.shift_zero] at hbeta
            exact .inr (Option.some.inj hbeta).symm
          · exact absurd hfn
              (Term.not_step_of_normal (normal_lam_var_zero "i"))
          · exact .inl (by rw [eq_of_step_pending harg])
        · exact .inr (eq_of_step_pending hstep)
  rcases hshape with rfl | rfl
  · exact fun h ↦ not_normal_pending (Term.normal_app_iff.1 h).2.2
  · exact not_normal_pending

theorem single_run_misses_normal_form :
    (∃ v, ReflTransGen (Term.Anywhere Term.Contraction) deferred v ∧
      v.Normal) ∧
    ¬ ∃ n : Nat, 0 < ((ofTerm deferred).reduce ⟨n⟩).limit.remaining := by
  refine ⟨⟨_, deferred_reaches, normal_lam_var_zero "b"⟩, ?_⟩
  rintro ⟨n, hleft⟩
  have hwalk := (ofTerm deferred).walks_reduce ⟨n⟩
  obtain ⟨fn, hreach, hnormal⟩ := hwalk.exists_normal_fn
    (Term.not_isRedex_app_iff.2 rfl) (Limit.allows_iff.2 hleft)
  exact deferred_fn_has_no_normal_form hreach hnormal

end Reducer
end Nameless.Reduction
