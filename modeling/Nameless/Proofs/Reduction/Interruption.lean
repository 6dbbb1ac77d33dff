import Nameless.Proofs.Reduction.Budget
import Nameless.Proofs.Reduction.Resumption

/-!
# Interrupted runs

A run that is out of budget has stopped somewhere inside its term, below the
nodes that it was still working on.  The next run sets out from the root.  It
takes up the work at the same place, unless a node on the way there has become
a redex above a child that is not done with: the next run contracts that node
first, and a run that was not interrupted first finishes the child.
-/

namespace Nameless.Reduction

open Term (Rule)

/-! ## The place where a limit runs out -/

/-- The term with the nodes around it, from the outermost inwards. -/
def fill (frames : List Frame) (t : Term) : Term :=
  frames.foldr Frame.wrap t

@[simp] theorem fill_nil (t : Term) : fill [] t = t := rfl

@[simp] theorem fill_cons (frame : Frame) (frames : List Frame) (t : Term) :
    fill (frame :: frames) t = frame.wrap (fill frames t) := rfl

theorem fill_append (outer inner : List Frame) (t : Term) :
    fill (outer ++ inner) t = fill outer (fill inner t) :=
  List.foldr_append

/-- The walk of a term spends the last of its limit on the contraction that
puts the last term in its place below these nodes. -/
inductive RunsOut : Limit → Term → List Frame → Term → Prop
  | last {limit : Limit} {t c : Term} (h : limit.allows = true)
      (hspent : limit.spend.allows = false) (hc : Rule t c) :
      RunsOut limit t [] c
  | contract {limit : Limit} {t c s : Term} {frames : List Frame}
      (h : limit.allows = true) (hc : Rule t c)
      (hs : RunsOut limit.spend c frames s) : RunsOut limit t frames s
  | inside {limit : Limit} (frame : Frame) {t s : Term} {frames : List Frame}
      (hroot : ¬ (frame.wrap t).IsRedex) (hpassed : frame.Passed)
      (hs : RunsOut limit t frames s) :
      RunsOut limit (frame.wrap t) (frame :: frames) s
  | again {limit mid : Limit} (frame : Frame) {t t' s : Term}
      {frames : List Frame} (hroot : ¬ (frame.wrap t).IsRedex)
      (hpassed : frame.Passed) (ht : Walks limit t mid t' true)
      (hs : RunsOut mid (frame.wrap t') frames s) :
      RunsOut limit (frame.wrap t) frames s

variable {limit left : Limit} {frame : Frame} {frames : List Frame}
  {t u s : Term} {progressed : Bool}

theorem RunsOut.passed (h : RunsOut limit t frames s) :
    ∀ frame ∈ frames, frame.Passed := by
  induction h with
  | last => simp
  | contract _ _ _ ih => exact ih
  | inside _ _ hpassed _ ih => exact List.forall_mem_cons.2 ⟨hpassed, ih⟩
  | again _ _ _ _ _ ih => exact ih

/-- A walk ends where its limit runs out. -/
theorem RunsOut.walks (h : RunsOut limit t frames s) :
    ∃ left, left.allows = false ∧ Walks limit t left (fill frames s) true := by
  induction h with
  | last h hspent hc => exact ⟨_, hspent, .contract h hc (.spent _ hspent)⟩
  | contract h hc _ ih =>
      obtain ⟨left, hleft, hw⟩ := ih
      exact ⟨left, hleft, .contract h hc hw⟩
  | inside frame hroot hpassed _ ih =>
      obtain ⟨left, hleft, hw⟩ := ih
      exact ⟨left, hleft, .through hroot hpassed hw (.spent _ hleft)⟩
  | again frame hroot hpassed ht _ ih =>
      obtain ⟨left, hleft, hw⟩ := ih
      exact ⟨left, hleft, .through hroot hpassed ht hw⟩

theorem RunsOut.allows (h : RunsOut limit t frames s) :
    limit.allows = true := by
  obtain ⟨left, -, hw⟩ := h.walks
  exact hw.allows_of_progress

/-- A walk that leaves no budget ran out of it at some place. -/
theorem Walks.exists_runsOut (h : Walks limit t left u progressed)
    (hlimit : limit.allows = true) (hleft : left.allows = false) :
    ∃ frames s, RunsOut limit t frames s := by
  induction h using Walks.node_induction with
  | spent t h => simp [hlimit] at h
  | rest h ht => simp [hlimit] at hleft
  | @contract limit _ _ _ _ _ h hc hw ih =>
      cases hspend : limit.spend.allows with
      | true =>
          obtain ⟨frames, s, hs⟩ := ih hspend hleft
          exact ⟨frames, s, .contract h hc hs⟩
      | false => exact ⟨[], _, .last h hspend hc⟩
  | @child _ mid _ frame _ _ _ _ hroot hpassed ht hw ihChild ih =>
      cases hmid : mid.allows with
      | true =>
          obtain ⟨frames, s, hs⟩ := ih hmid hleft
          exact ⟨frames, s, .again frame hroot hpassed ht hs⟩
      | false =>
          obtain ⟨frames, s, hs⟩ := ihChild hlimit hmid
          exact ⟨frame :: frames, s, .inside frame hroot hpassed hs⟩

/-! ## Taking up the work again -/

/-- Each node around the place that is a redex stands above a child that is done
with. -/
def Resumable : List Frame → Term → Prop
  | [], _ => True
  | frame :: frames, s =>
    ((frame.wrap (fill frames s)).IsRedex → (fill frames s).Normal) ∧
      Resumable frames s

/-- A walk from the root of what is left goes the way that the interrupted walk
has yet to go. -/
theorem RunsOut.resumes (h : RunsOut limit t frames s)
    (hr : Resumable frames s) {k : Nat}
    (hw : Walks ⟨k⟩ (fill frames s) left u progressed) :
    Walks (limit.extend k) t left u true := by
  induction h generalizing left u progressed with
  | @last limit t c h hspent hc =>
      have hlast : limit.spend.extend k = ⟨k⟩ := by
        rw [Limit.allows_iff] at h
        rw [← Bool.not_eq_true, Limit.allows_iff,
          Limit.remaining_spend] at hspent
        apply Limit.ext
        rw [Limit.remaining_extend, Limit.remaining_spend]
        dsimp only
        omega
      rw [← hlast, ← Limit.spend_extend] at hw
      exact .contract (Limit.allows_extend h k) hc hw
  | contract h hc _ ih =>
      have hwalk := ih hr hw
      rw [← Limit.spend_extend] at hwalk
      exact .contract (Limit.allows_extend h k) hc hwalk
  | @inside _ frame _ s frames hroot hpassed _ ih =>
      -- the new walk may descend to the child, or find it normal already
      have hchild := walks_walk ⟨k⟩ (fill frames s)
      obtain ⟨_, hw'⟩ := Walks.after_child hw hpassed hr.1 hchild
      exact .through hroot hpassed (ih hr.2 hchild) hw'
  | again frame hroot hpassed ht hs ih =>
      exact .through hroot hpassed
        (ht.extend hs.allows k) (ih hr hw)

/-! ## Being overtaken -/

/-- Granted one step more, a walk that stopped in a term that is not normal
contracts something in it. -/
theorem RunsOut.goes_on_here (h : RunsOut limit t frames s)
    (hrest : ¬ (fill frames s).Normal) :
    ∃ left v, left.allows = false ∧ Walks (limit.extend 1) t left v true ∧
      Term.Step (fill frames s) v := by
  obtain ⟨left, hleft, hw⟩ := h.walks
  rcases hw.extend_one with hmore | ⟨-, v, hmore, hstep⟩
  · have hnonneg := hw.left_nonneg (Limit.allows_iff.1 h.allows).le
    refine absurd (hmore.normal ?_) hrest
    rw [Limit.allows_iff, Limit.remaining_extend]
    omega
  · exact ⟨left, v, hleft, hmore, hstep⟩

/-- The same of any term around the place, everything around that term staying
as it is. -/
theorem RunsOut.goes_on (h : RunsOut limit t frames s)
    {outer inner : List Frame} (hframes : frames = outer ++ inner)
    (hrest : ¬ (fill inner s).Normal) :
    ∃ left v, left.allows = false ∧
      Walks (limit.extend 1) t left (fill outer v) true ∧
      Term.Step (fill inner s) v := by
  induction h generalizing outer with
  | last h hspent hc =>
      obtain ⟨rfl, rfl⟩ := List.append_eq_nil_iff.1 hframes.symm
      exact (RunsOut.last h hspent hc).goes_on_here hrest
  | contract h hc _ ih =>
      obtain ⟨left, v, hleft, hw, hstep⟩ := ih hframes hrest
      rw [← Limit.spend_extend] at hw
      exact ⟨left, v, hleft, .contract (Limit.allows_extend h 1) hc hw, hstep⟩
  | inside frame hroot hpassed hs ih =>
      cases outer with
      | nil =>
          subst hframes
          exact (RunsOut.inside frame hroot hpassed hs).goes_on_here hrest
      | cons next outer =>
          obtain ⟨rfl, rfl⟩ := List.cons.inj hframes
          obtain ⟨left, v, hleft, hw, hstep⟩ := ih rfl hrest
          exact ⟨left, v, hleft, .through hroot
            hpassed hw (.spent _ hleft), hstep⟩
  | again frame hroot hpassed ht hs ih =>
      obtain ⟨left, v, hleft, hw, hstep⟩ := ih hframes hrest
      exact ⟨left, v, hleft, .through hroot hpassed
        (ht.extend hs.allows 1) hw, hstep⟩

/-- A walk from the root comes to the term below these nodes before it contracts
anything. -/
def Reached : List Frame → Term → Prop
  | [], _ => True
  | frame :: frames, t =>
    ¬ (frame.wrap (fill frames t)).IsRedex ∧ frame.Passed ∧ Reached frames t

theorem Walks.from_root (hreached : Reached frames t)
    (ht : Walks limit t left u true) (hleft : left.allows = false) :
    Walks limit (fill frames t) left (fill frames u) true := by
  induction frames with
  | nil => exact ht
  | cons frame frames ih =>
      obtain ⟨hroot, hpassed, hreached⟩ := hreached
      exact .through hroot hpassed (ih hreached)
        (.spent _ hleft)

theorem resumable_of_normal (h : (fill frames s).Normal) :
    Resumable frames s := by
  induction frames with
  | nil => trivial
  | cons frame frames ih =>
      have hchild := Frame.normal_of_wrap h
      exact ⟨fun _ ↦ hchild, ih hchild⟩

/-- A place that work cannot be taken up at lies below an outermost redex whose
child is not done with. -/
theorem exists_reached_redex (hpassed : ∀ frame ∈ frames, frame.Passed)
    (h : ¬ Resumable frames s) :
    ∃ outer frame inner, frames = outer ++ frame :: inner ∧
      Reached outer (frame.wrap (fill inner s)) ∧
      (frame.wrap (fill inner s)).IsRedex ∧ ¬ (fill inner s).Normal := by
  induction frames with
  | nil => exact absurd trivial h
  | cons frame frames ih =>
      obtain ⟨hframe, hframes⟩ := List.forall_mem_cons.1 hpassed
      by_cases hroot : (frame.wrap (fill frames s)).IsRedex
      · refine ⟨[], frame, frames, rfl, trivial, hroot, fun hnormal ↦ ?_⟩
        exact h ⟨fun _ ↦ hnormal, resumable_of_normal hnormal⟩
      · obtain ⟨outer, frame', inner, rfl, hreached, hredex, hrest⟩ :=
          ih hframes fun hr ↦ h ⟨fun hredex ↦ absurd hredex hroot, hr⟩
        rw [fill_append, fill_cons] at hroot
        exact ⟨frame :: outer, frame', inner, rfl,
          ⟨hroot, hframe, hreached⟩, hredex, hrest⟩

namespace Reducer

/-- What a run that runs out of its limit leaves to the next one. -/
theorem reduce_of_runsOut {reducer : Reducer} {n : Nat}
    (h : RunsOut ⟨n⟩ reducer.term frames s) :
    (reducer.reduce ⟨n⟩).reducer = ⟨fill frames s, reducer.steps + n⟩ := by
  obtain ⟨left, hleft, hw⟩ := h.walks
  have hzero : left.remaining = 0 := by
    have := hw.left_nonneg (Int.natCast_nonneg n)
    rw [← Bool.not_eq_true, Limit.allows_iff] at hleft
    omega
  rw [reduce_of_walks hw, hzero, Int.sub_zero, Int.toNat_natCast]

/-- Where the work can be taken up, the next run goes on as if there had been
no break. -/
theorem reduce_resumed {reducer : Reducer} {n : Nat}
    (h : RunsOut ⟨n⟩ reducer.term frames s) (hr : Resumable frames s)
    (m : Nat) :
    ((reducer.reduce ⟨n⟩).reducer.reduce ⟨m⟩).reducer =
      (reducer.reduce ⟨n + m⟩).reducer := by
  have hnext := walks_walk ⟨m⟩ (fill frames s)
  have hwhole : reducer.reduce ⟨n + m⟩ = _ :=
    reduce_of_walks (h.resumes hr hnext)
  have hle := (walk ⟨m⟩ (fill frames s)).left_le
  dsimp only at hle
  rw [hwhole, reduce_of_runsOut h, reduce]
  refine congrArg (Reducer.mk _) ?_
  dsimp only
  omega

theorem reduce_resumed_of_left {reducer : Reducer} {n : Nat}
    (hleft : 0 < (reducer.reduce ⟨n⟩).limit.remaining) (m : Nat) :
    ((reducer.reduce ⟨n⟩).reducer.reduce ⟨m⟩).reducer =
      (reducer.reduce ⟨n + m⟩).reducer := by
  have hwhole : reducer.reduce ⟨n + m⟩ = _ :=
    reducer.reduce_extend ⟨n⟩ m hleft
  rw [hwhole, reduce_of_normal (normal_of_left hleft)]

theorem reduce_of_reached {reducer : Reducer} {c : Term}
    (hterm : reducer.term = fill frames t) (hreached : Reached frames t)
    (hc : Rule t c) :
    (reducer.reduce ⟨1⟩).reducer.term = fill frames c := by
  have hspent : (⟨1⟩ : Limit).spend.allows = false := rfl
  have hroot : Walks ⟨1⟩ t (⟨1⟩ : Limit).spend c true :=
    .contract rfl hc (.spent c hspent)
  have hw := hroot.from_root hreached hspent
  rw [← hterm] at hw
  rw [reduce_of_walks hw]

/-- Either a run and another one after it on the same reducer always come to
what a single run on both limits comes to, or the first run has stopped inside
a child of a node that is a redex by then.  In that case the second run begins
by contracting this node, and a single run goes on inside the child. -/
theorem resumes_or_is_overtaken (reducer : Reducer) (n : Nat) :
    (∀ m : Nat, ((reducer.reduce ⟨n⟩).reducer.reduce ⟨m⟩).reducer =
      (reducer.reduce ⟨n + m⟩).reducer) ∨
    ∃ (outer : List Frame) (frame : Frame) (child : Term),
      (reducer.reduce ⟨n⟩).reducer.term = fill outer (frame.wrap child) ∧
      (∃ c, Rule (frame.wrap child) c ∧
        ((reducer.reduce ⟨n⟩).reducer.reduce ⟨1⟩).reducer.term =
          fill outer c) ∧
      ∃ child', Term.Step child child' ∧
        (reducer.reduce ⟨n + 1⟩).reducer.term =
          fill outer (frame.wrap child') := by
  by_cases hleft : 0 < (reducer.reduce ⟨n⟩).limit.remaining
  · exact .inl (reduce_resumed_of_left hleft)
  by_cases hn : n = 0
  · subst hn
    refine .inl fun m ↦ ?_
    rw [reduce_of_spent reducer rfl, Int.natCast_zero, Int.zero_add]
  obtain ⟨frames, s, hout⟩ := (reducer.walks_reduce ⟨n⟩).exists_runsOut
    (Limit.allows_iff.2 (by dsimp only; omega))
    (Bool.eq_false_of_not_eq_true (mt Limit.allows_iff.1 hleft))
  by_cases hr : Resumable frames s
  · exact .inl (reduce_resumed hout hr)
  · obtain ⟨outer, frame, inner, rfl, hreached, ⟨c, hc⟩, hrest⟩ :=
      exists_reached_redex hout.passed hr
    have hterm : (reducer.reduce ⟨n⟩).reducer.term =
        fill outer (frame.wrap (fill inner s)) := by
      rw [reduce_of_runsOut hout, fill_append, fill_cons]
    rw [List.append_cons] at hout
    obtain ⟨left, v, -, hw, hstep⟩ := hout.goes_on rfl hrest
    have hmore : reducer.reduce ⟨n + 1⟩ = _ := reduce_of_walks hw
    refine .inr ⟨outer, frame, fill inner s, hterm,
      ⟨c, hc, reduce_of_reached hterm hreached hc⟩, v, hstep, ?_⟩
    rw [hmore, fill_append, fill_cons, fill_nil]

theorem deferred_in_two_runs :
    (((ofTerm deferred).reduce ⟨1⟩).reducer.reduce ⟨4⟩).reducer =
      ⟨.lam "b" (.var 0), 3⟩ := by
  cbv

theorem deferred_in_one_run :
    ((ofTerm deferred).reduce ⟨5⟩).reducer =
      ⟨.app pending (.lam "a" (.lam "b" (.var 0))), 5⟩ := by
  cbv

/-- The second run contracts the application at the root, which a single run
does not come back to. -/
theorem two_runs_are_not_one :
    ¬ ∀ (t : Term) (n m : Nat),
      (((ofTerm t).reduce ⟨n⟩).reducer.reduce ⟨m⟩).reducer =
        ((ofTerm t).reduce ⟨n + m⟩).reducer := by
  intro h
  have hboth := h deferred 1 4
  rw [show ((1 : Nat) : Int) + (4 : Nat) = 5 from rfl, deferred_in_one_run]
    at hboth
  have hsteps := congrArg Reducer.steps
    (deferred_in_two_runs.symm.trans hboth)
  cases hsteps

end Reducer
end Nameless.Reduction
