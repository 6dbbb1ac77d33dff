import Nameless.Proofs.Reduction.Frame
import Nameless.Proofs.Reduction.Reducer
import Nameless.Proofs.Term.Alike

/-!
# Terms that are reduced alike

Whether a node is a redex does not depend on the names of parameters, nor on
how many binders there are around the whole term.  A walk therefore takes the
same way through a term that was carried below further binders, and through a
term with other names: it makes its contractions at the same places, and what
it leaves is related as what it set out from.
-/

namespace Nameless.Reduction

open Term (Rule)

/-- A relation of terms, told how many binders lie above them, that has the same
nodes and the same redexes on both sides and is kept by contraction. -/
structure Mirrors (R : Nat → Term → Term → Prop) : Prop where
  var {depth : Nat} {k : Int} {t : Term} :
    R depth (.var k) t → ∃ j, t = .var j
  app {depth : Nat} {fn arg t : Term} :
    R depth (.app fn arg) t → ∃ fn' arg', t = .app fn' arg' ∧
      R depth fn fn' ∧ R depth arg arg'
  lam {depth : Nat} {param : String} {body t : Term} :
    R depth (.lam param body) t → ∃ param' body', t = .lam param' body' ∧
      R (depth + 1) body body' ∧
      ∀ {b b'}, R (depth + 1) b b' → R depth (.lam param b) (.lam param' b')
  join {depth : Nat} {fn fn' arg arg' : Term} :
    R depth fn fn' → R depth arg arg' → R depth (.app fn arg) (.app fn' arg')
  rule {depth : Nat} {t t' u : Term} :
    R depth t t' → Rule t u → ∃ u', Rule t' u' ∧ R depth u u'
  redex {depth : Nat} {t t' : Term} :
    R depth t t' → t'.IsRedex → t.IsRedex

theorem Mirrors.walks {R : Nat → Term → Term → Prop} (hR : Mirrors R)
    {limit left : Limit} {t t' u : Term} {progressed : Bool} {depth : Nat}
    (h : Walks limit t left u progressed) (ht : R depth t t') :
    ∃ u', Walks limit t' left u' progressed ∧ R depth u u' := by
  induction h generalizing depth t' with
  | spent t h => exact ⟨t', .spent t' h, ht⟩
  | var k h =>
      obtain ⟨j, rfl⟩ := hR.var ht
      exact ⟨.var j, .var j h, ht⟩
  | contract h hc hw ih =>
      obtain ⟨c', hc', hcc'⟩ := hR.rule ht hc
      obtain ⟨u', hw', hu⟩ := ih hcc'
      exact ⟨u', .contract h hc' hw', hu⟩
  | fn h hroot hfn hw ihFn ih =>
      have hroot' := mt (hR.redex ht) hroot
      obtain ⟨_, _, rfl, hfnR, hargR⟩ := hR.app ht
      obtain ⟨_, hfn', hfnR'⟩ := ihFn hfnR
      obtain ⟨u', hw', hu⟩ := ih (hR.join hfnR' hargR)
      exact ⟨u', .fn h hroot' hfn' hw', hu⟩
  | arg h hroot hfn harg hw ihFn ihArg ih =>
      have hroot' := mt (hR.redex ht) hroot
      obtain ⟨_, _, rfl, hfnR, hargR⟩ := hR.app ht
      obtain ⟨_, hfn', hfnR'⟩ := ihFn hfnR
      obtain ⟨_, harg', hargR'⟩ := ihArg hargR
      obtain ⟨u', hw', hu⟩ := ih (hR.join hfnR' hargR')
      exact ⟨u', .arg h hroot' hfn' harg' hw', hu⟩
  | app h hroot hfn harg ihFn ihArg =>
      have hroot' := mt (hR.redex ht) hroot
      obtain ⟨_, _, rfl, hfnR, hargR⟩ := hR.app ht
      obtain ⟨_, hfn', hfnR'⟩ := ihFn hfnR
      obtain ⟨_, harg', hargR'⟩ := ihArg hargR
      exact ⟨_, .app h hroot' hfn' harg', hR.join hfnR' hargR'⟩
  | body h hroot hbody hw ihBody ih =>
      have hroot' := mt (hR.redex ht) hroot
      obtain ⟨_, _, rfl, hbodyR, hlam⟩ := hR.lam ht
      obtain ⟨_, hbody', hbodyR'⟩ := ihBody hbodyR
      obtain ⟨u', hw', hu⟩ := ih (hlam hbodyR')
      exact ⟨u', .body h hroot' hbody' hw', hu⟩
  | lam h hroot hbody ihBody =>
      have hroot' := mt (hR.redex ht) hroot
      obtain ⟨_, _, rfl, hbodyR, hlam⟩ := hR.lam ht
      obtain ⟨_, hbody', hbodyR'⟩ := ihBody hbodyR
      exact ⟨_, .lam h hroot' hbody', hlam hbodyR'⟩

/-- Two runs that do the same up to how their terms are related. -/
structure Run.Matches (R : Term → Term → Prop) (run run' : Run) : Prop where
  term : R run.reducer.term run'.reducer.term
  steps : run'.reducer.steps = run.reducer.steps
  limit : run'.limit = run.limit
  progressed : run'.progressed = run.progressed

/-- A run that matches another by a function of its term is settled by it. -/
theorem Run.Matches.eq {f : Term → Term} {run run' : Run}
    (h : run.Matches (fun t t' ↦ t' = f t) run') :
    run' =
      ⟨⟨f run.reducer.term, run.reducer.steps⟩, run.limit,
        run.progressed⟩ := by
  obtain ⟨⟨term, steps⟩, left, progressed⟩ := run'
  obtain ⟨rfl, rfl, rfl, rfl⟩ := h
  rfl

namespace Mirrors

variable {R : Nat → Term → Term → Prop} {reducer reducer' : Reducer}

theorem reduce (hR : Mirrors R) (depth : Nat)
    (hterm : R depth reducer.term reducer'.term)
    (hsteps : reducer'.steps = reducer.steps) (limit : Limit) :
    (reducer.reduce limit).Matches (R depth) (reducer'.reduce limit) := by
  obtain ⟨u', hw', hu⟩ := hR.walks (reducer.walks_reduce limit) hterm
  obtain ⟨hleft, hu', hprogress⟩ := (reducer'.walks_reduce limit).unique hw'
  constructor
  · rwa [hu']
  · rw [Reducer.steps_reduce, Reducer.steps_reduce, hleft, hsteps]
  · exact hleft
  · exact hprogress

theorem runs (hR : Mirrors R) (depth : Nat)
    (hterm : R depth reducer.term reducer'.term)
    (hsteps : reducer'.steps = reducer.steps) (limits : List Limit) :
    List.Forall₂ (Run.Matches (R depth)) (reducer.runs limits)
      (reducer'.runs limits) := by
  induction limits generalizing reducer reducer' with
  | nil => exact .nil
  | cons limit limits ih =>
      have hrun := hR.reduce depth hterm hsteps limit
      exact .cons hrun (ih hrun.term hrun.steps)

end Mirrors

/-! ## Below further binders -/

theorem mirrors_shift (count : Nat) :
    Mirrors fun depth t t' ↦ t' = t.shift depth count where
  var h := ⟨_, h⟩
  app h := ⟨_, _, h, rfl, rfl⟩
  lam {depth param body t} h := by
    refine ⟨param, body.shift (depth + 1) count, h, rfl, ?_⟩
    rintro b b' rfl
    rfl
  join := by
    rintro depth fn _ arg _ rfl rfl
    rfl
  rule := by
    rintro depth t _ u rfl hu
    exact ⟨_, hu.shift (Int.natCast_nonneg depth) (Int.natCast_nonneg count),
      rfl⟩
  redex := by
    rintro depth t _ rfl h
    exact h.of_shift (Int.natCast_nonneg depth) (Int.natCast_nonneg count)

/-- A run of a term that was carried below further binders ends as the run of
the term itself, with what it leaves carried below those binders. -/
theorem Reducer.reduce_below_binders (reducer : Reducer) (start count : Nat)
    (limit : Limit) :
    Reducer.reduce ⟨reducer.term.shift start count, reducer.steps⟩ limit =
      ⟨⟨(reducer.reduce limit).reducer.term.shift start count,
          (reducer.reduce limit).reducer.steps⟩,
        (reducer.reduce limit).limit, (reducer.reduce limit).progressed⟩ := by
  have hrun : (reducer.reduce limit).Matches
      (fun t t' ↦ t' = t.shift start count)
      (Reducer.reduce ⟨reducer.term.shift start count, reducer.steps⟩ limit) :=
    (mirrors_shift count).reduce start (by rfl) (by rfl) limit
  exact hrun.eq

/-! ## Other names -/

theorem mirrors_alike : Mirrors fun _ t t' ↦ t.alike t' = true where
  var h := ⟨_, Term.alike_var_iff.1 h⟩
  app h := Term.alike_app_iff.1 h
  lam {_ _ _ t} h := by
    obtain ⟨param', body', rfl, hbody⟩ := Term.alike_lam_iff.1 h
    exact ⟨param', body', rfl, hbody,
      fun hb ↦ Term.alike_lam_iff.2 ⟨param', _, rfl, hb⟩⟩
  join hfn harg := Term.alike_app_iff.2 ⟨_, _, rfl, hfn, harg⟩
  rule h hu := hu.exists_of_alike h
  redex h hredex := hredex.of_alike (Term.alike_symm h)

namespace Reducer

/-- Runs of terms that differ in names only, on the same limits one after the
other, differ in the names of what they leave only. -/
theorem names_do_not_matter {t t' : Term} (h : t.alike t' = true)
    (limits : List Limit) :
    List.Forall₂ (Run.Matches fun u u' ↦ u.alike u' = true)
      ((ofTerm t).runs limits) ((ofTerm t').runs limits) :=
  mirrors_alike.runs 0 h (by rfl) limits

/-- `(λz.z) (λz.(λz.z) z) z`, which is `delayed` with all binders of one
name. -/
def shadowed : Term :=
  .app (.app (.lam "z" (.var 0)) (.lam "z" (.app (.lam "z" (.var 0)) (.var 0))))
    (.var 0)

theorem names_do_not_matter_shadowed :
    delayed.alike shadowed = true ∧
    List.Forall₂ (Run.Matches fun u u' ↦ u.alike u' = true)
      ((ofTerm delayed).runs [⟨1⟩, ⟨0⟩, ⟨9⟩])
      ((ofTerm shadowed).runs [⟨1⟩, ⟨0⟩, ⟨9⟩]) :=
  ⟨by decide, names_do_not_matter (by decide) _⟩

end Reducer

end Nameless.Reduction
