import Nameless.Proofs.Reduction.Reducer
import Nameless.Proofs.Term.Parallel

/-!
# The normal form does not depend on the order of contraction

Two sequences of contractions out of one term can be continued to terms that
differ in names at most.  Where both end in normal terms, those are already
alike, so a budget may be spent in one run or in many.
-/

namespace Nameless

open Relation (ReflTransGen)

namespace Term

theorem parallel_of_steps {t u : Term} (h : ReflTransGen Step t u) :
    ReflTransGen Parallel t u :=
  ReflTransGen.mono (fun _ _ ↦ Parallel.of_step) _ _ h

theorem steps_of_contractions {t u : Term}
    (h : ReflTransGen (Anywhere Contraction) t u) : ReflTransGen Step t u :=
  ReflTransGen.mono (fun _ _ ↦ anywhere_contraction_iff.1) _ _ h

theorem parallel_confluent {t u v : Term} (hu : ReflTransGen Parallel t u)
    (hv : ReflTransGen Parallel t v) :
    ∃ w, ReflTransGen Parallel u w ∧ ReflTransGen Parallel v w := by
  refine Relation.church_rosser ?_ hu hv
  intro a b c hab hac
  obtain ⟨d, hbd, hcd⟩ := hab.diamond hac
  exact ⟨d, .single hbd, .single hcd⟩

theorem alike_of_parallel_of_normal {t u : Term} (ht : t.Normal)
    (h : ReflTransGen Parallel t u) : t.alike u = true := by
  induction h with
  | refl => exact alike_refl t
  | tail _ hstep ih =>
      exact alike_trans ih (hstep.alike_of_normal (ht.of_alike ih))

theorem alike_of_steps_of_normal {t u v : Term} (hu : ReflTransGen Step t u)
    (hv : ReflTransGen Step t v) (hun : u.Normal) (hvn : v.Normal) :
    u.alike v = true := by
  obtain ⟨w, huw, hvw⟩ :=
    parallel_confluent (parallel_of_steps hu) (parallel_of_steps hv)
  exact alike_trans (alike_of_parallel_of_normal hun huw)
    (alike_symm (alike_of_parallel_of_normal hvn hvw))

end Term

namespace Reduction.Reducer

theorem reaches_reduce (reducer : Reducer) (limit : Limit) :
    ReflTransGen Term.Step reducer.term
      (reducer.reduce limit).reducer.term := by
  obtain ⟨n, hn, -, -⟩ := (reducer.walks_reduce limit).exists_steps
  exact hn.reflTransGen

/-- Every run in a row of runs goes on from a reduct of the first term. -/
theorem exists_of_mem_runs {reducer : Reducer} {limits : List Limit}
    {run : Run} (h : run ∈ reducer.runs limits) :
    ∃ (later : Reducer) (limit : Limit), run = later.reduce limit ∧
      ReflTransGen Term.Step reducer.term later.term := by
  induction limits generalizing reducer with
  | nil => cases h
  | cons limit limits ih =>
      rcases List.mem_cons.1 h with rfl | h
      · exact ⟨reducer, limit, rfl, .refl⟩
      · obtain ⟨later, limit', rfl, hlater⟩ := ih h
        exact ⟨later, limit', rfl, (reducer.reaches_reduce limit).trans hlater⟩

/-- Normal terms that contractions reach from `t` in any order are alike, and
so are the terms of all runs that leave budget over, on whatever limits the
runs before them were spent. -/
theorem normal_forms_alike (t : Term) :
    (∀ u v, ReflTransGen (Term.Anywhere Term.Contraction) t u →
      ReflTransGen (Term.Anywhere Term.Contraction) t v →
      u.Normal → v.Normal → u.alike v = true) ∧
    ∀ limits limit, ∀ run ∈ (ofTerm t).runs limits,
      0 < run.limit.remaining →
      0 < ((ofTerm t).reduce limit).limit.remaining →
      run.reducer.term.alike ((ofTerm t).reduce limit).reducer.term = true := by
  constructor
  · intro u v hu hv hun hvn
    exact Term.alike_of_steps_of_normal (Term.steps_of_contractions hu)
      (Term.steps_of_contractions hv) hun hvn
  · intro limits limit run hrun hleft hsingle
    obtain ⟨later, limit', rfl, hlater⟩ := exists_of_mem_runs hrun
    exact Term.alike_of_steps_of_normal
      (hlater.trans (later.reaches_reduce limit'))
      ((ofTerm t).reaches_reduce limit)
      (normal_of_left hleft) (normal_of_left hsingle)

theorem overlap_beta :
    Term.Anywhere Term.Contraction overlap (.lam "z" (.var 0)) :=
  .body "z" (.here (.beta (by cbv)))

theorem overlap_eta :
    Term.Anywhere Term.Contraction overlap (.lam "w" (.var 0)) :=
  .here (.eta (by cbv))

theorem normal_lam_var_zero (param : String) :
    (Term.lam param (.var 0)).Normal := by
  refine Term.normal_lam_iff.2 ⟨?_, Term.normal_var 0⟩
  rw [Term.not_isRedex_lam_iff]
  rfl

theorem normal_forms_alike_overlap_delayed :
    (Term.lam "z" (.var 0)).alike (.lam "w" (.var 0)) = true ∧
    0 < (((ofTerm delayed).reduce ⟨1⟩).reducer.reduce ⟨5⟩).limit.remaining ∧
    0 < ((ofTerm delayed).reduce ⟨9⟩).limit.remaining ∧
    (((ofTerm delayed).reduce ⟨1⟩).reducer.reduce ⟨5⟩).reducer.term.alike
      ((ofTerm delayed).reduce ⟨9⟩).reducer.term = true := by
  have hsplit :
      0 < (((ofTerm delayed).reduce ⟨1⟩).reducer.reduce ⟨5⟩).limit.remaining := by
    cbv
  have hsingle : 0 < ((ofTerm delayed).reduce ⟨9⟩).limit.remaining := by
    cbv
  refine ⟨?_, hsplit, hsingle, ?_⟩
  · exact (normal_forms_alike overlap).1 _ _ (.single overlap_beta)
      (.single overlap_eta) (normal_lam_var_zero "z") (normal_lam_var_zero "w")
  · exact (normal_forms_alike delayed).2 [⟨1⟩, ⟨5⟩] ⟨9⟩ _
      (by simp [runs]) hsplit hsingle

end Reduction.Reducer
end Nameless
