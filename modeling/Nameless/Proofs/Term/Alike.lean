import Nameless.Proofs.Term.Step

/-!
# Terms that differ only in names

Such terms have the same shape and the same indices, so what is a redex in one
is a redex in the other.
-/

namespace Nameless.Term

theorem alike_var_iff {k : Int} {u : Term} :
    (var k).alike u = true ↔ u = var k := by
  cases u with
  | var j =>
      rw [alike, beq_iff_eq, var.injEq]
      exact eq_comm
  | app fn arg => simp [alike]
  | lam param body => simp [alike]

theorem alike_app_iff {fn arg u : Term} :
    (app fn arg).alike u = true ↔
      ∃ fn' arg', u = app fn' arg' ∧
        fn.alike fn' = true ∧ arg.alike arg' = true := by
  cases u with
  | var j => simp [alike]
  | app fn' arg' => simp [alike]
  | lam param body => simp [alike]

theorem alike_lam_iff {param : String} {body u : Term} :
    (lam param body).alike u = true ↔
      ∃ param' body', u = lam param' body' ∧ body.alike body' = true := by
  cases u with
  | var j => simp [alike]
  | app fn' arg' => simp [alike]
  | lam param' body' => simp [alike]

theorem alike_symm {t u : Term} (h : t.alike u = true) :
    u.alike t = true := by
  induction t generalizing u with
  | var k =>
      rw [alike_var_iff.1 h]
      exact alike_refl _
  | app fn arg ihFn ihArg =>
      obtain ⟨fn', arg', rfl, hfn, harg⟩ := alike_app_iff.1 h
      exact alike_app_iff.2 ⟨fn, arg, rfl, ihFn hfn, ihArg harg⟩
  | lam param body ih =>
      obtain ⟨param', body', rfl, hbody⟩ := alike_lam_iff.1 h
      exact alike_lam_iff.2 ⟨param, body, rfl, ih hbody⟩

theorem alike_trans {t u v : Term} (h : t.alike u = true)
    (h' : u.alike v = true) : t.alike v = true := by
  induction t generalizing u v with
  | var k =>
      obtain rfl := alike_var_iff.1 h
      exact h'
  | app fn arg ihFn ihArg =>
      obtain ⟨fn', arg', rfl, hfn, harg⟩ := alike_app_iff.1 h
      obtain ⟨fn'', arg'', rfl, hfn', harg'⟩ := alike_app_iff.1 h'
      exact alike_app_iff.2 ⟨fn'', arg'', rfl, ihFn hfn hfn', ihArg harg harg'⟩
  | lam param body ih =>
      obtain ⟨param', body', rfl, hbody⟩ := alike_lam_iff.1 h
      obtain ⟨param'', body'', rfl, hbody'⟩ := alike_lam_iff.1 h'
      exact alike_lam_iff.2 ⟨param'', body'', rfl, ih hbody hbody'⟩

theorem exists_shift_of_alike {start count : Int} {t u : Term}
    (h : (t.shift start count).alike u = true) :
    ∃ u' : Term, u = u'.shift start count ∧ t.alike u' = true := by
  induction t generalizing start u with
  | var k =>
      rw [shift_var, alike_var_iff] at h
      exact ⟨var k, h, alike_refl _⟩
  | app fn arg ihFn ihArg =>
      obtain ⟨fn', arg', rfl, hfn, harg⟩ := alike_app_iff.1 h
      obtain ⟨f, rfl, hf⟩ := ihFn hfn
      obtain ⟨a, rfl, ha⟩ := ihArg harg
      exact ⟨app f a, rfl, alike_app_iff.2 ⟨f, a, rfl, hf, ha⟩⟩
  | lam param body ih =>
      obtain ⟨param', body', rfl, hbody⟩ := alike_lam_iff.1 h
      obtain ⟨b, rfl, hb⟩ := ih hbody
      exact ⟨lam param' b, rfl, alike_lam_iff.2 ⟨param', b, rfl, hb⟩⟩

theorem alike_shift {t u : Term} (h : t.alike u = true) (start count : Int) :
    (t.shift start count).alike (u.shift start count) = true := by
  induction t generalizing start u with
  | var k =>
      obtain rfl := alike_var_iff.1 h
      exact alike_refl _
  | app fn arg ihFn ihArg =>
      obtain ⟨fn', arg', rfl, hfn, harg⟩ := alike_app_iff.1 h
      exact alike_app_iff.2 ⟨_, _, rfl, ihFn hfn start, ihArg harg start⟩
  | lam param body ih =>
      obtain ⟨param', body', rfl, hbody⟩ := alike_lam_iff.1 h
      exact alike_lam_iff.2 ⟨param', _, rfl, ih hbody (start + 1)⟩

theorem alike_instantiate {t u v w : Term} (h : t.alike u = true)
    (hvalue : v.alike w = true) (idx : Int) :
    (t.instantiate idx v).alike (u.instantiate idx w) = true := by
  induction t generalizing idx u with
  | var k =>
      obtain rfl := alike_var_iff.1 h
      rcases lt_trichotomy k idx with hk | rfl | hk
      · rw [instantiate_var_lt hk, instantiate_var_lt hk]
        exact alike_refl _
      · rw [instantiate_var_self, instantiate_var_self]
        exact alike_shift hvalue 0 k
      · rw [instantiate_var_gt hk, instantiate_var_gt hk]
        exact alike_refl _
  | app fn arg ihFn ihArg =>
      obtain ⟨fn', arg', rfl, hfn, harg⟩ := alike_app_iff.1 h
      exact alike_app_iff.2 ⟨_, _, rfl, ihFn hfn idx, ihArg harg idx⟩
  | lam param body ih =>
      obtain ⟨param', body', rfl, hbody⟩ := alike_lam_iff.1 h
      rw [instantiate_lam, instantiate_lam]
      exact alike_lam_iff.2 ⟨param', _, rfl, ih hbody (idx + 1)⟩

/-- What one of two such terms contracts to at its root, the other contracts to
up to names. -/
theorem Rule.exists_of_alike {t t' u : Term} (hu : Rule t u)
    (h : t.alike t' = true) : ∃ u', Rule t' u' ∧ u.alike u' = true := by
  cases hu with
  | beta param body arg =>
      obtain ⟨fn', arg', rfl, hfn, harg⟩ := alike_app_iff.1 h
      obtain ⟨param', body', rfl, hbody⟩ := alike_lam_iff.1 hfn
      exact ⟨_, .beta param' body' arg', alike_instantiate hbody harg 0⟩
  | eta param fn =>
      obtain ⟨param', body', rfl, hbody⟩ := alike_lam_iff.1 h
      obtain ⟨fn', arg', rfl, hfn, harg⟩ := alike_app_iff.1 hbody
      obtain rfl := alike_var_iff.1 harg
      rw [raise_eq_shift] at hfn
      obtain ⟨core, rfl, hcore⟩ := exists_shift_of_alike hfn
      rw [← raise_eq_shift]
      exact ⟨core, .eta param' core, hcore⟩

theorem IsRedex.of_alike {t u : Term} (ht : t.IsRedex)
    (h : t.alike u = true) : u.IsRedex := by
  obtain ⟨v, hv⟩ := ht
  obtain ⟨v', hv', -⟩ := hv.exists_of_alike h
  exact ⟨v', hv'⟩

theorem Normal.of_alike {t u : Term} (ht : t.Normal)
    (h : t.alike u = true) : u.Normal := by
  induction t generalizing u with
  | var k =>
      obtain rfl := alike_var_iff.1 h
      exact ht
  | app fn arg ihFn ihArg =>
      obtain ⟨hroot, hfn, harg⟩ := normal_app_iff.1 ht
      have hroot' : ¬ u.IsRedex := fun hu ↦ hroot (hu.of_alike (alike_symm h))
      obtain ⟨fn', arg', rfl, hfn', harg'⟩ := alike_app_iff.1 h
      exact normal_app_iff.2 ⟨hroot', ihFn hfn hfn', ihArg harg harg'⟩
  | lam param body ih =>
      obtain ⟨hroot, hbody⟩ := normal_lam_iff.1 ht
      have hroot' : ¬ u.IsRedex := fun hu ↦ hroot (hu.of_alike (alike_symm h))
      obtain ⟨param', body', rfl, hbody'⟩ := alike_lam_iff.1 h
      exact normal_lam_iff.2 ⟨hroot', ih hbody hbody'⟩

end Nameless.Term
