import Nameless.Proofs.Term.Occurrences
import Nameless.Proofs.Term.Step

/-!
# Scope

A term is scoped below `depth` binders if every index in it finds its binder.
Contraction cannot bring in an index or a parameter name: what occurs in a
reduct occurred before, so a scoped term stays scoped.
-/

namespace Nameless.Term

open Relation (ReflTransGen)

/-- The names of the abstractions in a term. -/
def params : Term → List String
  | var _ => []
  | app fn arg => fn.params ++ arg.params
  | lam param body => param :: body.params

@[simp] theorem params_var (k : Int) : (var k).params = [] := rfl

@[simp] theorem params_app (fn arg : Term) :
    (app fn arg).params = fn.params ++ arg.params := rfl

@[simp] theorem params_lam (param : String) (body : Term) :
    (lam param body).params = param :: body.params := rfl

/-- No index is negative. -/
def Natural : Term → Prop
  | var k => 0 ≤ k
  | app fn arg => fn.Natural ∧ arg.Natural
  | lam _ body => body.Natural

instance decidableNatural : (t : Term) → Decidable t.Natural
  | var k => inferInstanceAs (Decidable (0 ≤ k))
  | app fn arg =>
    have := decidableNatural fn
    have := decidableNatural arg
    inferInstanceAs (Decidable (_ ∧ _))
  | lam _ body => decidableNatural body

/-- Every index is one of the binders around it, of which there are `depth`
outside the term. -/
def Scoped (depth : Nat) : Term → Prop
  | var k => 0 ≤ k ∧ k < depth
  | app fn arg => fn.Scoped depth ∧ arg.Scoped depth
  | lam _ body => body.Scoped (depth + 1)

instance decidableScoped (depth : Nat) : (t : Term) → Decidable (t.Scoped depth)
  | var _ => inferInstanceAs (Decidable (_ ∧ _))
  | app fn arg =>
    have := decidableScoped depth fn
    have := decidableScoped depth arg
    inferInstanceAs (Decidable (_ ∧ _))
  | lam _ body => decidableScoped (depth + 1) body

theorem scoped_iff {depth : Nat} {t : Term} :
    t.Scoped depth ↔
      t.Natural ∧ ∀ i : Nat, 0 < t.occurrences i → i < depth := by
  induction t generalizing depth with
  | var k =>
      constructor
      · rintro ⟨hk, hlt⟩
        refine ⟨hk, fun i hi ↦ ?_⟩
        by_cases hki : k = i
        · omega
        · rw [occurrences_var_of_ne hki] at hi
          omega
      · rintro ⟨hk, hfree⟩
        obtain ⟨i, rfl⟩ := Int.eq_ofNat_of_zero_le hk
        have hi := hfree i (by rw [occurrences_var_self]; exact Nat.one_pos)
        exact ⟨hk, Int.ofNat_lt.2 hi⟩
  | app fn arg ihFn ihArg =>
      rw [Scoped, ihFn, ihArg]
      constructor
      · rintro ⟨⟨hfn, hfnFree⟩, harg, hargFree⟩
        refine ⟨⟨hfn, harg⟩, fun i hi ↦ ?_⟩
        rcases Nat.add_pos_iff_pos_or_pos.1 hi with hi | hi
        · exact hfnFree i hi
        · exact hargFree i hi
      · rintro ⟨⟨hfn, harg⟩, hfree⟩
        exact ⟨⟨hfn, fun i hi ↦ hfree i (Nat.add_pos_left hi _)⟩, harg,
          fun i hi ↦ hfree i (Nat.add_pos_right _ hi)⟩
  | lam param body ih =>
      rw [Scoped, ih]
      constructor
      · rintro ⟨hbody, hfree⟩
        exact ⟨hbody, fun i hi ↦ Nat.lt_of_succ_lt_succ (hfree (i + 1) hi)⟩
      · rintro ⟨hbody, hfree⟩
        refine ⟨hbody, fun i hi ↦ ?_⟩
        cases i with
        | zero => exact Nat.succ_pos _
        | succ i => exact Nat.succ_lt_succ (hfree i hi)

/-! ## What stays within a term -/

/-- What `u` refers to and what it names, `t` refers to and names as well. -/
structure Within (u t : Term) : Prop where
  natural : t.Natural → u.Natural
  free : ∀ i : Nat, 0 < u.occurrences i → 0 < t.occurrences i
  params : u.params ⊆ t.params

namespace Within

theorem refl (t : Term) : Within t t :=
  ⟨id, fun _ ↦ id, List.Subset.refl _⟩

theorem trans {t u v : Term} (h : Within v u) (h' : Within u t) :
    Within v t :=
  ⟨fun ht ↦ h.natural (h'.natural ht), fun i hi ↦ h'.free i (h.free i hi),
    List.Subset.trans h.params h'.params⟩

theorem app {fn fn' arg arg' : Term} (hfn : Within fn' fn)
    (harg : Within arg' arg) : Within (app fn' arg') (app fn arg) where
  natural h := ⟨hfn.natural h.1, harg.natural h.2⟩
  free i hi := by
    rcases Nat.add_pos_iff_pos_or_pos.1 hi with hi | hi
    · exact Nat.add_pos_left (hfn.free i hi) _
    · exact Nat.add_pos_right _ (harg.free i hi)
  params := by
    rw [params_app, params_app]
    exact List.append_subset.2
      ⟨List.Subset.trans hfn.params (List.subset_append_left _ _),
        List.Subset.trans harg.params (List.subset_append_right _ _)⟩

theorem lam (param : String) {body body' : Term} (h : Within body' body) :
    Within (lam param body') (lam param body) where
  natural := h.natural
  free i hi := h.free (i + 1) hi
  params := List.cons_subset_cons param h.params

end Within

theorem Scoped.of_within {t u : Term} {depth : Nat} (ht : t.Scoped depth)
    (h : Within u t) : u.Scoped depth := by
  rw [scoped_iff] at ht ⊢
  exact ⟨h.natural ht.1, fun i hi ↦ ht.2 i (h.free i hi)⟩

theorem natural_shift_iff {start count : Int} (hstart : 0 ≤ start)
    (hcount : 0 ≤ count) {t : Term} :
    (t.shift start count).Natural ↔ t.Natural := by
  induction t generalizing start with
  | var k =>
      rcases lt_or_ge k start with hk | hk
      · rw [shift_var_lt hk]
      · rw [shift_var_ge hk, Natural, Natural]
        omega
  | app fn arg ihFn ihArg =>
      rw [shift_app, Natural, Natural, ihFn hstart, ihArg hstart]
  | lam param body ih => rw [shift_lam, Natural, Natural, ih (by omega)]

theorem Natural.instantiate {t value : Term} (ht : t.Natural)
    (hvalue : value.Natural) {idx : Int} (hidx : 0 ≤ idx) :
    (t.instantiate idx value).Natural := by
  induction t generalizing idx with
  | var k =>
      rcases lt_trichotomy k idx with hk | rfl | hk
      · rwa [instantiate_var_lt hk]
      · rw [instantiate_var_self]
        exact (natural_shift_iff (Int.le_refl 0) hidx).2 hvalue
      · rw [instantiate_var_gt hk, Natural]
        omega
  | app fn arg ihFn ihArg =>
      rw [instantiate_app]
      exact ⟨ihFn ht.1 hidx, ihArg ht.2 hidx⟩
  | lam param body ih =>
      rw [instantiate_lam]
      exact ih ht (by omega)

@[simp] theorem params_shift (start count : Int) (t : Term) :
    (t.shift start count).params = t.params := by
  induction t generalizing start with
  | var k => rw [shift_var, params_var, params_var]
  | app fn arg ihFn ihArg =>
      rw [shift_app, params_app, params_app, ihFn, ihArg]
  | lam param body ih => rw [shift_lam, params_lam, params_lam, ih]

theorem params_instantiate_subset (idx : Int) (t value : Term) :
    (t.instantiate idx value).params ⊆ t.params ++ value.params := by
  induction t generalizing idx with
  | var k =>
      rcases lt_trichotomy k idx with hk | rfl | hk
      · rw [instantiate_var_lt hk]
        exact List.nil_subset _
      · rw [instantiate_var_self, params_shift]
        exact List.subset_append_right _ _
      · rw [instantiate_var_gt hk]
        exact List.nil_subset _
  | app fn arg ihFn ihArg =>
      rw [instantiate_app, params_app, params_app]
      intro x hx
      rcases List.mem_append.1 hx with hx | hx
      · have := ihFn idx hx
        simp only [List.mem_append] at this ⊢
        tauto
      · have := ihArg idx hx
        simp only [List.mem_append] at this ⊢
        tauto
  | lam param body ih =>
      rw [instantiate_lam, params_lam, params_lam]
      exact List.cons_subset_cons param (ih (idx + 1))

theorem Within.of_rule {t u : Term} (h : Rule t u) : Within u t := by
  cases h with
  | beta param body arg =>
      constructor
      · rintro ⟨hbody, harg⟩
        exact Natural.instantiate (t := body) hbody harg (Int.le_refl 0)
      · intro i hi
        rw [occurrences_instantiate (Int.le_refl 0) (Int.natCast_nonneg i),
          Int.sub_zero] at hi
        rw [occurrences_app, occurrences_lam]
        rcases Nat.add_pos_iff_pos_or_pos.1 hi with hi | hi
        · exact Nat.add_pos_left hi _
        · exact Nat.add_pos_right _ (Nat.pos_of_mul_pos_left hi)
      · exact List.Subset.trans (params_instantiate_subset 0 body arg)
          (List.subset_cons_self _ _)
  | eta param fn =>
      rw [raise_eq_shift]
      constructor
      · rintro ⟨hfn, -⟩
        exact (natural_shift_iff (Int.le_refl 0) (by omega)).1 hfn
      · intro i hi
        rw [occurrences_lam, occurrences_app, occurrences_shift_add (by omega)
          (Int.natCast_nonneg i)]
        exact Nat.add_pos_left hi _
      · rw [params_lam, params_app, params_shift, params_var, List.append_nil]
        exact List.subset_cons_self _ _

theorem Within.of_step {t u : Term} (h : Step t u) : Within u t := by
  induction h with
  | here h => exact .of_rule h
  | fn arg _ ih => exact ih.app (.refl arg)
  | arg fn _ ih => exact (Within.refl fn).app ih
  | body param _ ih => exact ih.lam param

theorem Within.of_steps {t u : Term} (h : ReflTransGen Step t u) :
    Within u t := by
  induction h with
  | refl => exact .refl t
  | tail _ hstep ih => exact (Within.of_step hstep).trans ih

end Nameless.Term
