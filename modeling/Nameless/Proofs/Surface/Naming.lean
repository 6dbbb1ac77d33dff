import Mathlib.Data.List.Nodup
import Mathlib.Data.Nat.Find
import Nameless.Context
import Nameless.Surface.Token

/-!
# Names that read back

A name that a text can hold is a row of letters, digits and underscores.  In a
context of distinct such names every index has one name, and a fresh name
keeps the context like that: `Context.Readable.push_freshName`.
-/

namespace Nameless

def IsName (x : String) : Prop :=
  x.toList ≠ [] ∧ x.toList.all Surface.isNameChar = true

instance (x : String) : Decidable (IsName x) :=
  inferInstanceAs (Decidable (_ ∧ _))

theorem IsName.isNameChar {x : String} (h : IsName x) :
    ∀ c ∈ x.toList, Surface.isNameChar c = true :=
  List.all_eq_true.1 h.2

namespace Context

/-! ## Fresh names -/

theorem toList_candidate_succ (x : String) (n : Nat) :
    (candidate x (n + 1)).toList = x.toList ++ Nat.toDigits 10 (n + 1) := by
  rw [candidate, String.toList_append, Nat.toString_eq_ofList_toDigits,
    String.toList_ofList]

theorem toList_candidate_succ_ne (x : String) (n : Nat) :
    (candidate x (n + 1)).toList ≠ x.toList := by
  intro h
  rw [toList_candidate_succ] at h
  exact Nat.toDigits_ne_nil (List.append_right_eq_self.1 h)

theorem candidate_injective (x : String) :
    Function.Injective (candidate x) := by
  intro m n h
  have hlist := congrArg String.toList h
  cases m with
  | zero =>
      cases n with
      | zero => rfl
      | succ n => exact absurd hlist.symm (toList_candidate_succ_ne x n)
  | succ m =>
      cases n with
      | zero => exact absurd hlist (toList_candidate_succ_ne x m)
      | succ n =>
          rw [toList_candidate_succ, toList_candidate_succ] at hlist
          have hdigits := List.append_cancel_left hlist
          rw [← Nat.ofDigitChars_ten_toDigits (n := m + 1), hdigits,
            Nat.ofDigitChars_ten_toDigits]

theorem isName_candidate {x : String} (h : IsName x) (n : Nat) :
    IsName (candidate x n) := by
  cases n with
  | zero => exact h
  | succ n =>
      rw [IsName, toList_candidate_succ]
      refine ⟨List.append_ne_nil_of_left_ne_nil h.1 _,
        List.all_eq_true.2 fun c hc ↦ ?_⟩
      rcases List.mem_append.1 hc with hc | hc
      · exact h.isNameChar c hc
      · have hdigit := Nat.isDigit_of_mem_toDigits (by decide) (by decide) hc
        simp [Surface.isNameChar, Char.isAlphanum, hdigit]

/-- The candidates are distinct, so the bound names cannot be all of the first
`depth + 1`. -/
theorem exists_candidate_not_mem (ctx : Context) (x : String) :
    ∃ n < ctx.depth + 1, candidate x n ∉ ctx.names := by
  by_contra hnone
  have hsubset :
      (List.range (ctx.depth + 1)).map (candidate x) ⊆ ctx.names := by
    intro y hy
    obtain ⟨n, hn, rfl⟩ := List.mem_map.1 hy
    by_contra hfree
    exact hnone ⟨n, List.mem_range.1 hn, hfree⟩
  have hnodup : ((List.range (ctx.depth + 1)).map (candidate x)).Nodup :=
    List.nodup_range.map (candidate_injective x)
  have hlength := List.Nodup.length_le_of_subset hnodup hsubset
  rw [List.length_map, List.length_range] at hlength
  exact absurd hlength (Nat.not_succ_le_self _)

/-- A fresh name is the first candidate that is unbound. -/
theorem freshName_eq {ctx : Context} {x : String} {n : Nat}
    (hfree : candidate x n ∉ ctx.names)
    (hfirst : ∀ m < n, candidate x m ∈ ctx.names) :
    n ≤ ctx.depth ∧ ctx.freshName x = candidate x n := by
  obtain ⟨k, hk, hkfree⟩ := ctx.exists_candidate_not_mem x
  have hnk : n ≤ k := Nat.not_lt.1 fun hlt ↦ hkfree (hfirst k hlt)
  have hfind : (List.range (ctx.depth + 1)).find?
      ((fun y ↦ !ctx.contains y) ∘ candidate x) = some n := by
    refine List.find?_range_eq_some.2
      ⟨by simp [contains, hfree], List.mem_range.2 (by omega), fun m hm ↦ ?_⟩
    simp [contains, hfirst m hm]
  refine ⟨by omega, ?_⟩
  rw [freshName, List.find?_map, hfind]
  rfl

theorem exists_freshName (ctx : Context) (x : String) :
    ∃ n, ctx.freshName x = candidate x n ∧ candidate x n ∉ ctx.names ∧
      ∀ m < n, candidate x m ∈ ctx.names := by
  have hsome : ∃ n, candidate x n ∉ ctx.names := by
    obtain ⟨n, -, hfree⟩ := ctx.exists_candidate_not_mem x
    exact ⟨n, hfree⟩
  have hfirst : ∀ m < Nat.find hsome, candidate x m ∈ ctx.names :=
    fun m hm ↦ not_not.1 (Nat.find_min hsome hm)
  exact ⟨Nat.find hsome, (freshName_eq (Nat.find_spec hsome) hfirst).2,
    Nat.find_spec hsome, hfirst⟩

theorem freshName_not_mem (ctx : Context) (x : String) :
    ctx.freshName x ∉ ctx.names := by
  obtain ⟨n, hfresh, hfree, -⟩ := ctx.exists_freshName x
  rwa [hfresh]

theorem freshName_of_not_mem {ctx : Context} {x : String}
    (h : x ∉ ctx.names) : ctx.freshName x = x :=
  (freshName_eq (n := 0) h fun _ hm ↦ absurd hm (Nat.not_lt_zero _)).2

theorem nodup_push_freshName {ctx : Context} (h : ctx.names.Nodup)
    (x : String) : (ctx.push (ctx.freshName x)).names.Nodup :=
  List.nodup_cons.2 ⟨ctx.freshName_not_mem x, h⟩

/-! ## Names and indices -/

/-- A context of distinct names that a text can hold. -/
structure Readable (ctx : Context) : Prop where
  nodup : ctx.names.Nodup
  isName : ∀ x ∈ ctx.names, IsName x

theorem readable_root : root.Readable :=
  ⟨List.nodup_nil, fun _ h ↦ absurd h List.not_mem_nil⟩

theorem isName_freshName (ctx : Context) {x : String} (h : IsName x) :
    IsName (ctx.freshName x) := by
  obtain ⟨n, hfresh, -⟩ := ctx.exists_freshName x
  rw [hfresh]
  exact isName_candidate h n

theorem Readable.push_freshName {ctx : Context} (h : ctx.Readable)
    {x : String} (hx : IsName x) : (ctx.push (ctx.freshName x)).Readable where
  nodup := nodup_push_freshName h.nodup x
  isName := by
    rw [names_push]
    intro y hy
    rcases List.mem_cons.1 hy with rfl | hy
    · exact ctx.isName_freshName hx
    · exact h.isName y hy

/-- Where no name is bound twice, the name of an index leads back to it. -/
theorem exists_name_of_nodup {ctx : Context} (h : ctx.names.Nodup) {i : Nat}
    (hi : i < ctx.depth) :
    ∃ x ∈ ctx.names, ctx.nameAt i = .ok x ∧ ctx.indexOf? x = some i := by
  have hlt : i < ctx.names.length := hi
  refine ⟨ctx.names[i], List.getElem_mem hlt, ?_, ?_⟩
  · change ctx.nameAt (.ofNat i) = _
    simp only [nameAt, List.getElem?_eq_getElem hlt]
  · refine List.idxOf?_eq_some_iff.2 ⟨hlt, rfl, fun j hj heq ↦ ?_⟩
    exact absurd ((List.Nodup.getElem_inj_iff h).1 heq) (Nat.ne_of_lt hj)

theorem Readable.exists_name {ctx : Context} (h : ctx.Readable) {k : Int}
    (hk : 0 ≤ k) (hlt : k < ctx.depth) :
    ∃ x, ctx.nameAt k = .ok x ∧ IsName x ∧
      ∃ i : Nat, ctx.indexOf? x = some i ∧ (i : Int) = k := by
  obtain ⟨i, rfl⟩ := Int.eq_ofNat_of_zero_le hk
  obtain ⟨x, hmem, hname, hindex⟩ :=
    exists_name_of_nodup h.nodup (Int.ofNat_lt.1 hlt)
  exact ⟨x, hname, h.isName x hmem, i, hindex, rfl⟩

end Context
end Nameless
