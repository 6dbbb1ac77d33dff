import Mathlib.Data.List.DropRight
import Nameless.Text.Blank

/-!
# Texts without blanks around them

Trimming takes a part out of a text, and trims it once and for all.
-/

namespace Nameless.Text

@[simp] theorem toList_trim (s : String) :
    (trim s).toList = trimEnd (trimStart s.toList) :=
  String.toList_ofList

theorem trimEnd_eq_rdropWhile (cs : List Char) :
    trimEnd cs = cs.rdropWhile isBlank := rfl

theorem trimStart_of_prefix {cs ds : List Char} (h : trimStart ds = ds)
    (hpart : cs <+: ds) : trimStart cs = cs := by
  rw [trimStart, List.dropWhile_eq_self_iff] at h ⊢
  intro hpos
  rw [hpart.getElem hpos]
  exact h (hpos.trans_le hpart.length_le)

theorem trimStart_trimEnd {cs : List Char} (h : trimStart cs = cs) :
    trimStart (trimEnd cs) = trimEnd cs :=
  trimStart_of_prefix h (List.rdropWhile_prefix isBlank _)

@[simp] theorem trim_trim (s : String) : trim (trim s) = trim s := by
  have hstart : trimStart (trimStart s.toList) = trimStart s.toList :=
    List.dropWhile_idempotent isBlank _
  have hend : ∀ cs, trimEnd (trimEnd cs) = trimEnd cs :=
    List.rdropWhile_idempotent isBlank
  rw [trim, toList_trim, trimStart_trimEnd hstart, hend]
  rfl

theorem trim_isInfix (s : String) : (trim s).toList <:+: s.toList := by
  rw [toList_trim]
  exact (List.rdropWhile_prefix isBlank _).isInfix.trans
    (List.dropWhile_suffix isBlank).isInfix

theorem trimStart_of_trim {s : String} (h : trim s = s) :
    trimStart s.toList = s.toList := by
  have hlist := congrArg String.toList h
  rw [toList_trim] at hlist
  have hsuffix : trimStart s.toList <:+ s.toList := List.dropWhile_suffix _
  have hpart : trimEnd (trimStart s.toList) <+: trimStart s.toList :=
    List.rdropWhile_prefix isBlank _
  rw [hlist] at hpart
  exact hsuffix.eq_of_length_le hpart.length_le

theorem trimEnd_of_trim {s : String} (h : trim s = s) :
    trimEnd s.toList = s.toList := by
  have hlist := congrArg String.toList h
  rwa [toList_trim, trimStart_of_trim h] at hlist

theorem trimStart_append {cs : List Char} (h : trimStart cs = cs)
    (hcs : cs ≠ []) (ds : List Char) : trimStart (cs ++ ds) = cs ++ ds := by
  have hnonempty : cs.isEmpty = false := by simpa using hcs
  change List.dropWhile isBlank cs = cs at h
  rw [trimStart, List.dropWhile_append, h, hnonempty]
  rfl

theorem trimEnd_append {ds : List Char} (h : trimEnd ds = ds) (hds : ds ≠ [])
    (cs : List Char) : trimEnd (cs ++ ds) = cs ++ ds := by
  rw [trimEnd_eq_rdropWhile, List.rdropWhile_eq_self_iff] at h ⊢
  intro hne
  rw [List.getLast_append_of_ne_nil hne hds]
  exact h hds

/-- What has no blanks around it stays whole when more comes after it. -/
theorem prefix_trim_append {cs : List Char} (hstart : trimStart cs = cs)
    (hend : trimEnd cs = cs) (hcs : cs ≠ []) (ds : List Char) :
    cs <+: trimEnd (trimStart (cs ++ ds)) := by
  have hwhole := trimStart_append hstart hcs ds
  rw [hwhole, trimEnd, List.reverse_append, List.dropWhile_append]
  by_cases hblank : (ds.reverse.dropWhile isBlank).isEmpty = true
  · rw [if_pos hblank]
    change cs <+: trimEnd cs
    exact ⟨[], (List.append_nil cs).trans hend.symm⟩
  · rw [if_neg hblank, List.reverse_append, List.reverse_reverse]
    exact List.prefix_append _ _

theorem head?_trimEnd {cs : List Char} (h : trimStart cs = cs) :
    (trimEnd cs).head? = cs.head? := by
  cases cs with
  | nil => rfl
  | cons c cs =>
      have hc : isBlank c = false := by
        rw [trimStart, List.dropWhile_eq_self_iff] at h
        simpa using h (Nat.zero_lt_succ _)
      have hpart : trimEnd (c :: cs) <+: c :: cs :=
        List.rdropWhile_prefix isBlank _
      cases hend : trimEnd (c :: cs) with
      | nil =>
          have hblank := List.rdropWhile_eq_nil_iff.1 hend c List.mem_cons_self
          rw [hc] at hblank
          cases hblank
      | cons d ds =>
          rw [hend, List.cons_prefix_cons] at hpart
          rw [hpart.1]
          rfl

theorem head?_trim (s : String) :
    (trim s).toList.head? = (trimStart s.toList).head? := by
  rw [toList_trim]
  exact head?_trimEnd (List.dropWhile_idempotent isBlank _)

end Nameless.Text
