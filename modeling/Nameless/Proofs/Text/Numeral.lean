import Mathlib.Data.List.TakeWhile
import Nameless.Text.Decimal

/-!
# Numerals

The numeral of a number is read as that number.
-/

namespace Nameless.Text

theorem toNat_bounds {c : Char} (h : c.isDigit = true) :
    48 ≤ c.toNat ∧ c.toNat ≤ 57 := by
  simpa [Char.isDigit, UInt32.le_iff_toNat_le] using h

theorem digit?_of_isDigit {c : Char} (h : c.isDigit = true) :
    digit? c = some (c.toNat - '0'.toNat) := by
  obtain ⟨hlow, hhigh⟩ := toNat_bounds h
  have hfound : (decide (0x30 ≤ c.toNat) && decide (c.toNat < 0x30 + 10)) =
      true := by
    simp only [Bool.and_eq_true, decide_eq_true_eq]
    omega
  have hzero : zeros.find? (fun first ↦
      decide (first ≤ c.toNat) && decide (c.toNat < first + 10)) =
        some 0x30 := List.find?_cons_of_pos hfound
  rw [digit?, hzero]
  rfl

theorem natural?_go_digits {cs : List Char} (h : ∀ c ∈ cs, c.isDigit = true)
    (value : Nat) :
    natural?.go value cs = some (Nat.ofDigitChars 10 cs value) := by
  induction cs generalizing value with
  | nil => rfl
  | cons c cs ih =>
      have hc : c.isDigit = true := h c List.mem_cons_self
      have hunderscore : c ≠ '_' := by
        rintro rfl
        exact absurd hc (by decide)
      rw [natural?.go.eq_3 value c cs (fun _ _ hc' _ ↦ hunderscore hc'),
        digit?_of_isDigit hc, Nat.ofDigitChars_cons]
      exact ih (fun c h' ↦ h c (List.mem_cons_of_mem _ h')) _

theorem natural?_digits {cs : List Char} (h : ∀ c ∈ cs, c.isDigit = true)
    (hcs : cs ≠ []) : natural? cs = some (Nat.ofDigitChars 10 cs 0) := by
  cases cs with
  | nil => exact absurd rfl hcs
  | cons c cs =>
      rw [natural?, digit?_of_isDigit (h c List.mem_cons_self),
        Nat.ofDigitChars_cons, Nat.mul_zero, Nat.zero_add]
      exact natural?_go_digits (fun c h' ↦ h c (List.mem_cons_of_mem _ h')) _

theorem isPadding_of_isDigit {c : Char} (h : c.isDigit = true) :
    isPadding c = false := by
  obtain ⟨hlow, hhigh⟩ := toNat_bounds h
  have hblank : isBlank c = false := by
    simp only [isBlank, Bool.or_eq_false_iff, Bool.and_eq_false_iff,
      decide_eq_false_iff_not, beq_eq_false_iff_ne]
    omega
  rw [isPadding, hblank, Bool.false_and]

theorem dropWhile_isPadding {cs : List Char}
    (h : ∀ c ∈ cs, c.isDigit = true) : cs.dropWhile isPadding = cs := by
  rw [List.dropWhile_eq_self_iff]
  intro hpos
  rw [isPadding_of_isDigit (h _ (List.getElem_mem hpos))]
  exact Bool.false_ne_true

theorem integer?_digits {cs : List Char} (h : ∀ c ∈ cs, c.isDigit = true)
    (hcs : cs ≠ []) :
    integer? (String.ofList cs) = some (Nat.ofDigitChars 10 cs 0 : Int) := by
  have hreverse : ∀ c ∈ cs.reverse, c.isDigit = true := by
    simpa only [List.mem_reverse] using h
  rw [integer?, String.toList_ofList, dropWhile_isPadding h,
    dropWhile_isPadding hreverse, List.reverse_reverse]
  split
  · exact absurd (h '-' List.mem_cons_self) (by decide)
  · exact absurd (h '+' List.mem_cons_self) (by decide)
  · rw [natural?_digits h hcs]
    rfl

theorem integer?_toString (n : Nat) : integer? (toString n) = some (n : Int) := by
  rw [Nat.toString_eq_ofList_toDigits, integer?_digits
    (fun c hc ↦ Nat.isDigit_of_mem_toDigits (by decide) (by decide) hc)
    Nat.toDigits_ne_nil, Nat.ofDigitChars_ten_toDigits]

end Nameless.Text
