import Nameless.Proofs.Text.Words
import Nameless.Session.Draft

/-!
# Lines without their comments

What is left of a line has no comment in it any more, and a blank is as good as
the blanks around a line: neither trimming before comments are cut off nor
joining lines with a blank makes or hides a comment.
-/

namespace Nameless.Session

open Text (isBlank trim trimEnd trimStart words words_append_blank
  words_blank_cons)

variable {b : Char} {cs : List Char}

/-! ## Comment markers -/

theorem uncommented_isPrefix (cs : List Char) : uncommented cs <+: cs := by
  fun_induction uncommented cs with
  | case1 => exact List.prefix_refl []
  | case2 => exact List.nil_prefix
  | case3 c cs _ ih => exact List.cons_prefix_cons.2 ⟨rfl, ih⟩

theorem uncommented_no_marker (cs : List Char) :
    ¬ [';', ';'] <:+: uncommented cs := by
  fun_induction uncommented cs with
  | case1 => simp
  | case2 => simp
  | case3 c cs hmarker ih =>
      rw [List.infix_cons_iff]
      rintro (hpart | hinfix)
      · rw [List.cons_prefix_cons] at hpart
        obtain ⟨hc, hrest⟩ := hpart
        obtain ⟨tail, htail⟩ := hrest.trans (uncommented_isPrefix cs)
        exact hmarker tail hc.symm htail.symm
      · exact ih hinfix

theorem uncommented_of_no_marker (h : ¬ [';', ';'] <:+: cs) :
    uncommented cs = cs := by
  fun_induction uncommented cs with
  | case1 => rfl
  | case2 cs => exact absurd (List.prefix_append [';', ';'] cs).isInfix h
  | case3 c cs _ ih =>
      rw [ih fun hinfix ↦ h (List.infix_cons_iff.2 (.inr hinfix))]

theorem uncommented_cons (hb : b ≠ ';') (cs : List Char) :
    uncommented (b :: cs) = b :: uncommented cs :=
  uncommented.eq_3 b cs fun _ h _ ↦ hb h

/-- A blank ends no comment and keeps two semicolons apart. -/
theorem uncommented_append (hb : b ≠ ';') (cs ds : List Char) :
    uncommented (cs ++ b :: ds) =
      if uncommented cs = cs then cs ++ b :: uncommented ds
      else uncommented cs := by
  fun_induction uncommented cs with
  | case1 => exact uncommented_cons hb ds
  | case2 cs => simp [uncommented]
  | case3 c cs hmarker ih =>
      have hkept : ∀ tail, c = ';' → cs ++ b :: ds = ';' :: tail → False := by
        intro tail hc htail
        cases cs with
        | nil => exact hb (List.cons.inj htail).1
        | cons d cs =>
            rw [(List.cons.inj htail).1] at hmarker
            exact hmarker cs hc rfl
      rw [List.cons_append, uncommented.eq_3 _ _ hkept, ih]
      by_cases hcs : uncommented cs = cs
      · simp [hcs]
      · simp [hcs]

theorem ne_semicolon_of_isBlank (hb : isBlank b = true) : b ≠ ';' := by
  rintro rfl
  exact absurd hb (by decide)

/-- A text that is kept for the lines to come: trimmed, without a comment, and
with more parentheses opened than closed. -/
structure Waiting (text : String) : Prop where
  trimmed : trim text = text
  uncommented : ¬ [';', ';'] <:+: text.toList
  isOpen : text.toList.count ')' < text.toList.count '('

theorem waiting_cleaned {line : String} (h : isOpen (cleaned line) = true) :
    Waiting (cleaned line) where
  trimmed := Text.trim_trim _
  uncommented hmarker := by
    have hinfix := hmarker.trans (Text.trim_isInfix _)
    rw [String.toList_ofList] at hinfix
    exact uncommented_no_marker _ hinfix
  isOpen := of_decide_eq_true h

/-! ## Blanks -/

theorem words_uncommented_trimStart (cs : List Char) :
    words (uncommented (trimStart cs)) = words (uncommented cs) := by
  induction cs with
  | nil => rfl
  | cons c cs ih =>
      by_cases hc : isBlank c = true
      · rw [uncommented_cons (ne_semicolon_of_isBlank hc), words_blank_cons hc,
          ← ih, trimStart, List.dropWhile_cons_of_pos hc]
        rfl
      · rw [trimStart, List.dropWhile_cons_of_neg hc]

theorem words_uncommented_trimEnd (cs : List Char) :
    words (uncommented (trimEnd cs)) = words (uncommented cs) := by
  induction cs using List.reverseRecOn with
  | nil => rfl
  | append_singleton cs c ih =>
      rw [Text.trimEnd_eq_rdropWhile]
      by_cases hc : isBlank c = true
      · rw [List.rdropWhile_concat_pos isBlank cs c hc,
          uncommented_append (ne_semicolon_of_isBlank hc)]
        refine ih.trans ?_
        by_cases hcs : uncommented cs = cs
        · rw [if_pos hcs, words_append_blank hc, hcs]
          simp [uncommented]
        · rw [if_neg hcs]
      · rw [List.rdropWhile_concat_neg isBlank cs c hc]

theorem words_cleaned (line : String) :
    words (cleaned line).toList = words (uncommented line.toList) := by
  rw [cleaned, Text.words_trim, String.toList_ofList]

/-- The blanks around a line make no difference to its words. -/
theorem words_uncommented_trim (line : String) :
    words (uncommented (trim line).toList) =
      words (uncommented line.toList) := by
  rw [Text.toList_trim, words_uncommented_trimEnd, words_uncommented_trimStart]

/-! ## Joining -/

theorem toList_space_append (text line : String) :
    (text ++ " " ++ line).toList = text.toList ++ ' ' :: line.toList := by
  simp

/-- A line joined to a text without a comment gives up its own comment only. -/
theorem words_cleaned_append {text : String}
    (h : ¬ [';', ';'] <:+: text.toList) (line : String) :
    words (cleaned (text ++ " " ++ line)).toList =
      words text.toList ++ words (uncommented line.toList) := by
  rw [words_cleaned, toList_space_append, uncommented_append (by decide),
    if_pos (uncommented_of_no_marker h), words_append_blank (by decide)]

theorem words_joined (text line : String) :
    words (joined text (cleaned line)).toList =
      words text.toList ++ words (uncommented line.toList) := by
  rw [joined, Text.words_trim, toList_space_append,
    words_append_blank (by decide), words_cleaned]

/-! ## How lines begin -/

theorem head?_trimStart_uncommented {c : Char}
    (h : (trimStart cs).head? = some c) :
    (trimStart (uncommented cs)).head? = some c ∨
      c = ';' ∧ trimStart (uncommented cs) = [] := by
  fun_induction uncommented cs with
  | case1 => cases h
  | case2 cs =>
      right
      have hc : ';' = c := by simpa [trimStart, Text.isBlank] using h
      exact ⟨hc.symm, rfl⟩
  | case3 d cs _ ih =>
      by_cases hd : isBlank d = true
      · rw [trimStart, List.dropWhile_cons_of_pos hd] at h ⊢
        exact ih h
      · rw [trimStart, List.dropWhile_cons_of_neg hd] at h ⊢
        exact .inl h

/-- A line begins like what is left of it, or nothing is left because a comment
begins it. -/
theorem head?_trim_line {line : String} {c : Char}
    (h : (trim line).toList.head? = some c) :
    (cleaned line).toList.head? = some c ∨ c = ';' ∧ cleaned line = "" := by
  rw [Text.head?_trim] at h
  rcases head?_trimStart_uncommented h with hhead | ⟨hc, hnil⟩
  · left
    rwa [cleaned, Text.head?_trim, String.toList_ofList]
  · refine .inr ⟨hc, ?_⟩
    rw [cleaned, trim, String.toList_ofList, hnil]
    rfl

end Nameless.Session
