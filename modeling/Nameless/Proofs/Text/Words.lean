import Nameless.Proofs.Text.Blank

/-!
# Words

The words of a text are what its blanks separate.  Texts with the same words
differ only in how much and which blank stands between them and around them.
-/

namespace Nameless.Text

def words (cs : List Char) : List (List Char) :=
  (cs.splitOnP isBlank).filter (· ≠ [])

variable {b : Char}

@[simp] theorem words_nil : words [] = [] := rfl

theorem words_append_blank (hb : isBlank b = true) (cs ds : List Char) :
    words (cs ++ b :: ds) = words cs ++ words ds := by
  rw [words, List.splitOnP_append_cons cs ds hb, List.filter_append]
  rfl

theorem words_blank_cons (hb : isBlank b = true) (cs : List Char) :
    words (b :: cs) = words cs := words_append_blank hb [] cs

theorem words_concat_blank (hb : isBlank b = true) (cs : List Char) :
    words (cs ++ [b]) = words cs := by
  rw [words_append_blank hb, words_nil, List.append_nil]

/-- A text without blanks is one word, or none if it is empty. -/
theorem words_of_not_blank {cs : List Char} (h : ∀ c ∈ cs, isBlank c = false)
    (hcs : cs ≠ []) : words cs = [cs] := by
  rw [words, List.splitOnP_eq_singleton h]
  simp [hcs]

@[simp] theorem words_trimStart (cs : List Char) :
    words (trimStart cs) = words cs := by
  induction cs with
  | nil => rfl
  | cons c cs ih =>
      by_cases hc : isBlank c = true
      · rw [words_blank_cons hc, ← ih, trimStart, List.dropWhile_cons_of_pos hc]
        rfl
      · rw [trimStart, List.dropWhile_cons_of_neg hc]

@[simp] theorem words_trimEnd (cs : List Char) :
    words (trimEnd cs) = words cs := by
  induction cs using List.reverseRecOn with
  | nil => rfl
  | append_singleton cs c ih =>
      rw [trimEnd_eq_rdropWhile]
      by_cases hc : isBlank c = true
      · rw [List.rdropWhile_concat_pos isBlank cs c hc, words_concat_blank hc]
        exact ih
      · rw [List.rdropWhile_concat_neg isBlank cs c hc]

@[simp] theorem words_trim (s : String) :
    words (trim s).toList = words s.toList := by
  rw [toList_trim, words_trimEnd, words_trimStart]

/-- The characters of the words are those of the text that are no blanks. -/
theorem flatten_words (cs : List Char) :
    (words cs).flatten = cs.filter fun c ↦ !isBlank c := by
  refine List.flatten_filter_ne_nil.trans ?_
  induction cs with
  | nil => rfl
  | cons c cs ih =>
      obtain ⟨w, ws, hws⟩ :=
        List.exists_cons_of_ne_nil (List.splitOnP_ne_nil isBlank cs)
      rw [hws] at ih
      by_cases hc : isBlank c = true
      · simpa [List.splitOnP_cons_eq_if_modifyHead, hc, hws] using ih
      · simpa [List.splitOnP_cons_eq_if_modifyHead, hc, hws] using ih

theorem count_words {c : Char} (hc : isBlank c = false) (cs : List Char) :
    (words cs).flatten.count c = cs.count c := by
  rw [flatten_words, List.count_filter]
  simp [hc]

end Nameless.Text
