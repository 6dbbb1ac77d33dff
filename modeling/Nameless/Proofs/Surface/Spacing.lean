import Nameless.Proofs.Surface.Acceptance
import Nameless.Proofs.Surface.RoundTrip
import Nameless.Proofs.Text.Words

/-!
# Terms and the blanks in them

No token goes on across a blank, so that the words of a text settle its tokens
and the term it is read as: `parse_of_words`.
-/

namespace Nameless.Surface

open Text (isBlank trimStart words words_append_blank)

variable {b : Char}

/-! ## Tokens on both sides of a blank -/

theorem isNameChar_of_isBlank (hb : isBlank b = true) : isNameChar b = false := by
  by_contra h
  rw [Bool.not_eq_false] at h
  rw [isBlank_of_isNameChar h] at hb
  cases hb

theorem name?_append_blank (hb : isBlank b = true) (cs ds : List Char) :
    name? (cs ++ b :: ds) =
      (name? cs).map fun found ↦ (found.1, found.2 ++ b :: ds) := by
  have hname := isNameChar_of_isBlank hb
  have htake : (cs ++ b :: ds).takeWhile isNameChar =
      cs.takeWhile isNameChar := by
    induction cs with
    | nil => simp [hname]
    | cons c cs ih => simp [List.takeWhile_cons, ih]
  have hdrop : (cs ++ b :: ds).dropWhile isNameChar =
      cs.dropWhile isNameChar ++ b :: ds := by
    rw [List.dropWhile_append, List.dropWhile_cons_of_neg (by simp [hname])]
    by_cases hempty : (cs.dropWhile isNameChar).isEmpty = true
    · rw [if_pos hempty, List.isEmpty_iff.1 hempty]
      rfl
    · rw [if_neg hempty]
  rw [name?, name?, htake, hdrop]
  by_cases hempty : cs.takeWhile isNameChar = []
  · rw [if_pos hempty, if_pos hempty]
    rfl
  · rw [if_neg hempty, if_neg hempty]
    rfl

theorem trimStart_append_blank (hb : isBlank b = true) (cs ds : List Char) :
    trimStart (cs ++ b :: ds) =
      if trimStart cs = [] then trimStart ds else trimStart cs ++ b :: ds := by
  rw [trimStart, List.dropWhile_append, List.dropWhile_cons_of_pos hb]
  simp only [List.isEmpty_iff]
  rfl

theorem next?_append_blank (hb : isBlank b = true) (cs ds : List Char) :
    next? (cs ++ b :: ds) =
      if trimStart cs = [] then next? ds
      else (next? cs).map fun found ↦ (found.1, found.2 ++ b :: ds) := by
  by_cases hblank : trimStart cs = []
  · rw [if_pos hblank, ← next?_trimStart, trimStart_append_blank hb,
      if_pos hblank, next?_trimStart]
  · rw [if_neg hblank, next?, next?, trimStart_append_blank hb, if_neg hblank]
    obtain ⟨c, rest, hcs⟩ := List.exists_cons_of_ne_nil hblank
    rw [hcs]
    cases hsymbol : symbol? c with
    | some w => simp [hsymbol]
    | none =>
        have hname := name?_append_blank hb (c :: rest) ds
        rw [List.cons_append] at hname
        simp [hsymbol, hname, Option.map_map, Function.comp_def]

theorem tokens?_of_blank {cs : List Char} (h : trimStart cs = []) :
    tokens? cs = some [] :=
  tokens?_eq_some_iff.2 ⟨cs, .nil, h⟩

theorem tokens?_of_next? {cs rest : List Char} {w : Token}
    (h : next? cs = some (w, rest)) :
    tokens? cs = (tokens? rest).map (w :: ·) := by
  rw [tokens?.eq_def]
  split
  · rename_i hnone
    rw [h] at hnone
    cases hnone
  · rename_i hsome
    rw [h] at hsome
    cases hsome
    rfl

theorem tokens?_eq_none {cs : List Char} (h : next? cs = none)
    (hblank : trimStart cs ≠ []) : tokens? cs = none := by
  rw [tokens?.eq_def]
  split
  · rw [if_neg hblank]
  · rename_i hsome
    rw [h] at hsome
    cases hsome

theorem tokens?_congr {cs ds : List Char} (h : trimStart cs = trimStart ds) :
    tokens? cs = tokens? ds := by
  have hnext : next? cs = next? ds := by
    rw [← next?_trimStart cs, h, next?_trimStart]
  cases hds : next? ds with
  | some found => rw [tokens?_of_next? hds, tokens?_of_next? (hnext.trans hds)]
  | none =>
      by_cases hblank : trimStart ds = []
      · rw [tokens?_of_blank hblank, tokens?_of_blank (h.trans hblank)]
      · rw [tokens?_eq_none hds hblank,
          tokens?_eq_none (hnext.trans hds) (h ▸ hblank)]

/-- The tokens of two texts with a blank between them are those of the one and
then those of the other. -/
theorem tokens?_append_blank (hb : isBlank b = true) (cs ds : List Char) :
    tokens? (cs ++ b :: ds) =
      (tokens? cs).bind fun ws ↦ (tokens? ds).map (ws ++ ·) := by
  fun_induction tokens? cs with
  | case1 cs hnext hblank =>
      have htrim : trimStart (cs ++ b :: ds) = trimStart ds := by
        rw [trimStart_append_blank hb, if_pos hblank]
      rw [tokens?_congr htrim]
      simp
  | case2 cs hnext hblank =>
      have hnone : next? (cs ++ b :: ds) = none := by
        rw [next?_append_blank hb, if_neg hblank, hnext]
        rfl
      have htrim : trimStart (cs ++ b :: ds) ≠ [] := by
        rw [trimStart_append_blank hb, if_neg hblank]
        simp
      rw [tokens?_eq_none hnone htrim]
      rfl
  | case3 cs w rest hnext _ ih =>
      have hblank : trimStart cs ≠ [] := by
        intro hblank
        rw [next?, hblank] at hnext
        cases hnext
      have hsome : next? (cs ++ b :: ds) = some (w, rest ++ b :: ds) := by
        rw [next?_append_blank hb, if_neg hblank, hnext]
        rfl
      rw [tokens?_of_next? hsome, ih]
      cases tokens? rest with
      | none => rfl
      | some ws => simp [Option.map_map, Function.comp_def]

/-! ## Words -/

/-- The tokens of words one after the other. -/
def wordTokens? : List (List Char) → Option (List Token)
  | [] => some []
  | w :: ws => (tokens? w).bind fun vs ↦ (wordTokens? ws).map (vs ++ ·)

theorem wordTokens?_append (ws vs : List (List Char)) :
    wordTokens? (ws ++ vs) =
      (wordTokens? ws).bind fun us ↦ (wordTokens? vs).map (us ++ ·) := by
  induction ws with
  | nil => simp [wordTokens?]
  | cons w ws ih =>
      rw [List.cons_append, wordTokens?, wordTokens?, ih]
      cases tokens? w with
      | none => rfl
      | some us =>
          cases wordTokens? ws with
          | none => rfl
          | some us' => simp [Option.map_map, Function.comp_def]

theorem tokens?_eq_wordTokens? (cs : List Char) :
    tokens? cs = wordTokens? (words cs) := by
  induction hlength : cs.length using Nat.strong_induction_on generalizing cs with
  | _ n ih =>
      -- The words come apart at any blank, so no first one has to be found.
      by_cases hblank : ∃ b ∈ cs, isBlank b = true
      · obtain ⟨b, hmem, hb⟩ := hblank
        obtain ⟨before, after, rfl⟩ := List.append_of_mem hmem
        rw [List.length_append, List.length_cons] at hlength
        rw [tokens?_append_blank hb, words_append_blank hb, wordTokens?_append,
          ih before.length (by omega) before rfl,
          ih after.length (by omega) after rfl]
      · have hletters : ∀ c ∈ cs, isBlank c = false := by
          simpa using hblank
        by_cases hcs : cs = []
        · rw [hcs]
          exact tokens?_of_blank rfl
        · rw [Text.words_of_not_blank hletters hcs, wordTokens?]
          simp [wordTokens?]

theorem parse_of_words {s s' : String} {t : Term}
    (hwords : words s.toList = words s'.toList) (h : parse s = .ok t) :
    parse s' = .ok t := by
  obtain ⟨e, htokens, hterm⟩ := exists_phrase_of_parse h
  rw [tokens?_eq_wordTokens?, hwords, ← tokens?_eq_wordTokens?] at htokens
  exact parse_of_phrase htokens hterm

/-! ## What a text that is read looks like -/

theorem count_names {w : Token} (hw : ∀ x, w ≠ .name x) (params : List String) :
    (params.map Token.name).count w = 0 := by
  rw [List.count_eq_zero, List.mem_map]
  rintro ⟨x, -, hx⟩
  exact hw x hx.symm

mutual

theorem Phrase.count_parentheses (e : Phrase) :
    e.tokens.count .opening = e.tokens.count .closing := by
  cases e with
  | simple s => exact s.count_parentheses
  | apply s rest =>
      rw [Phrase.tokens, List.count_append, List.count_append,
        s.count_parentheses, rest.count_parentheses]
  | binder param params body =>
      have hopening := count_names (w := .opening) (by simp) params
      have hclosing := count_names (w := .closing) (by simp) params
      simp [Phrase.tokens, hopening, hclosing, body.count_parentheses]

theorem Simple.count_parentheses (s : Simple) :
    s.tokens.count .opening = s.tokens.count .closing := by
  cases s with
  | group e => simp [Simple.tokens, e.count_parentheses]
  | name x => simp [Simple.tokens]

end

section Count

/-! A symbol that only one character writes occurs in the tokens of a text as
often as the character in the text. -/

variable {c : Char} {v : Token} {cs : List Char}

theorem count_trimStart (hc : isBlank c = false) (cs : List Char) :
    (trimStart cs).count c = cs.count c := by
  rw [← Text.count_words hc, Text.words_trimStart, Text.count_words hc]

theorem count_name? {rest : List Char} {x : String}
    (hc : isNameChar c = false) (h : name? cs = some (x, rest)) :
    rest.count c = cs.count c := by
  have hletters : (cs.takeWhile isNameChar).count c = 0 := by
    rw [List.count_eq_zero]
    intro hmem
    rw [List.mem_takeWhile_imp hmem] at hc
    cases hc
  have hrest : rest = cs.dropWhile isNameChar := by
    rw [name?] at h
    split at h
    · cases h
    · cases h
      rfl
  have hsplit := List.takeWhile_append_dropWhile (p := isNameChar) (l := cs)
  rw [hrest]
  conv_rhs => rw [← hsplit, List.count_append, hletters, Nat.zero_add]

theorem count_next? (hv : ∀ d, symbol? d = some v ↔ d = c)
    (hblank : isBlank c = false) (hname : isNameChar c = false)
    {rest : List Char} {w : Token} (h : next? cs = some (w, rest)) :
    cs.count c = [w].count v + rest.count c := by
  rw [← count_trimStart hblank]
  rcases symbol_or_name_of_next? h with ⟨d, hd, hcs⟩ | ⟨x, rfl, hx⟩
  · rw [hcs, List.count_cons, Nat.add_comm]
    by_cases hdc : d = c
    · have hwv : w = v := by
        rw [hdc, (hv c).2 rfl] at hd
        exact (Option.some.inj hd).symm
      simp [hdc, hwv]
    · have hwv : w ≠ v := by
        rintro rfl
        exact hdc ((hv d).1 hd)
      simp [hdc, hwv]
  · have hxv : Token.name x ≠ v := by
      rintro rfl
      exact symbol?_ne_name ((hv c).2 rfl)
    rw [count_name? hname hx]
    simp [hxv]

theorem count_tokens? (hv : ∀ d, symbol? d = some v ↔ d = c)
    (hblank : isBlank c = false) (hname : isNameChar c = false)
    {ws : List Token} (h : tokens? cs = some ws) : cs.count c = ws.count v := by
  fun_induction tokens? cs generalizing ws with
  | case1 cs hnext htrim =>
      cases h
      rw [← count_trimStart hblank, htrim]
      rfl
  | case2 cs hnext htrim => cases h
  | case3 cs w rest hnext _ ih =>
      obtain ⟨vs, hvs, rfl⟩ := Option.map_eq_some_iff.1 h
      rw [count_next? hv hblank hname hnext, ih hvs, ← List.count_append]
      rfl

end Count

/-- A text that is read closes every parenthesis that it opens. -/
theorem balanced_of_parse {s : String} {t : Term} (h : parse s = .ok t) :
    s.toList.count '(' = s.toList.count ')' := by
  obtain ⟨e, htokens, -⟩ := exists_phrase_of_parse h
  have hopening := count_tokens? (fun _ ↦ symbol?_eq_opening_iff)
    (by decide) (by decide) htokens
  have hclosing := count_tokens? (fun _ ↦ symbol?_eq_closing_iff)
    (by decide) (by decide) htokens
  rw [hopening, hclosing, e.count_parentheses]

theorem Simple.head_tokens {s : Simple} {t : Term}
    (h : s.term? [] = some t) : s.tokens.head? = some .opening := by
  cases s with
  | group e => rfl
  | name x => cases h

theorem Phrase.head_tokens {e : Phrase} {head : Option Term} {t : Term}
    (h : e.term? [] head = some t) :
    e.tokens.head? = some .opening ∨ e.tokens.head? = some .sign := by
  cases e with
  | simple s =>
      rw [Phrase.term?] at h
      obtain ⟨u, hu, -⟩ := Option.map_eq_some_iff.1 h
      exact .inl (Simple.head_tokens hu)
  | apply s rest =>
      rw [Phrase.term?] at h
      obtain ⟨u, hu, -⟩ := Option.bind_eq_some_iff.1 h
      have hhead := Simple.head_tokens hu
      left
      rw [Phrase.tokens, List.head?_append, hhead]
      rfl
  | binder param params body => exact .inr rfl

/-- A text that is read begins with a parenthesis or the sign of a binder. -/
theorem head_of_parse {s : String} {t : Term} (h : parse s = .ok t) :
    ∃ c rest, trimStart s.toList = c :: rest ∧
      (c = '(' ∨ isBinderSign c = true) := by
  obtain ⟨e, htokens, hterm⟩ := exists_phrase_of_parse h
  obtain ⟨last, hread, -⟩ := tokens?_eq_some_iff.1 htokens
  have hhead := Phrase.head_tokens hterm
  generalize e.tokens = ws at hread hhead
  cases hread with
  | nil => simp at hhead
  | @cons _ mid _ w _ hnext _ =>
      rw [List.head?_cons, Option.some.injEq, Option.some.injEq] at hhead
      have hw : ∀ x, w ≠ .name x := by
        rintro x rfl
        simp at hhead
      obtain ⟨c, hc, hcs⟩ := trimStart_of_next? hnext hw
      refine ⟨c, mid, hcs, ?_⟩
      rcases hhead with rfl | rfl
      · exact .inl (symbol?_eq_opening_iff.1 hc)
      · exact .inr (symbol?_eq_sign_iff.1 hc)

end Nameless.Surface
