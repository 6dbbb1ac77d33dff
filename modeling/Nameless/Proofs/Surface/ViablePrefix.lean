import Nameless.Proofs.Surface.Completion
import Nameless.Proofs.Surface.Message
import Nameless.Proofs.Surface.Place

/-!
# Faults stand where they have to

The text before a fault can still be made a term of, and the text up to behind
its first character cannot.  What was read before the fault is the same tokens
whatever follows them, which `Reads.append` states.
-/

namespace Nameless.Surface

open Text (isBlank trimStart)
open Outlook (start)

/-! ## Tokens before a place -/

variable {before between after after' : List Char} {w : Token}

theorem next?_suffix {cs rest : List Char} (h : next? cs = some (w, rest)) :
    rest <:+ cs := by
  refine List.IsSuffix.trans ?_ (trimStart_suffix cs)
  rcases symbol_or_name_of_next? h with ⟨c, -, hcs⟩ | ⟨x, -, hname⟩
  · rw [hcs]
    exact List.suffix_cons c rest
  · exact suffix_of_name? hname

theorem Reads.suffix {cs rest : List Char} {ws : List Token}
    (h : Reads cs ws rest) : rest <:+ cs := by
  induction h with
  | nil => exact List.suffix_refl _
  | cons hnext _ ih => exact ih.trans (next?_suffix hnext)

theorem boundary_of_name? {cs rest : List Char} {x : String}
    (h : name? cs = some (x, rest)) : Boundary rest := by
  simp only [name?] at h
  split at h
  · cases h
  · cases h
    rw [Boundary, List.takeWhile_eq_nil_iff]
    exact fun hpos ↦ List.dropWhile_get_zero_not isNameChar cs hpos

theorem boundary_append (hafter : Boundary after → Boundary after')
    (h : Boundary (between ++ after)) : Boundary (between ++ after') := by
  cases between with
  | nil => exact hafter h
  | cons c cs => exact boundary_cons (isNameChar_of_boundary h) _

/-- Blanks before a token belong to what stands before the place. -/
theorem trimStart_append_of_next? (h : next? (before ++ after) =
    some (w, between ++ after)) (tail : List Char) :
    trimStart (before ++ tail) = trimStart before ++ tail := by
  have hblank : trimStart before ≠ [] := by
    intro hblank
    have htrim : trimStart (before ++ after) = trimStart after := by
      rw [trimStart, List.dropWhile_append]
      simp [show before.dropWhile isBlank = [] from hblank, trimStart]
    rw [← next?_trimStart, htrim] at h
    have hlt := next?_length h
    have hle := Text.trimStart_length_le after
    rw [List.length_append] at hlt
    omega
  rw [trimStart, List.dropWhile_append, if_neg]
  · rfl
  · rwa [List.isEmpty_iff]

/-- A token is the same whatever follows it, as long as no name goes on there
that ended there before. -/
theorem next?_append (hafter : Boundary after → Boundary after')
    (h : next? (before ++ after) = some (w, between ++ after)) :
    next? (before ++ after') = some (w, between ++ after') := by
  have htrim := trimStart_append_of_next? h
  rcases symbol_or_name_of_next? h with ⟨c, hc, hcs⟩ | ⟨x, rfl, hname⟩
  · rw [htrim, ← List.cons_append] at hcs
    have hbefore := List.append_cancel_right hcs
    exact next?_of_symbol (by rw [htrim, hbefore, List.cons_append]) hc
  · have hx := (eq_append_of_name? hname).2
    rw [htrim, ← List.append_assoc] at hx
    have hbefore := List.append_cancel_right hx
    have hboundary := boundary_append hafter (boundary_of_name? hname)
    apply next?_of_name
    rw [htrim, hbefore, List.append_assoc]
    exact name?_append (isName_of_next? h) hboundary

theorem Reads.append {ws : List Token}
    (hafter : Boundary after → Boundary after')
    (h : Reads (before ++ after) ws (between ++ after)) :
    Reads (before ++ after') ws (between ++ after') := by
  induction ws generalizing before with
  | nil =>
      have hsame := List.append_cancel_right (Reads.nil_iff.1 h)
      rw [hsame]
      exact .nil
  | cons w ws ih =>
      obtain ⟨mid, hnext, hws⟩ := Reads.cons_iff.1 h
      obtain ⟨part, rfl⟩ : after <:+ mid :=
        (List.suffix_append between after).trans hws.suffix
      exact .cons (next?_append hafter hnext) (ih hws)

/-! ## Endings -/

theorem reads_closings (n : Nat) :
    Reads (List.replicate n ')') (List.replicate n .closing) [] := by
  induction n with
  | zero => exact .nil
  | succ n ih => exact .cons (next?_closing _) ih

theorem boundary_closings (n : Nat) : Boundary (List.replicate n ')') := by
  cases n with
  | zero => rfl
  | succ n => exact boundary_cons (by decide) _

theorem after?_closings (bound : List String) (outside : List (List String)) :
    ∃ o, Outlook.after? ⟨.expression true, bound, outside⟩
      (List.replicate outside.length .closing) = some o ∧ o.IsComplete := by
  induction outside generalizing bound with
  | nil => exact ⟨_, rfl, rfl, rfl⟩
  | cons around outside ih => exact ih around

/-- A parameter, a body and what closes the open groups. -/
def bodyEnding (n : Nat) : List Char :=
  ' ' :: 'a' :: '.' :: 'a' :: List.replicate n ')'

theorem reads_bodyEnding (n : Nat) :
    Reads (bodyEnding n)
      (.name "a" :: .dot :: .name "a" :: List.replicate n .closing) [] := by
  have hname : IsName "a" := by decide
  have hparam : next? (bodyEnding n) =
      some (.name "a", '.' :: 'a' :: List.replicate n ')') :=
    next?_name hname (boundary_cons (by decide) _)
  have hbody := next?_name hname (boundary_closings n)
  exact .cons hparam (.cons (next?_dot _) (.cons hbody (reads_closings n)))

/-- Whatever the outlook, there is a text to go on with until the end. -/
theorem exists_ending (o : Outlook) :
    ∃ ending ws o', Boundary ending ∧ Reads ending ws [] ∧
      o.after? ws = some o' ∧ o'.IsComplete := by
  obtain ⟨stage, bound, outside⟩ := o
  cases stage with
  | head begun =>
      obtain ⟨o', hafter, hcomplete⟩ := after?_closings ("a" :: bound) outside
      refine ⟨bodyEnding outside.length, _, o', boundary_cons (by decide) _,
        reads_bodyEnding _, ?_, hcomplete⟩
      simp [Outlook.after?_cons, Outlook.advance?, hafter]
  | expression begun =>
      obtain ⟨o', hafter, hcomplete⟩ := after?_closings ("a" :: bound) outside
      refine ⟨'λ' :: bodyEnding outside.length, _, o',
        boundary_cons (by decide) _, .cons (next?_sign _) (reads_bodyEnding _),
        ?_, hcomplete⟩
      simp [Outlook.after?_cons, Outlook.advance?, hafter]

/-! ## Before and behind a fault -/

/-- The text is tokens up to a place, after blanks, at which their outlook is
stuck. -/
structure StuckAt (before after : List Char) (cause : Cause)
    (ws : List Token) (between : List Char) (o : Outlook) : Prop where
  reads : Reads (before ++ after) ws (between ++ after)
  blank : ∀ c ∈ between, isBlank c = true
  leads : start.after? ws = some o
  stuck : Stuck o (between ++ after) cause
  trimmed : trimStart after = after

theorem exists_stuckAt {s : String} {r : Rejection} (h : parse s = .error r) :
    ∃ ws between o, StuckAt (s.toList.take r.pos) (s.toList.drop r.pos) r.cause
      ws between o := by
  obtain ⟨e, ⟨ws, mid, o, hread, hleads, hstuck, hrest⟩, rfl⟩ :=
    failsAt_of_parse h
  have hmid : mid.takeWhile isBlank ++ e.rest = mid := by
    rw [hrest]
    exact List.takeWhile_append_dropWhile
  have hsuffix : e.rest <:+ s.toList :=
    (hmid ▸ List.suffix_append _ _ : e.rest <:+ mid).trans hread.suffix
  have hdrop : s.toList.drop (s.toList.length - e.rest.length) = e.rest :=
    (List.suffix_iff_eq_drop.1 hsuffix).symm
  refine ⟨ws, mid.takeWhile isBlank, o, ?_⟩
  simp only [Rejection.ofFault, hdrop]
  refine ⟨?_, fun c hc ↦ List.mem_takeWhile_imp hc, hleads, ?_, ?_⟩
  · rwa [hmid, List.suffix_iff_eq_append.1 hsuffix]
  · rwa [hmid]
  · rw [hrest, trimStart_trimStart]

namespace StuckAt

variable {cause : Cause} {ws : List Token} {o : Outlook} {text : List Char}

theorem trimStart_append (h : StuckAt before after cause ws between o)
    (tail : List Char) : trimStart (between ++ tail) = trimStart tail :=
  List.dropWhile_append_of_pos h.blank

/-- What stands before the place can be gone on with until the end. -/
theorem exists_completes (h : StuckAt before after cause ws between o) :
    ∃ ending, Completes (before ++ ending) := by
  obtain ⟨ending, vs, o', hboundary, hread, hafter, hcomplete⟩ :=
    exists_ending o
  refine ⟨ending, ws ++ vs, o', ?_, ?_, hcomplete⟩
  · rw [(h.reads.append fun _ ↦ hboundary).tokens?_eq,
      tokens?_congr (h.trimStart_append ending),
      tokens?_eq_some_iff.2 ⟨[], hread, rfl⟩]
    rfl
  · rw [Outlook.after?_append, h.leads]
    exact hafter

/-- If there is more text at the place, what comes next there is a token that
the outlook has a place for. -/
theorem exists_token (h : StuckAt before after cause ws between o)
    (hafter : Boundary after → Boundary after')
    (hnonblank : trimStart after' ≠ [])
    (hcompletes : Completes (before ++ after')) :
    ∃ w rest o', next? after' = some (w, rest) ∧ o.advance? w = some o' := by
  obtain ⟨vs, last, htokens, hlast, -⟩ := hcompletes
  rw [(h.reads.append hafter).tokens?_eq,
    tokens?_congr (h.trimStart_append after')] at htokens
  obtain ⟨us, hus, rfl⟩ := Option.map_eq_some_iff.1 htokens
  rw [Outlook.after?_append, h.leads, Option.bind_some] at hlast
  cases us with
  | nil => exact absurd (trimStart_eq_nil_of_tokens? hus) hnonblank
  | cons w us =>
      rw [Outlook.after?_cons] at hlast
      obtain ⟨rest, hnext, -⟩ := exists_next?_of_tokens? hus
      obtain ⟨o', hadvance, -⟩ := Option.bind_eq_some_iff.1 hlast
      exact ⟨w, rest, o', hnext, hadvance⟩

theorem next?_eq (h : StuckAt before after cause ws between o) :
    next? (between ++ after) = next? after := by
  rw [← next?_trimStart, h.trimStart_append, next?_trimStart]

/-- No text that is read goes on with the character at the place. -/
theorem not_completes_cons {c : Char} {rest tail : List Char}
    (h : StuckAt before (c :: rest) cause ws between o)
    (hcause : ∀ x, cause ≠ .unbound x) :
    ¬ Completes (before ++ c :: tail) := by
  intro hcompletes
  have hboundary : Boundary (c :: rest) := by
    apply boundary_of_next?_ne_name
    rw [← h.next?_eq]
    exact h.stuck.next?_ne_name hcause
  have hname := isNameChar_of_boundary hboundary
  have hblank : isBlank c = false := by
    by_contra hc
    rw [Bool.not_eq_false] at hc
    have hlt := congrArg List.length h.trimmed
    rw [trimStart, List.dropWhile_cons_of_pos hc, List.length_cons] at hlt
    have hle := Text.trimStart_length_le rest
    rw [trimStart] at hle
    omega
  have htrim : trimStart (c :: tail) = c :: tail :=
    List.dropWhile_cons_of_neg (by simp [hblank])
  obtain ⟨w, rest', o', hnext, hadvance⟩ := h.exists_token
    (fun _ ↦ boundary_cons hname tail) (by simp [htrim]) hcompletes
  rcases symbol_or_name_of_next? hnext with ⟨d, hd, hcs⟩ | ⟨x, -, hx⟩
  · rw [htrim] at hcs
    cases hcs
    have hstuck := h.stuck.advance?_eq_none
      (h.next?_eq.trans (next?_of_symbol h.trimmed hd))
    rw [hstuck] at hadvance
    cases hadvance
  · rw [htrim] at hx
    rw [isNameChar_of_name? hx] at hname
    cases hname

theorem exists_unbound_name {x : String}
    (h : StuckAt before after (.unbound x) ws between o) :
    ∃ rest, after = x.toList ++ rest ∧
      next? (between ++ after) = some (.name x, rest) := by
  cases h.stuck with
  | unbound hnext hx =>
      have hname := name?_of_next? hnext
      rw [h.trimStart_append, h.trimmed] at hname
      exact ⟨_, (eq_append_of_name? hname).2, hnext⟩

/-- No text that is read goes on with the unbound name at the place. -/
theorem not_completes_name {x : String} {rest tail : List Char}
    (h : StuckAt before (x.toList ++ rest) (.unbound x) ws between o)
    (htail : Boundary tail) : ¬ Completes (before ++ (x.toList ++ tail)) := by
  intro hcompletes
  obtain ⟨last, -, hplace⟩ := h.exists_unbound_name
  have hx := isName_of_next? hplace
  obtain ⟨c, cs, hcs⟩ := List.exists_cons_of_ne_nil hx.1
  have hc : isNameChar c = true :=
    hx.isNameChar c (by rw [hcs]; exact List.mem_cons_self)
  have hboundary : ¬ Boundary (x.toList ++ rest) := by
    simp [Boundary, hcs, hc]
  have hnonblank : trimStart (x.toList ++ tail) ≠ [] := by
    rw [hcs, List.cons_append, trimStart_of_isNameChar hc]
    exact List.cons_ne_nil _ _
  obtain ⟨w, rest', o', hnext, hadvance⟩ := h.exists_token
    (fun hrest ↦ absurd hrest hboundary) hnonblank hcompletes
  rw [next?_name hx htail] at hnext
  cases hnext
  rw [h.stuck.advance?_eq_none hplace] at hadvance
  cases hadvance

variable {s : String} {pos : Nat} {t : Term}

theorem not_prefix_of_parse
    (h : StuckAt (s.toList.take pos) (s.toList.drop pos) cause ws between o)
    (hcause : ∀ x, cause ≠ .unbound x) (hpos : pos < s.length) {text : String}
    (ht : parse text = .ok t) :
    ¬ s.toList.take (pos + 1) <+: text.toList := by
  rintro ⟨tail, htext⟩
  have hcompletes := completes_of_parse ht
  rw [← String.length_toList] at hpos
  obtain ⟨c, rest, hafter⟩ := List.exists_cons_of_ne_nil
    (List.drop_eq_nil_iff.not.2 hpos.not_ge)
  rw [← htext, List.take_add, hafter, List.append_assoc] at hcompletes
  rw [hafter] at h
  exact h.not_completes_cons hcause hcompletes

theorem name_goes_on_of_parse {x text : String} {tail : List Char}
    (h : StuckAt (s.toList.take pos) (s.toList.drop pos) (.unbound x) ws
      between o)
    (ht : parse text = .ok t)
    (htext : text.toList = s.toList.take (pos + x.length) ++ tail) :
    ∃ c rest, tail = c :: rest ∧ isNameChar c = true := by
  have hcompletes := completes_of_parse ht
  obtain ⟨rest, hafter, -⟩ := h.exists_unbound_name
  rw [htext, ← String.length_toList, List.take_add, hafter, List.take_left,
    List.append_assoc] at hcompletes
  rw [hafter] at h
  cases tail with
  | nil => exact absurd hcompletes (h.not_completes_name rfl)
  | cons c tail =>
      refine ⟨c, tail, rfl, ?_⟩
      by_contra hc
      rw [Bool.not_eq_true] at hc
      exact h.not_completes_name (boundary_cons hc tail) hcompletes

end StuckAt

/-- The text before the place of a rejection can be gone on with to a text that
is read.  With the character at that place it cannot, nor with a name there that
is unbound, unless the name goes on. -/
theorem rejected_where_unreadable {s : String} {r : Rejection}
    (h : parse s = .error r) :
    (∃ text t, parse text = .ok t ∧
      s.toList.take r.pos <+: text.toList) ∧
    ((∀ x, r.cause ≠ .unbound x) → r.pos < s.length →
      ∀ text t, parse text = .ok t →
        ¬ s.toList.take (r.pos + 1) <+: text.toList) ∧
    (∀ x, r.cause = .unbound x →
      ∀ text t after, parse text = .ok t →
        text.toList = s.toList.take r.spanEnd ++ after →
        ∃ c rest, after = c :: rest ∧ isNameChar c = true) := by
  obtain ⟨ws, between, o, hstuck⟩ := exists_stuckAt h
  refine ⟨?_, ?_, ?_⟩
  · obtain ⟨ending, hcompletes⟩ := hstuck.exists_completes
    rw [← String.toList_ofList (l := _ ++ ending)] at hcompletes
    obtain ⟨t, ht⟩ := exists_parse_iff.2 hcompletes
    refine ⟨_, t, ht, ?_⟩
    rw [String.toList_ofList]
    exact List.prefix_append _ _
  · intro hcause hpos text t ht
    exact hstuck.not_prefix_of_parse hcause hpos ht
  · intro x hx text t tail ht htext
    rw [hx] at hstuck
    rw [Rejection.spanEnd, hx] at htext
    exact hstuck.name_goes_on_of_parse ht htext

/-- After the body of the abstraction a dot has no place in the group. -/
theorem parse_unclosed :
    parse "(λx.x ." = .error ⟨"(λx.x .", 6, .unclosed⟩ := by
  have hdot : next? [' ', '.'] = some (.dot, []) := rfl
  refine parse_eq_error_iff.2 ⟨⟨.unclosed, ['.']⟩, ?_, rfl⟩
  refine ⟨[.opening, .sign, .name "x", .dot, .name "x"], [' ', '.'], _, ?_, rfl,
    .unclosed (stops_of_dot hdot) (by simp [hdot]), rfl⟩
  repeat first
    | exact .nil
    | refine .cons rfl ?_

theorem parse_unbound :
    parse "λx.x foo" = .error ⟨"λx.x foo", 5, .unbound "foo"⟩ := by
  have hfoo : next? [' ', 'f', 'o', 'o'] = some (.name "foo", []) := rfl
  refine parse_eq_error_iff.2 ⟨⟨.unbound "foo", ['f', 'o', 'o']⟩, ?_, rfl⟩
  refine ⟨[.sign, .name "x", .dot, .name "x"], [' ', 'f', 'o', 'o'], _, ?_, rfl,
    .unbound hfoo (by decide), rfl⟩
  repeat first
    | exact .nil
    | refine .cons rfl ?_

theorem rejected_where_unreadable_samples :
    parse "(λx.x ." = .error ⟨"(λx.x .", 6, .unclosed⟩ ∧
    (∃ text t, parse text = .ok t ∧ "(λx.x ".toList <+: text.toList) ∧
    (∀ text t, parse text = .ok t → ¬ "(λx.x .".toList <+: text.toList) ∧
    parse "λx.x foo" = .error ⟨"λx.x foo", 5, .unbound "foo"⟩ ∧
    ∀ text t after, parse text = .ok t →
      text.toList = "λx.x foo".toList ++ after →
      ∃ c rest, after = c :: rest ∧ isNameChar c = true := by
  obtain ⟨hviable, hexact, -⟩ := rejected_where_unreadable parse_unclosed
  obtain ⟨-, -, hname⟩ := rejected_where_unreadable parse_unbound
  exact ⟨parse_unclosed, hviable, hexact (by simp) (by decide), parse_unbound,
    hname "foo" rfl⟩

end Nameless.Surface
