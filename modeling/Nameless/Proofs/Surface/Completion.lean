import Nameless.Proofs.Surface.Outlook
import Nameless.Proofs.Surface.Place
import Nameless.Proofs.Surface.Spacing

/-!
# Texts by their outlook

A text is read if its tokens lead to a complete outlook, and is rejected where
its outlook is stuck.  There is one such place and one cause there, so both are
exact: `exists_parse_iff` and `parse_eq_error_iff`.
-/

namespace Nameless.Surface

open Text (trimStart)
open Outlook (start)

/-! ## Tokens of what is left -/

theorem Reads.tokens?_eq {cs rest : List Char} {ws : List Token}
    (h : Reads cs ws rest) : tokens? cs = (tokens? rest).map (ws ++ ·) := by
  induction h with
  | nil => simp
  | cons hnext _ ih =>
      rw [tokens?_of_next? hnext, ih, Option.map_map]
      rfl

theorem exists_next?_of_tokens? {cs : List Char} {w : Token} {ws : List Token}
    (h : tokens? cs = some (w :: ws)) :
    ∃ rest, next? cs = some (w, rest) ∧ tokens? rest = some ws := by
  obtain ⟨last, hread, hlast⟩ := tokens?_eq_some_iff.1 h
  obtain ⟨rest, hnext, hws⟩ := Reads.cons_iff.1 hread
  exact ⟨rest, hnext, tokens?_eq_some_iff.2 ⟨last, hws, hlast⟩⟩

theorem trimStart_eq_nil_of_tokens? {cs : List Char}
    (h : tokens? cs = some []) :
    trimStart cs = [] := by
  obtain ⟨rest, hread, hrest⟩ := tokens?_eq_some_iff.1 h
  rwa [Reads.nil_iff.1 hread]

/-! ## Where an outlook is stuck -/

section Stuck

variable {o o' : Outlook} {cs rest : List Char} {w : Token}
  {cause cause' : Cause} {e e' : Fault}

theorem Stuck.advance?_eq_none (h : Stuck o cs cause)
    (hnext : next? cs = some (w, rest)) : o.advance? w = none := by
  cases h with
  | noExpression hstops => rcases hstops w rest hnext with rfl | rfl <;> rfl
  | leftOver hstops => rcases hstops w rest hnext with rfl | rfl <;> rfl
  | unbound hname hx =>
      rw [hname] at hnext
      cases hnext
      simp [Outlook.advance?, hx]
  | noParameter hname =>
      cases w with
      | name x => exact absurd hnext (hname x rest)
      | _ => rfl
  | noDot hname hdot =>
      cases w with
      | name x => exact absurd hnext (hname x rest)
      | dot => exact absurd hnext (hdot rest)
      | _ => rfl
  | unclosed hstops hclosing =>
      rcases hstops w rest hnext with rfl | rfl
      · exact absurd hnext (hclosing rest)
      · rfl

theorem Stuck.next?_ne_name (h : Stuck o cs cause)
    (hcause : ∀ x, cause ≠ .unbound x) (x : String) (rest : List Char) :
    next? cs ≠ some (.name x, rest) := by
  intro hnext
  cases h with
  | noExpression hstops => simpa using hstops _ _ hnext
  | leftOver hstops => simpa using hstops _ _ hnext
  | unbound hname hx => exact hcause _ rfl
  | noParameter hname => exact hname x rest hnext
  | noDot hname hdot => exact hname x rest hnext
  | unclosed hstops hclosing => simpa using hstops _ _ hnext

theorem Stuck.not_isComplete (h : Stuck o cs cause) (hcs : trimStart cs = []) :
    ¬ o.IsComplete := by
  rintro ⟨hstage, houtside⟩
  cases h with
  | noExpression hstops => cases hstage
  | leftOver hstops hrest => exact hrest hcs
  | unbound hname hx =>
      rw [next?, hcs] at hname
      cases hname
  | noParameter hname => cases hstage
  | noDot hname hdot => cases hstage
  | unclosed hstops hclosing => cases houtside

/-- Where an outlook is stuck, the text does not lead to one that is
complete. -/
theorem Stuck.not_isComplete_after {ws : List Token} (h : Stuck o cs cause)
    (htokens : tokens? cs = some ws) (hafter : o.after? ws = some o') :
    ¬ o'.IsComplete := by
  cases ws with
  | nil =>
      cases hafter
      exact h.not_isComplete (trimStart_eq_nil_of_tokens? htokens)
  | cons w ws =>
      obtain ⟨rest, hnext, -⟩ := exists_next?_of_tokens? htokens
      rw [Outlook.after?_cons, h.advance?_eq_none hnext] at hafter
      cases hafter

theorem Stuck.unique (h : Stuck o cs cause) (h' : Stuck o cs cause') :
    cause = cause' := by
  cases h with
  | noExpression hstops =>
      cases h' with
      | noExpression => rfl
      | unbound hnext => simpa using hstops _ _ hnext
  | leftOver hstops hrest =>
      cases h' with
      | leftOver => rfl
      | unbound hnext => simpa using hstops _ _ hnext
  | unbound hnext hx =>
      cases h' with
      | noExpression hstops => simpa using hstops _ _ hnext
      | leftOver hstops => simpa using hstops _ _ hnext
      | unbound hnext' =>
          rw [hnext] at hnext'
          cases hnext'
          rfl
      | unclosed hstops => simpa using hstops _ _ hnext
  | noParameter hname =>
      cases h'
      rfl
  | noDot hname hdot =>
      cases h'
      rfl
  | unclosed hstops hclosing =>
      cases h' with
      | unbound hnext => simpa using hstops _ _ hnext
      | unclosed => rfl

/-- A text fails in one place and for one cause. -/
theorem FailsAt.unique (h : FailsAt o cs e) (h' : FailsAt o cs e') :
    e = e' := by
  obtain ⟨ws, mid, p, hread, hafter, hstuck, hrest⟩ := h
  obtain ⟨ws', mid', p', hread', hafter', hstuck', hrest'⟩ := h'
  induction ws generalizing o cs ws' with
  | nil =>
      cases hafter
      cases hread
      cases ws' with
      | nil =>
          cases hafter'
          cases hread'
          obtain ⟨cause, rest⟩ := e
          rw [Fault.mk.injEq]
          exact ⟨hstuck.unique hstuck', hrest.trans hrest'.symm⟩
      | cons w ws' =>
          obtain ⟨rest, hnext, -⟩ := Reads.cons_iff.1 hread'
          rw [Outlook.after?_cons, hstuck.advance?_eq_none hnext] at hafter'
          cases hafter'
  | cons w ws ih =>
      obtain ⟨rest, hnext, hws⟩ := Reads.cons_iff.1 hread
      obtain ⟨o₁, hadvance, hleads⟩ := Option.bind_eq_some_iff.1 hafter
      cases ws' with
      | nil =>
          cases hafter'
          cases hread'
          rw [hstuck'.advance?_eq_none hnext] at hadvance
          cases hadvance
      | cons w' ws' =>
          obtain ⟨rest', hnext', hws'⟩ := Reads.cons_iff.1 hread'
          rw [hnext] at hnext'
          cases hnext'
          rw [Outlook.after?_cons, hadvance] at hafter'
          exact ih hws hleads ws' hws' hafter'

end Stuck

/-! ## What is read and what is rejected -/

/-- A text whose tokens lead to a complete outlook, which are the texts that are
read. -/
def Completes (cs : List Char) : Prop :=
  ∃ ws o, tokens? cs = some ws ∧ start.after? ws = some o ∧ o.IsComplete

theorem completes_of_parse {s : String} {t : Term} (h : parse s = .ok t) :
    Completes s.toList := by
  obtain ⟨e, htokens, hterm⟩ := exists_phrase_of_parse h
  obtain ⟨bound, hafter⟩ := e.exists_after? hterm
  exact ⟨e.tokens, _, htokens, hafter, rfl, rfl⟩

theorem failsAt_of_parse {s : String} {r : Rejection} (h : parse s = .error r) :
    ∃ e, FailsAt start s.toList e ∧ r = .ofFault s.toList e := by
  obtain ⟨e, houtcome, hr⟩ := exists_fault_of_parse h
  exact ⟨e, wholeTerm_faults houtcome, hr⟩

theorem FailsAt.not_completes {cs : List Char} {e : Fault}
    (h : FailsAt start cs e) : ¬ Completes cs := by
  rintro ⟨ws, o, htokens, hafter, hcomplete⟩
  obtain ⟨vs, mid, o', hread, hvs, hstuck, -⟩ := h
  rw [hread.tokens?_eq] at htokens
  obtain ⟨us, hus, rfl⟩ := Option.map_eq_some_iff.1 htokens
  rw [Outlook.after?_append, hvs] at hafter
  exact hstuck.not_isComplete_after hus hafter hcomplete

theorem exists_parse_iff {s : String} :
    (∃ t, parse s = .ok t) ↔ Completes s.toList := by
  constructor
  · rintro ⟨t, h⟩
    exact completes_of_parse h
  · intro h
    cases hparse : parse s with
    | ok t => exact ⟨t, rfl⟩
    | error r =>
        obtain ⟨e, hfails, -⟩ := failsAt_of_parse hparse
        exact absurd h hfails.not_completes

theorem parse_eq_error_iff {s : String} {r : Rejection} :
    parse s = .error r ↔
      ∃ e, FailsAt start s.toList e ∧ r = .ofFault s.toList e := by
  constructor
  · exact failsAt_of_parse
  · rintro ⟨e, hfails, rfl⟩
    cases hparse : parse s with
    | ok t => exact absurd (completes_of_parse hparse) hfails.not_completes
    | error r =>
        obtain ⟨e', hfails', rfl⟩ := failsAt_of_parse hparse
        rw [hfails.unique hfails']

end Nameless.Surface
