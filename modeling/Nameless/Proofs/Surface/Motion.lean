import Nameless.Proofs.Surface.Lookahead
import Nameless.Proofs.Surface.Place
import Nameless.Surface.Cursor

/-!
# How a cursor moves

A cursor never goes back and never leaves its text, whatever it is asked to
read and whether it finds that or not.  `Moves` has one rule for each way a
step ends and `moves_perform` is the step; a row of steps, which may go on
after a rejection, follows by induction.
-/

namespace Nameless.Surface

open Text (trimStart)

/-- A term that was read took something from the text, even if it is the whole
of it. -/
theorem wholeTerm_length_lt {cs : List Char} {t : Term}
    (h : (wholeTerm cs).outcome = .ok t) :
    (wholeTerm cs).rest.length < cs.length := by
  have hread := (allShrink .root cs).chain none
  rw [wholeTerm, expression] at h ⊢
  cases hout : (chain .root none cs).outcome with
  | error e =>
      simp only [Reading.bind, hout] at h
      cases h
  | ok a =>
      have hlt := hread.lt a hout rfl
      simp only [Reading.bind, hout] at h ⊢
      split at h
      · exact Nat.lt_of_le_of_lt (Nat.zero_le _) hlt
      · cases h

/-- Where no atom starts, only blanks are passed. -/
theorem rest_of_no_atom {ctx : Context} {cs : List Char}
    (h : (atom? ctx cs).outcome = .ok none) :
    (atom? ctx cs).rest = trimStart cs := by
  have hdone : atom? ctx cs = .done none (atom? ctx cs).rest := by
    rw [Reading.done, ← h]
  rw [atom?_of_stops (stops_of_atom?_eq_none hdone)]
  rfl

namespace Cursor

variable {c c' : Cursor} {step : Step} {answer : Answer}

/-! ## One step -/

/-- What a step that gave an answer did to the cursor. -/
inductive Moves (c : Cursor) : Step → Answer → Cursor → Prop
  | term {step : Step} {t : Term} {rest : List Char} (h : rest <:+ c.rest)
      (hlt : rest.length < c.rest.length) :
      Moves c step (.term t) { c with rest }
  | rejected {step : Step} {e : Fault} {rest : List Char}
      (hplace : e.StandsAt rest) (h : e.rest <:+ c.rest) :
      Moves c step (.rejected (.ofFault c.text e)) { c with rest }
  | blanks {step : Step} (hstep : step ≠ .name) :
      Moves c step .nothing { c with rest := trimStart c.rest }
  | char {choices rest : List Char} {d : Char} (h : c.rest = d :: rest) :
      Moves c (.char choices) (.flag true) { c with rest }
  | noChar (choices : List Char) : Moves c (.char choices) (.flag false) c
  | name {x : String} {rest : List Char} (h : name? c.rest = some (x, rest)) :
      Moves c .name (.name x) { c with rest }
  | noName : Moves c .name .nothing c

theorem moves_after_term {r : Reading Term} (hstays : Stays c.rest r)
    (hlt : ∀ t, r.outcome = .ok t → r.rest.length < c.rest.length) :
    c.Moves step (c.after .term r).1 (c.after .term r).2 := by
  rw [after]
  cases hout : r.outcome with
  | ok t => exact .term hstays.rest (hlt t hout)
  | error e =>
      obtain ⟨hplace, hsuffix⟩ := hstays.fault e hout
      exact .rejected hplace hsuffix

theorem moves_perform (c : Cursor) (step : Step) :
    c.Moves step (c.perform step).1 (c.perform step).2 := by
  cases step with
  | whole =>
      exact moves_after_term (wholeTerm_stays c.rest)
        fun _ ↦ wholeTerm_length_lt
  | expression ctx =>
      exact moves_after_term ((allStay ctx c.rest).chain none)
        fun t ht ↦ ((allShrink ctx c.rest).chain none).lt t ht rfl
  | atom ctx =>
      have hstays := (allStay ctx c.rest).atom
      rw [perform, after]
      cases hout : (atom? ctx c.rest).outcome with
      | ok found =>
          cases found with
          | none =>
              rw [rest_of_no_atom hout]
              exact .blanks (by simp)
          | some t =>
              have hlt := (allShrink ctx c.rest).atom.lt (some t) hout
                (Option.some_ne_none t)
              exact .term hstays.rest hlt
      | error e =>
          obtain ⟨hplace, hsuffix⟩ := hstays.fault e hout
          exact .rejected hplace hsuffix
  | binder ctx =>
      exact moves_after_term (allStay ctx c.rest).binder
        fun t ht ↦ (allShrink ctx c.rest).binder.lt t ht trivial
  | blanks => exact .blanks (by simp)
  | char choices =>
      rw [perform]
      split
      · exact .noChar choices
      · rename_i d rest hrest
        split
        · exact .char hrest
        · exact .noChar choices
  | name =>
      rw [perform]
      split
      · exact .noName
      · rename_i x rest hname
        exact .name hname

namespace Moves

theorem text_eq (h : c.Moves step answer c') : c'.text = c.text := by
  cases h <;> rfl

theorem suffix (h : c.Moves step answer c') : c'.rest <:+ c.rest := by
  cases h with
  | term h => exact h
  | rejected hplace h => exact hplace.suffix.trans h
  | blanks => exact trimStart_suffix c.rest
  | char h => exact h ▸ List.suffix_cons _ _
  | noChar => exact List.suffix_refl c.rest
  | name h => exact suffix_of_name? h
  | noName => exact List.suffix_refl c.rest

theorem pos_le (h : c.Moves step answer c') : c.pos ≤ c'.pos := by
  rw [pos, pos, h.text_eq]
  exact Nat.sub_le_sub_left h.suffix.length_le _

end Moves

/-! ## Rows of steps -/

/-- The cursor after steps, whatever their answers. -/
def performAll (c : Cursor) (steps : List Step) : Cursor :=
  steps.foldl (fun c step ↦ (c.perform step).2) c

theorem performAll_append (c : Cursor) (steps more : List Step) :
    c.performAll (steps ++ more) = (c.performAll steps).performAll more :=
  List.foldl_append

theorem text_performAll (c : Cursor) (steps : List Step) :
    (c.performAll steps).text = c.text := by
  induction steps generalizing c with
  | nil => rfl
  | cons step steps ih => exact (ih _).trans (c.moves_perform step).text_eq

theorem performAll_suffix (c : Cursor) (steps : List Step) :
    (c.performAll steps).rest <:+ c.rest := by
  induction steps generalizing c with
  | nil => exact List.suffix_refl c.rest
  | cons step steps ih => exact (ih _).trans (c.moves_perform step).suffix

theorem pos_le_performAll (c : Cursor) (steps : List Step) :
    c.pos ≤ (c.performAll steps).pos := by
  induction steps generalizing c with
  | nil => exact Nat.le_refl _
  | cons step steps ih => exact (c.moves_perform step).pos_le.trans (ih _)

/-- The cursor is at a place of the text. -/
structure StandsIn (c : Cursor) (text : List Char) : Prop where
  text_eq : c.text = text
  pos_le : c.pos ≤ text.length
  rest_eq : c.rest = text.drop c.pos

theorem standsIn_of_suffix {text : List Char} (htext : c.text = text)
    (h : c.rest <:+ text) : c.StandsIn text := by
  subst htext
  exact ⟨rfl, Nat.sub_le _ _, List.suffix_iff_eq_drop.1 h⟩

theorem standsIn_performAll (text : List Char) (steps : List Step) :
    ((ofList text).performAll steps).StandsIn text :=
  standsIn_of_suffix (text_performAll _ steps) (performAll_suffix _ steps)

theorem StandsIn.suffix {text : List Char} (h : c.StandsIn text) :
    c.rest <:+ c.text := by
  rw [h.rest_eq, h.text_eq]
  exact List.drop_suffix _ _

/-! ## Places of rejections -/

/-- Where reading stops for a rejection: at its place, or behind the name there
if that is unbound. -/
def stopFor (r : Rejection) : Int :=
  match r.cause with
  | .unbound _ => r.stop
  | _ => r.pos

theorem pos_of_standsAt {text : List Char} {e : Fault} {rest : List Char}
    (hplace : e.StandsAt rest) (hsuffix : e.rest <:+ text) :
    ((⟨text, rest⟩ : Cursor).pos : Int) = stopFor (.ofFault text e) := by
  obtain ⟨cause, found⟩ := e
  cases cause with
  | unbound x =>
      have hlength := congrArg List.length (eq_append_of_name? hplace).2
      have hle := hsuffix.length_le
      simp only [List.length_append, String.length_toList] at hlength hle
      simp only [stopFor, Rejection.stop, Rejection.ofFault, pos]
      omega
  | _ =>
      obtain rfl : found = rest := hplace
      rfl

/-! ## Any row of steps -/

/-- What a step did to a cursor, by its answer. -/
structure Advances (c : Cursor) (step : Step) (answer : Answer)
    (c' : Cursor) : Prop where
  text_eq : c'.text = c.text
  pos_le : c.pos ≤ c'.pos
  /-- Every term that is read takes something. -/
  term : ∀ t, answer = .term t → c.pos < c'.pos
  /-- Where nothing is found, at most blanks are passed. -/
  nothing : answer = .nothing → ∃ blanks, c.rest = blanks ++ c'.rest ∧
    ∀ b ∈ blanks, Text.isBlank b = true
  noChar : answer = .flag false → c' = c
  noName : step = .name → answer = .nothing → c' = c
  rejected : ∀ r, answer = .rejected r →
    r.text = String.ofList c.text ∧ (c'.pos : Int) = stopFor r

theorem Moves.advances (h : c.Moves step answer c') (hin : c.rest <:+ c.text) :
    c.Advances step answer c' where
  text_eq := h.text_eq
  pos_le := h.pos_le
  term := by
    rintro t rfl
    cases h with
    | term h hlt =>
        have hle := hin.length_le
        simp only [pos]
        omega
  nothing := by
    rintro rfl
    cases h with
    | blanks =>
        exact ⟨c.rest.takeWhile Text.isBlank,
          List.takeWhile_append_dropWhile.symm,
          fun _ hb ↦ List.mem_takeWhile_imp hb⟩
    | noName => exact ⟨[], rfl, by simp⟩
  noChar := by
    rintro rfl
    cases h
    rfl
  noName := by
    rintro rfl rfl
    cases h with
    | blanks hstep => exact absurd rfl hstep
    | noName => rfl
  rejected := by
    rintro r rfl
    cases h with
    | rejected hplace h => exact ⟨rfl, pos_of_standsAt hplace (h.trans hin)⟩

/-- After any steps a cursor stands in the text that it was given, and it has
not gone back; and so it does at the next step, which moves it by what it
answers. -/
theorem steps_advance (text : List Char) (steps : List Step) :
    ((ofList text).performAll steps).StandsIn text ∧
    (∀ more, ((ofList text).performAll steps).pos ≤
      ((ofList text).performAll (steps ++ more)).pos) ∧
    ∀ step, ((ofList text).performAll steps).Advances step
      (((ofList text).performAll steps).perform step).1
      (((ofList text).performAll steps).perform step).2 := by
  have hstands := standsIn_performAll text steps
  refine ⟨hstands, fun more ↦ ?_, fun step ↦ ?_⟩
  · rw [performAll_append]
    exact pos_le_performAll _ more
  · exact (moves_perform _ step).advances hstands.suffix

/-- A rejection leaves the cursor behind the unbound name, where the next steps
go on. -/
example : ((ofList "(x y)".toList).performAll [.whole, .blanks]).perform .name =
    (.name "y", ⟨"(x y)".toList, [')']⟩) := by
  cbv

end Cursor
end Nameless.Surface
