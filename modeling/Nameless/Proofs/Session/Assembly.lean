import Nameless.Proofs.Text.Blank
import Nameless.Session.Draft

/-!
# How lines make statements

While lines are taken in, only the last statement can still be open.  `gather`
keeps that statement apart from the finished ones; `assemble_eq_gather` says
that it makes the same statements.  They come with the numbers of the lines
they begin on, which grow.
-/

namespace Nameless.Session

/-- The statement that a line goes on with, if one is open, or begins. -/
def extended (open? : Option Draft) (line : String) (number : Nat) : Draft :=
  match open? with
  | none => ⟨cleaned line, number⟩
  | some draft => ⟨joined draft.text (cleaned line), draft.number⟩

/-- The statements that lines make after the one that is still open, if any.
A line left blank begins none. -/
def gather (open? : Option Draft) (number : Nat) : List String → List Draft
  | [] => open?.toList
  | line :: lines =>
    let draft := extended open? line number
    if isOpen draft.text then gather (some draft) (number + 1) lines
    else if open?.isNone && draft.text.isEmpty then
      gather none (number + 1) lines
    else draft :: gather none (number + 1) lines

variable {open? : Option Draft} {line : String} {number : Nat}

/-! ## One line -/

theorem not_isOpen_empty : isOpen "" = false := by decide

theorem gather_of_open (h : isOpen (extended open? line number).text = true)
    (lines : List String) :
    gather open? number (line :: lines) =
      gather (some (extended open? line number)) (number + 1) lines := by
  rw [gather, if_pos h]

theorem gather_of_blank (h : cleaned line = "") (number : Nat)
    (lines : List String) :
    gather none number (line :: lines) = gather none (number + 1) lines := by
  have hclosed : isOpen (extended none line number).text = false := by
    rw [extended, h]
    exact not_isOpen_empty
  rw [gather, if_neg (by simp [hclosed]), if_pos (by simp [extended, h])]

theorem gather_of_closed (h : isOpen (extended open? line number).text = false)
    (hbegun : open? = none → cleaned line ≠ "") (lines : List String) :
    gather open? number (line :: lines) =
      extended open? line number :: gather none (number + 1) lines := by
  have hkept : (open?.isNone && (extended open? line number).text.isEmpty) =
      false := by
    cases open? with
    | none => simpa [extended, String.isEmpty_iff] using hbegun rfl
    | some draft => rfl
  rw [gather, if_neg (by simp [h]), if_neg (by simp [hkept])]

theorem takeLine_of_blank (h : cleaned line = "") (drafts : List Draft)
    (number : Nat) : takeLine drafts false line number = ⟨drafts, "", false⟩ := by
  simp [takeLine, h, not_isOpen_empty]

/-- The statements that are finished, followed by the one that is open, are
those that were taken in so far. -/
theorem takeLine_extended (hbegun : open? = none → cleaned line ≠ "")
    (drafts : List Draft) (number : Nat) :
    takeLine (drafts ++ open?.toList) open?.isSome line number =
      ⟨drafts ++ [extended open? line number],
        (extended open? line number).text,
        isOpen (extended open? line number).text⟩ := by
  cases open? with
  | none => simp [takeLine, extended, hbegun rfl]
  | some draft => simp [takeLine, extended]

/-! ## All lines -/

theorem takeLines_eq_gather (open? : Option Draft) (lines : List String)
    (drafts : List Draft) (number : Nat) :
    takeLines (drafts ++ open?.toList) open?.isSome number lines =
      drafts ++ gather open? number lines := by
  induction lines generalizing open? drafts number with
  | nil => rfl
  | cons line lines ih =>
      by_cases hblank : open? = none ∧ cleaned line = ""
      · obtain ⟨rfl, hempty⟩ := hblank
        rw [gather_of_blank hempty, takeLines, Option.toList_none,
          List.append_nil, Option.isSome_none, takeLine_of_blank hempty,
          ← ih none drafts (number + 1)]
        simp
      rw [not_and] at hblank
      -- From here on the line is part of a statement, which it may finish.
      rw [takeLines, takeLine_extended hblank]
      dsimp only
      by_cases hopen : isOpen (extended open? line number).text = true
      · rw [gather_of_open hopen, hopen,
          ← ih (some (extended open? line number)) drafts (number + 1)]
        rfl
      · rw [Bool.not_eq_true] at hopen
        have hrest := ih none (drafts ++ [extended open? line number]) (number + 1)
        rw [gather_of_closed hopen hblank, hopen]
        simpa using hrest

theorem assemble_eq_gather (lines : List String) :
    assemble lines = gather none 1 lines :=
  takeLines_eq_gather none lines [] 1

/-! ## Where statements begin -/

/-- The first line that a statement still to come can begin on. -/
def firstNumber (open? : Option Draft) (number : Nat) : Nat :=
  open?.elim number Draft.number

theorem number_extended (open? : Option Draft) (line : String) (number : Nat) :
    (extended open? line number).number = firstNumber open? number := by
  cases open? with
  | none => rw [extended, firstNumber, Option.elim_none]
  | some draft => rw [extended, firstNumber, Option.elim_some]

theorem numbers_gather (lines : List String)
    (hopen : firstNumber open? number ≤ number) :
    (∀ draft ∈ gather open? number lines,
        firstNumber open? number ≤ draft.number) ∧
      (gather open? number lines).Pairwise (·.number < ·.number) := by
  fun_induction gather open? number lines with
  | case1 open? number =>
      cases open? with
      | none => simp
      | some draft => simp [firstNumber]
  | case2 open? number line lines draft h ih =>
      have hnumber : firstNumber (some draft) (number + 1) =
          firstNumber open? number := number_extended open? line number
      rw [hnumber] at ih
      exact ih (Nat.le_succ_of_le hopen)
  | case3 open? number line lines draft h hblank ih =>
      obtain ⟨hlater, hpairwise⟩ := ih le_rfl
      refine ⟨fun draft hdraft ↦ ?_, hpairwise⟩
      exact hopen.trans ((Nat.le_succ number).trans (hlater draft hdraft))
  | case4 open? number line lines draft h hblank ih =>
      obtain ⟨hlater, hpairwise⟩ := ih le_rfl
      have hnumber : draft.number = firstNumber open? number :=
        number_extended open? line number
      have hnext : ∀ other ∈ gather none (number + 1) lines,
          draft.number < other.number := by
        intro other hother
        rw [hnumber]
        exact hopen.trans_lt (hlater other hother)
      refine ⟨?_, List.pairwise_cons.2 ⟨hnext, hpairwise⟩⟩
      intro other hother
      rcases List.mem_cons.1 hother with rfl | hother
      · exact hnumber.ge
      · exact hnumber.ge.trans (hnext other hother).le

/-- The statements of a file begin on different lines, in the order of the
file. -/
theorem numbers_assemble (lines : List String) :
    (assemble lines).Pairwise (·.number < ·.number) := by
  rw [assemble_eq_gather]
  exact (numbers_gather lines le_rfl).2

/-- A text with something in it and no blanks around it. -/
structure Trimmed (text : String) : Prop where
  trim_eq : Text.trim text = text
  ne_empty : text ≠ ""

theorem toList_prefix_joined {text : String} (h : Trimmed text) (line : String) :
    text.toList <+: (joined text line).toList := by
  have hnonempty : text.toList ≠ [] := by
    simpa [String.toList_eq_nil_iff] using h.ne_empty
  rw [joined, String.append_assoc, Text.toList_trim, String.toList_append]
  exact Text.prefix_trim_append (Text.trimStart_of_trim h.trim_eq)
    (Text.trimEnd_of_trim h.trim_eq) hnonempty _

theorem Trimmed.joined {text : String} (h : Trimmed text) (line : String) :
    Trimmed (joined text line) where
  trim_eq := Text.trim_trim _
  ne_empty hempty := by
    have hpart := toList_prefix_joined h line
    rw [hempty] at hpart
    exact h.ne_empty (String.toList_eq_nil_iff.1 (List.prefix_nil.1 hpart))

theorem trimmed_extended (hopen : ∀ draft ∈ open?, Trimmed draft.text)
    (hbegun : open? = none → cleaned line ≠ "") (number : Nat) :
    Trimmed (extended open? line number).text := by
  cases open? with
  | none => exact ⟨Text.trim_trim _, hbegun rfl⟩
  | some draft => exact (hopen draft rfl).joined (cleaned line)

/-- A statement is an earlier part of itself, or more of it. -/
def GoesOn (first draft : Draft) : Prop :=
  draft.number = first.number ∧ first.text.toList <+: draft.text.toList

theorem GoesOn.trans {first second third : Draft} (h : GoesOn first second)
    (h' : GoesOn second third) : GoesOn first third :=
  ⟨h'.1.trans h.1, h.2.trans h'.2⟩

theorem goesOn_extended {first : Draft} (h : Trimmed first.text) (line : String)
    (number : Nat) : GoesOn first (extended (some first) line number) :=
  ⟨number_extended (some first) line number,
    toList_prefix_joined h (cleaned line)⟩

/-- A statement begins on the line that has its number, where lines are counted
from some number on: its text begins with what the line says. -/
def BeginsIn (number : Nat) (lines : List String) (draft : Draft) : Prop :=
  ∃ i line, draft.number = number + i ∧ lines[i]? = some line ∧
    cleaned line ≠ "" ∧ (cleaned line).toList <+: draft.text.toList

theorem BeginsIn.cons {lines : List String} {draft : Draft}
    (h : BeginsIn (number + 1) lines draft) (line : String) :
    BeginsIn number (line :: lines) draft := by
  obtain ⟨i, first, hnumber, hget, hbegun⟩ := h
  exact ⟨i + 1, first, by omega, hget, hbegun⟩

theorem GoesOn.of_extended {draft : Draft}
    (h : GoesOn (extended open? line number) draft)
    (hopen : ∀ first ∈ open?, Trimmed first.text)
    (hbegun : open? = none → cleaned line ≠ "") (lines : List String) :
    (∃ first ∈ open?, GoesOn first draft) ∨
      BeginsIn number (line :: lines) draft := by
  cases open? with
  | none => exact .inr ⟨0, line, h.1, rfl, hbegun rfl, h.2⟩
  | some first =>
      have hfirst := goesOn_extended (hopen first rfl) line number
      exact .inl ⟨first, rfl, hfirst.trans h⟩

/-- A line that is not left blank is part of a statement. -/
theorem exists_goesOn_extended (line : String) (number : Nat)
    (hopen : ∀ first ∈ open?, Trimmed first.text)
    (hbegun : open? = none → cleaned line ≠ "") (lines : List String) :
    ∃ draft ∈ gather open? number (line :: lines),
      GoesOn (extended open? line number) draft := by
  induction lines generalizing open? line number with
  | nil =>
      refine ⟨extended open? line number, ?_, rfl, List.prefix_refl _⟩
      cases h : isOpen (extended open? line number).text with
      | true =>
          rw [gather_of_open h]
          exact List.mem_singleton_self _
      | false =>
          rw [gather_of_closed h hbegun]
          exact List.mem_cons_self
  | cons next lines ih =>
      cases h : isOpen (extended open? line number).text with
      | true =>
          have htrimmed := trimmed_extended hopen hbegun number
          have hnext : ∀ first ∈ some (extended open? line number),
              Trimmed first.text := by
            rintro first ⟨⟩
            exact htrimmed
          rw [gather_of_open h]
          obtain ⟨draft, hdraft, hgoes⟩ := ih next (number + 1) hnext (by simp)
          have hfirst := goesOn_extended htrimmed next (number + 1)
          exact ⟨draft, hdraft, hfirst.trans hgoes⟩
      | false =>
          rw [gather_of_closed h hbegun]
          exact ⟨_, List.mem_cons_self, rfl, List.prefix_refl _⟩

/-- Statements go on with the open one or begin in the lines. -/
theorem begins_gather (lines : List String)
    (hopen : ∀ first ∈ open?, Trimmed first.text) :
    ∀ draft ∈ gather open? number lines, Trimmed draft.text ∧
      ((∃ first ∈ open?, GoesOn first draft) ∨
        BeginsIn number lines draft) := by
  fun_induction gather open? number lines with
  | case1 open? number =>
      intro draft hdraft
      have hmem : draft ∈ open? := Option.mem_toList.1 hdraft
      exact ⟨hopen draft hmem, .inl ⟨draft, hmem, rfl, List.prefix_refl _⟩⟩
  | case2 open? number line lines extension h ih =>
      have hbegun : open? = none → cleaned line ≠ "" := by
        rintro rfl hempty
        change isOpen (cleaned line) = true at h
        rw [hempty, not_isOpen_empty] at h
        cases h
      have htrimmed := trimmed_extended hopen hbegun number
      intro draft hdraft
      obtain ⟨hdraft, ⟨first, hfirst, hgoes⟩ | hbegins⟩ := ih
        (by rintro first ⟨⟩; exact htrimmed) draft hdraft
      · have hsame : extension = first := Option.mem_some.1 hfirst
        rw [← hsame] at hgoes
        exact ⟨hdraft, hgoes.of_extended hopen hbegun lines⟩
      · exact ⟨hdraft, .inr (hbegins.cons line)⟩
  | case3 open? number line lines extension h hblank ih =>
      intro draft hdraft
      obtain ⟨hdraft, ⟨first, hfirst, -⟩ | hbegins⟩ :=
        ih (by simp) draft hdraft
      · cases hfirst
      · exact ⟨hdraft, .inr (hbegins.cons line)⟩
  | case4 open? number line lines extension h hblank ih =>
      have hbegun : open? = none → cleaned line ≠ "" := by
        rintro rfl hempty
        apply hblank
        simp [extension, extended, hempty]
      have htrimmed := trimmed_extended hopen hbegun number
      intro draft hdraft
      rcases List.mem_cons.1 hdraft with rfl | hdraft
      · have hgoes : GoesOn extension extension := ⟨rfl, List.prefix_refl _⟩
        exact ⟨htrimmed, hgoes.of_extended hopen hbegun lines⟩
      · obtain ⟨hdraft, ⟨first, hfirst, -⟩ | hbegins⟩ :=
          ih (by simp) draft hdraft
        · cases hfirst
        · exact ⟨hdraft, .inr (hbegins.cons line)⟩

/-- Every statement of a file begins on the line that has its number. -/
theorem begins_assemble {lines : List String} {draft : Draft}
    (h : draft ∈ assemble lines) :
    Trimmed draft.text ∧ BeginsIn 1 lines draft := by
  rw [assemble_eq_gather] at h
  obtain ⟨htrimmed, ⟨first, hfirst, -⟩ | hbegins⟩ :=
    begins_gather lines (by simp) draft h
  · cases hfirst
  · exact ⟨htrimmed, hbegins⟩

end Nameless.Session
