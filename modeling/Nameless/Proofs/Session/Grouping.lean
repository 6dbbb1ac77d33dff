import Nameless.Proofs.Session.Assembly
import Nameless.Proofs.Session.Comment
import Nameless.Text.Slice

/-!
# Statements as groups of pieces

A line says what stands before its comment, without the blanks around it.  The
statements of a file share out what its lines say, in order and each of it
once: `statements_group_pieces`.
-/

namespace Nameless.Session

open Text (trim)

/-! ## What lines say -/

/-- The text up to the first `;;`, or all of it. -/
def beforeComment (cs : List Char) : List Char :=
  match Text.find? [';', ';'] cs with
  | none => cs
  | some i => cs.take i

/-- What a line says, and the number of the line. -/
structure Piece where
  text : String
  number : Nat
deriving DecidableEq

def said (line : String) : String :=
  trim (String.ofList (beforeComment line.toList))

/-- The pieces of lines that are counted from some number on.  A line that says
nothing has none. -/
def pieces (number : Nat) : List String → List Piece
  | [] => []
  | line :: lines =>
    if said line = "" then pieces (number + 1) lines
    else ⟨said line, number⟩ :: pieces (number + 1) lines

theorem pieces_of_eq {line : String} (h : said line = "") (number : Nat)
    (lines : List String) :
    pieces number (line :: lines) = pieces (number + 1) lines := by
  rw [pieces, if_pos h]

theorem pieces_of_ne {line : String} (h : said line ≠ "") (number : Nat)
    (lines : List String) :
    pieces number (line :: lines) =
      ⟨said line, number⟩ :: pieces (number + 1) lines := by
  rw [pieces, if_neg h]

theorem uncommented_eq_beforeComment (cs : List Char) :
    uncommented cs = beforeComment cs := by
  fun_induction uncommented cs with
  | case1 => rfl
  | case2 cs => rfl
  | case3 c cs hmarker ih =>
      have hhere : [';', ';'].isPrefixOf (c :: cs) = false := by
        rw [Bool.eq_false_iff, ne_eq, List.isPrefixOf_iff_prefix,
          List.cons_prefix_cons]
        rintro ⟨hc, tail, htail⟩
        exact hmarker tail hc.symm htail.symm
      rw [ih, beforeComment, beforeComment, Text.find?, hhere]
      cases Text.find? [';', ';'] cs with
      | none => rfl
      | some i => rfl

theorem cleaned_eq_said (line : String) : cleaned line = said line := by
  rw [cleaned, said, uncommented_eq_beforeComment]

/-! ## Groups -/

def OpensMore (text : String) : Prop :=
  text.toList.count ')' < text.toList.count '('

theorem isOpen_eq_true_iff {text : String} :
    isOpen text = true ↔ OpensMore text := by
  rw [isOpen, decide_eq_true_iff, OpensMore]

/-- The pieces with single spaces between them. -/
def spaced (group : List Piece) : String :=
  " ".intercalate (group.map Piece.text)

theorem spaced_concat {group : List Piece} (h : group ≠ []) (piece : Piece) :
    spaced (group ++ [piece]) = spaced group ++ " " ++ piece.text := by
  have htexts : group.map Piece.text ≠ [] := by simpa using h
  rw [spaced, List.map_append,
    String.intercalate_append_of_ne_nil htexts (by simp)]
  simp [spaced]

/-- A statement is made of a group of pieces: it is their text, it has the
number of the first, and it went on after each but the last because it opened
more parentheses than it closed. -/
structure Makes (group : List Piece) (draft : Draft) : Prop where
  ne_nil : group ≠ []
  text_eq : draft.text = spaced group
  text_ne : draft.text ≠ ""
  number_eq : group.head?.map Piece.number = some draft.number
  goes_on : ∀ part, part <+: group → part ≠ [] → part ≠ group →
    OpensMore (spaced part)

theorem joined_of_trimmed {text line : String} (htext : Trimmed text)
    (hline : Trimmed line) : joined text line = text ++ " " ++ line := by
  have htextNe : text.toList ≠ [] := by
    simpa [String.toList_eq_nil_iff] using htext.ne_empty
  have hlineNe : line.toList ≠ [] := by
    simpa [String.toList_eq_nil_iff] using hline.ne_empty
  have hstart := Text.trimStart_append (Text.trimStart_of_trim htext.trim_eq)
    htextNe (' ' :: line.toList)
  have hend := Text.trimEnd_append (Text.trimEnd_of_trim hline.trim_eq) hlineNe
    (text.toList ++ [' '])
  rw [List.append_assoc, List.singleton_append] at hend
  apply String.toList_inj.1
  rw [joined, Text.toList_trim]
  simp [hstart, hend]

theorem joined_empty {text : String} (h : Trimmed text) :
    joined text "" = text := by
  have hend : Text.trimEnd (text.toList ++ [' ']) = text.toList := by
    rw [Text.trimEnd_eq_rdropWhile,
      List.rdropWhile_concat_pos Text.isBlank _ _ (by decide)]
    exact Text.trimEnd_of_trim h.trim_eq
  have hne : text.toList ≠ [] := by
    simpa [String.toList_eq_nil_iff] using h.ne_empty
  apply String.toList_inj.1
  rw [joined, Text.toList_trim]
  simp [Text.trimStart_append (Text.trimStart_of_trim h.trim_eq) hne, hend]

theorem makes_singleton {piece : Piece} (h : piece.text ≠ "") :
    Makes [piece] ⟨piece.text, piece.number⟩ where
  ne_nil := List.cons_ne_nil _ _
  text_eq := by simp [spaced]
  text_ne := h
  number_eq := rfl
  goes_on part hpart hne hproper := by
    have hlen := hpart.length_le
    have hpos := List.length_pos_iff.2 hne
    exact absurd (hpart.eq_of_length_le hpos) hproper

theorem Makes.concat {group : List Piece} {draft : Draft} {piece : Piece}
    (h : Makes group draft) (hopen : OpensMore draft.text)
    (htext : Trimmed draft.text) (hpiece : Trimmed piece.text) :
    Makes (group ++ [piece]) ⟨joined draft.text piece.text, draft.number⟩ where
  ne_nil := by simp
  text_eq := by
    rw [joined_of_trimmed htext hpiece, spaced_concat h.ne_nil, h.text_eq]
  text_ne := (htext.joined piece.text).ne_empty
  number_eq := by rw [List.head?_append_of_ne_nil _ h.ne_nil, h.number_eq]
  goes_on part hpart hne hproper := by
    -- A proper part stops at the group so far, or before its end.
    have hpart := List.prefix_concat_iff.1 hpart |>.resolve_left hproper
    by_cases hall : part = group
    · rw [hall, ← h.text_eq]
      exact hopen
    · exact h.goes_on part hpart hne hall

/-! ## Lines -/

variable {open? : Option Draft} {group : List Piece} {line : String}
  {number : Nat}

/-- The pieces that were not given to a finished statement, which are those of
the statement that is open. -/
inductive Holding : Option Draft → List Piece → Prop
  | nothing : Holding none []
  | statement {draft : Draft} {group : List Piece} (h : Makes group draft)
      (hopen : OpensMore draft.text) (htext : Trimmed draft.text) :
      Holding (some draft) group

theorem trimmed_said (h : said line ≠ "") : Trimmed (said line) :=
  ⟨Text.trim_trim _, h⟩

/-- A line that says nothing leaves an open statement as it is. -/
theorem extended_of_said_eq {draft : Draft} (htext : Trimmed draft.text)
    (hline : said line = "") (number : Nat) :
    extended (some draft) line number = draft := by
  rw [extended, cleaned_eq_said, hline, joined_empty htext]

namespace Holding

theorem trimmed (h : Holding open? group) :
    ∀ draft ∈ open?, Trimmed draft.text := by
  cases h with
  | nothing => simp
  | statement h hopen htext =>
      rintro draft ⟨⟩
      exact htext

theorem makes_extended (h : Holding open? group) (hline : said line ≠ "")
    (number : Nat) :
    Makes (group ++ [⟨said line, number⟩]) (extended open? line number) := by
  cases h with
  | nothing =>
      rw [extended, cleaned_eq_said]
      exact makes_singleton hline
  | statement h hopen htext =>
      rw [extended, cleaned_eq_said]
      exact h.concat hopen htext (trimmed_said hline)

/-- A line after which a statement is open leaves what it says with that
statement. -/
theorem exists_extended (h : Holding open? group)
    (hopen : OpensMore (extended open? line number).text)
    (lines : List String) :
    ∃ group', Holding (some (extended open? line number)) group' ∧
      group ++ pieces number (line :: lines) =
        group' ++ pieces (number + 1) lines := by
  by_cases hline : said line = ""
  · rw [pieces_of_eq hline]
    cases h with
    | nothing =>
        rw [extended, cleaned_eq_said, hline] at hopen
        exact absurd hopen (lt_irrefl 0)
    | statement h hdraft htext =>
        rw [extended_of_said_eq htext hline]
        exact ⟨group, .statement h hdraft htext, rfl⟩
  · rw [pieces_of_ne hline]
    have hbegun : open? = none → cleaned line ≠ "" := by
      rintro -
      rwa [cleaned_eq_said]
    have htext := trimmed_extended h.trimmed hbegun number
    exact ⟨_, .statement (h.makes_extended hline number) hopen htext,
      List.append_cons _ _ _⟩

/-- A line that ends a statement says something. -/
theorem said_ne (h : Holding open? group)
    (hclosed : ¬ OpensMore (extended open? line number).text)
    (hbegun : open? = none → (extended open? line number).text ≠ "") :
    said line ≠ "" := by
  intro hline
  cases h with
  | nothing =>
      rw [extended, cleaned_eq_said] at hbegun
      exact hbegun rfl hline
  | statement h hopen htext =>
      rw [extended_of_said_eq htext hline] at hclosed
      exact hclosed hopen

end Holding

theorem closed_cons {draft : Draft} {drafts : List Draft}
    (hdraft : ¬ OpensMore draft.text)
    (hdrafts : ∀ other ∈ drafts.dropLast, ¬ OpensMore other.text) :
    ∀ other ∈ (draft :: drafts).dropLast, ¬ OpensMore other.text := by
  intro other hother
  by_cases hlast : drafts = []
  · rw [hlast] at hother
    cases hother
  · rw [List.dropLast_cons_of_ne_nil hlast] at hother
    rcases List.mem_cons.1 hother with rfl | hother
    · exact hdraft
    · exact hdrafts other hother

/-- What lines say, together with what was said by an open statement, is shared
out among the statements. -/
theorem groups_gather (open? : Option Draft) (number : Nat)
    (lines : List String) : ∀ group, Holding open? group →
    ∃ groups : List (List Piece),
      groups.flatten = group ++ pieces number lines ∧
      List.Forall₂ Makes groups (gather open? number lines) ∧
      ∀ draft ∈ (gather open? number lines).dropLast,
        ¬ OpensMore draft.text := by
  fun_induction gather open? number lines with
  | case1 open? number =>
      intro group h
      cases h with
      | nothing => exact ⟨[], rfl, .nil, by simp⟩
      | statement h hopen htext =>
          exact ⟨[group], by simp [pieces], .cons h .nil, by simp⟩
  | case2 open? number line lines draft hopen ih =>
      intro group h
      obtain ⟨group', hholding, hpieces⟩ :=
        h.exists_extended (isOpen_eq_true_iff.1 hopen) lines
      rw [hpieces]
      exact ih group' hholding
  | case3 open? number line lines draft hclosed hblank ih =>
      intro group h
      obtain ⟨hnone, hempty⟩ := Bool.and_eq_true_iff.1 hblank
      obtain rfl := Option.isNone_iff_eq_none.1 hnone
      have hsaid : said line = "" := by
        rw [← cleaned_eq_said]
        exact String.isEmpty_iff.1 hempty
      cases h with
      | nothing =>
          rw [pieces_of_eq hsaid]
          exact ih [] .nothing
  | case4 open? number line lines draft hclosed hblank ih =>
      intro group h
      rw [isOpen_eq_true_iff] at hclosed
      have hsaid : said line ≠ "" := by
        refine h.said_ne hclosed fun hnone hempty ↦ hblank ?_
        change draft.text = "" at hempty
        simp [hnone, hempty]
      obtain ⟨groups, hflatten, hmakes, hfinished⟩ := ih [] .nothing
      refine ⟨(group ++ [⟨said line, number⟩]) :: groups, ?_, ?_, ?_⟩
      · rw [List.flatten_cons, hflatten, pieces_of_ne hsaid]
        simp
      · exact .cons (h.makes_extended hsaid number) hmakes
      · exact closed_cons hclosed hfinished

/-- The statements of a file share out what its lines say.  Each is the text of
its pieces and has the number of the first, and only the last one can open more
parentheses than it closes. -/
theorem statements_group_pieces (lines : List String) :
    ∃ groups : List (List Piece),
      groups.flatten = pieces 1 lines ∧
      List.Forall₂ Makes groups (assemble lines) ∧
      (∀ draft ∈ (assemble lines).dropLast, ¬ OpensMore draft.text) ∧
      (assemble lines).Pairwise (·.number < ·.number) := by
  rw [assemble_eq_gather]
  obtain ⟨groups, hflatten, hmakes, hfinished⟩ :=
    groups_gather none 1 lines [] .nothing
  refine ⟨groups, hflatten, hmakes, hfinished, ?_⟩
  rw [← assemble_eq_gather]
  exact numbers_assemble lines

example :
    assemble ["(λx. ;; the head", "", " ;; (", "x) λy.y", "λz.z)", "((", ")"] =
      [⟨"(λx. x) λy.y", 1⟩, ⟨"λz.z)", 5⟩, ⟨"(( )", 6⟩] := by
  rfl

end Nameless.Session
