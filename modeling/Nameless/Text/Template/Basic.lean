import Nameless.Text.Template.Field

/-!
# Templates

A template is a text with fields in braces.  A field without a name stands
for the next argument and one with a number for the argument of that number.
A brace written twice stands for itself.  Fields are filled from left to
right, and what is filled in is not read again.  The layout of a field may
hold fields of its own, but these no further ones.
-/

namespace Nameless.Text.Template

/-- What a template is made of. -/
inductive Piece where
  | literal (c : Char)
  | field (field : Field)
  | fault (e : TemplateFault)

/-- The pieces of a template, up to the first fault. -/
def pieces (cs : List Char) : List Piece :=
  match cs with
  | [] => []
  | '\x7d' :: '\x7d' :: cs => .literal '\x7d' :: pieces cs
  | '\x7d' :: _ => [.fault .loneClose]
  | ['\x7b'] => [.fault .loneOpen]
  | '\x7b' :: '\x7b' :: cs => .literal '\x7b' :: pieces cs
  | '\x7b' :: cs =>
    match hfield : readField cs with
    | .error e => [.fault e]
    | .ok (field, rest) =>
      have := readField_length hfield
      .field field :: pieces rest
  | c :: cs => .literal c :: pieces cs
termination_by cs.length
decreasing_by
  all_goals
    simp only [List.length_cons]
    omega

/-- A character that is no brace stands for itself. -/
theorem pieces_cons {c : Char} (ho : c ≠ '\x7b') (hc : c ≠ '\x7d')
    (cs : List Char) : pieces (c :: cs) = .literal c :: pieces cs := by
  rw [pieces]
  · exact fun _ h _ ↦ hc h
  · exact fun h ↦ hc h
  · exact fun h _ ↦ ho h
  · exact fun _ h _ ↦ ho h
  · exact fun h ↦ ho h

/-- Two braces that follow each other are a field without a name. -/
theorem pieces_next (cs : List Char) :
    pieces ('\x7b' :: '\x7d' :: cs) = .field ⟨[], none, []⟩ :: pieces cs := by
  rw [pieces]
  · rfl
  · simp
  · simp

/-- A text that a template was filled to, and the numbering after it. -/
abbrev Filling := Except TemplateFault (List Char × Numbering)

/-- Fills pieces in order, where `expand` fills the layouts that hold
fields. -/
def fillPieces (expand : Numbering → List Char → Filling)
    (args : List String) (numbering : Numbering) : List Piece → Filling
  | [] => .ok ([], numbering)
  | .fault e :: _ => .error e
  | .literal c :: pieces => do
    let (filled, numbering) ← fillPieces expand args numbering pieces
    return (c :: filled, numbering)
  | .field field :: pieces => do
    let (text, numbering) ← field.text args numbering
    let (layout, numbering) ←
      if field.layout.contains '\x7b' then expand numbering field.layout
      else .ok (field.layout, numbering)
    let text ← (layOut layout text).mapError .layout
    let (filled, numbering) ← fillPieces expand args numbering pieces
    return (text ++ filled, numbering)

@[simp] theorem fillPieces_nil (expand : Numbering → List Char → Filling)
    (args : List String) (numbering : Numbering) :
    fillPieces expand args numbering [] = .ok ([], numbering) := rfl

theorem fillPieces_literal (expand : Numbering → List Char → Filling)
    (args : List String) (numbering : Numbering) (c : Char)
    (pieces : List Piece) :
    fillPieces expand args numbering (.literal c :: pieces) =
      (fillPieces expand args numbering pieces).map fun filling ↦
        (c :: filling.1, filling.2) := by
  rw [fillPieces]
  cases fillPieces expand args numbering pieces <;> rfl

/-- A field without a name takes the next argument as it is. -/
theorem fillPieces_next (expand : Numbering → List Char → Filling)
    {args : List String} {numbering next : Numbering} {i : Nat} {arg : String}
    (hplace : numbering.place [] = .ok (i, next)) (harg : args[i]? = some arg)
    (pieces : List Piece) :
    fillPieces expand args numbering (.field ⟨[], none, []⟩ :: pieces) =
      (fillPieces expand args next pieces).map fun filling ↦
        (arg.toList ++ filling.1, filling.2) := by
  have hfield : Field.text ⟨[], none, []⟩ args numbering =
      .ok (arg.toList, next) := by
    simp [Field.text, hplace, follow, convert, harg, bind, Except.bind, pure,
      Except.pure]
  rw [fillPieces]
  simp only [hfield, layOut_nil, bind, Except.bind]
  cases fillPieces expand args next pieces <;> rfl

/-- Fills a template in which fields may stand in each other to a depth. -/
def fill (args : List String) :
    (depth : Nat) → Numbering → List Char → Filling
  | 0, _, _ => .error .tooDeep
  | depth + 1, numbering, cs =>
    fillPieces (fill args depth) args numbering (pieces cs)

/-- The template with its fields filled. -/
def format (template : String) (args : List String) :
    Except TemplateFault String :=
  (fill args 2 .undecided template.toList).map fun filling ↦
    String.ofList filling.1

end Nameless.Text.Template
