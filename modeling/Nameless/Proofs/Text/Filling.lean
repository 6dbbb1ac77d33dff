import Nameless.Text.Template.Basic

/-!
# Filled templates

A template of plain text and fields is filled to that text with the arguments
in place of the fields.  What an argument holds makes no difference: braces in
it are not read.
-/

namespace Nameless.Text.Template

/-- No brace stands in the text. -/
def Plain (cs : List Char) : Prop :=
  ∀ c ∈ cs, c ≠ '\x7b' ∧ c ≠ '\x7d'

instance (cs : List Char) : Decidable (Plain cs) :=
  List.decidableBAll (fun c ↦ c ≠ '\x7b' ∧ c ≠ '\x7d') cs

theorem pieces_append {cs : List Char} (h : Plain cs) (rest : List Char) :
    pieces (cs ++ rest) = cs.map .literal ++ pieces rest := by
  induction cs with
  | nil => rfl
  | cons c cs ih =>
      have hc := h c List.mem_cons_self
      have hcs : Plain cs := fun d hd ↦ h d (List.mem_cons_of_mem c hd)
      rw [List.cons_append, pieces_cons hc.1 hc.2, ih hcs]
      rfl

theorem ne_of_isDigit {c d : Char} (hd : d.isDigit = true)
    (hc : c.isDigit = false) : d ≠ c := by
  rintro rfl
  rw [hd] at hc
  cases hc

/-- A digit in braces is a field with a number. -/
theorem pieces_numbered {d : Char} (hd : d.isDigit = true)
    (rest : List Char) :
    pieces ('\x7b' :: d :: '\x7d' :: rest) =
      .field ⟨[d], none, []⟩ :: pieces rest := by
  have hopening : d ≠ '\x7b' := ne_of_isDigit hd (by decide)
  have hclosing : d ≠ '\x7d' := ne_of_isDigit hd (by decide)
  have hread : readField (d :: '\x7d' :: rest) =
      .ok (⟨[d], none, []⟩, rest) := by
    have hcolon : d ≠ ':' := ne_of_isDigit hd (by decide)
    have hmark : d ≠ '!' := ne_of_isDigit hd (by decide)
    have hbracket : d ≠ '[' := ne_of_isDigit hd (by decide)
    simp [readField, readName, hopening, hclosing, hcolon, hmark, hbracket,
      Except.map, bind, Except.bind, pure, Except.pure]
  rw [pieces]
  · split
    · rename_i e hfield
      rw [hread] at hfield
      cases hfield
    · rename_i field after hfield
      rw [hread] at hfield
      cases hfield
      rfl
  · simp
  · simpa using hopening

section Filling

variable {expand : Numbering → List Char → Filling} {args : List String}
  {numbering next : Numbering} {before : List Char} {i : Nat} {arg : String}

theorem fillPieces_literals (cs : List Char) (ps : List Piece) :
    fillPieces expand args numbering (cs.map .literal ++ ps) =
      (fillPieces expand args numbering ps).map fun filling ↦
        (cs ++ filling.1, filling.2) := by
  induction cs with
  | nil =>
      rw [List.map_nil, List.nil_append]
      cases fillPieces expand args numbering ps <;> rfl
  | cons c cs ih =>
      rw [List.map_cons, List.cons_append, fillPieces_literal, ih]
      cases fillPieces expand args numbering ps <;> rfl

/-- A field with a digit for its name takes the argument of that number as it
is. -/
theorem fillPieces_numbered {d : Char} (hd : d.isDigit = true)
    (hplace : numbering.place [d] = .ok (i, next)) (harg : args[i]? = some arg)
    (ps : List Piece) :
    fillPieces expand args numbering (.field ⟨[d], none, []⟩ :: ps) =
      (fillPieces expand args next ps).map fun filling ↦
        (arg.toList ++ filling.1, filling.2) := by
  have hdot : d ≠ '.' := ne_of_isDigit hd (by decide)
  have hbracket : d ≠ '[' := ne_of_isDigit hd (by decide)
  have hfield : Field.text ⟨[d], none, []⟩ args numbering =
      .ok (arg.toList, next) := by
    simp [Field.text, hdot, hbracket, hplace, follow, convert, harg, bind,
      Except.bind, pure, Except.pure]
  rw [fillPieces]
  simp only [hfield, layOut_nil, bind, Except.bind]
  cases fillPieces expand args next ps <;> rfl

/-! ## Text up to a field -/

theorem fill_plain (h : Plain before) :
    fillPieces expand args numbering (pieces before) =
      .ok (before, numbering) := by
  have hpieces : pieces before = before.map .literal ++ [] := by
    have happ := pieces_append h []
    rwa [List.append_nil, pieces] at happ
  rw [hpieces, fillPieces_literals, fillPieces_nil]
  simp [Except.map]

theorem fill_next (h : Plain before)
    (hplace : numbering.place [] = .ok (i, next)) (harg : args[i]? = some arg)
    (rest : List Char) :
    fillPieces expand args numbering
        (pieces (before ++ '\x7b' :: '\x7d' :: rest)) =
      (fillPieces expand args next (pieces rest)).map fun filling ↦
        (before ++ (arg.toList ++ filling.1), filling.2) := by
  rw [pieces_append h, pieces_next, fillPieces_literals,
    fillPieces_next expand hplace harg]
  cases fillPieces expand args next (pieces rest) <;> rfl

theorem fill_numbered (h : Plain before) {d : Char} (hd : d.isDigit = true)
    (hplace : numbering.place [d] = .ok (i, next)) (harg : args[i]? = some arg)
    (rest : List Char) :
    fillPieces expand args numbering
        (pieces (before ++ '\x7b' :: d :: '\x7d' :: rest)) =
      (fillPieces expand args next (pieces rest)).map fun filling ↦
        (before ++ (arg.toList ++ filling.1), filling.2) := by
  rw [pieces_append h, pieces_numbered hd, fillPieces_literals,
    fillPieces_numbered hd hplace harg]
  cases fillPieces expand args next (pieces rest) <;> rfl

end Filling

/-! ## Whole templates -/

section Format

variable {template : String}

theorem format_plain (h : Plain template.toList) (args : List String) :
    format template args = .ok template := by
  rw [format, fill, fill_plain h]
  simp [Except.map]

theorem format_next (before after : String) (htemplate : template.toList =
      before.toList ++ '\x7b' :: '\x7d' :: after.toList)
    (hbefore : Plain before.toList) (hafter : Plain after.toList)
    (arg : String) : format template [arg] = .ok (before ++ arg ++ after) := by
  rw [format, fill, htemplate,
    fill_next hbefore Numbering.place_undecided_nil rfl, fill_plain hafter]
  simp [Except.map, String.append_assoc]

theorem format_next_next (before between after : String)
    (htemplate : template.toList = before.toList ++ '\x7b' :: '\x7d' ::
      (between.toList ++ '\x7b' :: '\x7d' :: after.toList))
    (hbefore : Plain before.toList) (hbetween : Plain between.toList)
    (hafter : Plain after.toList) (first second : String) :
    format template [first, second] =
      .ok (before ++ first ++ between ++ second ++ after) := by
  rw [format, fill, htemplate,
    fill_next hbefore Numbering.place_undecided_nil rfl,
    fill_next hbetween (Numbering.place_automatic_nil 1) rfl,
    fill_plain hafter]
  simp [Except.map, String.append_assoc]

theorem format_numbered (before after : String) {d : Char} {i : Nat}
    (htemplate : template.toList =
      before.toList ++ '\x7b' :: d :: '\x7d' :: after.toList)
    (hbefore : Plain before.toList) (hafter : Plain after.toList)
    (hd : d.isDigit = true)
    (hplace : Numbering.undecided.place [d] = .ok (i, .manual))
    {args : List String} {arg : String} (harg : args[i]? = some arg) :
    format template args = .ok (before ++ arg ++ after) := by
  rw [format, fill, htemplate, fill_numbered hbefore hd hplace harg,
    fill_plain hafter]
  simp [Except.map, String.append_assoc]

end Format

end Nameless.Text.Template
