import Nameless.Text.Template.Fault

/-!
# Fields

A field stands in braces.  It names an argument, and in brackets after it
the place of one character of that argument; it may ask for the argument
quoted, and it may say how the result is laid out.
-/

namespace Nameless.Text.Template

structure Field where
  name : List Char
  conversion? : Option Char
  layout : List Char

/-! ## Reading a field -/

/-- The name of a field, the mark that ends it, and what follows.  Between
brackets no mark ends it. -/
def readName (inBrackets : Bool) :
    List Char → Except TemplateFault (List Char × Char × List Char)
  | [] => .error .unclosed
  | c :: cs =>
    if inBrackets then
      (readName (c ≠ ']') cs).map fun (name, rest) ↦ (c :: name, rest)
    else if c = '\x7b' then .error .openInField
    else if c = '\x7d' || c = ':' || c = '!' then .ok ([], c, cs)
    else (readName (c = '[') cs).map fun (name, rest) ↦ (c :: name, rest)

/-- What stands before the brace that closes a field, and what follows that
brace.  Braces opened in between are closed first. -/
def readLayout (depth : Nat) :
    List Char → Except TemplateFault (List Char × List Char)
  | [] => .error .unclosedLayout
  | c :: cs =>
    if c = '\x7d' then
      match depth with
      | 0 => .ok ([], cs)
      | depth + 1 =>
        (readLayout depth cs).map fun (layout, rest) ↦ (c :: layout, rest)
    else
      (readLayout (if c = '\x7b' then depth + 1 else depth) cs).map
        fun (layout, rest) ↦ (c :: layout, rest)

/-- A field whose opening brace was read, and what follows it. -/
def readField (cs : List Char) : Except TemplateFault (Field × List Char) := do
  let (name, mark, rest) ← readName false cs
  if mark = '\x7d' then return (⟨name, none, []⟩, rest)
  if mark = ':' then
    let (layout, rest) ← readLayout 0 rest
    return (⟨name, none, layout⟩, rest)
  match rest with
  | [] => throw .noConversion
  | [_] => throw .unclosedLayout
  | conversion :: '\x7d' :: rest => return (⟨name, some conversion, []⟩, rest)
  | conversion :: ':' :: rest =>
    let (layout, rest) ← readLayout 0 rest
    return (⟨name, some conversion, layout⟩, rest)
  | _ => throw .afterConversion

theorem readName_length {b : Bool} {cs name rest : List Char} {mark : Char}
    (h : readName b cs = .ok (name, mark, rest)) :
    rest.length < cs.length := by
  induction cs generalizing b name with
  | nil => simp [readName] at h
  | cons c cs ih =>
      have hmap : ∀ b', (readName b' cs).map
          (fun p ↦ (c :: p.1, p.2)) = .ok (name, mark, rest) →
          rest.length < (c :: cs).length := by
        intro b' h'
        cases hr : readName b' cs with
        | error e => simp [hr, Except.map] at h'
        | ok p =>
            obtain ⟨name', mark', rest'⟩ := p
            simp only [hr, Except.map, Except.ok.injEq, Prod.mk.injEq] at h'
            obtain ⟨-, rfl, rfl⟩ := h'
            exact Nat.lt_succ_of_lt (ih hr)
      unfold readName at h
      split at h
      · exact hmap _ h
      · split at h
        · cases h
        · split at h
          · cases h
            exact Nat.lt_succ_self _
          · exact hmap _ h

theorem readLayout_length {depth : Nat} {cs layout rest : List Char}
    (h : readLayout depth cs = .ok (layout, rest)) :
    rest.length < cs.length := by
  induction cs generalizing depth layout with
  | nil => simp [readLayout] at h
  | cons c cs ih =>
      have hmap : ∀ d, (readLayout d cs).map (fun p ↦ (c :: p.1, p.2)) =
          .ok (layout, rest) → rest.length < (c :: cs).length := by
        intro d h'
        cases hr : readLayout d cs with
        | error e => simp [hr, Except.map] at h'
        | ok p =>
            obtain ⟨layout', rest'⟩ := p
            simp only [hr, Except.map, Except.ok.injEq, Prod.mk.injEq] at h'
            obtain ⟨-, rfl⟩ := h'
            exact Nat.lt_succ_of_lt (ih hr)
      unfold readLayout at h
      split at h
      · split at h
        · cases h
          exact Nat.lt_succ_self _
        · exact hmap _ h
      · exact hmap _ h

/-- Reading a field takes something from the text. -/
theorem readField_length {cs rest : List Char} {field : Field}
    (h : readField cs = .ok (field, rest)) : rest.length < cs.length := by
  unfold readField at h
  simp only [bind, Except.bind, pure, Except.pure, throw,
    throwThe, MonadExceptOf.throw] at h
  cases hn : readName false cs with
  | error e => simp [hn] at h
  | ok p =>
      obtain ⟨name, mark, rest'⟩ := p
      have hlt := readName_length hn
      simp only [hn] at h
      split at h
      · cases h
        exact hlt
      · split at h
        · cases hl : readLayout 0 rest' with
          | error e => simp [hl] at h
          | ok q =>
              have := readLayout_length hl
              simp only [hl] at h
              cases h
              omega
        · split at h
          · cases h
          · cases h
          · cases h
            simp only [List.length_cons] at hlt
            omega
          · rename_i rest''
            cases hl : readLayout 0 rest'' with
            | error e => simp [hl] at h
            | ok q =>
                have := readLayout_length hl
                simp only [hl] at h
                cases h
                simp only [List.length_cons] at hlt
                omega
          · cases h

/-! ## What a field stands for -/

/-- How the fields seen so far were numbered. -/
inductive Numbering where
  | undecided
  | automatic (next : Nat)
  | manual

/-- The number that a name is, if it is one. -/
def index? (name : List Char) : Except TemplateFault (Option Nat) :=
  match leadingNumber name with
  | (none, _) => .ok none
  | (some n, rest) =>
    if largestNumber < n then .error .numberTooLarge
    else .ok (if rest.isEmpty then some n else none)

/-- The place of the argument that a name stands for, and the numbering from
then on.  No name stands for the next argument. -/
def Numbering.place (numbering : Numbering) (name : List Char) :
    Except TemplateFault (Nat × Numbering) :=
  if name.isEmpty then
    match numbering with
    | .manual => .error .automaticAfterManual
    | .automatic next => .ok (next, .automatic (next + 1))
    | .undecided => .ok (0, .automatic 1)
  else
    match index? name with
    | .error e => .error e
    | .ok none => .error (.unknownName (String.ofList name))
    | .ok (some i) =>
      match numbering with
      | .automatic _ => .error .manualAfterAutomatic
      | _ => .ok (i, .manual)

@[simp] theorem Numbering.place_undecided_nil :
    Numbering.undecided.place [] = .ok (0, .automatic 1) := rfl

@[simp] theorem Numbering.place_automatic_nil (next : Nat) :
    (Numbering.automatic next).place [] =
      .ok (next, .automatic (next + 1)) := rfl

/-- The part of a text that a path leads to.  The only step that a text
allows is to one of its characters. -/
def follow (text path : List Char) : Except TemplateFault (List Char) :=
  match path with
  | [] => .ok text
  | '.' :: path =>
    let name := path.takeWhile fun c ↦ c ≠ '.' && c ≠ '['
    if name.isEmpty then .error .emptyName
    else .error (.noAttribute (String.ofList name))
  | '[' :: path =>
    let name := path.takeWhile (· ≠ ']')
    let rest := (path.dropWhile (· ≠ ']')).drop 1
    match index? name with
    | .error e => .error e
    | .ok none => .error (if name.isEmpty then .emptyName else .notAnIndex)
    | .ok (some i) =>
      match text[i]? with
      | none => .error .noCharacter
      | some c => follow [c] rest
  | _ => .error .afterBracket
termination_by path.length
decreasing_by
  have h₁ := (List.dropWhile_suffix (· ≠ ']') (l := path)).length_le
  simp only [List.length_drop, List.length_cons]
  omega

/-- A text as a mark asks for it. -/
def convert (mark? : Option Char) (text : List Char) :
    Except TemplateFault (List Char) :=
  match mark? with
  | none => .ok text
  | some 's' => .ok text
  | some 'r' => .ok (quoted (String.ofList text)).toList
  | some 'a' => .ok (quotedAscii (String.ofList text)).toList
  | some mark => .error (.unknownConversion mark)

/-- The text that a field stands for before it is laid out, and the numbering
from then on. -/
def Field.text (field : Field) (args : List String) (numbering : Numbering) :
    Except TemplateFault (List Char × Numbering) := do
  let head := field.name.takeWhile fun c ↦ c ≠ '.' && c ≠ '['
  let path := field.name.dropWhile fun c ↦ c ≠ '.' && c ≠ '['
  let (i, numbering) ← numbering.place head
  match args[i]? with
  | none => throw (.noArgument i)
  | some arg =>
    let text ← follow arg.toList path
    return (← convert field.conversion? text, numbering)

end Nameless.Text.Template
