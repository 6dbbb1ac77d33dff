import Nameless.Surface.Parser

/-!
# The grammar of terms

A text is first cut into tokens, and a row of tokens is a phrase:

    phrase = simple+ | simple* binder
    simple = "(" phrase ")" | name
    binder = ("λ" | "\") name+ "." phrase

A binder only ever comes last in a phrase, so that its body reaches as far as
it can.  This makes the grammar unambiguous: `Phrase.tokens_injective`.
-/

namespace Nameless.Surface

open Text (trimStart)

inductive Token where
  | opening
  | closing
  | dot
  | sign
  | name (x : String)
deriving DecidableEq

/-- The tokens of one character, apart from names. -/
def symbol? (c : Char) : Option Token :=
  if c = '(' then some .opening
  else if c = ')' then some .closing
  else if c = '.' then some .dot
  else if isBinderSign c then some .sign
  else none

/-- The first token after the blanks at the front, and what follows it. -/
def next? (cs : List Char) : Option (Token × List Char) :=
  match trimStart cs with
  | [] => none
  | c :: rest =>
    match symbol? c with
    | some w => some (w, rest)
    | none => (name? (c :: rest)).map fun (x, after) ↦ (.name x, after)

theorem next?_length {cs rest : List Char} {w : Token}
    (h : next? cs = some (w, rest)) : rest.length < cs.length := by
  have hle := Text.trimStart_length_le cs
  rw [next?] at h
  split at h
  · cases h
  · rename_i c tail hcs
    split at h
    · cases h
      exact trimStart_lt hcs
    · obtain ⟨⟨x, after⟩, hname, heq⟩ := Option.map_eq_some_iff.1 h
      cases heq
      have := name?_length hname
      rw [hcs] at hle
      omega

/-- The tokens of a text, unless it has a character that is in none. -/
def tokens? (cs : List Char) : Option (List Token) :=
  match hnext : next? cs with
  | none => if trimStart cs = [] then some [] else none
  | some (w, rest) =>
    have := next?_length hnext
    (tokens? rest).map (w :: ·)
termination_by cs.length

/-- The text `cs` is the tokens `ws`, each as long as it can be with what
follows it, and then `rest`. -/
inductive Reads : List Char → List Token → List Char → Prop
  | nil {cs : List Char} : Reads cs [] cs
  | cons {cs mid rest : List Char} {w : Token} {ws : List Token}
      (h : next? cs = some (w, mid)) (hws : Reads mid ws rest) :
      Reads cs (w :: ws) rest

namespace Reads

theorem nil_iff {cs rest : List Char} : Reads cs [] rest ↔ cs = rest := by
  constructor
  · intro h
    cases h
    rfl
  · rintro rfl
    exact .nil

theorem cons_iff {cs rest : List Char} {w : Token} {ws : List Token} :
    Reads cs (w :: ws) rest ↔
      ∃ mid, next? cs = some (w, mid) ∧ Reads mid ws rest := by
  constructor
  · intro h
    cases h with
    | cons hnext hws => exact ⟨_, hnext, hws⟩
  · rintro ⟨mid, hnext, hws⟩
    exact .cons hnext hws

theorem append_iff {cs rest : List Char} {ws vs : List Token} :
    Reads cs (ws ++ vs) rest ↔ ∃ mid, Reads cs ws mid ∧ Reads mid vs rest := by
  induction ws generalizing cs with
  | nil => simp [nil_iff]
  | cons w ws ih =>
      rw [List.cons_append, cons_iff]
      constructor
      · rintro ⟨start, hnext, h⟩
        obtain ⟨mid, hws, hvs⟩ := ih.1 h
        exact ⟨mid, .cons hnext hws, hvs⟩
      · rintro ⟨mid, h, hvs⟩
        obtain ⟨start, hnext, hws⟩ := cons_iff.1 h
        exact ⟨start, hnext, ih.2 ⟨mid, hws, hvs⟩⟩

theorem length_le {cs rest : List Char} {ws : List Token}
    (h : Reads cs ws rest) : rest.length ≤ cs.length := by
  induction h with
  | nil => exact Nat.le_refl _
  | cons hnext _ ih =>
      have := next?_length hnext
      omega

end Reads

theorem tokens?_eq_some_iff {cs : List Char} {ws : List Token} :
    tokens? cs = some ws ↔ ∃ rest, Reads cs ws rest ∧ trimStart rest = [] := by
  fun_induction tokens? cs generalizing ws with
  | case1 cs hnext hblank =>
      constructor
      · intro h
        cases h
        exact ⟨cs, .nil, hblank⟩
      · rintro ⟨rest, hread, -⟩
        cases hread with
        | nil => rfl
        | cons h =>
            rw [hnext] at h
            cases h
  | case2 cs hnext hblank =>
      constructor
      · intro h
        cases h
      · rintro ⟨rest, hread, hrest⟩
        cases hread with
        | nil => exact absurd hrest hblank
        | cons h =>
            rw [hnext] at h
            cases h
  | case3 cs w rest hnext _ ih =>
      constructor
      · intro h
        obtain ⟨vs, hvs, rfl⟩ := Option.map_eq_some_iff.1 h
        obtain ⟨last, hread, hlast⟩ := ih.1 hvs
        exact ⟨last, .cons hnext hread, hlast⟩
      · rintro ⟨last, hread, hlast⟩
        cases hread with
        | nil =>
            rw [next?, hlast] at hnext
            cases hnext
        | cons h hread =>
            rw [hnext] at h
            cases h
            rw [ih.2 ⟨last, hread, hlast⟩]
            rfl

/-! ## Phrases -/

mutual

/-- A phrase, `simple+ | simple* binder`, from left to right. -/
inductive Phrase where
  | simple (s : Simple)
  | apply (s : Simple) (rest : Phrase)
  | binder (param : String) (params : List String) (body : Phrase)

inductive Simple where
  | group (e : Phrase)
  | name (x : String)

end

mutual

def Phrase.tokens : Phrase → List Token
  | .simple s => s.tokens
  | .apply s rest => s.tokens ++ rest.tokens
  | .binder param params body =>
    .sign :: (param :: params).map .name ++ .dot :: body.tokens

def Simple.tokens : Simple → List Token
  | .group e => .opening :: e.tokens ++ [.closing]
  | .name x => [.name x]

end

mutual

/-- The term of a phrase in the scope of the names in `bound`, innermost
first, unless a name in it is out of scope.  The phrase goes on with the
arguments of `head`, if there is one. -/
def Phrase.term? (bound : List String) (head : Option Term) :
    Phrase → Option Term
  | .simple s => (s.term? bound).map (applied head)
  | .apply s rest =>
    (s.term? bound).bind fun t ↦ rest.term? bound (some (applied head t))
  | .binder param params body =>
    (body.term? ((param :: params).reverse ++ bound) none).map fun t ↦
      applied head ((param :: params).foldr .lam t)

/-- A name stands for the number of names bound after it. -/
def Simple.term? (bound : List String) : Simple → Option Term
  | .group e => e.term? bound none
  | .name x => (bound.idxOf? x).map fun k : Nat ↦ .var k

end

/-! ## Unambiguity -/

/-- Nothing in these tokens can belong to a phrase that stands before them. -/
def Ends : List Token → Prop
  | [] => True
  | w :: _ => w = .closing ∨ w = .dot

theorem Simple.not_ends (s : Simple) (ws : List Token) :
    ¬ Ends (s.tokens ++ ws) := by
  cases s <;> simp [Simple.tokens, Ends]

theorem Phrase.not_ends (e : Phrase) (ws : List Token) :
    ¬ Ends (e.tokens ++ ws) := by
  cases e with
  | simple s => exact s.not_ends ws
  | apply s rest =>
      rw [Phrase.tokens, List.append_assoc]
      exact s.not_ends _
  | binder param params body => simp [Phrase.tokens, Ends]

theorem Simple.tokens_append_ne_sign (s : Simple) (ws vs : List Token) :
    s.tokens ++ ws ≠ .sign :: vs := by
  cases s <;> simp [Simple.tokens]

theorem names_append_dot_inj {xs ys : List String} {ws vs : List Token}
    (h : xs.map Token.name ++ .dot :: ws = ys.map Token.name ++ .dot :: vs) :
    xs = ys ∧ ws = vs := by
  induction xs generalizing ys with
  | nil =>
      cases ys with
      | nil => exact ⟨rfl, (List.cons.inj h).2⟩
      | cons y ys => cases (List.cons.inj h).1
  | cons x xs ih =>
      cases ys with
      | nil => cases (List.cons.inj h).1
      | cons y ys =>
          obtain ⟨hxy, htail⟩ := List.cons.inj h
          obtain ⟨rfl, hrest⟩ := ih htail
          cases hxy
          exact ⟨rfl, hrest⟩

mutual

theorem Phrase.append_inj (e e' : Phrase) {ws vs : List Token}
    (hws : Ends ws) (hvs : Ends vs)
    (h : e.tokens ++ ws = e'.tokens ++ vs) : e = e' ∧ ws = vs := by
  cases e with
  | simple s =>
      cases e' with
      | simple s' =>
          obtain ⟨rfl, hrest⟩ := s.append_inj s' h
          exact ⟨rfl, hrest⟩
      | apply s' rest' =>
          simp only [Phrase.tokens, List.append_assoc] at h
          obtain ⟨-, rfl⟩ := s.append_inj s' h
          exact absurd hws (rest'.not_ends _)
      | binder _ _ _ => exact absurd h (s.tokens_append_ne_sign _ _)
  | apply s rest =>
      cases e' with
      | simple s' =>
          simp only [Phrase.tokens, List.append_assoc] at h
          obtain ⟨-, rfl⟩ := s.append_inj s' h
          exact absurd hvs (rest.not_ends _)
      | apply s' rest' =>
          simp only [Phrase.tokens, List.append_assoc] at h
          obtain ⟨rfl, htail⟩ := s.append_inj s' h
          obtain ⟨rfl, hrest⟩ := rest.append_inj rest' hws hvs htail
          exact ⟨rfl, hrest⟩
      | binder _ _ _ =>
          simp only [Phrase.tokens, List.append_assoc] at h
          exact absurd h (s.tokens_append_ne_sign _ _)
  | binder param params body =>
      cases e' with
      | simple s' => exact absurd h.symm (s'.tokens_append_ne_sign _ _)
      | apply s' rest' =>
          simp only [Phrase.tokens, List.append_assoc] at h
          exact absurd h.symm (s'.tokens_append_ne_sign _ _)
      | binder param' params' body' =>
          simp only [Phrase.tokens, List.cons_append,
            List.append_assoc] at h
          obtain ⟨hnames, htail⟩ := names_append_dot_inj (List.cons.inj h).2
          obtain ⟨rfl, hrest⟩ := body.append_inj body' hws hvs htail
          cases hnames
          exact ⟨rfl, hrest⟩

theorem Simple.append_inj (s s' : Simple) {ws vs : List Token}
    (h : s.tokens ++ ws = s'.tokens ++ vs) : s = s' ∧ ws = vs := by
  cases s with
  | group e =>
      cases s' with
      | group e' =>
          simp only [Simple.tokens, List.cons_append, List.append_assoc,
            List.nil_append, List.cons.injEq, true_and] at h
          have hclosing : ∀ us, Ends (.closing :: us) := fun _ ↦ .inl rfl
          obtain ⟨rfl, hrest⟩ :=
            e.append_inj e' (hclosing _) (hclosing _) h
          exact ⟨rfl, (List.cons.inj hrest).2⟩
      | name x => cases (List.cons.inj h).1
  | name x =>
      cases s' with
      | group e' => cases (List.cons.inj h).1
      | name x' =>
          obtain ⟨hx, hrest⟩ := List.cons.inj h
          cases hx
          exact ⟨rfl, hrest⟩

end

theorem Phrase.tokens_injective : Function.Injective Phrase.tokens := by
  intro e e' h
  have hends : Ends [] := trivial
  have happ : e.tokens ++ [] = e'.tokens ++ [] := by rw [h]
  exact (e.append_inj e' hends hends happ).1

end Nameless.Surface
