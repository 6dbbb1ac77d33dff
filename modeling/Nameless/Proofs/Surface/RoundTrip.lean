import Nameless.Proofs.Surface.Lookahead
import Nameless.Proofs.Surface.Naming
import Nameless.Proofs.Term.Alike
import Nameless.Proofs.Term.Scope
import Nameless.Surface.Printer

/-!
# Written terms read back

What is written for a term is read as the same term, its parameters renamed
where they were already bound.  The statement is about every place a term can
stand in and about every text that can follow there: an argument is read as
one atom, a function as the start of a chain, and all else as a chain that
ends where the text of the term does.
-/

namespace Nameless

/-- The term with every parameter under the name it is written with. -/
def Term.freshened (ctx : Context) : Term → Term
  | var k => var k
  | app fn arg => app (fn.freshened ctx) (arg.freshened ctx)
  | lam param body =>
    lam (ctx.freshName param)
      (body.freshened (ctx.push (ctx.freshName param)))

theorem Term.freshened_alike (ctx : Context) (t : Term) :
    (t.freshened ctx).alike t = true := by
  induction t generalizing ctx with
  | var k => exact alike_refl _
  | app fn arg ihFn ihArg =>
      rw [freshened, alike, ihFn, ihArg]
      rfl
  | lam param body ih => exact ih _

namespace Surface

open Text (trimStart)

/-! ## The front of a written text -/

/-- A name cannot go on here. -/
def Boundary (rest : List Char) : Prop :=
  rest.takeWhile isNameChar = []

theorem boundary_cons {c : Char} (h : isNameChar c = false)
    (cs : List Char) : Boundary (c :: cs) := by
  rw [Boundary, List.takeWhile_cons, h]
  rfl

theorem isNameChar_of_boundary {c : Char} {cs : List Char}
    (h : Boundary (c :: cs)) : isNameChar c = false := by
  by_contra hc
  simp [Boundary, hc] at h

theorem isBlank_of_isNameChar {c : Char} (h : isNameChar c = true) :
    Text.isBlank c = false := by
  have hclass : (c.isUpper || c.isLower || c.isDigit || c == '_') = true := h
  simp only [Bool.or_eq_true, beq_iff_eq] at hclass
  have hrange : 48 ≤ c.toNat ∧ c.toNat ≤ 122 := by
    rcases hclass with ((hc | hc) | hc) | rfl
    · have hupper : 'A'.val ≤ c.val ∧ c.val ≤ 'Z'.val := of_decide_eq_true hc
      exact ⟨Nat.le_trans (by decide) (UInt32.le_iff_toNat_le.1 hupper.1),
        Nat.le_trans (UInt32.le_iff_toNat_le.1 hupper.2) (by decide)⟩
    · have hlower := Bool.and_eq_true_iff.1 hc
      have hlow : 'a'.val ≤ c.val := of_decide_eq_true hlower.1
      have hhigh : c.val ≤ 'z'.val := of_decide_eq_true hlower.2
      exact ⟨Nat.le_trans (by decide) (UInt32.le_iff_toNat_le.1 hlow),
        UInt32.le_iff_toNat_le.1 hhigh⟩
    · have hdigit := Char.isDigit_iff_toNat.1 hc
      exact ⟨hdigit.1, Nat.le_trans hdigit.2 (by decide)⟩
    · decide
  simp only [Text.isBlank, Bool.or_eq_false_iff, Bool.and_eq_false_iff,
    decide_eq_false_iff_not, beq_eq_false_iff_ne]
  omega

theorem name?_append {x : String} {rest : List Char} (hx : IsName x)
    (hrest : Boundary rest) :
    name? (x.toList ++ rest) = some (x, rest) := by
  have htake : (x.toList ++ rest).takeWhile isNameChar = x.toList := by
    rw [List.takeWhile_append_of_pos hx.isNameChar, hrest, List.append_nil]
  have hdrop : (x.toList ++ rest).dropWhile isNameChar = rest := by
    have hall := List.takeWhile_append_dropWhile (p := isNameChar) (l := rest)
    rw [hrest, List.nil_append] at hall
    rw [List.dropWhile_append_of_pos hx.isNameChar, hall]
  simp only [name?, htake, hdrop, if_neg hx.1, String.ofList_toList]

theorem trimStart_of_isNameChar {c : Char} (h : isNameChar c = true)
    (cs : List Char) : trimStart (c :: cs) = c :: cs := by
  rw [trimStart, List.dropWhile_cons, isBlank_of_isNameChar h]
  rfl

theorem next?_name {x : String} {rest : List Char} (hx : IsName x)
    (hrest : Boundary rest) :
    next? (x.toList ++ rest) = some (.name x, rest) := by
  apply next?_of_name
  cases hcs : x.toList with
  | nil => exact absurd hcs hx.1
  | cons c cs =>
      have hc := hx.isNameChar c (by rw [hcs]; exact List.mem_cons_self)
      rw [List.cons_append, trimStart_of_isNameChar hc, ← List.cons_append,
        ← hcs, name?_append hx hrest]

theorem isName_of_next? {cs rest : List Char} {x : String}
    (h : next? cs = some (.name x, rest)) : IsName x := by
  have hname := name?_of_next? h
  simp only [name?] at hname
  split at hname
  · cases hname
  · rename_i hne
    cases hname
    rw [IsName, String.toList_ofList]
    exact ⟨hne, List.all_takeWhile⟩

theorem boundary_of_next?_ne_name {rest : List Char}
    (h : ∀ x after, next? rest ≠ some (.name x, after)) : Boundary rest := by
  cases rest with
  | nil => rfl
  | cons c cs =>
      cases hc : isNameChar c with
      | false => exact boundary_cons hc cs
      | true =>
          have hname : name? (trimStart (c :: cs)) = some
              (String.ofList ((c :: cs).takeWhile isNameChar),
                (c :: cs).dropWhile isNameChar) := by
            rw [trimStart_of_isNameChar hc]
            simp [name?, hc]
          exact absurd (next?_of_name hname) (h _ _)

theorem boundary_of_stops {rest : List Char} (h : Stops rest) :
    Boundary rest :=
  boundary_of_next?_ne_name fun x after hnext ↦ by
    simpa using h _ _ hnext

theorem next?_opening (cs : List Char) :
    next? ('(' :: cs) = some (.opening, cs) := rfl

theorem next?_closing (cs : List Char) :
    next? (')' :: cs) = some (.closing, cs) := rfl

theorem next?_sign (cs : List Char) :
    next? ('λ' :: cs) = some (.sign, cs) := rfl

theorem next?_dot (cs : List Char) :
    next? ('.' :: cs) = some (.dot, cs) := rfl

theorem trimStart_space (cs : List Char) :
    trimStart (' ' :: cs) = trimStart cs := rfl

/-! ## Terms in their places -/

/-- The text `cs` is read as the atom `u`, whatever ends it. -/
def IsAtom (ctx : Context) (cs : List Char) (u : Term) : Prop :=
  ∀ rest, Boundary rest → atom? ctx (cs ++ rest) = .done (some u) rest

/-- A chain that starts with the text `cs` goes on from `u`. -/
def IsHead (ctx : Context) (cs : List Char) (u : Term) : Prop :=
  ∀ rest, Boundary rest →
    chain ctx none (cs ++ rest) = chain ctx (some u) rest

/-- A chain that has to stop after the text `cs` is `u`. -/
def IsChain (ctx : Context) (cs : List Char) (u : Term) : Prop :=
  ∀ rest, Stops rest →
    chain ctx none (cs ++ rest) = .done u (trimStart rest)

theorem IsAtom.isHead {ctx : Context} {cs : List Char} {u : Term}
    (h : IsAtom ctx cs u) : IsHead ctx cs u := by
  intro rest hrest
  exact chain_of_some (h rest hrest)

theorem IsHead.isChain {ctx : Context} {cs : List Char} {u : Term}
    (h : IsHead ctx cs u) : IsChain ctx cs u := by
  intro rest hstops
  rw [h rest (boundary_of_stops hstops), chain_of_stops hstops]

theorem IsChain.isAtom {ctx : Context} {cs : List Char} {u : Term}
    (h : IsChain ctx cs u) : IsAtom ctx (parenthesized true cs) u := by
  intro rest _
  have hopening : next? (parenthesized true cs ++ rest) =
      some (.opening, cs ++ ')' :: rest) := by
    simp [parenthesized, next?_opening]
  have hinner := h (')' :: rest) (stops_of_closing (next?_closing rest))
  exact (atom?_of_opening hopening).2
    ⟨u, ')' :: rest, hinner, next?_closing rest, rfl⟩

theorem isAtom_name {ctx : Context} {x : String} {i : Nat} (hx : IsName x)
    (hi : ctx.indexOf? x = some i) : IsAtom ctx x.toList (.var i) := by
  intro rest hrest
  exact (atom?_of_name (next?_name hx hrest)).2 ⟨i, hi, rfl, rfl⟩

theorem IsHead.app {ctx : Context} {fn arg : List Char} {u v : Term}
    (hfn : IsHead ctx fn u) (harg : IsAtom ctx arg v) :
    IsHead ctx (fn ++ ' ' :: arg) (.app u v) := by
  intro rest hrest
  have hspace : atom? ctx (' ' :: (arg ++ rest)) = .done (some v) rest := by
    rw [atom?_congr (trimStart_space _)]
    exact harg rest hrest
  rw [List.append_assoc, List.cons_append,
    hfn _ (boundary_cons (by decide) _), chain_of_some hspace]
  rfl

theorem IsChain.lam {ctx : Context} {x : String} {body : List Char} {u : Term}
    (hx : IsName x) (h : IsChain (ctx.push x) body u) :
    IsChain ctx ('λ' :: x.toList ++ '.' :: body) (.lam x u) := by
  intro rest hstops
  have hdot : Boundary ('.' :: (body ++ rest)) := boundary_cons (by decide) _
  have hparams : Reads (x.toList ++ '.' :: (body ++ rest))
      ([x].map .name ++ [.dot]) (body ++ rest) :=
    .cons (next?_name hx hdot) (.cons (next?_dot _) .nil)
  have hbinder := binder_eq_done_iff.2
    ⟨x, [], body ++ rest, u, hparams, h rest hstops, rfl⟩
  have hsign : next? (('λ' :: x.toList ++ '.' :: body) ++ rest) =
      some (.sign, x.toList ++ '.' :: (body ++ rest)) := by
    simp [next?_sign]
  exact chain_of_binder hsign hstops hbinder

/-- What is written for `t` in any place is read as `u` there. -/
structure ReadsBack (ctx : Context) (t u : Term) : Prop where
  argument : ∃ cs, render ctx .argument t = .ok cs ∧ IsAtom ctx cs u
  function : ∃ cs, render ctx .function t = .ok cs ∧ IsHead ctx cs u
  body : ∃ cs, render ctx .body t = .ok cs ∧ IsChain ctx cs u
  top : ∃ cs, render ctx .top t = .ok cs ∧ IsChain ctx cs u

theorem ReadsBack.var {ctx : Context} (hctx : ctx.Readable) {k : Int}
    (hk : 0 ≤ k ∧ k < ctx.depth) : ReadsBack ctx (.var k) (.var k) := by
  obtain ⟨x, hname, hx, i, hi, rfl⟩ := hctx.exists_name hk.1 hk.2
  have hrender : ∀ place, render ctx place (.var i) = .ok x.toList := by
    intro place
    rw [render, hname]
    rfl
  have hatom := isAtom_name hx hi
  exact ⟨⟨_, hrender _, hatom⟩, ⟨_, hrender _, hatom.isHead⟩,
    ⟨_, hrender _, hatom.isHead.isChain⟩, ⟨_, hrender _, hatom.isHead.isChain⟩⟩

theorem ReadsBack.app {ctx : Context} {fn arg u v : Term}
    (hfn : ReadsBack ctx fn u) (harg : ReadsBack ctx arg v) :
    ReadsBack ctx (.app fn arg) (.app u v) := by
  obtain ⟨fnText, hfnText, hfnHead⟩ := hfn.function
  obtain ⟨argText, hargText, hargAtom⟩ := harg.argument
  have hrender : ∀ place, render ctx place (.app fn arg) =
      .ok (parenthesized place.enclosesApp (fnText ++ ' ' :: argText)) := by
    intro place
    rw [render, hfnText, hargText]
    rfl
  have hhead := hfnHead.app hargAtom
  have hatom := hhead.isChain.isAtom
  exact ⟨⟨_, hrender _, hatom⟩, ⟨_, hrender _, hhead⟩,
    ⟨_, hrender _, hatom.isHead.isChain⟩, ⟨_, hrender _, hhead.isChain⟩⟩

theorem ReadsBack.lam {ctx : Context} {param : String} {body u : Term}
    (hx : IsName (ctx.freshName param))
    (h : ReadsBack (ctx.push (ctx.freshName param)) body u) :
    ReadsBack ctx (.lam param body) (.lam (ctx.freshName param) u) := by
  obtain ⟨text, htext, hbody⟩ := h.body
  have hrender : ∀ place, render ctx place (.lam param body) =
      .ok (parenthesized place.enclosesLam
        ('λ' :: (ctx.freshName param).toList ++ '.' :: text)) := by
    intro place
    rw [render, htext]
    rfl
  have hchain := IsChain.lam hx hbody
  have hatom := hchain.isAtom
  exact ⟨⟨_, hrender _, hatom⟩, ⟨_, hrender _, hatom.isHead⟩,
    ⟨_, hrender _, hchain⟩, ⟨_, hrender _, hchain⟩⟩

theorem readsBack_freshened {ctx : Context} (hctx : ctx.Readable) {t : Term}
    (hparams : ∀ x ∈ t.params, IsName x) (ht : t.Scoped ctx.depth) :
    ReadsBack ctx t (t.freshened ctx) := by
  induction t generalizing ctx with
  | var k => exact .var hctx ht
  | app fn arg ihFn ihArg =>
      have hfn := ihFn hctx
        (fun x hx ↦ hparams x (List.mem_append_left _ hx)) ht.1
      have harg := ihArg hctx
        (fun x hx ↦ hparams x (List.mem_append_right _ hx)) ht.2
      exact hfn.app harg
  | lam param body ih =>
      have hparam := hparams param List.mem_cons_self
      have hbody := ih (hctx.push_freshName hparam)
        (fun x hx ↦ hparams x (List.mem_cons_of_mem _ hx)) ht
      exact hbody.lam (ctx.isName_freshName hparam)

theorem exists_display {ctx : Context} (hctx : ctx.Readable) {t : Term}
    (hparams : ∀ x ∈ t.params, IsName x) (ht : t.Scoped ctx.depth) :
    ∃ text, display t ctx = .ok text ∧
      chain ctx none text.toList = .done (t.freshened ctx) [] := by
  obtain ⟨cs, hrender, hchain⟩ := (readsBack_freshened hctx hparams ht).top
  have hread := hchain [] (stops_of_blank rfl)
  refine ⟨String.ofList cs, ?_, ?_⟩
  · rw [display, hrender]
    rfl
  · rw [String.toList_ofList]
    rwa [List.append_nil] at hread

/-- In a context of distinct names, what is written for a term whose indices are
bound there is read to its end, and as that term up to names. -/
theorem display_reads_back (ctx : Context) (hnodup : ctx.names.Nodup)
    (hnames : ∀ x ∈ ctx.names, IsName x) (t : Term)
    (hparams : ∀ x ∈ t.params, IsName x) (ht : t.Scoped ctx.depth) :
    ∃ text u, display t ctx = .ok text ∧
      expression ctx text.toList = .done u [] ∧ u.alike t = true ∧
      (ctx = .root → parse text = .ok u) := by
  obtain ⟨text, hdisplay, hread⟩ := exists_display ⟨hnodup, hnames⟩ hparams ht
  refine ⟨text, t.freshened ctx, hdisplay, hread, t.freshened_alike ctx, ?_⟩
  rintro rfl
  exact parse_eq_ok_iff.2 ⟨[], hread, rfl⟩

/-- Where `x1` and `x` are bound, `λx2.(x2 x (λx3.(x2 (x3 x))))`. -/
def shadowing : Term :=
  .lam "x" (.app (.app (.var 0) (.var 2))
    (.lam "x" (.app (.var 1) (.app (.var 0) (.var 3)))))

theorem display_reads_back_shadowing :
    ["x1", "x"].Nodup ∧ (∀ x ∈ ["x1", "x"], IsName x) ∧
    (∀ x ∈ shadowing.params, IsName x) ∧ shadowing.Scoped 2 ∧
    ∃ text u, display shadowing ⟨["x1", "x"]⟩ = .ok text ∧
      expression ⟨["x1", "x"]⟩ text.toList = .done u [] ∧
      u.alike shadowing = true ∧
      ((⟨["x1", "x"]⟩ : Context) = .root → parse text = .ok u) := by
  have hnodup : ["x1", "x"].Nodup := by decide
  have hnames : ∀ x ∈ ["x1", "x"], IsName x := by decide
  have hparams : ∀ x ∈ shadowing.params, IsName x := by decide
  have hscoped : shadowing.Scoped 2 := by decide
  exact ⟨hnodup, hnames, hparams, hscoped,
    display_reads_back ⟨["x1", "x"]⟩ hnodup hnames shadowing hparams hscoped⟩

end Surface
end Nameless
