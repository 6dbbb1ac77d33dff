import Nameless.Proofs.Reduction.Resumption
import Nameless.Proofs.Surface.Acceptance
import Nameless.Proofs.Surface.RoundTrip

/-!
# Reduction stays among the printable terms

A term can be written and read back if its indices are bound and its parameters
are names that a text can hold.  The parser returns only such terms, and
contraction keeps them so, since it brings in neither an index nor a name.
-/

namespace Nameless

open Relation (ReflTransGen)

/-- Below `depth` binders the term can be written, and what is written can be
read. -/
structure Term.Printable (depth : Nat) (t : Term) : Prop where
  scope : t.Scoped depth
  names : ∀ x ∈ t.params, IsName x

namespace Term.Printable

theorem of_within {depth : Nat} {t u : Term} (ht : t.Printable depth)
    (h : Within u t) : u.Printable depth :=
  ⟨ht.1.of_within h, fun x hx ↦ ht.2 x (h.params hx)⟩

theorem app {depth : Nat} {fn arg : Term} (hfn : fn.Printable depth)
    (harg : arg.Printable depth) : (Term.app fn arg).Printable depth := by
  refine ⟨⟨hfn.1, harg.1⟩, fun x hx ↦ ?_⟩
  rcases List.mem_append.1 hx with hx | hx
  · exact hfn.2 x hx
  · exact harg.2 x hx

theorem lam {depth : Nat} {param : String} {body : Term}
    (hparam : IsName param) (hbody : body.Printable (depth + 1)) :
    (Term.lam param body).Printable depth := by
  refine ⟨hbody.1, fun x hx ↦ ?_⟩
  rcases List.mem_cons.1 hx with rfl | hx
  · exact hparam
  · exact hbody.2 x hx

theorem foldr_lam {depth : Nat} {body : Term} {params : List String}
    (hparams : ∀ x ∈ params, IsName x)
    (hbody : body.Printable (params.length + depth)) :
    (params.foldr Term.lam body).Printable depth := by
  induction params generalizing depth with
  | nil => rwa [List.length_nil, Nat.zero_add] at hbody
  | cons param params ih =>
      refine lam (hparams param List.mem_cons_self)
        (ih (fun x hx ↦ hparams x (List.mem_cons_of_mem _ hx)) ?_)
      rwa [List.length_cons, Nat.add_right_comm] at hbody

end Term.Printable

namespace Surface

/-! ## What the parser returns -/

theorem Reads.isName {cs rest : List Char} {ws : List Token}
    (h : Reads cs ws rest) : ∀ x, .name x ∈ ws → IsName x := by
  induction h with
  | nil => exact fun x hx ↦ absurd hx List.not_mem_nil
  | cons hnext _ ih =>
      intro x hx
      rcases List.mem_cons.1 hx with rfl | hx
      · exact isName_of_next? hnext
      · exact ih x hx

theorem printable_applied {depth : Nat} {head : Option Term} {t : Term}
    (hhead : ∀ u, head = some u → u.Printable depth)
    (ht : t.Printable depth) : (applied head t).Printable depth := by
  cases head with
  | none => exact ht
  | some fn => exact (hhead fn rfl).app ht

mutual

theorem Phrase.printable (e : Phrase) {bound : List String}
    {head : Option Term} {t : Term}
    (hnames : ∀ x, .name x ∈ e.tokens → IsName x)
    (hhead : ∀ u, head = some u → u.Printable bound.length)
    (h : e.term? bound head = some t) : t.Printable bound.length := by
  cases e with
  | simple s =>
      obtain ⟨a, ha, rfl⟩ := Option.map_eq_some_iff.1 h
      exact printable_applied hhead (s.printable hnames ha)
  | apply s rest =>
      obtain ⟨a, ha, h⟩ := Option.bind_eq_some_iff.1 h
      have hs := s.printable
        (fun x hx ↦ hnames x (List.mem_append_left _ hx)) ha
      refine rest.printable
        (fun x hx ↦ hnames x (List.mem_append_right _ hx)) ?_ h
      intro u hu
      cases hu
      exact printable_applied hhead hs
  | binder param params body =>
      obtain ⟨u, hu, rfl⟩ := Option.map_eq_some_iff.1 h
      have hparams : ∀ x ∈ param :: params, IsName x := by
        intro x hx
        refine hnames x (List.mem_append_left _ (List.mem_cons_of_mem _ ?_))
        exact List.mem_map_of_mem hx
      have hbodyNames : ∀ x, .name x ∈ body.tokens → IsName x := by
        intro x hx
        exact hnames x (List.mem_append_right _ (List.mem_cons_of_mem _ hx))
      have hbody := body.printable hbodyNames (fun v hv ↦ by cases hv) hu
      rw [List.length_append, List.length_reverse] at hbody
      exact printable_applied hhead (.foldr_lam hparams hbody)

theorem Simple.printable (s : Simple) {bound : List String} {t : Term}
    (hnames : ∀ x, .name x ∈ s.tokens → IsName x)
    (h : s.term? bound = some t) : t.Printable bound.length := by
  cases s with
  | group e =>
      have hinner : ∀ x, .name x ∈ e.tokens → IsName x := by
        intro x hx
        exact hnames x (List.mem_append_left _ (List.mem_cons_of_mem _ hx))
      exact e.printable hinner (fun v hv ↦ by cases hv) h
  | name x =>
      obtain ⟨k, hk, rfl⟩ := Option.map_eq_some_iff.1 h
      obtain ⟨hlt, -⟩ := List.idxOf?_eq_some_iff.1 hk
      exact ⟨⟨Int.natCast_nonneg k, Int.ofNat_lt.2 hlt⟩,
        fun _ hx ↦ absurd hx List.not_mem_nil⟩

end

theorem printable_of_parse {text : String} {t : Term}
    (h : parse text = .ok t) : t.Printable 0 := by
  obtain ⟨e, htokens, hterm⟩ := exists_phrase_of_parse h
  obtain ⟨rest, hread, -⟩ := tokens?_eq_some_iff.1 htokens
  exact e.printable hread.isName (fun v hv ↦ by cases hv) hterm

theorem exists_display_parse {t : Term} (ht : t.Printable 0) :
    ∃ shown u, display t .root = .ok shown ∧ parse shown = .ok u ∧
      u.alike t = true := by
  obtain ⟨shown, hdisplay, hread⟩ :=
    exists_display Context.readable_root ht.names ht.scope
  exact ⟨shown, t.freshened .root, hdisplay,
    parse_eq_ok_iff.2 ⟨[], hread, rfl⟩, t.freshened_alike .root⟩

end Surface

namespace Reduction.Reducer

open Surface (parse display)

/-- Whatever text a reducer starts from and whatever runs it makes, what it
holds can be written and read back.  No contraction makes an index free. -/
theorem runs_stay_printable :
    (∀ (text : String) (t : Term), parse text = .ok t →
      ∀ limits : List Limit,
        ((ofTerm t).after limits).term.Scoped 0 ∧
        ((ofTerm t).after limits).term.params ⊆ t.params ∧
        ∃ shown u, display ((ofTerm t).after limits).term .root = .ok shown ∧
          parse shown = .ok u ∧
          u.alike ((ofTerm t).after limits).term = true) ∧
    ∀ t u : Term, t.Natural →
      ReflTransGen (Term.Anywhere Term.Contraction) t u →
        u.Natural ∧ ∀ i : Nat, 0 < u.occurrences i → 0 < t.occurrences i := by
  constructor
  · intro text t hparse limits
    have hwithin := Term.Within.of_steps ((ofTerm t).reaches_after limits)
    have hu := (Surface.printable_of_parse hparse).of_within hwithin
    exact ⟨hu.scope, hwithin.params, Surface.exists_display_parse hu⟩
  · intro t u ht h
    have hwithin := Term.Within.of_steps (Term.steps_of_contractions h)
    exact ⟨hwithin.natural ht, hwithin.free⟩

/-- The body of `λx.(λf.λx.f x) (λy.x)`, whose free `x` is carried below another
one. -/
def carried : Term :=
  .app (.lam "f" (.lam "x" (.app (.var 1) (.var 0)))) (.lam "y" (.var 1))

theorem parse_carried :
    parse "λx.(λf.λx.f x) (λy.x)" = .ok (.lam "x" carried) := by
  let fn : Surface.Phrase := .binder "f" [] (.binder "x" []
    (.apply (.name "f") (.simple (.name "x"))))
  let arg : Surface.Phrase := .binder "y" [] (.simple (.name "x"))
  let whole : Surface.Phrase := .binder "x" []
    (.apply (.group fn) (.simple (.group arg)))
  have hread :
      Surface.Reads "λx.(λf.λx.f x) (λy.x)".toList whole.tokens [] := by
    repeat first
      | exact .nil
      | refine .cons rfl ?_
  exact Surface.parse_of_phrase (Surface.tokens?_eq_some_iff.2 ⟨[], hread, rfl⟩)
    rfl

theorem carried_contracts :
    ReflTransGen (Term.Anywhere Term.Contraction) carried
      (.lam "x" (.app (.lam "y" (.var 2)) (.var 0))) :=
  .single (.here (.beta (by cbv)))

theorem runs_stay_printable_carried :
    parse "λx.(λf.λx.f x) (λy.x)" = .ok (.lam "x" carried) ∧
    (((ofTerm (.lam "x" carried)).after [⟨1⟩, ⟨0⟩]).term.Scoped 0 ∧
      ((ofTerm (.lam "x" carried)).after [⟨1⟩, ⟨0⟩]).term.params ⊆
        (Term.lam "x" carried).params ∧
      ∃ shown u,
        display ((ofTerm (.lam "x" carried)).after [⟨1⟩, ⟨0⟩]).term .root =
          .ok shown ∧
        parse shown = .ok u ∧
        u.alike ((ofTerm (.lam "x" carried)).after [⟨1⟩, ⟨0⟩]).term = true) ∧
    carried.Natural ∧
    ReflTransGen (Term.Anywhere Term.Contraction) carried
      (.lam "x" (.app (.lam "y" (.var 2)) (.var 0))) ∧
    (Term.lam "x" (.app (.lam "y" (.var 2)) (.var 0))).Natural ∧
    ∀ i : Nat,
      0 < (Term.lam "x" (.app (.lam "y" (.var 2)) (.var 0))).occurrences i →
        0 < carried.occurrences i := by
  have hruns := runs_stay_printable.1 _ _ parse_carried [⟨1⟩, ⟨0⟩]
  have hnatural : carried.Natural := by decide
  have hreduct := runs_stay_printable.2 _ _ hnatural carried_contracts
  exact ⟨parse_carried, hruns, hnatural, carried_contracts, hreduct⟩

end Reduction.Reducer
end Nameless
