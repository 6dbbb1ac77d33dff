import Nameless.Proofs.Surface.Naming
import Nameless.Surface.Printer

/-!
# Contexts that terms are written in

The search for a fresh name ends before the candidates are more than the bound
names.  So a name is added to a context that it is not in, and whatever a term
is, no context that a part of it is written in has a name twice if the first
one has not: `Carries.nodup`.
-/

namespace Nameless

namespace Context

/-- The search that has come to the `i`-th candidate ends at the `n`-th. -/
inductive Seeks (ctx : Context) (x : String) : Nat → Nat → Prop
  | found {i : Nat} (h : candidate x i ∉ ctx.names) : Seeks ctx x i i
  | next {i n : Nat} (h : candidate x i ∈ ctx.names)
      (hnext : Seeks ctx x (i + 1) n) : Seeks ctx x i n

variable {ctx : Context} {x : String} {i n : Nat}

theorem seeks_iff : ctx.Seeks x i n ↔
    i ≤ n ∧ candidate x n ∉ ctx.names ∧
      ∀ m, i ≤ m → m < n → candidate x m ∈ ctx.names := by
  constructor
  · intro h
    induction h with
    | found h => exact ⟨Nat.le_refl _, h, fun m _ _ ↦ by omega⟩
    | @next i n h _ ih =>
        obtain ⟨hle, hfree, hbound⟩ := ih
        refine ⟨by omega, hfree, fun m hi hm ↦ ?_⟩
        rcases Nat.eq_or_lt_of_le hi with rfl | hlt
        · exact h
        · exact hbound m hlt hm
  · rintro ⟨hle, hfree, hbound⟩
    induction hle using Nat.decreasingInduction with
    | self => exact .found hfree
    | of_succ k hk ih =>
        exact .next (hbound k (Nat.le_refl k) hk)
          (ih fun m hm hlt ↦ hbound m (by omega) hlt)

/-- A name that is bound twice counts twice among the bound names, but it stands
in the way of one candidate only. -/
example : freshName ⟨["x1", "x", "x"]⟩ "x" = "x2" := rfl

/-- No name is bound twice, so that every index has a name of its own. -/
structure Unambiguous (ctx : Context) : Prop where
  nodup : ctx.names.Nodup
  index_name : ∀ i < ctx.depth, ∃ x,
    ctx.nameAt i = .ok x ∧ ctx.indexOf? x = some i

theorem unambiguous_of_nodup (h : ctx.names.Nodup) : ctx.Unambiguous where
  nodup := h
  index_name := by
    intro i hi
    obtain ⟨x, -, hname, hindex⟩ := exists_name_of_nodup h hi
    exact ⟨x, hname, hindex⟩

end Context

namespace Surface

/-! ## The contexts of a term's parts -/

/-- Writing a term in a context comes to a part of it in an inner context. -/
inductive Carries : Context → Term → Context → Term → Prop
  | here (ctx : Context) (t : Term) : Carries ctx t ctx t
  | fn {ctx inner : Context} {fn arg part : Term}
      (h : Carries ctx fn inner part) : Carries ctx (.app fn arg) inner part
  | arg {ctx inner : Context} {fn arg part : Term}
      (h : Carries ctx arg inner part) : Carries ctx (.app fn arg) inner part
  | body {ctx inner : Context} {param : String} {body part : Term}
      (h : Carries (ctx.push (ctx.freshName param)) body inner part) :
      Carries ctx (.lam param body) inner part

variable {ctx inner : Context} {place : Position} {t part : Term}
  {text : List Char}

theorem Carries.nodup (h : Carries ctx t inner part)
    (hctx : ctx.names.Nodup) : inner.names.Nodup := by
  induction h with
  | here => exact hctx
  | fn _ ih => exact ih hctx
  | arg _ ih => exact ih hctx
  | body _ ih => exact ih (Context.nodup_push_freshName hctx _)

theorem render_var_eq_ok_iff {k : Int} :
    render ctx place (.var k) = .ok text ↔
      ∃ x, ctx.nameAt k = .ok x ∧ text = x.toList := by
  rw [render]
  cases ctx.nameAt k <;>
    simp [bind, Except.bind, pure, Except.pure, eq_comm]

theorem render_app_eq_ok_iff {fn arg : Term} :
    render ctx place (.app fn arg) = .ok text ↔
      ∃ f a, render ctx .function fn = .ok f ∧
        render ctx .argument arg = .ok a ∧
          text = parenthesized place.enclosesApp (f ++ ' ' :: a) := by
  rw [render]
  cases render ctx .function fn <;> cases render ctx .argument arg <;>
    simp [bind, Except.bind, pure, Except.pure, eq_comm]

theorem render_lam_eq_ok_iff {param : String} {body : Term} :
    render ctx place (.lam param body) = .ok text ↔
      ∃ b, render (ctx.push (ctx.freshName param)) .body body = .ok b ∧
        text = parenthesized place.enclosesLam
          ('λ' :: (ctx.freshName param).toList ++ '.' :: b) := by
  rw [render]
  cases render (ctx.push (ctx.freshName param)) .body body <;>
    simp [bind, Except.bind, pure, Except.pure, eq_comm]

theorem display_eq_ok_iff {shown : String} :
    display t ctx = .ok shown ↔ render ctx .top t = .ok shown.toList := by
  rw [display]
  cases render ctx .top t with
  | error e => simp [Except.map]
  | ok text =>
      simp only [Except.map, Except.ok.injEq]
      rw [← String.toList_inj, String.toList_ofList]

theorem infix_parenthesized {piece : List Char} (enclosed : Bool)
    (h : piece <:+: text) : piece <:+: parenthesized enclosed text := by
  cases enclosed with
  | false => exact h
  | true => exact h.trans ⟨['('], [')'], rfl⟩

theorem infix_append_cons {piece rest : List Char} (before : List Char)
    (c : Char) (h : piece <:+: rest) : piece <:+: before ++ c :: rest :=
  h.trans ((List.suffix_cons c rest).trans (List.suffix_append before _)).isInfix

/-- What is written for a part stands in what is written for the whole. -/
theorem Carries.exists_piece (h : Carries ctx t inner part)
    (ht : render ctx place t = .ok text) :
    ∃ place' piece, render inner place' part = .ok piece ∧ piece <:+: text := by
  induction h generalizing place text with
  | here => exact ⟨place, text, ht, List.infix_refl text⟩
  | fn _ ih =>
      obtain ⟨f, a, hf, -, rfl⟩ := render_app_eq_ok_iff.1 ht
      obtain ⟨place', piece, hpiece, hwithin⟩ := ih hf
      exact ⟨place', piece, hpiece, infix_parenthesized _
        (hwithin.trans (List.prefix_append f (' ' :: a)).isInfix)⟩
  | arg _ ih =>
      obtain ⟨f, a, -, ha, rfl⟩ := render_app_eq_ok_iff.1 ht
      obtain ⟨place', piece, hpiece, hwithin⟩ := ih ha
      exact ⟨place', piece, hpiece,
        infix_parenthesized _ (infix_append_cons f ' ' hwithin)⟩
  | body _ ih =>
      obtain ⟨b, hb, rfl⟩ := render_lam_eq_ok_iff.1 ht
      obtain ⟨place', piece, hpiece, hwithin⟩ := ih hb
      exact ⟨place', piece, hpiece,
        infix_parenthesized _ (infix_append_cons _ '.' hwithin)⟩

/-- A term can be written if and only if every variable that writing comes to
has a name there. -/
theorem exists_render_iff : (∃ text, render ctx place t = .ok text) ↔
    ∀ inner k, Carries ctx t inner (.var k) → ∃ x, inner.nameAt k = .ok x := by
  constructor
  · rintro ⟨text, ht⟩ inner k h
    obtain ⟨_, _, hpiece, -⟩ := h.exists_piece ht
    obtain ⟨x, hx, -⟩ := render_var_eq_ok_iff.1 hpiece
    exact ⟨x, hx⟩
  · intro h
    induction t generalizing ctx place with
    | var k =>
        obtain ⟨x, hx⟩ := h ctx k (.here ctx _)
        exact ⟨x.toList, render_var_eq_ok_iff.2 ⟨x, hx, rfl⟩⟩
    | app fn arg ihFn ihArg =>
        obtain ⟨f, hf⟩ := ihFn fun inner k hk ↦ h inner k (.fn hk)
        obtain ⟨a, ha⟩ := ihArg fun inner k hk ↦ h inner k (.arg hk)
        exact ⟨_, render_app_eq_ok_iff.2 ⟨f, a, hf, ha, rfl⟩⟩
    | lam param body ih =>
        obtain ⟨b, hb⟩ := ih fun inner k hk ↦ h inner k (.body hk)
        exact ⟨_, render_lam_eq_ok_iff.2 ⟨b, hb, rfl⟩⟩

/-- The search for a fresh name ends, after as many candidates beyond the name
as there are bound names at most, and comes to the first one that is unbound.
Hence a term that is begun in a context of distinct names is written in
unambiguous contexts throughout: in those that decide whether it can be written
and in which its parts are written as they stand in the whole. -/
theorem fresh_names_keep_distinct (ctx : Context) :
    (∀ x, (∃ n ≤ ctx.depth, ctx.Seeks x 0 n ∧
        ctx.freshName x = Context.candidate x n) ∧
      (x ∉ ctx.names → ctx.freshName x = x) ∧
      (x ∈ ctx.names → ∃ n, 1 ≤ n ∧ ctx.freshName x = x ++ toString n ∧
        x ++ toString n ∉ ctx.names ∧
        ∀ m, 1 ≤ m → m < n → x ++ toString m ∈ ctx.names)) ∧
    ∀ t, ((∃ text, display t ctx = .ok text) ↔ ∀ inner k,
        Carries ctx t inner (.var k) → ∃ x, inner.nameAt k = .ok x) ∧
      ∀ inner part, Carries ctx t inner part →
        (∀ text, display t ctx = .ok text → ∃ place piece,
          render inner place part = .ok piece ∧ piece <:+: text.toList) ∧
        (ctx.names.Nodup → inner.Unambiguous) := by
  refine ⟨fun x ↦ ⟨?_, Context.freshName_of_not_mem, fun hx ↦ ?_⟩,
    fun t ↦ ⟨?_, fun inner part h ↦ ⟨fun text ht ↦ ?_, fun hctx ↦ ?_⟩⟩⟩
  · obtain ⟨n, -, hfree, hfirst⟩ := ctx.exists_freshName x
    obtain ⟨hle, hfresh⟩ := Context.freshName_eq hfree hfirst
    exact ⟨n, hle, Context.seeks_iff.2
      ⟨Nat.zero_le n, hfree, fun m _ hm ↦ hfirst m hm⟩, hfresh⟩
  · obtain ⟨n, hfresh, hfree, hfirst⟩ := ctx.exists_freshName x
    cases n with
    | zero => exact absurd hx hfree
    | succ n =>
        refine ⟨n + 1, by omega, hfresh, hfree, fun m hm hlt ↦ ?_⟩
        obtain ⟨k, rfl⟩ := Nat.exists_eq_add_of_le' hm
        exact hfirst (k + 1) hlt
  · have hrender : (∃ text, render ctx .top t = .ok text) ↔ _ :=
      exists_render_iff
    rw [← hrender]
    constructor
    · rintro ⟨shown, ht⟩
      exact ⟨shown.toList, display_eq_ok_iff.1 ht⟩
    · rintro ⟨text, ht⟩
      refine ⟨String.ofList text, display_eq_ok_iff.2 ?_⟩
      rw [ht, String.toList_ofList]
  · exact h.exists_piece (display_eq_ok_iff.1 ht)
  · exact Context.unambiguous_of_nodup (h.nodup hctx)

end Surface
end Nameless
