import Nameless.Proofs.Surface.Acceptance

/-!
# What a text may go on with

The tokens read so far leave an outlook: whether a parameter or an atom is due,
which names are bound, and which groups are open.  It settles which tokens may
come next.  The tokens of a phrase lead to an outlook in which the text may end,
and a reading fails where its outlook has no place for what comes next:
`chain_faults`.
-/

namespace Nameless.Surface

open Text (trimStart)

inductive Stage where
  /-- In the head of a binder, and whether a parameter was read there. -/
  | head (begun : Bool)
  /-- In an expression, and whether an atom was read there. -/
  | expression (begun : Bool)
deriving DecidableEq

structure Outlook where
  stage : Stage
  /-- The names bound here, innermost first. -/
  bound : List String
  /-- The names bound around each of the open groups, innermost group first. -/
  outside : List (List String)
deriving DecidableEq

namespace Outlook

def start : Outlook := ⟨.expression false, [], []⟩

/-- The outlook after one more token, unless there is no place for it. -/
def advance? (o : Outlook) (w : Token) : Option Outlook :=
  match o.stage, w with
  | .head _, .name x => some ⟨.head true, x :: o.bound, o.outside⟩
  | .head true, .dot => some ⟨.expression false, o.bound, o.outside⟩
  | .expression _, .opening =>
    some ⟨.expression false, o.bound, o.bound :: o.outside⟩
  | .expression _, .sign => some ⟨.head false, o.bound, o.outside⟩
  | .expression _, .name x =>
    if x ∈ o.bound then some ⟨.expression true, o.bound, o.outside⟩ else none
  | .expression true, .closing =>
    match o.outside with
    | [] => none
    | bound :: outside => some ⟨.expression true, bound, outside⟩
  | _, _ => none

def after? (o : Outlook) : List Token → Option Outlook
  | [] => some o
  | w :: ws => (o.advance? w).bind fun o' ↦ o'.after? ws

/-- The text may end here. -/
def IsComplete (o : Outlook) : Prop :=
  o.stage = .expression true ∧ o.outside = []

theorem after?_cons (o : Outlook) (w : Token) (ws : List Token) :
    o.after? (w :: ws) = (o.advance? w).bind fun o' ↦ o'.after? ws := rfl

theorem after?_append (o : Outlook) (ws vs : List Token) :
    o.after? (ws ++ vs) = (o.after? ws).bind fun o' ↦ o'.after? vs := by
  induction ws generalizing o with
  | nil => rfl
  | cons w ws ih =>
      rw [List.cons_append, after?_cons, after?_cons, Option.bind_assoc]
      simp only [ih]

/-! ## The tokens of phrases -/

theorem after?_names (x : String) (xs : List String) (begun : Bool)
    (bound : List String) (outside : List (List String)) :
    after? ⟨.head begun, bound, outside⟩ ((x :: xs).map .name) =
      some ⟨.head true, (x :: xs).reverse ++ bound, outside⟩ := by
  induction xs generalizing x begun bound with
  | nil => rfl
  | cons y ys ih =>
      rw [List.map_cons, after?_cons]
      simp only [advance?, Option.bind_some]
      rw [ih]
      simp

end Outlook

open Outlook

mutual

theorem Phrase.exists_after? (e : Phrase) {begun : Bool} {bound : List String}
    {outside : List (List String)} {head : Option Term} {t : Term}
    (h : e.term? bound head = some t) :
    ∃ bound', after? ⟨.expression begun, bound, outside⟩ e.tokens =
      some ⟨.expression true, bound', outside⟩ := by
  cases e with
  | simple s =>
      obtain ⟨a, ha, rfl⟩ := Option.map_eq_some_iff.1 h
      exact ⟨bound, s.after?_tokens ha⟩
  | apply s rest =>
      obtain ⟨a, ha, hrest⟩ := Option.bind_eq_some_iff.1 h
      obtain ⟨bound', hafter⟩ := rest.exists_after? hrest
      refine ⟨bound', ?_⟩
      rw [Phrase.tokens, after?_append, s.after?_tokens ha]
      exact hafter
  | binder param params body =>
      obtain ⟨u, hu, rfl⟩ := Option.map_eq_some_iff.1 h
      obtain ⟨bound', hafter⟩ := body.exists_after? hu
      refine ⟨bound', ?_⟩
      rw [Phrase.tokens, List.cons_append, after?_cons]
      simp only [advance?, Option.bind_some]
      rw [after?_append, after?_names]
      exact hafter

theorem Simple.after?_tokens (s : Simple) {begun : Bool} {bound : List String}
    {outside : List (List String)} {t : Term} (h : s.term? bound = some t) :
    after? ⟨.expression begun, bound, outside⟩ s.tokens =
      some ⟨.expression true, bound, outside⟩ := by
  cases s with
  | group e =>
      obtain ⟨bound', hafter⟩ := e.exists_after? h
      rw [Simple.tokens, List.cons_append, after?_cons]
      simp only [advance?, Option.bind_some]
      rw [after?_append, hafter]
      rfl
  | name x =>
      obtain ⟨k, hk, -⟩ := Option.map_eq_some_iff.1 h
      have hx : x ∈ bound := List.isSome_idxOf?.1 (by rw [hk]; rfl)
      rw [Simple.tokens, after?_cons]
      simp only [advance?, if_pos hx]
      rfl

end

/-! ## Where readings fail -/

/-- What comes next has no place in the outlook, for a certain cause. -/
inductive Stuck : Outlook → List Char → Cause → Prop
  | noExpression {bound : List String} {outside : List (List String)}
      {cs : List Char} (hstops : Stops cs) :
      Stuck ⟨.expression false, bound, outside⟩ cs .noExpression
  | leftOver {bound : List String} {cs : List Char} (hstops : Stops cs)
      (hrest : trimStart cs ≠ []) :
      Stuck ⟨.expression true, bound, []⟩ cs .leftOver
  | unbound {begun : Bool} {bound : List String}
      {outside : List (List String)} {cs rest : List Char} {x : String}
      (hnext : next? cs = some (.name x, rest)) (hx : x ∉ bound) :
      Stuck ⟨.expression begun, bound, outside⟩ cs (.unbound x)
  | noParameter {bound : List String} {outside : List (List String)}
      {cs : List Char} (hname : ∀ x rest, next? cs ≠ some (.name x, rest)) :
      Stuck ⟨.head false, bound, outside⟩ cs .noParameter
  | noDot {bound : List String} {outside : List (List String)}
      {cs : List Char} (hname : ∀ x rest, next? cs ≠ some (.name x, rest))
      (hdot : ∀ rest, next? cs ≠ some (.dot, rest)) :
      Stuck ⟨.head true, bound, outside⟩ cs .noDot
  | unclosed {bound around : List String} {outside : List (List String)}
      {cs : List Char} (hstops : Stops cs)
      (hclosing : ∀ rest, next? cs ≠ some (.closing, rest)) :
      Stuck ⟨.expression true, bound, around :: outside⟩ cs .unclosed

section Failing

variable {begun : Bool} {outside : List (List String)} {cs mid : List Char}

/-- The text begins with tokens that lead to an outlook which is stuck, and the
fault stands there. -/
def FailsAt (o : Outlook) (cs : List Char) (e : Fault) : Prop :=
  ∃ ws mid o', Reads cs ws mid ∧ o.after? ws = some o' ∧
    Stuck o' mid e.cause ∧ e.rest = trimStart mid

theorem FailsAt.here {o : Outlook} {cause : Cause} (h : Stuck o cs cause) :
    FailsAt o cs ⟨cause, trimStart cs⟩ :=
  ⟨[], cs, o, .nil, rfl, h, rfl⟩

theorem FailsAt.of_reads {o o' : Outlook} {ws : List Token} {e : Fault}
    (hread : Reads cs ws mid) (hafter : o.after? ws = some o')
    (h : FailsAt o' mid e) : FailsAt o cs e := by
  obtain ⟨vs, last, o'', hvs, hlast, hstuck, hrest⟩ := h
  refine ⟨ws ++ vs, last, o'', Reads.append_iff.2 ⟨mid, hread, hvs⟩, ?_,
    hstuck, hrest⟩
  rw [after?_append, hafter]
  exact hlast

/-- A chain in this text that fails does so where its outlook is stuck. -/
def Explained (ctx : Context) (cs : List Char) : Prop :=
  ∀ head outside e, (chain ctx head cs).outcome = .error e →
    FailsAt ⟨.expression head.isSome, ctx.names, outside⟩ cs e

theorem closing_eq_error {t : Term} {e : Fault}
    (h : (match trimStart mid with
      | ')' :: rest => Reading.done (some t) rest
      | rest => .failed .unclosed rest).outcome = .error e) :
    e = ⟨.unclosed, trimStart mid⟩ ∧
      ∀ rest, next? mid ≠ some (.closing, rest) := by
  split at h
  · cases h
  · rename_i hne
    cases h
    refine ⟨rfl, fun rest hnext ↦ ?_⟩
    exact hne rest (next?_eq_closing_iff.1 hnext)

theorem failsAt_of_opening {ctx : Context} {inner : List Char} {e : Fault}
    (hnext : next? cs = some (.opening, inner)) (hinner : Explained ctx inner)
    (h : (atom? ctx cs).outcome = .error e) :
    FailsAt ⟨.expression begun, ctx.names, outside⟩ cs e := by
  have hread : Reads cs [.opening] inner := .cons hnext .nil
  rw [atom?_eq_of_opening hnext, Reading.bind_outcome_eq_error_iff] at h
  rcases h with h | ⟨t, mid, hchain, hclosing⟩
  · exact (hinner none (ctx.names :: outside) e h).of_reads hread rfl
  · obtain ⟨p, last, hphrase, hstops, hterm, rfl⟩ :=
      (soundChain ctx inner).isPhrase hchain
    obtain ⟨rfl, hnone⟩ := closing_eq_error hclosing
    rw [trimStart_trimStart]
    simp only [next?_trimStart] at hnone
    obtain ⟨bound', hafter⟩ := p.exists_after? hterm
    exact ((FailsAt.here (.unclosed hstops hnone)).of_reads hphrase
      hafter).of_reads hread rfl

theorem failsAt_of_binder {ctx : Context} {e : Fault}
    (hshort : ∀ ctx, ∀ ds : List Char, ds.length < cs.length →
      Explained ctx ds)
    (h : (binder ctx cs).outcome = .error e) :
    FailsAt ⟨.head false, ctx.names, outside⟩ cs e := by
  rw [binder] at h
  split at h
  · rename_i rest hnames
    obtain ⟨mid, hparams, rfl, hname⟩ := exists_of_names hnames
    cases hparams
    cases h
    exact .here (.noParameter hname)
  · rename_i param params rest hnames
    obtain h | ⟨body, last, -, hdone⟩ :=
      Reading.bind_outcome_eq_error_iff.1 h
    · have hbody := hshort _ rest (names_lt hnames) none outside e h
      rw [names_pushAll] at hbody
      refine hbody.of_reads (names_eq_iff.1 hnames) ?_
      rw [after?_append, after?_names]
      rfl
    · cases hdone
  · rename_i params rest hnone hdot hnames
    obtain ⟨mid, hparams, rfl, hname⟩ := exists_of_names hnames
    cases h
    obtain ⟨param, params, rfl⟩ := List.exists_cons_of_ne_nil hnone
    have hnoDot : ∀ rest, next? mid ≠ some (.dot, rest) := fun rest hnext ↦
      hdot param params rest rfl (next?_eq_dot_iff.1 hnext)
    exact (FailsAt.here (.noDot hname hnoDot)).of_reads hparams
      (after?_names _ _ _ _ _)

theorem failsAt_of_sign {ctx : Context} {inner : List Char} {e : Fault}
    (hnext : next? cs = some (.sign, inner))
    (hshort : ∀ ctx, ∀ ds : List Char, ds.length < cs.length →
      Explained ctx ds)
    (h : (atom? ctx cs).outcome = .error e) :
    FailsAt ⟨.expression begun, ctx.names, outside⟩ cs e := by
  rw [atom?_eq_of_sign hnext, Reading.bind_outcome_eq_error_iff] at h
  obtain h | ⟨t, mid, -, hdone⟩ := h
  · have hinner : FailsAt ⟨.head false, ctx.names, outside⟩ inner e :=
      failsAt_of_binder
        (fun ctx ds hds ↦ hshort ctx ds (hds.trans (next?_length hnext))) h
    exact hinner.of_reads (.cons hnext .nil) rfl
  · cases hdone

theorem failsAt_of_name {ctx : Context} {after : List Char} {x : String}
    {e : Fault} (hnext : next? cs = some (.name x, after))
    (h : (atom? ctx cs).outcome = .error e) :
    FailsAt ⟨.expression begun, ctx.names, outside⟩ cs e := by
  rw [atom?_eq_of_name hnext] at h
  cases hk : ctx.indexOf? x with
  | some k =>
      rw [hk] at h
      cases h
  | none =>
      rw [hk] at h
      cases h
      exact .here (.unbound hnext (List.idxOf?_eq_none_iff.1 hk))

theorem failsAt_of_atom? {ctx : Context} {e : Fault}
    (hshort : ∀ ctx, ∀ ds : List Char, ds.length < cs.length →
      Explained ctx ds)
    (h : (atom? ctx cs).outcome = .error e) :
    FailsAt ⟨.expression begun, ctx.names, outside⟩ cs e := by
  have hfound : (atom? ctx cs).outcome ≠ .ok none := by simp [h]
  obtain ⟨w, inner, hnext, hw⟩ := exists_next?_of_atom? hfound
  cases w with
  | opening =>
      exact failsAt_of_opening hnext (hshort ctx inner (next?_length hnext)) h
  | sign => exact failsAt_of_sign hnext hshort h
  | name x => exact failsAt_of_name hnext h
  | closing => exact absurd (.inl rfl) hw
  | dot => exact absurd (.inr rfl) hw

/-- After an atom that stands by itself the chain can go on. -/
theorem isSimple_or_stops {ctx : Context} {t : Term}
    (h : atom? ctx cs = .done (some t) mid) :
    IsSimple ctx cs t mid ∨ Stops mid := by
  have hfound : (atom? ctx cs).outcome ≠ .ok none := by
    simp [h, Reading.done]
  obtain ⟨w, inner, hnext, hw⟩ := exists_next?_of_atom? hfound
  cases w with
  | opening => exact .inl (isSimple_of_opening hnext (soundChain ctx inner) h)
  | name x => exact .inl (isSimple_of_name hnext h)
  | sign =>
      obtain ⟨u, hbinder, -⟩ := (atom?_of_sign hnext).1 h
      have hphrase : IsPhrase ctx none cs (applied none u) mid :=
        isPhrase_of_sign hnext (fun ctx ds _ ↦ soundChain ctx ds) hbinder
      obtain ⟨e, last, -, hstops, -, rfl⟩ := hphrase
      exact .inr (stops_trimStart hstops)
  | closing => exact absurd (.inl rfl) hw
  | dot => exact absurd (.inr rfl) hw

/-- A chain that fails does so where its outlook is stuck. -/
theorem chain_faults (ctx : Context) (cs : List Char) : Explained ctx cs := by
  induction hn : cs.length using Nat.strongRecOn generalizing cs ctx with
  | ind n ih =>
      have hshort : ∀ ctx, ∀ ds : List Char, ds.length < cs.length →
          Explained ctx ds :=
        fun ctx ds hds ↦ ih ds.length (hn ▸ hds) ctx ds rfl
      intro head outside e h
      rcases chain_eq_error h with h | ⟨a, mid, hatom, h⟩ | ⟨hstops, rfl, rfl⟩
      · exact failsAt_of_atom? hshort h
      · rcases isSimple_or_stops hatom with ⟨s, hread, hterm⟩ | hstops
        · have hmid := hshort ctx mid (atom?_length_lt hatom) _ outside e h
          exact hmid.of_reads hread (s.after?_tokens hterm)
        · rw [chain_of_stops hstops] at h
          cases h
      · exact .here (.noExpression hstops)

/-- So does the reading of a text as a whole. -/
theorem wholeTerm_faults {e : Fault} (h : (wholeTerm cs).outcome = .error e) :
    FailsAt start cs e := by
  rw [wholeTerm, expression, Reading.bind_outcome_eq_error_iff] at h
  rcases h with h | ⟨t, rest, hchain, hend⟩
  · exact chain_faults .root cs none [] e h
  · obtain ⟨p, mid, hread, hstops, hterm, rfl⟩ :=
      (soundChain .root cs).isPhrase hchain
    obtain ⟨bound, hafter⟩ := p.exists_after? hterm
    rw [trimStart_trimStart] at hend
    split at hend
    · cases hend
    · rename_i hrest
      cases hend
      exact (FailsAt.here (.leftOver hstops hrest)).of_reads hread hafter

end Failing

end Nameless.Surface
