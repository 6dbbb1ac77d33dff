import Mathlib.Data.List.DropRight
import Nameless.Proofs.Surface.Grammar
import Nameless.Surface.Progress
import Nameless.Surface.Rejection

/-!
# Reading by the first token

What the parser does with a text is decided by the first token of the text.
Each token has one lemma that says when an atom that starts with it is read,
and which text is left then.
-/

namespace Nameless.Surface

open Text (trimStart)

/-! ## Characters and tokens -/

theorem symbol?_eq_none_of_isNameChar {c : Char}
    (h : isNameChar c = true) : symbol? c = none := by
  have hne : ∀ d, isNameChar d = false → c ≠ d := by
    rintro d hd rfl
    rw [h] at hd
    cases hd
  have hsign : ¬ isBinderSign c = true := by
    simp [isBinderSign, hne 'λ' (by decide), hne '\\' (by decide)]
  rw [symbol?, if_neg (hne '(' (by decide)), if_neg (hne ')' (by decide)),
    if_neg (hne '.' (by decide)), if_neg hsign]

theorem symbol?_eq_opening_iff {c : Char} :
    symbol? c = some .opening ↔ c = '(' := by
  grind [symbol?]

theorem symbol?_eq_closing_iff {c : Char} :
    symbol? c = some .closing ↔ c = ')' := by
  grind [symbol?]

theorem symbol?_eq_dot_iff {c : Char} :
    symbol? c = some .dot ↔ c = '.' := by
  grind [symbol?]

theorem symbol?_eq_sign_iff {c : Char} :
    symbol? c = some .sign ↔ isBinderSign c = true := by
  grind [symbol?, isBinderSign]

theorem symbol?_ne_name {c : Char} {x : String} :
    symbol? c ≠ some (.name x) := by
  grind [symbol?]

theorem isNameChar_of_name? {c : Char} {cs rest : List Char} {x : String}
    (h : name? (c :: cs) = some (x, rest)) : isNameChar c = true := by
  cases hc : isNameChar c with
  | true => rfl
  | false => simp [name?, hc] at h

theorem next?_of_symbol {cs rest : List Char} {c : Char} {w : Token}
    (hcs : trimStart cs = c :: rest) (hc : symbol? c = some w) :
    next? cs = some (w, rest) := by
  rw [next?, hcs]
  dsimp only
  rw [hc]

theorem next?_of_name {cs rest : List Char} {x : String}
    (h : name? (trimStart cs) = some (x, rest)) :
    next? cs = some (.name x, rest) := by
  rw [next?]
  cases hcs : trimStart cs with
  | nil =>
      rw [hcs] at h
      cases h
  | cons c tail =>
      rw [hcs] at h
      dsimp only
      rw [symbol?_eq_none_of_isNameChar (isNameChar_of_name? h), h]
      rfl

/-- The first token is a symbol or a name. -/
theorem symbol_or_name_of_next? {cs rest : List Char} {w : Token}
    (h : next? cs = some (w, rest)) :
    (∃ c, symbol? c = some w ∧ trimStart cs = c :: rest) ∨
      ∃ x, w = .name x ∧ name? (trimStart cs) = some (x, rest) := by
  rw [next?] at h
  split at h
  · cases h
  · rename_i c tail hcs
    split at h
    · rename_i v hc
      cases h
      exact .inl ⟨c, hc, hcs⟩
    · obtain ⟨⟨x, after⟩, hname, heq⟩ := Option.map_eq_some_iff.1 h
      cases heq
      rw [← hcs] at hname
      exact .inr ⟨x, rfl, hname⟩

theorem name?_of_next? {cs rest : List Char} {x : String}
    (h : next? cs = some (.name x, rest)) :
    name? (trimStart cs) = some (x, rest) := by
  rcases symbol_or_name_of_next? h with ⟨c, hc, -⟩ | ⟨y, hxy, hname⟩
  · exact absurd hc symbol?_ne_name
  · cases hxy
    exact hname

theorem trimStart_of_next? {cs rest : List Char} {w : Token}
    (h : next? cs = some (w, rest)) (hw : ∀ x, w ≠ .name x) :
    ∃ c, symbol? c = some w ∧ trimStart cs = c :: rest := by
  rcases symbol_or_name_of_next? h with hsymbol | ⟨x, rfl, -⟩
  · exact hsymbol
  · exact absurd rfl (hw x)

/-- A symbol that only one character writes. -/
theorem next?_eq_symbol_iff {cs rest : List Char} {c : Char} {w : Token}
    (hw : ∀ d, symbol? d = some w ↔ d = c) :
    next? cs = some (w, rest) ↔ trimStart cs = c :: rest := by
  constructor
  · intro h
    have hname : ∀ x, w ≠ .name x := by
      rintro x rfl
      exact symbol?_ne_name ((hw c).2 rfl)
    obtain ⟨d, hd, hcs⟩ := trimStart_of_next? h hname
    rw [hcs, (hw d).1 hd]
  · intro h
    exact next?_of_symbol h ((hw c).2 rfl)

theorem next?_eq_closing_iff {cs rest : List Char} :
    next? cs = some (.closing, rest) ↔ trimStart cs = ')' :: rest :=
  next?_eq_symbol_iff fun _ ↦ symbol?_eq_closing_iff

theorem next?_eq_dot_iff {cs rest : List Char} :
    next? cs = some (.dot, rest) ↔ trimStart cs = '.' :: rest :=
  next?_eq_symbol_iff fun _ ↦ symbol?_eq_dot_iff

theorem trimStart_trimStart (cs : List Char) :
    trimStart (trimStart cs) = trimStart cs :=
  List.dropWhile_idempotent _ cs

theorem next?_trimStart (cs : List Char) :
    next? (trimStart cs) = next? cs := by
  rw [next?, trimStart_trimStart, next?]

/-! ## Atoms by their first token -/

namespace Reading

theorem bind_eq_done_iff {r : Reading α} {next : α → List Char → Reading β}
    {b : β} {rest : List Char} :
    r.bind next = .done b rest ↔
      ∃ a mid, r = .done a mid ∧ next a mid = .done b rest := by
  obtain ⟨outcome, mid⟩ := r
  cases outcome with
  | error e => simp [bind, done]
  | ok a =>
      constructor
      · intro h
        exact ⟨a, mid, rfl, h⟩
      · rintro ⟨a', mid', hr, h⟩
        cases hr
        exact h

theorem bind_outcome_eq_error_iff {r : Reading α}
    {next : α → List Char → Reading β} {e : Fault} :
    (r.bind next).outcome = .error e ↔
      r.outcome = .error e ∨
        ∃ a mid, r = .done a mid ∧ (next a mid).outcome = .error e := by
  obtain ⟨outcome, mid⟩ := r
  cases outcome with
  | error e' => simp [bind, done]
  | ok a =>
      constructor
      · intro h
        exact .inr ⟨a, mid, rfl, h⟩
      · rintro (h | ⟨a', mid', hr, h⟩)
        · cases h
        · cases hr
          exact h

end Reading

theorem atom?_of_cons {cs rest : List Char} {c : Char}
    (hcs : trimStart cs = c :: rest) (ctx : Context) :
    atom? ctx cs =
      if c = '(' then
        (chain ctx none rest).bind fun t rest ↦
          match trimStart rest with
          | ')' :: rest => .done (some t) rest
          | rest => .failed .unclosed rest
      else if isBinderSign c then
        (binder ctx rest).bind fun t rest ↦ .done (some t) rest
      else
        match name? (c :: rest) with
        | none => .done none (c :: rest)
        | some (name, after) =>
          match ctx.indexOf? name with
          | some k => .done (some (.var k)) after
          | none => ⟨.error ⟨.unbound name, c :: rest⟩, after⟩ := by
  rw [atom?]
  split
  · rename_i hnil
    rw [hnil] at hcs
    cases hcs
  · rename_i d tail hcons
    rw [hcons] at hcs
    cases hcs
    rfl

/-- Nothing that a chain could go on with stands here. -/
def Stops (cs : List Char) : Prop :=
  ∀ w rest, next? cs = some (w, rest) → w = .closing ∨ w = .dot

theorem stops_of_blank {cs : List Char} (h : trimStart cs = []) :
    Stops cs := by
  intro w rest hnext
  rw [next?, h] at hnext
  cases hnext

theorem stops_of_closing {cs rest : List Char}
    (h : next? cs = some (.closing, rest)) : Stops cs := by
  intro w rest' hnext
  rw [h] at hnext
  cases hnext
  exact .inl rfl

theorem stops_of_dot {cs rest : List Char}
    (h : next? cs = some (.dot, rest)) : Stops cs := by
  intro w rest' hnext
  rw [h] at hnext
  cases hnext
  exact .inr rfl

theorem stops_trimStart {cs : List Char} (h : Stops cs) :
    Stops (trimStart cs) := by
  intro w rest hnext
  rw [next?_trimStart] at hnext
  exact h w rest hnext

theorem atom?_of_stops {cs : List Char} (h : Stops cs) (ctx : Context) :
    atom? ctx cs = .done none (trimStart cs) := by
  cases hcs : trimStart cs with
  | nil =>
      rw [atom?]
      split
      · rfl
      · rename_i hcons
        rw [hcs] at hcons
        cases hcons
  | cons c rest =>
      have hstop : ∀ w, symbol? c = some w → w = .closing ∨ w = .dot :=
        fun w hc ↦ h w rest (next?_of_symbol hcs hc)
      have hopening : c ≠ '(' := by
        intro hc
        have := hstop .opening (symbol?_eq_opening_iff.2 hc)
        simp at this
      have hsign : ¬ isBinderSign c = true := by
        intro hc
        have := hstop .sign (symbol?_eq_sign_iff.2 hc)
        simp at this
      have hname : name? (c :: rest) = none := by
        cases hx : name? (c :: rest) with
        | none => rfl
        | some found =>
            rw [← hcs] at hx
            have := h _ _ (next?_of_name hx)
            simp at this
      rw [atom?_of_cons hcs, if_neg hopening, if_neg hsign, hname]

/-- Where there is an atom, or what should have been one, a token starts it. -/
theorem exists_next?_of_atom? {ctx : Context} {cs : List Char}
    (h : (atom? ctx cs).outcome ≠ .ok none) :
    ∃ w rest, next? cs = some (w, rest) ∧ ¬ (w = .closing ∨ w = .dot) := by
  have hgoes : ¬ Stops cs := by
    intro hstops
    rw [atom?_of_stops hstops] at h
    exact h rfl
  simp only [Stops, not_forall] at hgoes
  obtain ⟨w, rest, hnext, hw⟩ := hgoes
  exact ⟨w, rest, hnext, hw⟩

/-- Blanks at the front make no difference. -/
theorem atom?_congr {cs ds : List Char} (h : trimStart cs = trimStart ds)
    (ctx : Context) : atom? ctx cs = atom? ctx ds := by
  cases hds : trimStart ds with
  | nil =>
      rw [atom?_of_stops (stops_of_blank (h.trans hds)),
        atom?_of_stops (stops_of_blank hds), h]
  | cons c rest => rw [atom?_of_cons (h.trans hds), atom?_of_cons hds]

theorem closing_eq_done_iff {t : Term} {mid rest : List Char}
    {a : Option Term} :
    (match trimStart mid with
      | ')' :: rest => Reading.done (some t) rest
      | rest => .failed .unclosed rest) = .done a rest ↔
      next? mid = some (.closing, rest) ∧ a = some t := by
  rw [next?_eq_closing_iff]
  split
  · rename_i rest' hmid
    rw [hmid]
    constructor
    · intro h
      cases h
      exact ⟨rfl, rfl⟩
    · rintro ⟨h, rfl⟩
      cases h
      rfl
  · rename_i hne
    constructor
    · intro h
      cases h
    · rintro ⟨h, -⟩
      exact absurd h (hne rest)

theorem atom?_eq_of_opening {cs inner : List Char}
    (h : next? cs = some (.opening, inner)) (ctx : Context) :
    atom? ctx cs = (chain ctx none inner).bind fun t rest ↦
      match trimStart rest with
      | ')' :: rest => .done (some t) rest
      | rest => .failed .unclosed rest := by
  obtain ⟨c, hc, hcs⟩ := trimStart_of_next? h (by simp)
  rw [atom?_of_cons hcs, if_pos (symbol?_eq_opening_iff.1 hc)]

theorem atom?_of_opening {ctx : Context} {cs inner rest : List Char}
    {a : Option Term} (h : next? cs = some (.opening, inner)) :
    atom? ctx cs = .done a rest ↔ ∃ t mid, chain ctx none inner = .done t mid ∧
      next? mid = some (.closing, rest) ∧ a = some t := by
  rw [atom?_eq_of_opening h, Reading.bind_eq_done_iff]
  simp only [closing_eq_done_iff]

theorem atom?_eq_of_sign {cs inner : List Char}
    (h : next? cs = some (.sign, inner)) (ctx : Context) :
    atom? ctx cs = (binder ctx inner).bind fun t rest ↦ .done (some t) rest := by
  obtain ⟨c, hc, hcs⟩ := trimStart_of_next? h (by simp)
  have hopening : c ≠ '(' := by
    rintro rfl
    cases hc
  rw [atom?_of_cons hcs, if_neg hopening, if_pos (symbol?_eq_sign_iff.1 hc)]

theorem atom?_of_sign {ctx : Context} {cs inner rest : List Char}
    {a : Option Term} (h : next? cs = some (.sign, inner)) :
    atom? ctx cs = .done a rest ↔
      ∃ t, binder ctx inner = .done t rest ∧ a = some t := by
  rw [atom?_eq_of_sign h, Reading.bind_eq_done_iff]
  constructor
  · rintro ⟨t, mid, ht, hdone⟩
    cases hdone
    exact ⟨t, ht, rfl⟩
  · rintro ⟨t, ht, rfl⟩
    exact ⟨t, rest, ht, rfl⟩

theorem atom?_eq_of_name {cs after : List Char} {x : String}
    (h : next? cs = some (.name x, after)) (ctx : Context) :
    atom? ctx cs =
      match ctx.indexOf? x with
      | some k => .done (some (.var k)) after
      | none => ⟨.error ⟨.unbound x, trimStart cs⟩, after⟩ := by
  have hname := name?_of_next? h
  cases hcs : trimStart cs with
  | nil =>
      rw [hcs] at hname
      cases hname
  | cons c tail =>
      rw [hcs] at hname
      have hc := symbol?_eq_none_of_isNameChar (isNameChar_of_name? hname)
      have hopening : c ≠ '(' := by
        rintro rfl
        cases hc
      have hsign : ¬ isBinderSign c = true := by
        intro hsign
        rw [symbol?_eq_sign_iff.2 hsign] at hc
        cases hc
      rw [atom?_of_cons hcs, if_neg hopening, if_neg hsign, hname]

theorem atom?_of_name {ctx : Context} {cs after rest : List Char} {x : String}
    {a : Option Term} (h : next? cs = some (.name x, after)) :
    atom? ctx cs = .done a rest ↔
      ∃ k : Nat, ctx.indexOf? x = some k ∧ a = some (.var k) ∧ rest = after := by
  rw [atom?_eq_of_name h]
  cases hk : ctx.indexOf? x with
  | none => simp [Reading.done]
  | some k => simp [Reading.done, eq_comm]

theorem stops_of_atom?_eq_none {ctx : Context} {cs rest : List Char}
    (h : atom? ctx cs = .done none rest) : Stops cs := by
  intro w inner hnext
  cases w with
  | opening =>
      obtain ⟨t, mid, -, -, ht⟩ := (atom?_of_opening hnext).1 h
      cases ht
  | sign =>
      obtain ⟨t, -, ht⟩ := (atom?_of_sign hnext).1 h
      cases ht
  | name x =>
      obtain ⟨k, -, hk, -⟩ := (atom?_of_name hnext).1 h
      cases hk
  | closing => exact .inl rfl
  | dot => exact .inr rfl

/-! ## Chains and binders -/

theorem chain_of_stops {cs : List Char} (h : Stops cs) (ctx : Context)
    (t : Term) : chain ctx (some t) cs = .done t (trimStart cs) :=
  chain_of_none (atom?_of_stops h ctx)

theorem chain_eq_done {ctx : Context} {head : Option Term}
    {cs rest : List Char} {t : Term} (h : chain ctx head cs = .done t rest) :
    (∃ a mid, atom? ctx cs = .done (some a) mid ∧
      chain ctx (some (applied head a)) mid = .done t rest) ∨
    Stops cs ∧ head = some t ∧ rest = trimStart cs := by
  rcases hatom : atom? ctx cs with ⟨outcome, mid⟩
  cases outcome with
  | error e =>
      rw [chain_of_error hatom] at h
      cases h
  | ok found =>
      cases found with
      | some a =>
          rw [chain_of_some hatom] at h
          exact .inl ⟨a, mid, rfl, h⟩
      | none =>
          have hstops := stops_of_atom?_eq_none hatom
          rw [chain_of_none (atom?_of_stops hstops ctx)] at h
          cases head with
          | none => cases h
          | some u =>
              cases h
              exact .inr ⟨hstops, rfl, rfl⟩

theorem chain_eq_error {ctx : Context} {head : Option Term} {cs : List Char}
    {e : Fault} (h : (chain ctx head cs).outcome = .error e) :
    (atom? ctx cs).outcome = .error e ∨
    (∃ a mid, atom? ctx cs = .done (some a) mid ∧
      (chain ctx (some (applied head a)) mid).outcome = .error e) ∨
    Stops cs ∧ head = none ∧ e = ⟨.noExpression, trimStart cs⟩ := by
  rcases hatom : atom? ctx cs with ⟨outcome, mid⟩
  cases outcome with
  | error e' =>
      rw [chain_of_error hatom] at h
      cases h
      exact .inl rfl
  | ok found =>
      cases found with
      | some a =>
          rw [chain_of_some hatom] at h
          exact .inr (.inl ⟨a, mid, rfl, h⟩)
      | none =>
          have hstops := stops_of_atom?_eq_none hatom
          rw [chain_of_none (atom?_of_stops hstops ctx)] at h
          cases head with
          | none =>
              cases h
              exact .inr (.inr ⟨hstops, rfl, rfl⟩)
          | some u => cases h

theorem names_of_none {cs : List Char} (h : name? (trimStart cs) = none) :
    names cs = ([], trimStart cs) := by
  rw [names]
  split
  · rfl
  · rename_i hname
    cases h.symm.trans hname

theorem names_of_some {cs rest : List Char} {x : String}
    (h : name? (trimStart cs) = some (x, rest)) :
    names cs = (x :: (names rest).1, (names rest).2) := by
  rw [names]
  split
  · rename_i hname
    cases h.symm.trans hname
  · rename_i hname
    cases h.symm.trans hname
    rfl

/-- The names at the front are read until none follows. -/
theorem exists_of_names {cs rest : List Char} {params : List String}
    (h : names cs = (params, rest)) :
    ∃ mid, Reads cs (params.map .name) mid ∧ rest = trimStart mid ∧
      ∀ x after, next? mid ≠ some (.name x, after) := by
  fun_induction names cs generalizing params with
  | case1 cs hnone =>
      cases h
      refine ⟨cs, .nil, rfl, fun x after hnext ↦ ?_⟩
      rw [name?_of_next? hnext] at hnone
      cases hnone
  | case2 cs x mid hname _ _ more last hmore ih =>
      cases h
      obtain ⟨last', hread, hrest, hstops⟩ := ih hmore
      exact ⟨last', .cons (next?_of_name hname) hread, hrest, hstops⟩

theorem names_eq_iff {cs after : List Char} {params : List String} :
    names cs = (params, '.' :: after) ↔
      Reads cs (params.map .name ++ [.dot]) after := by
  fun_induction names cs generalizing params with
  | case1 cs hnone =>
      cases params with
      | nil =>
          rw [List.map_nil, List.nil_append, Reads.cons_iff]
          simp [Reads.nil_iff, next?_eq_dot_iff]
      | cons param params =>
          rw [List.map_cons, List.cons_append, Reads.cons_iff]
          constructor
          · intro h
            cases h
          · rintro ⟨mid, hnext, -⟩
            rw [name?_of_next? hnext] at hnone
            cases hnone
  | case2 cs x rest hname _ _ more last hmore ih =>
      have hnext := next?_of_name hname
      cases params with
      | nil =>
          rw [List.map_nil, List.nil_append, Reads.cons_iff]
          constructor
          · intro h
            cases h
          · rintro ⟨mid, hdot, -⟩
            rw [hnext] at hdot
            cases hdot
      | cons param params =>
          rw [List.map_cons, List.cons_append, Reads.cons_iff]
          constructor
          · intro h
            cases h
            exact ⟨rest, hnext, ih.1 hmore⟩
          · rintro ⟨mid, hparam, hread⟩
            rw [hnext] at hparam
            cases hparam
            rw [hmore] at ih
            cases ih.2 hread
            rfl

theorem binder_of_no_name {cs rest : List Char} (h : names cs = ([], rest))
    (ctx : Context) : binder ctx cs = .failed .noParameter rest := by
  rw [binder]
  split
  · rename_i hnames
    cases h.symm.trans hnames
    rfl
  · rename_i hnames
    cases h.symm.trans hnames
  · rename_i hnil hdot hnames
    cases h.symm.trans hnames
    exact absurd rfl hnil

theorem binder_of_dot {cs rest : List Char} {param : String}
    {params : List String} (h : names cs = (param :: params, '.' :: rest))
    (ctx : Context) :
    binder ctx cs =
      (chain (ctx.pushAll (param :: params)) none rest).bind fun body rest ↦
        .done ((param :: params).foldr .lam body) rest := by
  rw [binder]
  split
  · rename_i hnames
    cases h.symm.trans hnames
  · rename_i hnames
    cases h.symm.trans hnames
    rfl
  · rename_i hnil hdot hnames
    cases h.symm.trans hnames
    exact absurd rfl (hdot _ _ _ rfl)

theorem binder_of_no_dot {cs rest : List Char} {params : List String}
    (h : names cs = (params, rest)) (hparams : params ≠ [])
    (hrest : ∀ after, rest ≠ '.' :: after) (ctx : Context) :
    binder ctx cs = .failed .noDot rest := by
  rw [binder]
  split
  · rename_i hnames
    cases h.symm.trans hnames
    exact absurd rfl hparams
  · rename_i hnames
    cases h.symm.trans hnames
    exact absurd rfl (hrest _)
  · rename_i hnames
    cases h.symm.trans hnames
    rfl

theorem binder_eq_done_iff {ctx : Context} {cs rest : List Char} {t : Term} :
    binder ctx cs = .done t rest ↔ ∃ param params after body,
      Reads cs ((param :: params).map .name ++ [.dot]) after ∧
      chain (ctx.pushAll (param :: params)) none after = .done body rest ∧
      t = (param :: params).foldr .lam body := by
  rw [binder]
  split
  · rename_i last hnames
    constructor
    · intro h
      cases h
    · rintro ⟨param, params, after, body, hread, -⟩
      rw [names_eq_iff.2 hread] at hnames
      cases hnames
  · rename_i param params after hnames
    rw [Reading.bind_eq_done_iff]
    constructor
    · rintro ⟨body, mid, hbody, hdone⟩
      cases hdone
      exact ⟨param, params, after, body, names_eq_iff.1 hnames, hbody, rfl⟩
    · rintro ⟨param', params', after', body, hread, hbody, rfl⟩
      rw [names_eq_iff.2 hread] at hnames
      cases hnames
      exact ⟨body, rest, hbody, rfl⟩
  · rename_i found last hnil hdot hnames
    constructor
    · intro h
      cases h
    · rintro ⟨param, params, after, body, hread, -⟩
      rw [names_eq_iff.2 hread] at hnames
      cases hnames
      exact (hdot param params after rfl rfl).elim

/-- The body of a binder has stopped already, so the chain ends with it. -/
theorem chain_of_binder {ctx : Context} {head : Option Term}
    {cs inner rest : List Char} {t : Term}
    (hnext : next? cs = some (.sign, inner)) (hstops : Stops rest)
    (h : binder ctx inner = .done t (trimStart rest)) :
    chain ctx head cs = .done (applied head t) (trimStart rest) := by
  have hatom := (atom?_of_sign hnext).2 ⟨t, h, rfl⟩
  rw [chain_of_some hatom, chain_of_stops (stops_trimStart hstops),
    trimStart_trimStart]

theorem names_pushAll (ctx : Context) (params : List String) :
    (ctx.pushAll params).names = params.reverse ++ ctx.names := by
  induction params generalizing ctx with
  | nil => rfl
  | cons param params ih =>
      change ((ctx.push param).pushAll params).names = _
      rw [ih, Context.names_push]
      simp

/-! ## Whole texts -/

theorem parse_eq_ok_iff {s : String} {t : Term} :
    parse s = .ok t ↔
      ∃ rest, chain .root none s.toList = .done t rest ∧
        trimStart rest = [] := by
  have hwhole : parse s = .ok t ↔ ∃ rest, wholeTerm s.toList = .done t rest := by
    rcases hread : wholeTerm s.toList with ⟨outcome, rest⟩
    cases outcome with
    | error e => simp [parse, hread, Reading.done, Except.mapError]
    | ok u => simp [parse, hread, Reading.done, Except.mapError]
  rw [hwhole]
  simp only [wholeTerm, expression, Reading.bind_eq_done_iff]
  constructor
  · rintro ⟨last, u, rest, hchain, hend⟩
    split at hend
    · rename_i hrest
      cases hend
      exact ⟨rest, hchain, hrest⟩
    · cases hend
  · rintro ⟨rest, hchain, hrest⟩
    refine ⟨[], t, rest, hchain, ?_⟩
    rw [hrest]

end Nameless.Surface
