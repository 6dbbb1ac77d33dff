import Nameless.Proofs.Surface.Lookahead

/-!
# The language of the parser

The parser accepts the phrases of the grammar and nothing else, and what it
returns is the term of the phrase.  That a text it accepts is a phrase is
proved by induction on the length of the text, that every phrase is accepted
by induction on the phrase.
-/

namespace Nameless.Surface

open Text (trimStart)

/-! ## What is read is a phrase -/

theorem Phrase.reads_binder_iff {cs rest : List Char} {param : String}
    {params : List String} {body : Phrase} :
    Reads cs (Phrase.binder param params body).tokens rest ↔
      ∃ inner after, next? cs = some (.sign, inner) ∧
        Reads inner ((param :: params).map .name ++ [.dot]) after ∧
        Reads after body.tokens rest := by
  have htokens : (Phrase.binder param params body).tokens =
      .sign :: (((param :: params).map .name ++ [.dot]) ++ body.tokens) := by
    simp [Phrase.tokens]
  rw [htokens, Reads.cons_iff]
  constructor
  · rintro ⟨inner, hnext, h⟩
    obtain ⟨after, hparams, hbody⟩ := Reads.append_iff.1 h
    exact ⟨inner, after, hnext, hparams, hbody⟩
  · rintro ⟨inner, after, hnext, hparams, hbody⟩
    exact ⟨inner, hnext, Reads.append_iff.2 ⟨after, hparams, hbody⟩⟩

/-- The text is a phrase of `t`, whose arguments go on from `head`, as far as
a chain can go, and `rest` follows after blanks. -/
def IsPhrase (ctx : Context) (head : Option Term) (cs : List Char) (t : Term)
    (rest : List Char) : Prop :=
  ∃ (e : Phrase) (mid : List Char), Reads cs e.tokens mid ∧ Stops mid ∧
    e.term? ctx.names head = some t ∧ rest = trimStart mid

def IsSimple (ctx : Context) (cs : List Char) (t : Term)
    (rest : List Char) : Prop :=
  ∃ s : Simple, Reads cs s.tokens rest ∧ s.term? ctx.names = some t

/-- A chain that is read is a phrase, unless it is its head alone. -/
def SoundChain (ctx : Context) (cs : List Char) : Prop :=
  ∀ head t rest, chain ctx head cs = .done t rest →
    IsPhrase ctx head cs t rest ∨
      head = some t ∧ Stops cs ∧ rest = trimStart cs

theorem SoundChain.isPhrase {ctx : Context} {cs rest : List Char} {t : Term}
    (hsound : SoundChain ctx cs) (h : chain ctx none cs = .done t rest) :
    IsPhrase ctx none cs t rest := by
  rcases hsound none t rest h with hphrase | ⟨hhead, -⟩
  · exact hphrase
  · cases hhead

theorem isSimple_of_opening {ctx : Context} {cs inner rest : List Char}
    {t : Term} (hnext : next? cs = some (.opening, inner))
    (hsound : SoundChain ctx inner) (h : atom? ctx cs = .done (some t) rest) :
    IsSimple ctx cs t rest := by
  obtain ⟨u, mid, hinner, hclosing, hu⟩ := (atom?_of_opening hnext).1 h
  cases hu
  obtain ⟨e, last, hread, -, hterm, rfl⟩ := hsound.isPhrase hinner
  rw [next?_trimStart] at hclosing
  have hgroup : Reads inner (e.tokens ++ [.closing]) rest :=
    Reads.append_iff.2 ⟨last, hread, .cons hclosing .nil⟩
  exact ⟨.group e, .cons hnext hgroup, hterm⟩

theorem isSimple_of_name {ctx : Context} {cs after rest : List Char}
    {x : String} {t : Term} (hnext : next? cs = some (.name x, after))
    (h : atom? ctx cs = .done (some t) rest) : IsSimple ctx cs t rest := by
  obtain ⟨k, hk, ht, rfl⟩ := (atom?_of_name hnext).1 h
  cases ht
  refine ⟨.name x, .cons hnext .nil, ?_⟩
  rw [Simple.term?, ← Context.indexOf?, hk]
  rfl

theorem isPhrase_of_sign {ctx : Context} {cs inner rest : List Char}
    {head : Option Term} {t : Term} (hnext : next? cs = some (.sign, inner))
    (hsound : ∀ ctx, ∀ ds : List Char, ds.length < cs.length →
      SoundChain ctx ds)
    (h : binder ctx inner = .done t rest) :
    IsPhrase ctx head cs (applied head t) rest := by
  obtain ⟨param, params, after, body, hparams, hbody, rfl⟩ :=
    binder_eq_done_iff.1 h
  have hshort : after.length < cs.length := by
    have := hparams.length_le
    have := next?_length hnext
    omega
  obtain ⟨e, mid, hread, hstops, hterm, hrest⟩ :=
    (hsound _ after hshort).isPhrase hbody
  rw [names_pushAll] at hterm
  refine ⟨.binder param params e, mid, ?_, hstops, ?_, hrest⟩
  · exact Phrase.reads_binder_iff.2 ⟨inner, after, hnext, hparams, hread⟩
  · rw [Phrase.term?, hterm]
    rfl

theorem isPhrase_of_simple {ctx : Context} {head : Option Term}
    {cs mid rest : List Char} {a t : Term} (hsimple : IsSimple ctx cs a mid)
    (hsound : SoundChain ctx mid)
    (h : chain ctx (some (applied head a)) mid = .done t rest) :
    IsPhrase ctx head cs t rest := by
  obtain ⟨s, hs, hterm⟩ := hsimple
  rcases hsound _ t rest h with
    ⟨e, last, he, hstops, hmore, hrest⟩ | ⟨hhead, hstops, hrest⟩
  · refine ⟨.apply s e, last, Reads.append_iff.2 ⟨mid, hs, he⟩, hstops, ?_,
      hrest⟩
    rw [Phrase.term?, hterm]
    exact hmore
  · refine ⟨.simple s, mid, hs, hstops, ?_, hrest⟩
    rw [Phrase.term?, hterm]
    exact hhead

theorem isPhrase_of_atom? {ctx : Context} {head : Option Term}
    {cs mid rest : List Char} {a t : Term}
    (hsound : ∀ ctx, ∀ ds : List Char, ds.length < cs.length →
      SoundChain ctx ds)
    (hatom : atom? ctx cs = .done (some a) mid)
    (h : chain ctx (some (applied head a)) mid = .done t rest) :
    IsPhrase ctx head cs t rest := by
  have hmid := atom?_length_lt hatom
  have hfound : (atom? ctx cs).outcome ≠ .ok none := by
    simp [hatom, Reading.done]
  obtain ⟨w, inner, hnext, hw⟩ := exists_next?_of_atom? hfound
  cases w with
  | opening =>
      have hinner := hsound ctx inner (next?_length hnext)
      exact isPhrase_of_simple (isSimple_of_opening hnext hinner hatom)
        (hsound ctx mid hmid) h
  | name x =>
      exact isPhrase_of_simple (isSimple_of_name hnext hatom)
        (hsound ctx mid hmid) h
  | sign =>
      obtain ⟨u, hbinder, hu⟩ := (atom?_of_sign hnext).1 hatom
      cases hu
      have hphrase : IsPhrase ctx head cs (applied head a) mid :=
        isPhrase_of_sign hnext hsound hbinder
      obtain ⟨e, last, hread, hstops, hterm, rfl⟩ := hphrase
      -- The body has stopped here, so nothing follows the binder.
      rw [chain_of_stops (stops_trimStart hstops), trimStart_trimStart] at h
      cases h
      exact ⟨e, last, hread, hstops, hterm, rfl⟩
  | closing => exact absurd (.inl rfl) hw
  | dot => exact absurd (.inr rfl) hw

theorem soundChain (ctx : Context) (cs : List Char) : SoundChain ctx cs := by
  induction hn : cs.length using Nat.strongRecOn generalizing cs ctx with
  | ind n ih =>
      have hsound : ∀ ctx, ∀ ds : List Char, ds.length < cs.length →
          SoundChain ctx ds :=
        fun ctx ds hds ↦ ih ds.length (hn ▸ hds) ctx ds rfl
      intro head t rest h
      rcases chain_eq_done h with ⟨a, mid, hatom, hchain⟩ |
        ⟨hstops, hhead, hrest⟩
      · exact .inl (isPhrase_of_atom? hsound hatom hchain)
      · exact .inr ⟨hhead, hstops, hrest⟩

/-! ## Phrases are read -/

mutual

theorem Phrase.chain_of_reads (e : Phrase) {ctx : Context}
    {head : Option Term} {cs rest : List Char} {t : Term}
    (hread : Reads cs e.tokens rest) (hstops : Stops rest)
    (hterm : e.term? ctx.names head = some t) :
    chain ctx head cs = .done t (trimStart rest) := by
  cases e with
  | simple s =>
      obtain ⟨a, ha, rfl⟩ := Option.map_eq_some_iff.1 hterm
      rw [chain_of_some (s.atom?_of_reads hread ha), chain_of_stops hstops]
  | apply s more =>
      obtain ⟨mid, hs, hmore⟩ := Reads.append_iff.1 hread
      obtain ⟨a, ha, hterm⟩ := Option.bind_eq_some_iff.1 hterm
      rw [chain_of_some (s.atom?_of_reads hs ha)]
      exact more.chain_of_reads hmore hstops hterm
  | binder param params body =>
      obtain ⟨inner, after, hnext, hparams, hbody⟩ :=
        Phrase.reads_binder_iff.1 hread
      obtain ⟨u, hu, rfl⟩ := Option.map_eq_some_iff.1 hterm
      rw [← names_pushAll] at hu
      have hchain := body.chain_of_reads hbody hstops hu
      have hbinder := binder_eq_done_iff.2
        ⟨param, params, after, u, hparams, hchain, rfl⟩
      exact chain_of_binder hnext hstops hbinder

theorem Simple.atom?_of_reads (s : Simple) {ctx : Context}
    {cs rest : List Char} {t : Term} (hread : Reads cs s.tokens rest)
    (hterm : s.term? ctx.names = some t) :
    atom? ctx cs = .done (some t) rest := by
  cases s with
  | group e =>
      obtain ⟨inner, hnext, hgroup⟩ := Reads.cons_iff.1 hread
      obtain ⟨mid, he, hclosing⟩ := Reads.append_iff.1 hgroup
      obtain ⟨last, hclosing, hlast⟩ := Reads.cons_iff.1 hclosing
      cases hlast
      have hchain := e.chain_of_reads he (stops_of_closing hclosing) hterm
      rw [← next?_trimStart] at hclosing
      exact (atom?_of_opening hnext).2 ⟨t, _, hchain, hclosing, rfl⟩
  | name x =>
      obtain ⟨last, hnext, hlast⟩ := Reads.cons_iff.1 hread
      cases hlast
      obtain ⟨k, hk, rfl⟩ := Option.map_eq_some_iff.1 hterm
      exact (atom?_of_name hnext).2 ⟨k, hk, rfl, rfl⟩

end

/-! ## The language of the parser -/

theorem exists_phrase_of_parse {s : String} {t : Term}
    (h : parse s = .ok t) :
    ∃ e : Phrase, tokens? s.toList = some e.tokens ∧
      e.term? [] none = some t := by
  obtain ⟨rest, hchain, hrest⟩ := parse_eq_ok_iff.1 h
  obtain ⟨e, mid, hread, -, hterm, rfl⟩ :=
    (soundChain .root s.toList).isPhrase hchain
  rw [trimStart_trimStart] at hrest
  exact ⟨e, tokens?_eq_some_iff.2 ⟨mid, hread, hrest⟩, hterm⟩

theorem parse_of_phrase {s : String} {t : Term} {e : Phrase}
    (htokens : tokens? s.toList = some e.tokens)
    (hterm : e.term? [] none = some t) : parse s = .ok t := by
  obtain ⟨rest, hread, hrest⟩ := tokens?_eq_some_iff.1 htokens
  have hchain := e.chain_of_reads hread (stops_of_blank hrest) hterm
  refine parse_eq_ok_iff.2 ⟨trimStart rest, hchain, ?_⟩
  rw [trimStart_trimStart, hrest]

theorem parse_of_reads {s : String} {t : Term} {e : Phrase}
    (hread : Reads s.toList e.tokens []) (hterm : e.term? [] none = some t) :
    parse s = .ok t :=
  parse_of_phrase (tokens?_eq_some_iff.2 ⟨[], hread, rfl⟩) hterm

/-- A text is read as a term if and only if it is a phrase of that term, and
no row of tokens is a phrase in two ways. -/
theorem parse_iff_phrase :
    (∀ (s : String) (t : Term), parse s = .ok t ↔
      ∃ e : Phrase, tokens? s.toList = some e.tokens ∧
        e.term? [] none = some t) ∧
    Function.Injective Phrase.tokens := by
  refine ⟨fun s t ↦ ⟨exists_phrase_of_parse, ?_⟩, Phrase.tokens_injective⟩
  rintro ⟨e, htokens, hterm⟩
  exact parse_of_phrase htokens hterm

end Nameless.Surface
