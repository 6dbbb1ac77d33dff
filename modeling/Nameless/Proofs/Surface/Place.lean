import Nameless.Surface.Progress
import Nameless.Surface.Rejection

/-!
# Where reading stops

What a reading leaves is an end of the text it was given.  A fault stands
where reading stopped, or at the unbound name right before that.
-/

namespace Nameless.Surface

open Text (trimStart)

/-! ## What tokens leave -/

theorem trimStart_suffix (cs : List Char) : trimStart cs <:+ cs :=
  List.dropWhile_suffix _

theorem eq_append_of_name? {cs rest : List Char} {x : String}
    (h : name? cs = some (x, rest)) :
    x.toList ≠ [] ∧ cs = x.toList ++ rest := by
  simp only [name?] at h
  split at h
  · cases h
  · rename_i hne
    cases h
    rw [String.toList_ofList]
    exact ⟨hne, List.takeWhile_append_dropWhile.symm⟩

theorem suffix_of_name? {cs rest : List Char} {x : String}
    (h : name? cs = some (x, rest)) : rest <:+ cs :=
  ⟨x.toList, (eq_append_of_name? h).2.symm⟩

theorem names_suffix (cs : List Char) : (names cs).2 <:+ cs := by
  fun_induction names cs with
  | case1 cs h => exact trimStart_suffix cs
  | case2 cs x rest h _ _ more rest' hmore ih =>
      simp only [hmore] at ih
      exact ih.trans ((suffix_of_name? h).trans (trimStart_suffix cs))

/-! ## Readings -/

/-- A fault found by a reading that left `rest`. -/
def Fault.StandsAt (e : Fault) (rest : List Char) : Prop :=
  match e.cause with
  | .unbound x => name? e.rest = some (x, rest)
  | _ => e.rest = rest

theorem Fault.StandsAt.suffix {e : Fault} {rest : List Char}
    (h : e.StandsAt rest) : rest <:+ e.rest := by
  obtain ⟨cause, found⟩ := e
  cases cause with
  | unbound x => exact suffix_of_name? h
  | _ => exact (show found = rest from h) ▸ List.suffix_refl found

/-- A reading of `cs` leaves an end of it, and so does its fault, which stands
where the reading stopped. -/
structure Stays (cs : List Char) (r : Reading α) : Prop where
  rest : r.rest <:+ cs
  fault : ∀ e, r.outcome = .error e → e.StandsAt r.rest ∧ e.rest <:+ cs

namespace Stays

variable {cs ds rest : List Char}

theorem done {a : α} (h : rest <:+ cs) : Stays cs (.done a rest) :=
  ⟨h, fun _ he ↦ by cases he⟩

theorem error {e : Fault} (hplace : e.StandsAt rest) (h : e.rest <:+ cs) :
    Stays cs (⟨.error e, rest⟩ : Reading α) where
  rest := hplace.suffix.trans h
  fault := by
    rintro _ ⟨⟩
    exact ⟨hplace, h⟩

theorem of_suffix {r : Reading α} (h : Stays ds r) (hds : ds <:+ cs) :
    Stays cs r where
  rest := h.rest.trans hds
  fault e he := ⟨(h.fault e he).1, (h.fault e he).2.trans hds⟩

theorem bind {r : Reading α} {next : α → List Char → Reading β}
    (hr : Stays cs r) (hnext : ∀ a rest, Stays rest (next a rest)) :
    Stays cs (r.bind next) := by
  cases hout : r.outcome with
  | error e =>
      simp only [Reading.bind, hout]
      exact .error (hr.fault e hout).1 (hr.fault e hout).2
  | ok a =>
      simp only [Reading.bind, hout]
      exact (hnext a r.rest).of_suffix hr.rest

end Stays

private theorem closing_stays (t : Term) (rest : List Char) :
    Stays rest (match trimStart rest with
      | ')' :: rest => Reading.done (some t) rest
      | rest => .failed .unclosed rest) := by
  have htrim := trimStart_suffix rest
  split
  · rename_i heq
    rw [heq] at htrim
    exact .done ((List.suffix_cons _ _).trans htrim)
  · exact .error rfl htrim

structure AllStay (ctx : Context) (cs : List Char) : Prop where
  atom : Stays cs (atom? ctx cs)
  chain : ∀ head, Stays cs (chain ctx head cs)
  binder : Stays cs (binder ctx cs)

theorem atom?_stays {ctx : Context} {cs : List Char}
    (ih : ∀ ds : List Char, ds.length < cs.length → AllStay ctx ds) :
    Stays cs (atom? ctx cs) := by
  have htrim := trimStart_suffix cs
  rw [atom?]
  split
  · exact .done List.nil_suffix
  · rename_i c rest hcs
    have hlt := trimStart_lt hcs
    rw [hcs] at htrim
    have hrest : rest <:+ cs := (List.suffix_cons c rest).trans htrim
    dsimp only
    split
    · exact (((ih rest hlt).chain none).bind closing_stays).of_suffix hrest
    · split
      · exact ((ih rest hlt).binder.bind
          fun _ _ ↦ .done (List.suffix_refl _)).of_suffix hrest
      · split
        · exact .done htrim
        · rename_i x after hname
          split
          · exact .done ((suffix_of_name? hname).trans htrim)
          · exact .error hname htrim

theorem binder_stays {ctx : Context} {cs : List Char}
    (ih : ∀ ctx, ∀ ds : List Char, ds.length < cs.length →
      AllStay ctx ds) :
    Stays cs (binder ctx cs) := by
  have hnames := names_suffix cs
  rw [binder]
  split
  · rename_i rest heq
    rw [heq] at hnames
    exact .error rfl hnames
  · rename_i param params rest heq
    have hlt := names_lt heq
    rw [heq] at hnames
    have hrest : rest <:+ cs := (List.suffix_cons _ _).trans hnames
    exact (((ih _ rest hlt).chain none).bind
      fun _ _ ↦ .done (List.suffix_refl _)).of_suffix hrest
  · rename_i params rest hnone hdot heq
    rw [heq] at hnames
    exact .error rfl hnames

theorem chain_stays {ctx : Context} {cs : List Char}
    (hatom : Stays cs (atom? ctx cs))
    (ih : ∀ ds : List Char, ds.length < cs.length → AllStay ctx ds)
    (head : Option Term) : Stays cs (chain ctx head cs) := by
  rw [chain]
  split
  · rename_i e rest hread
    rw [hread] at hatom
    exact .error (hatom.fault e rfl).1 (hatom.fault e rfl).2
  · rename_i rest hread
    have hrest := hatom.rest
    rw [hread] at hrest
    split
    · exact .error rfl hrest
    · exact .done hrest
  · rename_i t rest hread
    have hrest := hatom.rest
    rw [hread] at hrest
    split
    · rename_i hlt
      exact ((ih rest hlt).chain _).of_suffix hrest
    · exact .done hrest

theorem allStay (ctx : Context) (cs : List Char) : AllStay ctx cs := by
  induction hn : cs.length using Nat.strongRecOn generalizing cs ctx with
  | ind n ih =>
      have ih' : ∀ ctx, ∀ ds : List Char, ds.length < cs.length →
          AllStay ctx ds :=
        fun ctx ds hds ↦ ih ds.length (hn ▸ hds) ctx ds rfl
      have hatom := atom?_stays (ih' ctx)
      exact ⟨hatom, chain_stays hatom (ih' ctx), binder_stays ih'⟩

theorem wholeTerm_stays (cs : List Char) : Stays cs (wholeTerm cs) := by
  refine ((allStay .root cs).chain none).bind fun t rest ↦ ?_
  have htrim := trimStart_suffix rest
  split
  · exact .done List.nil_suffix
  · exact .error rfl htrim

/-! ## Rejections -/

/-- A rejection is about the text that was to be read, and its place lies in
that text.  An unbound name is the longest one that can be read there. -/
structure Rejection.IsAbout (r : Rejection) (text : String) : Prop where
  text_eq : r.text = text
  pos_le : r.pos ≤ text.length
  name : ∀ x, r.cause = .unbound x →
    ∃ after, name? (text.toList.drop r.pos) = some (x, after)

theorem exists_fault_of_parse {text : String} {r : Rejection}
    (h : parse text = .error r) :
    ∃ e, (wholeTerm text.toList).outcome = .error e ∧
      r = .ofFault text.toList e := by
  rw [parse] at h
  cases houtcome : (wholeTerm text.toList).outcome with
  | ok t =>
      rw [houtcome] at h
      cases h
  | error e =>
      rw [houtcome] at h
      cases h
      exact ⟨e, rfl, rfl⟩

theorem isAbout_of_parse {text : String} {r : Rejection}
    (h : parse text = .error r) : r.IsAbout text := by
  obtain ⟨fault, houtcome, rfl⟩ := exists_fault_of_parse h
  obtain ⟨hplace, hsuffix⟩ :=
    (wholeTerm_stays text.toList).fault fault houtcome
  refine ⟨String.ofList_toList, ?_, fun x hx ↦ ?_⟩
  · rw [← String.length_toList]
    exact Nat.sub_le _ _
  · change fault.cause = .unbound x at hx
    rw [Fault.StandsAt, hx] at hplace
    exact ⟨_, (List.suffix_iff_eq_drop.1 hsuffix) ▸ hplace⟩

end Nameless.Surface
