import Mathlib.Logic.Relation
import Nameless.Proofs.Console.Diagnosis
import Nameless.Proofs.Surface.Lookahead

/-!
# What reading a text comes to

Each call that reading makes is given less of the text, or as much to a
function that comes before it.  So reading ends, and it would without the
length check in `chain`: `Reader.round_eq_iff`.  It comes to a term, or to a
rejection, and then there is a report with the text, the place and the message.
-/

namespace Nameless.Surface

open Relation (ReflTransGen)
open Text (trimStart)

/-! ## Calls -/

/-- A call of a reading function, where each round of a loop is a call. -/
inductive Call where
  | atom (ctx : Context) (cs : List Char)
  | chain (ctx : Context) (head : Option Term) (cs : List Char)
  | binder (ctx : Context) (cs : List Char)
  | names (cs : List Char)

namespace Call

/-- The text that is left when the call is made. -/
def text : Call → List Char
  | atom _ cs => cs
  | chain _ _ cs => cs
  | binder _ cs => cs
  | names cs => cs

/-- The text that is left when the call is over. -/
def rest : Call → List Char
  | atom ctx cs => (atom? ctx cs).rest
  | chain ctx head cs => (Surface.chain ctx head cs).rest
  | binder ctx cs => (Surface.binder ctx cs).rest
  | names cs => (Surface.names cs).2

/-- A function with a lower rank may be called without anything being read. -/
def rank : Call → Nat
  | atom _ _ => 0
  | chain _ _ _ => 1
  | binder _ _ => 1
  | names _ => 0

def measure (call : Call) : Nat × Nat := (call.text.length, call.rank)

theorem rest_suffix (call : Call) : call.rest <:+ call.text := by
  cases call with
  | atom ctx cs => exact (allStay ctx cs).atom.rest
  | chain ctx head cs => exact ((allStay ctx cs).chain head).rest
  | binder ctx cs => exact (allStay ctx cs).binder.rest
  | names cs => exact names_suffix cs

end Call

/-- The first call makes the second. -/
inductive Calls : Call → Call → Prop
  | atom (ctx : Context) (head : Option Term) (cs : List Char) :
      Calls (.chain ctx head cs) (.atom ctx cs)
  | next {ctx : Context} (head : Option Term) {t : Term}
      {cs rest : List Char} (h : atom? ctx cs = .done (some t) rest) :
      Calls (.chain ctx head cs) (.chain ctx (some (applied head t)) rest)
  | group (ctx : Context) {cs inner : List Char}
      (h : trimStart cs = '(' :: inner) :
      Calls (.atom ctx cs) (.chain ctx none inner)
  | binder (ctx : Context) {cs inner : List Char} {c : Char}
      (h : trimStart cs = c :: inner) (hc : isBinderSign c = true) :
      Calls (.atom ctx cs) (.binder ctx inner)
  | names (ctx : Context) (cs : List Char) :
      Calls (.binder ctx cs) (.names cs)
  | name {cs rest : List Char} {x : String}
      (h : name? (trimStart cs) = some (x, rest)) :
      Calls (.names cs) (.names rest)
  | body (ctx : Context) {cs rest : List Char} {param : String}
      {params : List String} (h : names cs = (param :: params, '.' :: rest)) :
      Calls (.binder ctx cs) (.chain (ctx.pushAll (param :: params)) none rest)

variable {caller callee : Call} {text : String} {r : Rejection}

theorem Calls.measure_lt (h : Calls caller callee) :
    Prod.Lex (· < ·) (· < ·) callee.measure caller.measure := by
  cases h with
  | atom ctx head cs => exact .right _ Nat.zero_lt_one
  | next head h => exact .left _ _ (atom?_length_lt h)
  | group ctx h => exact .left _ _ (trimStart_lt h)
  | binder ctx h hc => exact .left _ _ (trimStart_lt h)
  | names ctx cs => exact .right _ Nat.zero_lt_one
  | name h =>
      have hlt := name?_length h
      exact .left _ _ (Nat.lt_of_lt_of_le hlt (Text.trimStart_length_le _))
  | body ctx h => exact .left _ _ (names_lt h)

theorem Calls.suffix (h : Calls caller callee) :
    callee.text <:+ caller.text := by
  cases h with
  | atom ctx head cs => exact List.suffix_refl cs
  | @next ctx head t cs rest h =>
      have hrest := (allStay ctx cs).atom.rest
      rwa [h] at hrest
  | @group ctx cs inner h =>
      have htrim := trimStart_suffix cs
      rw [h] at htrim
      exact (List.suffix_cons _ _).trans htrim
  | @binder ctx cs inner c h hc =>
      have htrim := trimStart_suffix cs
      rw [h] at htrim
      exact (List.suffix_cons _ _).trans htrim
  | names ctx cs => exact List.suffix_refl cs
  | name h => exact (suffix_of_name? h).trans (trimStart_suffix _)
  | @body ctx cs rest param params h =>
      have hnames := names_suffix cs
      rw [h] at hnames
      exact (List.suffix_cons _ _).trans hnames

theorem wellFounded_calls : WellFounded (flip Calls) :=
  Subrelation.wf Calls.measure_lt
    (InvImage.wf Call.measure (Prod.lex Nat.lt_wfRel Nat.lt_wfRel).wf)

theorem suffix_of_reaches (h : ReflTransGen Calls caller callee) :
    callee.text <:+ caller.text := by
  induction h with
  | refl => exact List.suffix_refl _
  | tail _ hcall ih => exact hcall.suffix.trans ih

/-! ## Readers -/

/-- The reading functions, whatever they are. -/
structure Reader where
  atom? : Context → List Char → Reading (Option Term)
  chain : Context → Option Term → List Char → Reading Term
  binder : Context → List Char → Reading Term
  names : List Char → List String × List Char

namespace Reader

def standard : Reader where
  atom? := Surface.atom?
  chain := Surface.chain
  binder := Surface.binder
  names := Surface.names

/-- What the functions come to if each of their calls is answered by `r`.  A
chain goes on after each atom, whether the atom took anything or not. -/
def round (r : Reader) : Reader where
  atom? ctx cs :=
    match trimStart cs with
    | [] => .done none []
    | c :: rest =>
      if c = '(' then
        (r.chain ctx none rest).bind fun t rest ↦
          match trimStart rest with
          | ')' :: rest => .done (some t) rest
          | rest => .failed .unclosed rest
      else if isBinderSign c then
        (r.binder ctx rest).bind fun t rest ↦ .done (some t) rest
      else
        match name? (c :: rest) with
        | none => .done none (c :: rest)
        | some (name, after) =>
          match ctx.indexOf? name with
          | some k => .done (some (.var k)) after
          | none => ⟨.error ⟨.unbound name, c :: rest⟩, after⟩
  chain ctx head cs :=
    match r.atom? ctx cs with
    | ⟨.error e, rest⟩ => ⟨.error e, rest⟩
    | ⟨.ok none, rest⟩ =>
      match head with
      | none => .failed .noExpression rest
      | some t => .done t rest
    | ⟨.ok (some t), rest⟩ => r.chain ctx (some (applied head t)) rest
  binder ctx cs :=
    match r.names cs with
    | ([], rest) => .failed .noParameter rest
    | (param :: params, '.' :: rest) =>
      (r.chain (ctx.pushAll (param :: params)) none rest).bind fun body rest ↦
        .done ((param :: params).foldr .lam body) rest
    | (_, rest) => .failed .noDot rest
  names cs :=
    match name? (trimStart cs) with
    | none => ([], trimStart cs)
    | some (name, rest) => (name :: (r.names rest).1, (r.names rest).2)

/-- A reader answers a call as the reading functions do. -/
def Agrees (r : Reader) : Call → Prop
  | .atom ctx cs => r.atom? ctx cs = Surface.atom? ctx cs
  | .chain ctx head cs => r.chain ctx head cs = Surface.chain ctx head cs
  | .binder ctx cs => r.binder ctx cs = Surface.binder ctx cs
  | .names cs => r.names cs = Surface.names cs

/-- A call is answered as it should be if the calls that it makes are. -/
theorem round_agrees {r : Reader}
    (h : ∀ callee, Calls caller callee → r.Agrees callee) :
    r.round.Agrees caller := by
  cases caller with
  | atom ctx cs =>
      simp only [Agrees, round]
      cases hcs : trimStart cs with
      | nil => rw [atom?_of_stops (stops_of_blank hcs), hcs]
      | cons c rest =>
          rw [atom?_of_cons hcs]
          dsimp only
          split
          · rename_i hc
            rw [hc] at hcs
            exact congrArg (Reading.bind · _) (h _ (.group ctx hcs))
          · split
            · rename_i hc
              exact congrArg (Reading.bind · _) (h _ (.binder ctx hcs hc))
            · rfl
  | chain ctx head cs =>
      simp only [Agrees, round]
      rw [show r.atom? ctx cs = _ from h _ (.atom ctx head cs)]
      split
      · rename_i hatom
        exact (chain_of_error hatom).symm
      · rename_i hatom
        exact (chain_of_none hatom).symm
      · rename_i hatom
        rw [chain_of_some hatom]
        exact h _ (.next head hatom)
  | binder ctx cs =>
      simp only [Agrees, round]
      rw [show r.names cs = _ from h _ (.names ctx cs)]
      split
      · rename_i hnames
        exact (binder_of_no_name hnames ctx).symm
      · rename_i hnames
        rw [binder_of_dot hnames]
        exact congrArg (Reading.bind · _) (h _ (.body ctx hnames))
      · rename_i params rest hnil hdot hnames
        have hrest : ∀ after, rest ≠ '.' :: after := by
          rintro after rfl
          obtain ⟨param, params, rfl⟩ := List.exists_cons_of_ne_nil hnil
          exact hdot param params after rfl rfl
        exact (binder_of_no_dot hnames hnil hrest ctx).symm
  | names cs =>
      simp only [Agrees, round]
      split
      · rename_i hname
        exact (names_of_none hname).symm
      · rename_i hname
        rw [names_of_some hname, show r.names _ = _ from h _ (.name hname)]

theorem agrees_standard (call : Call) : standard.Agrees call := by
  cases call <;> rfl

theorem eq_standard {r : Reader} (h : ∀ call, r.Agrees call) :
    r = standard := by
  obtain ⟨atom?, chain, binder, names⟩ := r
  rw [standard, mk.injEq]
  refine ⟨?_, ?_, ?_, ?_⟩
  · funext ctx cs
    exact h (.atom ctx cs)
  · funext ctx head cs
    exact h (.chain ctx head cs)
  · funext ctx cs
    exact h (.binder ctx cs)
  · funext cs
    exact h (.names cs)

/-- The reading functions are determined by how they call each other. -/
theorem round_eq_iff {r : Reader} : r.round = r ↔ r = standard := by
  constructor
  · intro h
    refine eq_standard fun call ↦ ?_
    induction call using wellFounded_calls.induction with
    | _ call ih =>
        rw [← h]
        exact round_agrees ih
  · rintro rfl
    exact eq_standard fun _ ↦
      round_agrees fun callee _ ↦ agrees_standard callee

end Reader

/-! ## Reports -/

/-- The report on a text that was rejected. -/
structure Rejection.IsReported (r : Rejection) (text : String)
    (report : Report) : Prop where
  text_eq : r.text = text
  pos_le : r.pos ≤ text.length
  rest_eq : r.rest = String.ofList (text.toList.drop r.pos)
  expression_eq : report.expression = text
  start_eq : report.start = r.pos
  start_le : report.start ≤ report.stop
  stop_le : report.stop ≤ text.length
  message_eq : report.message = r.messageWith id
  styled_eq : ∀ style,
    report.styledMessage style = .ok (r.messageWith style.bold)

namespace Rejection.IsAbout

theorem rest_eq (h : r.IsAbout text) :
    r.rest = String.ofList (text.toList.drop r.pos) := by
  rw [rest, h.text_eq, Text.after,
    Text.place_of_nonneg _ (Int.natCast_nonneg _), Int.toNat_natCast,
    Nat.min_eq_left h.pos_le]

theorem pos_le_spanEnd (h : r.IsAbout text) : r.pos ≤ r.spanEnd := by
  rw [spanEnd]
  split
  · exact Nat.le_add_right _ _
  · exact h.text_eq ▸ h.pos_le

theorem spanEnd_le (h : r.IsAbout text) : r.spanEnd ≤ text.length := by
  rw [spanEnd]
  split
  · rename_i x hcause
    obtain ⟨after, hname⟩ := h.name x hcause
    have hlength := congrArg List.length (eq_append_of_name? hname).2
    have hle := h.pos_le
    rw [List.length_drop, List.length_append, String.length_toList,
      String.length_toList] at hlength
    omega
  · exact h.text_eq ▸ Nat.le_refl _

theorem isReported (h : r.IsAbout text) : r.IsReported text r.account where
  text_eq := h.text_eq
  pos_le := h.pos_le
  rest_eq := h.rest_eq
  expression_eq := r.expression_account.trans h.text_eq
  start_eq := rfl
  start_le := Int.ofNat_le.2 h.pos_le_spanEnd
  stop_le := Int.ofNat_le.2 h.spanEnd_le
  message_eq := rfl
  styled_eq := r.styledMessage_account

end Rejection.IsAbout

/-- What is quoted from the text is no template. -/
example :
    (⟨"\x7b0\x7d", 0, .noExpression⟩ : Rejection).report.map Report.message =
      .ok "expected expression instead of: '\x7b0\x7d'" := by
  cbv

/-- Reading ends, at every call within the text, and comes to a term or to a
rejection that is reported. -/
theorem parse_ends (text : String) :
    (∀ r : Reader, r.round = r ↔ r = .standard) ∧
    WellFounded (flip Calls) ∧
    (∀ call, ReflTransGen Calls (.chain .root none text.toList) call →
      call.text <:+ text.toList ∧ call.rest <:+ call.text) ∧
    ((∃ t, parse text = .ok t ∧
        ∀ {σ : Type} (s : σ), Task.parse text s = .ok t s) ∨
      ∃ r report, parse text = .error r ∧ r.IsReported text report ∧
        ∀ {σ : Type} (s : σ),
          Task.parse text s = .error (.rejected r report) s) := by
  refine ⟨fun r ↦ Reader.round_eq_iff, wellFounded_calls,
    fun call hcall ↦ ⟨suffix_of_reaches hcall, call.rest_suffix⟩, ?_⟩
  cases hparse : parse text with
  | ok t =>
      refine .inl ⟨t, rfl, fun s ↦ ?_⟩
      rw [Task.parse, hparse]
      rfl
  | error r =>
      refine .inr ⟨r, r.account, rfl, (isAbout_of_parse hparse).isReported,
        fun s ↦ ?_⟩
      rw [Task.parse, hparse, ← r.ofRejection_eq]
      rfl

end Nameless.Surface
