import Nameless.Proofs.Reduction.Frame

/-!
# Walks one look at a time

A machine that walks a term has no recursion left in it: it looks at one node
at a time, and keeps a list of the callers that wait for a child.  It halts
from every state, and comes to what the walk comes to.

A look is followed by looks at children under the same limit, or by looks
under a smaller one.  A look at the same node again needs progress, and there
is none without a contraction.
-/

namespace Nameless.Reduction

open Relation (ReflTransGen TransGen)
open Term (beta? eta)

/-- A node that waits for the walk of a child, and whether anything was
contracted there before. -/
structure Caller where
  frame : Frame
  progressed : Bool

inductive Phase where
  /-- About to look at a node. -/
  | look
  /-- Done with a node, about to go back to its caller. -/
  | back

structure Machine where
  phase : Phase
  limit : Limit
  term : Term
  progressed : Bool
  /-- The innermost one comes first. -/
  callers : List Caller

namespace Machine

def start (limit : Limit) (t : Term) : Machine := ⟨.look, limit, t, false, []⟩

/-- What happens next, unless the machine has halted. -/
def next? : Machine → Option Machine
  | ⟨.look, limit, t, progressed, callers⟩ =>
    if limit.allows then
      match t with
      | .var k => some ⟨.back, limit, .var k, progressed, callers⟩
      | .app fn arg =>
        match beta? fn arg with
        | some contractum =>
          some ⟨.look, limit.spend, contractum, true, callers⟩
        | none =>
          some ⟨.look, limit, fn, false, ⟨.fnSide arg, progressed⟩ :: callers⟩
      | .lam param body =>
        match eta body with
        | .ok contractum =>
          some ⟨.look, limit.spend, contractum, true, callers⟩
        | .error handed =>
          some ⟨.look, limit, handed, false,
            ⟨.body param, progressed⟩ :: callers⟩
    else some ⟨.back, limit, t, progressed, callers⟩
  | ⟨.back, _, _, _, []⟩ => none
  | ⟨.back, limit, t, true, caller :: callers⟩ =>
    some ⟨.look, limit, caller.frame.wrap t, true, callers⟩
  | ⟨.back, limit, t, false, ⟨.fnSide arg, progressed⟩ :: callers⟩ =>
    some ⟨.look, limit, arg, false, ⟨.argSide t, progressed⟩ :: callers⟩
  | ⟨.back, limit, t, false, ⟨.argSide fn, progressed⟩ :: callers⟩ =>
    some ⟨.back, limit, .app fn t, progressed, callers⟩
  | ⟨.back, limit, t, false, ⟨.body param, progressed⟩ :: callers⟩ =>
    some ⟨.back, limit, .lam param t, progressed, callers⟩

def Next (m m' : Machine) : Prop := m.next? = some m'

variable {m m' : Machine} {limit mid left : Limit} {t u c fn arg body : Term}
  {param : String} {progressed p : Bool} {callers inner : List Caller}

/-! ## What a look comes to -/

theorem next_spent (h : limit.allows = false) :
    Next ⟨.look, limit, t, p, callers⟩ ⟨.back, limit, t, p, callers⟩ := by
  simp [Next, next?, h]

theorem next_var (k : Int) : Next ⟨.look, limit, .var k, p, callers⟩
    ⟨.back, limit, .var k, p, callers⟩ := by
  cases h : limit.allows <;> simp [Next, next?, h]

theorem next_contract (h : limit.allows = true) (hc : Term.Rule t c) :
    Next ⟨.look, limit, t, p, callers⟩
      ⟨.look, limit.spend, c, true, callers⟩ := by
  cases Term.contraction_iff_rule.2 hc with
  | beta hbeta => simp [Next, next?, h, hbeta]
  | eta heta => simp [Next, next?, h, heta]

theorem next_app (h : limit.allows = true)
    (hroot : ¬ (Term.app fn arg).IsRedex) :
    Next ⟨.look, limit, .app fn arg, p, callers⟩
      ⟨.look, limit, fn, false, ⟨.fnSide arg, p⟩ :: callers⟩ := by
  simp [Next, next?, h, Term.not_isRedex_app_iff.1 hroot]

theorem next_lam (h : limit.allows = true)
    (hroot : ¬ (Term.lam param body).IsRedex) :
    Next ⟨.look, limit, .lam param body, p, callers⟩
      ⟨.look, limit, body, false, ⟨.body param, p⟩ :: callers⟩ := by
  simp [Next, next?, h, Term.not_isRedex_lam_iff.1 hroot]

/-- Under any callers, the look at a node comes to what the walk of the node
comes to, and makes progress if the walk does. -/
theorem reaches_of_walks (h : Walks limit t left u progressed) (p : Bool)
    (callers : List Caller) :
    ReflTransGen Next ⟨.look, limit, t, p, callers⟩
      ⟨.back, left, u, p || progressed, callers⟩ := by
  induction h generalizing p callers with
  | spent t h =>
      rw [Bool.or_false]
      exact .single (next_spent h)
  | var k h =>
      rw [Bool.or_false]
      exact .single (next_var k)
  | contract h hc _ ih =>
      rw [Bool.or_true]
      exact .head (next_contract h hc) (ih true callers)
  | fn h hroot _ _ ihFn ih =>
      rw [Bool.or_true]
      refine .head (next_app h hroot) ((ihFn false _).trans ?_)
      exact .head rfl (ih true callers)
  | arg h hroot _ _ _ ihFn ihArg ih =>
      rw [Bool.or_true]
      refine .head (next_app h hroot) ((ihFn false _).trans ?_)
      refine .head rfl ((ihArg false _).trans ?_)
      exact .head rfl (ih true callers)
  | app h hroot _ _ ihFn ihArg =>
      rw [Bool.or_false]
      refine .head (next_app h hroot) ((ihFn false _).trans ?_)
      exact .head rfl ((ihArg false _).trans (.single rfl))
  | body h hroot _ _ ihBody ih =>
      rw [Bool.or_true]
      refine .head (next_lam h hroot) ((ihBody false _).trans ?_)
      exact .head rfl (ih true callers)
  | lam h hroot _ ihBody =>
      rw [Bool.or_false]
      exact .head (next_lam h hroot) ((ihBody false _).trans (.single rfl))

/-! ## Halting -/

def Halts (m : Machine) : Prop :=
  ∃ m', ReflTransGen Next m m' ∧ m'.next? = none

theorem Halts.of_reaches (hm : ReflTransGen Next m m') (h : m'.Halts) :
    m.Halts := by
  obtain ⟨last, hlast, hnone⟩ := h
  exact ⟨last, hm.trans hlast, hnone⟩

theorem halts_look (hback : ∀ limit t p, Halts ⟨.back, limit, t, p, callers⟩)
    (limit : Limit) (t : Term) (p : Bool) :
    Halts ⟨.look, limit, t, p, callers⟩ :=
  .of_reaches (reaches_of_walks (walks_walk limit t) p callers) (hback _ _ _)

theorem halts_back (callers : List Caller) (limit : Limit) (t : Term)
    (p : Bool) : Halts ⟨.back, limit, t, p, callers⟩ := by
  induction callers generalizing limit t p with
  | nil => exact ⟨_, .refl, rfl⟩
  | cons caller callers ih =>
      obtain ⟨frame, q⟩ := caller
      -- a caller comes back to its own caller, whatever its argument comes to
      have hargSide : ∀ fn limit t p,
          Halts ⟨.back, limit, t, p, ⟨.argSide fn, q⟩ :: callers⟩ := by
        intro fn limit t p
        cases p with
        | true => exact .of_reaches (.single rfl) (halts_look ih _ _ _)
        | false => exact .of_reaches (.single rfl) (ih _ _ _)
      cases p with
      | true => exact .of_reaches (.single rfl) (halts_look ih _ _ _)
      | false =>
          cases frame with
          | fnSide arg =>
              exact .of_reaches (.single rfl) (halts_look (hargSide t) _ _ _)
          | argSide fn => exact hargSide fn limit t false
          | body param => exact .of_reaches (.single rfl) (ih _ _ _)

theorem halts (m : Machine) : m.Halts := by
  obtain ⟨phase, limit, t, p, callers⟩ := m
  cases phase with
  | look => exact halts_look (halts_back callers) limit t p
  | back => exact halts_back callers limit t p

theorem acc_of_halts (h : m.Halts) : Acc (flip Next) m := by
  obtain ⟨last, hlast, hnone⟩ := h
  induction hlast using ReflTransGen.head_induction_on with
  | refl =>
      refine ⟨_, fun m' hm' ↦ ?_⟩
      cases hnone.symm.trans hm'
  | head hnext _ ih =>
      refine ⟨_, fun m' hm' ↦ ?_⟩
      cases hnext.symm.trans hm'
      exact ih

/-! ## One step -/

theorem next_look_cases (h : Next ⟨.look, limit, t, p, callers⟩ m) :
    m = ⟨.back, limit, t, p, callers⟩ ∨
    limit.allows = true ∧
      ((∃ c, m = ⟨.look, limit.spend, c, true, callers⟩) ∨
        ∃ frame child, t = Frame.wrap frame child ∧
          m = ⟨.look, limit, child, false, ⟨frame, p⟩ :: callers⟩) := by
  cases hlimit : limit.allows with
  | false => exact .inl (Option.some.inj (h.symm.trans (next_spent hlimit)))
  | true =>
      by_cases hroot : t.IsRedex
      · obtain ⟨c, hc⟩ := hroot
        have hm := Option.some.inj (h.symm.trans (next_contract hlimit hc))
        exact .inr ⟨rfl, .inl ⟨c, hm⟩⟩
      · cases t with
        | var k => exact .inl (Option.some.inj (h.symm.trans (next_var k)))
        | app fn arg =>
            have hm := Option.some.inj (h.symm.trans (next_app hlimit hroot))
            exact .inr ⟨rfl, .inr ⟨.fnSide arg, fn, rfl, hm⟩⟩
        | lam param body =>
            have hm := Option.some.inj (h.symm.trans (next_lam hlimit hroot))
            exact .inr ⟨rfl, .inr ⟨.body param, body, rfl, hm⟩⟩

theorem next_back_cases (h : Next ⟨.back, limit, t, p, callers⟩ m) :
    ∃ frame q outer, callers = ⟨frame, q⟩ :: outer ∧
      (p = true ∧ m = ⟨.look, limit, frame.wrap t, true, outer⟩ ∨
        p = false ∧
          ((∃ arg, frame = .fnSide arg ∧
            m = ⟨.look, limit, arg, false, ⟨.argSide t, q⟩ :: outer⟩) ∨
          m = ⟨.back, limit, frame.wrap t, q, outer⟩)) := by
  cases callers with
  | nil => cases h
  | cons caller outer =>
      obtain ⟨frame, q⟩ := caller
      refine ⟨frame, q, outer, rfl, ?_⟩
      cases p with
      | true =>
          cases h
          exact .inl ⟨rfl, rfl⟩
      | false =>
          cases frame with
          | fnSide arg =>
              cases h
              exact .inr ⟨rfl, .inl ⟨arg, rfl, rfl⟩⟩
          | argSide fn =>
              cases h
              exact .inr ⟨rfl, .inr rfl⟩
          | body param =>
              cases h
              exact .inr ⟨rfl, .inr rfl⟩

theorem remaining_le_of_next (h : Next m m') :
    m'.limit.remaining ≤ m.limit.remaining := by
  obtain ⟨phase, limit, t, p, callers⟩ := m
  cases phase with
  | look =>
      obtain rfl | ⟨-, ⟨c, rfl⟩ | ⟨frame, child, -, rfl⟩⟩ := next_look_cases h
      · exact le_rfl
      · exact limit.spend_lt.le
      · exact le_rfl
  | back =>
      obtain ⟨frame, q, outer, -, ⟨-, rfl⟩ | ⟨-, ⟨arg, -, rfl⟩ | rfl⟩⟩ :=
        next_back_cases h
      all_goals exact le_rfl

/-! ## Looks without a contraction between them -/

/-- The term with the nodes around it, from the innermost outwards. -/
def plug : List Caller → Term → Term
  | [], t => t
  | caller :: callers, t => plug callers (caller.frame.wrap t)

theorem size_lt_wrap (frame : Frame) (t : Term) :
    t.size < (frame.wrap t).size := by
  cases frame <;> simp only [Frame.wrap, Term.size] <;> omega

theorem size_le_plug (callers : List Caller) (t : Term) :
    t.size ≤ (plug callers t).size := by
  induction callers generalizing t with
  | nil => exact le_rfl
  | cons caller callers ih => exact (size_lt_wrap _ t).le.trans (ih _)

theorem size_lt_plug (h : callers ≠ []) (t : Term) :
    t.size < (plug callers t).size := by
  cases callers with
  | nil => exact absurd rfl h
  | cons caller callers => exact (size_lt_wrap _ t).trans_le (size_le_plug _ _)

/-- Since the machine looked at a node, nothing has been contracted: the limit
is the same, the nodes between are where they were, and none of them has made
progress. -/
structure Unspent (m : Machine) (inner : List Caller) (m' : Machine) :
    Prop where
  limit_eq : m'.limit = m.limit
  callers_eq : m'.callers = inner ++ m.callers
  plug_eq : plug inner m'.term = m.term
  flags : m'.progressed :: inner.map Caller.progressed =
    List.replicate inner.length false ++ [m.progressed]

/-- What the machine does between the look at a node and its return to the
caller of that node. -/
def Within (callers : List Caller) (m m' : Machine) : Prop :=
  Next m m' ∧ callers <:+ m'.callers

/-- Either something has been contracted since the look at a node, or what is
looked at is below the node. -/
def Since (m m' : Machine) : Prop :=
  0 < m.limit.remaining ∧ m'.limit.remaining < m.limit.remaining ∨
  ∃ inner, Unspent m inner m' ∧ (m'.phase = .look → inner ≠ [])

namespace Unspent

variable {m₀ : Machine}

theorem refl (m : Machine) : Unspent m [] m := ⟨rfl, rfl, rfl, rfl⟩

theorem since_of_look (h : Unspent m₀ inner ⟨.look, limit, t, p, callers⟩)
    (hnext : Next ⟨.look, limit, t, p, callers⟩ m) : Since m₀ m := by
  obtain ⟨rfl, rfl, hplug, hflags⟩ := h
  obtain rfl | ⟨hlimit, ⟨c, rfl⟩ | ⟨frame, child, rfl, rfl⟩⟩ :=
    next_look_cases hnext
  · exact .inr ⟨inner, ⟨rfl, rfl, hplug, hflags⟩, nofun⟩
  · exact .inl ⟨Limit.allows_iff.1 hlimit, m₀.limit.spend_lt⟩
  · refine .inr ⟨⟨frame, p⟩ :: inner, ⟨rfl, rfl, hplug, ?_⟩, fun _ ↦ nofun⟩
    exact congrArg (false :: ·) hflags

/-- Back from a child that has made no progress, the node is not looked at
again. -/
theorem since_of_back (h : Unspent m₀ inner ⟨.back, limit, t, p, callers⟩)
    (hnext : Next ⟨.back, limit, t, p, callers⟩ m)
    (hwithin : m₀.callers <:+ m.callers) : Since m₀ m := by
  obtain ⟨rfl, hcallers, hplug, hflags⟩ := h
  obtain ⟨frame, q, outer, rfl, hm⟩ := next_back_cases hnext
  cases inner with
  | nil =>
      -- the machine would leave the node whose look is the first
      rw [← show _ = m₀.callers from hcallers] at hwithin
      obtain ⟨-, rfl⟩ | ⟨-, ⟨arg, rfl, rfl⟩ | rfl⟩ := hm
      · exact absurd hwithin.length_le (by simp)
      · cases hwithin.eq_of_length rfl
      · exact absurd hwithin.length_le (by simp)
  | cons caller inner =>
      cases hcallers
      obtain ⟨hp, hrest⟩ := List.cons.inj hflags
      obtain ⟨rfl, -⟩ | ⟨-, ⟨arg, rfl, rfl⟩ | rfl⟩ := hm
      · cases hp
      · refine .inr ⟨⟨.argSide t, q⟩ :: inner, ⟨rfl, rfl, hplug, ?_⟩,
          fun _ ↦ nofun⟩
        exact congrArg (false :: ·) hrest
      · exact .inr ⟨inner, ⟨rfl, rfl, hplug, hrest⟩, nofun⟩

theorem since (h : Unspent m₀ inner m) (hnext : Within m₀.callers m m') :
    Since m₀ m' := by
  obtain ⟨phase, limit, t, p, callers⟩ := m
  cases phase with
  | look => exact h.since_of_look hnext.1
  | back => exact h.since_of_back hnext.1 hnext.2

end Unspent

theorem since_of_within (h : TransGen (Within m.callers) m m') :
    Since m m' := by
  induction h with
  | single hnext => exact (Unspent.refl m).since hnext
  | tail _ hnext ih =>
      obtain ⟨hpos, hlt⟩ | ⟨inner, hunspent, -⟩ := ih
      · exact .inl ⟨hpos, (remaining_le_of_next hnext.1).trans_lt hlt⟩
      · exact hunspent.since hnext

/-- What is left of the limit, and then the size of the term. -/
def measure (m : Machine) : Nat × Nat :=
  (m.limit.remaining.toNat, m.term.size)

theorem Since.measure_lt (h : Since m m') (hlook : m'.phase = .look) :
    Prod.Lex (· < ·) (· < ·) m'.measure m.measure := by
  obtain ⟨hpos, hlt⟩ | ⟨inner, hunspent, hinner⟩ := h
  · exact .left _ _ (by omega)
  · rw [measure, measure, hunspent.limit_eq, ← hunspent.plug_eq]
    exact .right _ (size_lt_plug (hinner hlook) _)

theorem Since.remaining_lt (h : Since m m') (hlook : m'.phase = .look)
    (hcallers : m'.callers = m.callers) :
    m'.limit.remaining < m.limit.remaining := by
  obtain ⟨-, hlt⟩ | ⟨inner, hunspent, hinner⟩ := h
  · exact hlt
  · rw [hunspent.callers_eq, List.append_left_eq_self] at hcallers
    exact absurd hcallers (hinner hlook)

end Machine

open Machine in
/-- The machine halts from every state, and with what the walk of a term comes
to.  After the look at a node, until the machine goes back to its caller, each
look comes with a smaller limit or with a smaller term, and a look at the same
node again comes with a smaller limit. -/
theorem walks_end :
    (∀ limit t, ∃ last, ReflTransGen Next (start limit t) last ∧
      last.next? = none ∧ last.limit = (walk limit t).left ∧
      last.term = (walk limit t).term ∧
      last.progressed = (walk limit t).progressed) ∧
    WellFounded (flip Next) ∧
    ∀ m m' : Machine, TransGen (Within m.callers) m m' → m'.phase = .look →
      Prod.Lex (· < ·) (· < ·) m'.measure m.measure ∧
      (m'.callers = m.callers → m'.limit.remaining < m.limit.remaining) := by
  refine ⟨fun limit t ↦ ?_, ⟨fun m ↦ acc_of_halts m.halts⟩, ?_⟩
  · have hreach := reaches_of_walks (walks_walk limit t) false []
    rw [Bool.false_or] at hreach
    exact ⟨_, hreach, rfl, rfl, rfl, rfl⟩
  · intro m m' hwithin hlook
    have hsince := since_of_within hwithin
    exact ⟨hsince.measure_lt hlook, hsince.remaining_lt hlook⟩

/-- `λx.x x x`, which grows with each step when it is applied to itself. -/
def triple : Term := .lam "x" (.app (.app (.var 0) (.var 0)) (.var 0))

open Machine in
theorem walks_end_growing :
    ∃ m : Machine, TransGen (Within []) (start ⟨5⟩ (.app triple triple)) m ∧
      m.phase = .look ∧ m.callers = [] ∧
      (Term.app triple triple).size < m.term.size ∧
      Prod.Lex (· < ·) (· < ·) m.measure (5, (Term.app triple triple).size) ∧
      m.limit.remaining < 5 := by
  have hnext : (start ⟨5⟩ (.app triple triple)).next? =
      some ⟨.look, ⟨4⟩, .app (.app triple triple) triple, true, []⟩ := by
    cbv
  refine ⟨_, .single ⟨hnext, List.nil_suffix⟩, rfl, rfl, by decide, ?_⟩
  obtain ⟨hmeasure, hless⟩ := walks_end.2.2 (start ⟨5⟩ (.app triple triple)) _
    (.single ⟨hnext, List.nil_suffix⟩) rfl
  exact ⟨hmeasure, hless rfl⟩

end Nameless.Reduction
