import Nameless.Surface.Parser

/-!
# Reading takes from the text

No reading adds to the text it was given, and an atom or an expression that
was read took something from it.  Hence a chain of atoms goes on for as long
as there are atoms, which `chain_of_some` states.
-/

namespace Nameless.Surface

open Text (trimStart)

/-- What a reading leaves is no longer than what it was given, and shorter if
it read something. -/
structure Shrinks (cs : List Char) (found : α → Prop) (r : Reading α) :
    Prop where
  le : r.rest.length ≤ cs.length
  lt : ∀ a, r.outcome = .ok a → found a → r.rest.length < cs.length

namespace Shrinks

theorem error {cs rest : List Char} {e : Fault} {found : α → Prop}
    (h : rest.length ≤ cs.length) :
    Shrinks cs found (⟨.error e, rest⟩ : Reading α) :=
  ⟨h, fun _ h ↦ by cases h⟩

theorem done {cs rest : List Char} {a : α} {found : α → Prop}
    (h : rest.length < cs.length) : Shrinks cs found (.done a rest) :=
  ⟨Nat.le_of_lt h, fun _ _ _ ↦ h⟩

/-- A reading that goes on from a shorter text takes something. -/
theorem bind {cs ds : List Char} {found : α → Prop} {found' : β → Prop}
    {r : Reading α} {next : α → List Char → Reading β}
    (hr : Shrinks ds found r) (hds : ds.length < cs.length)
    (hnext : ∀ a, (next a r.rest).rest.length ≤ r.rest.length) :
    Shrinks cs found' (r.bind next) := by
  have hle := hr.le
  cases hout : r.outcome with
  | error e =>
      simp only [Reading.bind, hout]
      exact .error (by omega)
  | ok a =>
      have := hnext a
      simp only [Reading.bind, hout]
      exact ⟨by omega, fun _ _ _ ↦ by omega⟩

end Shrinks

private theorem closing_le (t : Term) (rest : List Char) :
    (match trimStart rest with
      | ')' :: rest => Reading.done (some t) rest
      | rest => .failed .unclosed rest).rest.length ≤ rest.length := by
  have hle := Text.trimStart_length_le rest
  split
  · rename_i heq
    rw [heq, List.length_cons] at hle
    simp only [Reading.done]
    omega
  · simpa only [Reading.failed] using hle

structure AllShrink (ctx : Context) (cs : List Char) : Prop where
  atom : Shrinks cs (fun t ↦ t ≠ none) (atom? ctx cs)
  chain : ∀ head, Shrinks cs (fun _ ↦ head = none) (chain ctx head cs)
  binder : Shrinks cs (fun _ ↦ True) (binder ctx cs)

theorem atom?_shrinks {ctx : Context} {cs : List Char}
    (ih : ∀ ds : List Char, ds.length < cs.length → AllShrink ctx ds) :
    Shrinks cs (fun t ↦ t ≠ none) (atom? ctx cs) := by
  have hle := Text.trimStart_length_le cs
  rw [atom?]
  split
  · exact ⟨Nat.zero_le _, fun a e hne ↦ by cases e; exact absurd rfl hne⟩
  · rename_i c rest hcs
    have hlt := trimStart_lt hcs
    dsimp only
    split
    · exact ((ih rest hlt).chain none).bind hlt fun t ↦ closing_le t _
    · split
      · exact (ih rest hlt).binder.bind hlt fun t ↦ Nat.le_refl _
      · split
        · refine ⟨?_, fun a e hne ↦ ?_⟩
          · simpa only [Reading.done, hcs] using hle
          · cases e
            exact absurd rfl hne
        · rename_i name after hname
          have hafter := name?_length hname
          rw [← hcs] at hafter
          have hshort : after.length < cs.length := by omega
          split
          · exact .done hshort
          · exact .error (Nat.le_of_lt hshort)

theorem binder_shrinks {cs : List Char} {ctx : Context}
    (ih : ∀ ctx, ∀ ds : List Char, ds.length < cs.length →
      AllShrink ctx ds) :
    Shrinks cs (fun _ ↦ True) (binder ctx cs) := by
  have hle := names_length_le cs
  rw [binder]
  split
  · rename_i rest hnames
    rw [hnames] at hle
    exact .error hle
  · rename_i param params rest hnames
    have hlt := names_lt hnames
    exact ((ih _ rest hlt).chain none).bind hlt fun _ ↦ Nat.le_refl _
  · rename_i params rest hnone hdot hnames
    rw [hnames] at hle
    exact .error hle

theorem chain_shrinks {cs : List Char} {ctx : Context}
    (hatom : Shrinks cs (fun t ↦ t ≠ none) (atom? ctx cs))
    (ih : ∀ ds : List Char, ds.length < cs.length → AllShrink ctx ds)
    (head : Option Term) :
    Shrinks cs (fun _ ↦ head = none) (chain ctx head cs) := by
  have hle := hatom.le
  have hlt := hatom.lt
  rw [chain]
  split
  · rename_i e rest hread
    rw [hread] at hle
    exact .error hle
  · rename_i rest hread
    rw [hread] at hle
    split
    · exact .error hle
    · exact ⟨hle, fun _ _ h ↦ by cases h⟩
  · rename_i t rest hread
    rw [hread] at hlt
    have hshort := hlt (some t) rfl (Option.some_ne_none t)
    dsimp only at hshort ⊢
    rw [if_pos hshort]
    have hrest := ((ih rest hshort).chain (some (applied head t))).le
    exact ⟨by omega, fun _ _ _ ↦ by omega⟩

theorem allShrink (ctx : Context) (cs : List Char) : AllShrink ctx cs := by
  induction hn : cs.length using Nat.strongRecOn generalizing cs ctx with
  | ind n ih =>
      have ih' : ∀ ctx, ∀ ds : List Char, ds.length < cs.length →
          AllShrink ctx ds :=
        fun ctx ds hds ↦ ih ds.length (hn ▸ hds) ctx ds rfl
      have hatom := atom?_shrinks (ih' ctx)
      exact ⟨hatom, chain_shrinks hatom (ih' ctx), binder_shrinks ih'⟩

theorem atom?_length_lt {ctx : Context} {t : Term} {cs rest : List Char}
    (h : atom? ctx cs = .done (some t) rest) : rest.length < cs.length := by
  have hlt := (allShrink ctx cs).atom.lt (some t) (by rw [h]; rfl)
    (Option.some_ne_none t)
  rwa [h] at hlt

theorem chain_of_some {ctx : Context} {head : Option Term} {t : Term}
    {cs rest : List Char} (h : atom? ctx cs = .done (some t) rest) :
    chain ctx head cs = chain ctx (some (applied head t)) rest := by
  rw [chain, h]
  dsimp only [Reading.done]
  rw [if_pos (atom?_length_lt h)]

theorem chain_of_none {ctx : Context} {head : Option Term}
    {cs rest : List Char} (h : atom? ctx cs = .done none rest) :
    chain ctx head cs =
      match head with
      | none => .failed .noExpression rest
      | some t => .done t rest := by
  rw [chain, h]
  rfl

theorem chain_of_error {ctx : Context} {head : Option Term} {e : Fault}
    {cs rest : List Char} (h : atom? ctx cs = ⟨.error e, rest⟩) :
    chain ctx head cs = ⟨.error e, rest⟩ := by
  rw [chain, h]

end Nameless.Surface
