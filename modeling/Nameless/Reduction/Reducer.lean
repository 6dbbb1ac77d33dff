import Nameless.Reduction.Limit
import Nameless.Reduction.Walk
import Nameless.Term.Outline

/-!
# Reducers

A reducer holds a term and counts the steps it has taken over all its runs.
-/

namespace Nameless.Reduction

structure Reducer where
  term : Term
  steps : Nat
deriving DecidableEq

/-- What a run leaves behind, and whether it took a step. -/
structure Run where
  reducer : Reducer
  limit : Limit
  progressed : Bool

namespace Reducer

def ofTerm (t : Term) : Reducer := ⟨t, 0⟩

/-- Walks the term from its root with what is left of the limit. -/
def reduce (reducer : Reducer) (limit : Limit) : Run :=
  let w := walk limit reducer.term
  let spent := limit.remaining - w.left.remaining
  ⟨⟨w.term, reducer.steps + spent.toNat⟩, w.left, w.progressed⟩

def outline (reducer : Reducer) : String :=
  s!"NormalOrderReducer({reducer.term.outline})"

end Reducer

def reduce (t : Term) (limit : Limit) : Run := (Reducer.ofTerm t).reduce limit

end Nameless.Reduction
