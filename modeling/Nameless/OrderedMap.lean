/-!
# Maps in order of first insertion

A key keeps its place when its value is replaced.
-/

namespace Nameless

structure OrderedMap (κ α : Type) where
  entries : List (κ × α)

namespace OrderedMap

variable {κ α : Type}

def empty : OrderedMap κ α := ⟨[]⟩

def keys (m : OrderedMap κ α) : List κ := m.entries.map Prod.fst

def fill (m : OrderedMap κ α) (value : α) : OrderedMap κ α :=
  ⟨m.entries.map fun entry ↦ (entry.1, value)⟩

variable [DecidableEq κ]

def putIn (key : κ) (value : α) : List (κ × α) → List (κ × α)
  | [] => [(key, value)]
  | entry :: entries =>
    if entry.1 = key then (key, value) :: entries
    else entry :: putIn key value entries

def put (m : OrderedMap κ α) (key : κ) (value : α) : OrderedMap κ α :=
  ⟨putIn key value m.entries⟩

def erase (m : OrderedMap κ α) (key : κ) : OrderedMap κ α :=
  ⟨m.entries.filter fun entry ↦ entry.1 ≠ key⟩

end OrderedMap
end Nameless
