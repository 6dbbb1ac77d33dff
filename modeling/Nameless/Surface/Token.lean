import Nameless.Text.Blank

/-!
# Names, binder signs and the blanks between them

Tokens are read from the front of the text that is left.
-/

namespace Nameless.Surface

def isNameChar (c : Char) : Bool := c.isAlphanum || c == '_'

def isBinderSign (c : Char) : Bool := c == 'λ' || c == '\\'

/-- The longest name at the front, and what follows it. -/
def name? (cs : List Char) : Option (String × List Char) :=
  let name := cs.takeWhile isNameChar
  if name = [] then none
  else some (String.ofList name, cs.dropWhile isNameChar)

theorem name?_length {cs rest : List Char} {name : String}
    (h : name? cs = some (name, rest)) : rest.length < cs.length := by
  simp only [name?] at h
  split at h
  · cases h
  · rename_i hne
    simp only [Option.some.injEq, Prod.mk.injEq] at h
    have hlen := congrArg List.length
      (List.takeWhile_append_dropWhile (p := isNameChar) (l := cs))
    have hpos := List.length_pos_iff.mpr hne
    rw [List.length_append, h.2] at hlen
    omega

/-- The names at the front with the blanks around them, and what follows. -/
def names (cs : List Char) : List String × List Char :=
  match hname : name? (Text.trimStart cs) with
  | none => ([], Text.trimStart cs)
  | some (name, rest) =>
    have := name?_length hname
    have := Text.trimStart_length_le cs
    let (more, rest) := names rest
    (name :: more, rest)
termination_by cs.length
decreasing_by omega

theorem names_length_le (cs : List Char) :
    (names cs).2.length ≤ cs.length := by
  fun_induction names cs with
  | case1 cs h => exact Text.trimStart_length_le cs
  | case2 cs name rest h _ _ more rest' hmore ih =>
      have := name?_length h
      have := Text.trimStart_length_le cs
      simp only [hmore] at ih
      dsimp only
      omega

end Nameless.Surface
