import Nameless.Context
import Nameless.Surface.Fault
import Nameless.Surface.Token
import Nameless.Term.Basic

/-!
# Reading terms

An expression is a chain of atoms, applied from left to right.  An atom is an
expression in parentheses, a binder with its body, or a bound name.  A body
reaches as far as it can, and a binder with several parameters nests them.

Every function reads from the front of the text it is given.  Reading ends
because each atom takes something from that text.
-/

namespace Nameless.Surface

open Text (trimStart)

theorem trimStart_lt {cs rest : List Char} {c : Char}
    (h : trimStart cs = c :: rest) : rest.length < cs.length := by
  have hle := Text.trimStart_length_le cs
  rw [h, List.length_cons] at hle
  omega

theorem names_lt {cs rest : List Char} {c : Char} {found : List String}
    (h : names cs = (found, c :: rest)) : rest.length < cs.length := by
  have hle := names_length_le cs
  rw [h, List.length_cons] at hle
  omega

/-- An atom as the argument of what stands before it, if anything does. -/
def applied (head : Option Term) (t : Term) : Term :=
  match head with
  | none => t
  | some fn => .app fn t

mutual

/-- An atom, or nothing if none starts here. -/
def atom? (ctx : Context) (cs : List Char) : Reading (Option Term) :=
  match hcs : trimStart cs with
  | [] => .done none []
  | c :: rest =>
    have := trimStart_lt hcs
    if c = '(' then
      (chain ctx none rest).bind fun t rest ↦
        match trimStart rest with
        | ')' :: rest => .done (some t) rest
        | rest => .failed .unclosed rest
    else if isBinderSign c then
      (binder ctx rest).bind fun t rest ↦ .done (some t) rest
    else
      match name? (c :: rest) with
      | none => .done none (c :: rest)
      | some (name, after) =>
        match ctx.indexOf? name with
        | some k => .done (some (.var k)) after
        | none => ⟨.error ⟨.unbound name, c :: rest⟩, after⟩
termination_by (cs.length, 0)

/-- The atoms from here on, applied to each other and, if there is a `head`,
applied by it.  A chain would stop at an atom that takes nothing from the
text, but there is none. -/
def chain (ctx : Context) (head : Option Term) (cs : List Char) :
    Reading Term :=
  match atom? ctx cs with
  | ⟨.error e, rest⟩ => ⟨.error e, rest⟩
  | ⟨.ok none, rest⟩ =>
    match head with
    | none => .failed .noExpression rest
    | some t => .done t rest
  | ⟨.ok (some t), rest⟩ =>
    if rest.length < cs.length then chain ctx (some (applied head t)) rest
    else .done (applied head t) rest
termination_by (cs.length, 1)

/-- The parameters, the dot and the body of a binder whose sign was read. -/
def binder (ctx : Context) (cs : List Char) : Reading Term :=
  match hcs : names cs with
  | ([], rest) => .failed .noParameter rest
  | (param :: params, '.' :: rest) =>
    have := names_lt hcs
    (chain (ctx.pushAll (param :: params)) none rest).bind fun body rest ↦
      .done ((param :: params).foldr .lam body) rest
  | (_, rest) => .failed .noDot rest
termination_by (cs.length, 0)

end

/-- One atom or more. -/
def expression (ctx : Context) (cs : List Char) : Reading Term :=
  chain ctx none cs

/-- An expression with nothing but blanks after it. -/
def wholeTerm (cs : List Char) : Reading Term :=
  (expression .root cs).bind fun t rest ↦
    match trimStart rest with
    | [] => .done t []
    | rest => .failed .leftOver rest

end Nameless.Surface
