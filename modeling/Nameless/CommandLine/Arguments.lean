import Nameless.Session.Basic
import Nameless.Text.Decimal
import Nameless.Text.Quoted

/-!
# Command-line arguments

There are two options, `--help` (also `-h`) and `--limit` with a number, and
one optional file.  Options may be abbreviated and stand anywhere before `--`.
Arguments are obeyed from left to right, so that the first request for help
or the first bad number ends the reading.

Releases of the usual reader of options differ in two points, and the older
ones are meant here.  Characters after `-h` are read to the end before help is
given: `-hx` is refused for its `x`, and in `-h=h` the `h` asks for help again.
A `--` that is given as the limit is dropped as elsewhere, so that `--limit=--`
sets an empty list.  Newer releases give help for `-hx`, refuse `-h=h` for its
`h`, and refuse `--limit=--` as no number.
-/

namespace Nameless.CommandLine

open Reduction (Limit)

inductive Opt where
  | help
  | limit
deriving DecidableEq

inductive UsageFault where
  | negativeLimit (n : Int)
  | notANumber (text : String)
  | noArgument
  | needlessArgument (text : String)
  | ambiguous (text : String)
  | unrecognized (texts : List String)
deriving DecidableEq

def UsageFault.message : UsageFault → String
  | negativeLimit n =>
    s!"argument --limit: step limit must be non-negative, got {n}"
  | notANumber text =>
    s!"argument --limit: invalid step_limit value: {Text.quoted text}"
  | noArgument => "argument --limit: expected one argument"
  | needlessArgument text =>
    s!"argument -h/--help: ignored explicit argument {Text.quoted text}"
  | ambiguous text =>
    s!"ambiguous option: {text} could match --help, --limit"
  | unrecognized texts =>
    "unrecognized arguments: " ++ " ".intercalate texts

/-- What one argument is, by its own text. -/
inductive Role where
  | value
  | separator
  | option (opt : Opt) (explicit? : Option String)
  | either
  | unknown
deriving DecidableEq

/-- Whether a text is a minus sign and a decimal number.  A line may end after
it. -/
def isNegativeNumber (cs : List Char) : Bool :=
  let cs := if cs.getLast? = some '\n' then cs.dropLast else cs
  match cs with
  | '-' :: cs =>
    let whole := cs.takeWhile Text.isDigit
    match cs.dropWhile Text.isDigit with
    | [] => !whole.isEmpty
    | '.' :: fraction => !fraction.isEmpty && fraction.all Text.isDigit
    | _ => false
  | _ => false

/-- The part of an argument before its first `=`, and the part after it. -/
def explicitSplit (cs : List Char) : List Char × Option String :=
  match cs.dropWhile (· ≠ '=') with
  | [] => (cs, none)
  | _ :: after => (cs.takeWhile (· ≠ '='), some (String.ofList after))

/-- What `-h` cannot do with the characters after it.  An `h` asks for help
once more, and one `=` may stand before the first. -/
def leftOver? (cs : List Char) : Option String :=
  if cs = ['='] then some ""
  else
    let letters := if cs.head? = some '=' then cs.tail else cs
    match letters.dropWhile (· = 'h') with
    | [] => none
    | rest => some (String.ofList rest)

def otherRole (cs : List Char) : Role :=
  if isNegativeNumber cs || cs.contains ' ' then .value else .unknown

def roleOf (arg : String) : Role :=
  match arg.toList with
  | ['-', '-'] => .separator
  | '-' :: '-' :: cs =>
    let (name, explicit?) := explicitSplit cs
    if name.isEmpty then .either
    else if name.isPrefixOf "help".toList then .option .help explicit?
    else if name.isPrefixOf "limit".toList then .option .limit explicit?
    else otherRole ('-' :: '-' :: cs)
  | ['-'] => .value
  | '-' :: 'h' :: cs => .option .help (leftOver? cs)
  | '-' :: cs => otherRole ('-' :: cs)
  | _ => .value

/-- The arguments that count: the file, if one is given, and the limit. -/
structure Arguments where
  file? : Option String
  limit : Limit.Setting
deriving DecidableEq

inductive Request where
  | run (arguments : Arguments)
  | help
  | refuse (fault : UsageFault)
deriving DecidableEq

structure Progress where
  arguments : Arguments
  /-- What no option and no file accounts for. -/
  extras : List String
  /-- Whether the file was the argument before this one. -/
  atFile : Bool

namespace Progress

def start : Progress := ⟨⟨none, .steps Session.defaultLimit⟩, [], false⟩

/-- Only the first value is the file. -/
def addValue (p : Progress) (arg : String) : Progress :=
  match p.arguments.file? with
  | none => ⟨{ p.arguments with file? := some arg }, p.extras, true⟩
  | some _ => ⟨p.arguments, p.extras ++ [arg], false⟩

def addExtras (p : Progress) (args : List String) : Progress :=
  ⟨p.arguments, p.extras ++ args, false⟩

def withLimit (p : Progress) (limit : Limit.Setting) : Progress :=
  ⟨{ p.arguments with limit }, p.extras, false⟩

/-- The limit that a text writes, which replaces an earlier one.  A text that
is `--` writes an empty list of numbers. -/
def setLimit (p : Progress) (text : String) : Except UsageFault Progress :=
  if text = "--" then .ok (p.withLimit (.foreign "list" "[]"))
  else
    match Text.integer? text with
    | none => .error (.notANumber text)
    | some n =>
      if n < 0 then .error (.negativeLimit n)
      else .ok (p.withLimit (.steps n))

/-- After `--` every argument is a value.  The `--` itself is left over if
there already is a file, unless it stands right behind it. -/
def separate (p : Progress) (args : List String) : Progress :=
  match p.arguments.file?, args with
  | none, [] => p
  | none, file :: args => (p.addValue file).addExtras args
  | some _, args => p.addExtras (if p.atFile then args else "--" :: args)

def finish (p : Progress) : Request :=
  if p.extras.isEmpty then .run p.arguments
  else .refuse (.unrecognized p.extras)

end Progress

/-- The first argument before `--` that may stand for either option. -/
def ambiguous? (args : List String) : Option String :=
  (args.takeWhile (roleOf · ≠ .separator)).find? (roleOf · = .either)

def understandFrom (p : Progress) : List String → Request
  | [] => p.finish
  | arg :: args =>
    match roleOf arg with
    | .value => understandFrom (p.addValue arg) args
    | .separator => (p.separate args).finish
    | .option .help none => .help
    | .option .help (some text) => .refuse (.needlessArgument text)
    | .option .limit (some text) =>
      match p.setLimit text with
      | .ok p => understandFrom p args
      | .error e => .refuse e
    | .option .limit none =>
      match args with
      | [] => .refuse .noArgument
      | text :: args =>
        if roleOf text = .value then
          match p.setLimit text with
          | .ok p => understandFrom p args
          | .error e => .refuse e
        else .refuse .noArgument
    | .either => .refuse (.ambiguous arg)
    | .unknown => understandFrom (p.addExtras [arg]) args

/-- What the arguments ask for.  An abbreviation of both options is refused
before anything is obeyed. -/
def understand (args : List String) : Request :=
  match ambiguous? args with
  | some arg => .refuse (.ambiguous arg)
  | none => understandFrom .start args

end Nameless.CommandLine
