import Nameless.Text.Template.Layout

/-!
# Faults of templates

Why a template cannot be filled.
-/

namespace Nameless.Text

inductive TemplateFault where
  | loneClose
  | loneOpen
  | unclosed
  | openInField
  | noConversion
  | afterConversion
  | unclosedLayout
  | tooDeep
  | numberTooLarge
  | manualAfterAutomatic
  | automaticAfterManual
  | noArgument (index : Nat)
  | unknownName (name : String)
  | emptyName
  | afterBracket
  | noAttribute (name : String)
  | noCharacter
  | notAnIndex
  | unknownConversion (mark : Char)
  | layout (e : Template.LayoutFault)
deriving DecidableEq

namespace TemplateFault

def message : TemplateFault → String
  | loneClose => "Single '\x7d' encountered in format string"
  | loneOpen => "Single '\x7b' encountered in format string"
  | unclosed => "expected '\x7d' before end of string"
  | openInField => "unexpected '\x7b' in field name"
  | noConversion => "end of string while looking for conversion specifier"
  | afterConversion => "expected ':' after conversion specifier"
  | unclosedLayout => "unmatched '\x7b' in format spec"
  | tooDeep => "Max string recursion exceeded"
  | numberTooLarge => "Too many decimal digits in format string"
  | manualAfterAutomatic =>
    "cannot switch from automatic field numbering to " ++
      "manual field specification"
  | automaticAfterManual =>
    "cannot switch from manual field specification to " ++
      "automatic field numbering"
  | noArgument index =>
    s!"Replacement index {index} out of range for positional args tuple"
  | unknownName name => quoted name
  | emptyName => "Empty attribute in format string"
  | afterBracket =>
    "Only '.' or '[' may follow ']' in format field specifier"
  | noAttribute name => s!"'str' object has no attribute '{name}'"
  | noCharacter => "string index out of range"
  | notAnIndex => "string indices must be integers, not 'str'"
  | unknownConversion mark =>
    let text :=
      if mark = '\x7f' then "\\x7f" else Template.shown mark
    "Unknown conversion specifier " ++ text
  | layout e => e.message

end TemplateFault
end Nameless.Text
