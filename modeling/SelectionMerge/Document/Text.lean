import SelectionMerge.Document
import SelectionMerge.Ordered

/-!
# Values and arguments as text

Every value has one written form on one line. A string stands in simple quotes, whichever way
it was written: the quote and the backslash get a backslash, a control character below U+0020
its short escape or four hexadecimal digits, and a tab, like every other character, stands for
itself. Two calls of a field are the same when they have the same name and the same set of
written arguments, so neither the order nor the repetition of arguments matters.
-/

namespace SelectionMerge
set_option autoImplicit false

/-- The capital hexadecimal digit of a number below sixteen. -/
def hexDigit (n : Nat) : Char :=
  if n < 10 then Char.ofNat (0x30 + n) else Char.ofNat (0x37 + n)

/-- A character as it is written inside quotes. -/
def escapeChar (c : Char) : List Char :=
  if c = '"' then ['\\', '"']
  else if c = '\\' then ['\\', '\\']
  else if c = '\t' then ['\t']
  else if c = '\x08' then ['\\', 'b']
  else if c = '\n' then ['\\', 'n']
  else if c = '\x0c' then ['\\', 'f']
  else if c = '\r' then ['\\', 'r']
  else if c.toNat < 0x20 then
    ['\\', 'u', '0', '0', hexDigit (c.toNat / 16), hexDigit (c.toNat % 16)]
  else [c]

/-- Puts a comma and a space between the items of a list. -/
def commaSeparated (items : List (List Char)) : List Char :=
  [',', ' '].intercalate items

mutual

/-- A value as it is written. -/
def Value.chars : Value → List Char
  | .null => ['n', 'u', 'l', 'l']
  | .boolean true => ['t', 'r', 'u', 'e']
  | .boolean false => ['f', 'a', 'l', 's', 'e']
  | .int text => text.toList
  | .float text => text.toList
  | .string text => '"' :: (text.toList.flatMap escapeChar ++ ['"'])
  | .enum name => name.text.toList
  | .variableRef name => '$' :: name.text.toList
  | .list items => '[' :: (commaSeparated (Value.itemChars items) ++ [']'])
  | .object fields => '\x7b' :: (commaSeparated (Value.fieldChars fields) ++ ['\x7d'])

/-- The items of a list value, each as it is written. -/
def Value.itemChars : List Value → List (List Char)
  | [] => []
  | item :: items => item.chars :: Value.itemChars items

/-- The fields of an object value, each as it is written. -/
def Value.fieldChars : List (Name × Value) → List (List Char)
  | [] => []
  | (name, value) :: fields =>
    (name.text.toList ++ ':' :: ' ' :: value.chars) :: Value.fieldChars fields

end

/-- An argument as it is written, `name: value`. -/
def Argument.chars (argument : Argument) : List Char :=
  argument.name.text.toList ++ ':' :: ' ' :: argument.value.chars

/-- An argument as it is written, `name: value`. -/
def Argument.text (argument : Argument) : String :=
  String.ofList argument.chars

/-- What a selection asks of its parent: a field by name, with a set of written arguments,
strictly ascending. -/
structure FieldCall where
  name : Name
  arguments : List String
  deriving DecidableEq

/-- The call that a field selection makes. -/
def Field.call (field : Field) : FieldCall :=
  ⟨field.name, Ascending.ofList (field.arguments.map Argument.text)⟩

namespace FieldCall

/-- A call as it is written, `name(a: 1, b: 2)`, without parentheses if it has no arguments. -/
def text (call : FieldCall) : String :=
  if call.arguments.isEmpty then call.name.text
  else call.name.text ++ "(" ++ ", ".intercalate call.arguments ++ ")"

/-- Calls are ordered by name, then by their arguments as ascending sequences. -/
def before (a b : FieldCall) : Bool :=
  a.name.before b.name || (a.name == b.name && decide (a.arguments < b.arguments))

end FieldCall

/-- The call of a selection, if it is a field. -/
def Selection.call? : Selection → Option FieldCall
  | .field selected _ => some selected.call
  | _ => none

/-- The calls of the fields that stand directly in a definition. -/
def Definition.calls : Definition → List FieldCall
  | .operation ⟨_, _, selections⟩ => selections.filterMap Selection.call?
  | .fragment ⟨_, _, selections⟩ => selections.filterMap Selection.call?
  | .typeSystem _ => []

end SelectionMerge
