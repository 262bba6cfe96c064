import SelectionMerge.Name

/-!
# Tokens

The words and marks of a text, each with the bytes it covers, and the ways in which a text
can fail to be one.
-/

namespace SelectionMerge
set_option autoImplicit false

/-- A token without its place. Strings hold what they mean, numbers what was written. -/
inductive Lexeme where
  | mark (c : Char)
  | ellipsis
  | name (name : Name)
  | int (text : String)
  | float (text : String)
  | string (text : String)
  deriving DecidableEq

/-- What keeps a text from being read. -/
inductive SyntaxError where
  | unexpectedCharacter (c : Char)
  | malformedNumber
  | unknownEscape
  | unterminated
  /-- A token that cannot stand there, or none where one is needed. -/
  | unexpectedToken (found : Option Lexeme)
  /-- Selection sets, values or types in each other beyond the limit. -/
  | nestedTooDeep
  deriving DecidableEq

/-- A token and the bytes it covers. -/
structure Token where
  lexeme : Lexeme
  start : Nat
  stop : Nat

end SelectionMerge
