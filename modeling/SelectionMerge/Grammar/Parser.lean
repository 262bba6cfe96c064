import SelectionMerge.Text.Scanner

/-!
# Reading tokens

A parser takes tokens from the front of a list and fails on one that cannot stand there. It
remembers where the last token it took ended, for the spans of fields. Lists are read with a
bound on their length: each item takes a token, so no list is longer than the rest of the
text.
-/

namespace SelectionMerge
set_option autoImplicit false

/-- The tokens ahead, and the byte at which the last token taken ended. -/
structure Cursor where
  rest : List Token
  stop : Nat

/-- Takes tokens and gives a value, or fails. -/
abbrev Parser := StateT Cursor (Except SyntaxError)

namespace Parser

variable {α : Type}

/-- The token ahead. -/
def peek : Parser (Option Lexeme) :=
  return (← get).rest.head?.map Token.lexeme

/-- Fails on the token ahead. -/
def unexpected : Parser α := do
  throw (.unexpectedToken (← peek))

/-- Takes the token ahead. -/
def advance : Parser Unit := do
  match (← get).rest with
  | token :: rest => set (Cursor.mk rest token.stop)
  | [] => unexpected

/-- Whether the token ahead is this one. -/
def isNext (lexeme : Lexeme) : Parser Bool :=
  return (← peek) == some lexeme

/-- Takes the token ahead if it is this one. -/
def accept (lexeme : Lexeme) : Parser Bool := do
  if ← isNext lexeme then
    advance
    return true
  else return false

/-- Takes the token ahead, which must be this one. -/
def expect (lexeme : Lexeme) : Parser Unit := do
  if !(← accept lexeme) then unexpected

/-- Takes a name. -/
def name : Parser Name := do
  match ← peek with
  | some (.name name) =>
    advance
    return name
  | _ => unexpected

/-- Takes the name ahead if it has this text. -/
def acceptWord (word : String) : Parser Bool := do
  match ← peek with
  | some (.name name) =>
    if name.text == word then
      advance
      return true
    else return false
  | _ => return false

/-- Takes the name ahead, which must have this text. -/
def expectWord (word : String) : Parser Unit := do
  if !(← acceptWord word) then unexpected

/-- At most `bound` items, up to and with the closing token; at least one. -/
def itemsUntil (closing : Lexeme) (item : Parser α) : Nat → Parser (List α)
  | 0 => unexpected
  | bound + 1 => do
    let first ← item
    if ← accept closing then return [first]
    return first :: (← itemsUntil closing item bound)

/-- Items between two tokens, at least one. -/
def between (opening closing : Lexeme) (item : Parser α) : Parser (List α) := do
  expect opening
  itemsUntil closing item (← get).rest.length

/-- Items between two tokens if the first is ahead, none otherwise. -/
def optionalBetween (opening closing : Lexeme) (item : Parser α) : Parser (List α) := do
  if ← isNext opening then between opening closing item else return []

/-- At most `bound` items, as long as each one starts with the token ahead. -/
def itemsWhile (opening : Lexeme) (item : Parser α) : Nat → Parser (List α)
  | 0 => return []
  | bound + 1 => do
    if ← isNext opening then
      let first ← item
      return first :: (← itemsWhile opening item bound)
    else return []

/-- Items, as long as each one starts with the token ahead. -/
def many (opening : Lexeme) (item : Parser α) : Parser (List α) := do
  if ← isNext opening then itemsWhile opening item (← get).rest.length else return []

/-- Items with a token between them, and maybe before the first; at least one. -/
def separated (separator : Lexeme) (item : Parser α) : Parser (List α) := do
  let _ ← accept separator
  let first ← item
  return first :: (← many separator (do
    expect separator
    item))

/-- Items up to the end of the text, at least one. -/
def itemsToEnd (item : Parser α) : Nat → Parser (List α)
  | 0 => unexpected
  | bound + 1 => do
    let first ← item
    if (← peek).isNone then return [first]
    return first :: (← itemsToEnd item bound)

/-- Reads a whole text as items, at least one. -/
def all (item : Parser α) (text : String) : Except SyntaxError (List α) := do
  let tokens ← tokens text
  (itemsToEnd item tokens.length).run' ⟨tokens, 0⟩

/-- Reads a whole text as one item. -/
def whole (item : Parser α) (text : String) : Except SyntaxError α := do
  let tokens ← tokens text
  let (value, cursor) ← item.run ⟨tokens, 0⟩
  match cursor.rest with
  | [] => return value
  | token :: _ => throw (.unexpectedToken (some token.lexeme))

end Parser

end SelectionMerge
