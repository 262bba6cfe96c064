import SelectionMerge.Text.Quoted
import SelectionMerge.Text.Token

/-!
# Scanning

A text is cut into tokens by a scanner that reads one character at a time. Commas, spaces,
tabs, line ends, comments and a byte order mark separate tokens and mean nothing more. A
number or name ends before the first character that cannot go on with it; a number may not
run into a name or a further point.
-/

namespace SelectionMerge
set_option autoImplicit false

/-- How far a number has been read. -/
inductive NumberPhase where
  | minus
  | zero
  | integer
  | point
  | fraction
  | exponent
  | exponentSign
  | exponentDigits
  deriving DecidableEq, Repr

namespace NumberPhase

/-- The phase after a further character, if the number can go on with it. -/
def next? (phase : NumberPhase) (c : Char) : Option NumberPhase :=
  match phase with
  | .minus => if c == '0' then some .zero else if c.isDigit then some .integer else none
  | .zero =>
    if c == '.' then some .point else if c == 'e' || c == 'E' then some .exponent else none
  | .integer =>
    if c.isDigit then some .integer
    else if c == '.' then some .point
    else if c == 'e' || c == 'E' then some .exponent
    else none
  | .point => if c.isDigit then some .fraction else none
  | .fraction =>
    if c.isDigit then some .fraction
    else if c == 'e' || c == 'E' then some .exponent
    else none
  | .exponent =>
    if c == '+' || c == '-' then some .exponentSign
    else if c.isDigit then some .exponentDigits
    else none
  | .exponentSign => if c.isDigit then some .exponentDigits else none
  | .exponentDigits => if c.isDigit then some .exponentDigits else none

/-- The number that was read, if it is complete. -/
def lexeme? (phase : NumberPhase) (text : String) : Option Lexeme :=
  match phase with
  | .zero | .integer => some (.int text)
  | .fraction | .exponentDigits => some (.float text)
  | _ => none

end NumberPhase

/-- What the scanner is in the middle of. What was read of a token is kept backwards. -/
inductive ScanMode where
  | between
  | comment
  /-- This many points of an ellipsis. -/
  | points (count : Nat)
  | name (read : List Char)
  | number (phase : NumberPhase) (read : List Char)
  /-- One or two quotes that open a string. -/
  | opening (count : Nat)
  /-- In simple quotes, maybe right behind a backslash. -/
  | quoted (read : List Char) (escaped : Bool)
  /-- In triple quotes, right behind this many quotes. -/
  | block (read : List Char) (quotes : Nat)
  /-- In triple quotes, right behind a backslash and this many quotes. -/
  | blockEscape (read : List Char) (quotes : Nat)

/-- A scanner: what it is in the middle of and where that started, how many bytes it has
read, and the tokens so far, the last one first. -/
structure Scanner where
  mode : ScanMode
  start : Nat
  offset : Nat
  tokens : List Token

namespace Scanner

/-- The scanner at the beginning of a text. -/
def initial : Scanner :=
  ⟨.between, 0, 0, []⟩

/-- Whether a character separates tokens. -/
def isBlank (c : Char) : Bool :=
  c == ' ' || c == '\t' || c == '\n' || c == '\r' || c == ',' || c == '\ufeff'

/-- Whether a character ends the line for comments and simple quotes. -/
def endsLine (c : Char) : Bool :=
  c == '\n' || c == '\r'

/-- Whether a character is a token of its own. -/
def isMark (c : Char) : Bool :=
  ['!', '$', '&', '(', ')', ':', '=', '@', '[', ']', '\x7b', '|', '\x7d'].contains c

/-- Ends a token at byte `stop`. -/
def emit (scanner : Scanner) (lexeme : Lexeme) (stop : Nat) : Scanner :=
  { scanner with mode := .between, tokens := ⟨lexeme, scanner.start, stop⟩ :: scanner.tokens }

/-- The name that was read. -/
def nameLexeme (read : List Char) : Except SyntaxError Lexeme :=
  match Name.ofText? (String.ofList read.reverse) with
  | some name => .ok (.name name)
  | none => .error .unterminated

/-- The number that was read. -/
def numberLexeme (phase : NumberPhase) (read : List Char) : Except SyntaxError Lexeme :=
  match phase.lexeme? (String.ofList read.reverse) with
  | some lexeme => .ok lexeme
  | none => .error .malformedNumber

/-- The string that was read in simple quotes. -/
def simpleLexeme (read : List Char) : Except SyntaxError Lexeme :=
  match Quoted.simple? read.reverse with
  | some cs => .ok (.string (String.ofList cs))
  | none => .error .unknownEscape

/-- The string that was read in triple quotes. -/
def blockLexeme (read : List Char) : Lexeme :=
  .string (String.ofList (Quoted.block read.reverse))

/-- The scanner in a new mode, with the token that starts at this byte. -/
def enter (scanner : Scanner) (mode : ScanMode) : Scanner :=
  { scanner with mode, start := scanner.offset }

/-- Reads a character between two tokens. -/
def begin (scanner : Scanner) (c : Char) : Except SyntaxError Scanner :=
  if isBlank c then .ok (scanner.enter .between)
  else if c == '#' then .ok (scanner.enter .comment)
  else if c == '.' then .ok (scanner.enter (.points 1))
  else if c == '"' then .ok (scanner.enter (.opening 1))
  else if c == '-' then .ok (scanner.enter (.number .minus [c]))
  else if c == '0' then .ok (scanner.enter (.number .zero [c]))
  else if c.isDigit then .ok (scanner.enter (.number .integer [c]))
  else if isNameStart c then .ok (scanner.enter (.name [c]))
  else if isMark c then .ok ((scanner.enter .between).emit (.mark c) (scanner.offset + 1))
  else .error (.unexpectedCharacter c)

/-- Reads a character, before its bytes are counted. -/
def read (scanner : Scanner) (c : Char) : Except SyntaxError Scanner :=
  match scanner.mode with
  | .between => scanner.begin c
  | .comment => .ok { scanner with mode := if endsLine c then .between else .comment }
  | .points count =>
    if c != '.' then .error (.unexpectedCharacter c)
    else if count < 2 then .ok { scanner with mode := .points (count + 1) }
    else .ok (scanner.emit .ellipsis (scanner.offset + 1))
  | .name read =>
    if isNameContinue c then .ok { scanner with mode := .name (c :: read) }
    else do (scanner.emit (← nameLexeme read) scanner.offset).begin c
  | .number phase read =>
    match phase.next? c with
    | some phase => .ok { scanner with mode := .number phase (c :: read) }
    | none =>
      if isNameContinue c || c == '.' then .error .malformedNumber
      else do (scanner.emit (← numberLexeme phase read) scanner.offset).begin c
  | .opening count =>
    if c == '"' then
      .ok { scanner with mode := if count < 2 then .opening (count + 1) else .block [] 0 }
    else if count == 2 then (scanner.emit (.string "") scanner.offset).begin c
    else if endsLine c then .error .unterminated
    else .ok { scanner with mode := .quoted [c] (c == '\\') }
  | .quoted read escaped =>
    if endsLine c then .error .unterminated
    else if c == '"' && !escaped then do
      return scanner.emit (← simpleLexeme read) (scanner.offset + 1)
    else .ok { scanner with mode := .quoted (c :: read) (c == '\\' && !escaped) }
  | .block read quotes =>
    if c == '"' then
      if quotes < 2 then .ok { scanner with mode := .block read (quotes + 1) }
      else .ok (scanner.emit (blockLexeme read) (scanner.offset + 1))
    else
      let read := List.replicate quotes '"' ++ read
      .ok { scanner with mode := if c == '\\' then .blockEscape read 0 else .block (c :: read) 0 }
  | .blockEscape read quotes =>
    if c == '"' then
      .ok { scanner with mode :=
        if quotes < 2 then .blockEscape read (quotes + 1) else .block ('"' :: '"' :: '"' :: read) 0 }
    else
      let read := List.replicate quotes '"' ++ '\\' :: read
      .ok { scanner with mode := if c == '\\' then .blockEscape read 0 else .block (c :: read) 0 }

/-- Reads a character. -/
def step (scanner : Scanner) (c : Char) : Except SyntaxError Scanner :=
  (scanner.read c).map fun scanner => { scanner with offset := scanner.offset + c.utf8Size }

/-- The tokens at the end of a text. -/
def finish (scanner : Scanner) : Except SyntaxError (List Token) :=
  match scanner.mode with
  | .between | .comment => .ok scanner.tokens.reverse
  | .name read => do
    return (scanner.emit (← nameLexeme read) scanner.offset).tokens.reverse
  | .number phase read => do
    return (scanner.emit (← numberLexeme phase read) scanner.offset).tokens.reverse
  | .opening 2 => .ok (scanner.emit (.string "") scanner.offset).tokens.reverse
  | _ => .error .unterminated

end Scanner

/-- The tokens of a text. -/
def tokens (text : String) : Except SyntaxError (List Token) := do
  (← text.toList.foldlM Scanner.step Scanner.initial).finish

end SelectionMerge
