/-!
# What quotes hold

The meaning of the characters between quotes. In simple quotes a backslash starts an escape:
one character, or the number of a character in braces, or four hexadecimal digits for a UTF-16
unit, two of which may stand for one character. In triple quotes only three quotes can be
escaped, and the text is a block: the indentation common to its lines is taken away, and so are
blank lines around it.
-/

namespace SelectionMerge.Quoted
set_option autoImplicit false

/-- A part of a quoted text: a character, or a UTF-16 unit written as an escape. -/
inductive Piece where
  | char (c : Char)
  | unit (code : Nat)
  deriving DecidableEq, Repr

/-- The number that a hexadecimal digit stands for. -/
def hexValue? (c : Char) : Option Nat :=
  if '0' ≤ c ∧ c ≤ '9' then some (c.toNat - 0x30)
  else if 'A' ≤ c ∧ c ≤ 'F' then some (c.toNat - 0x37)
  else if 'a' ≤ c ∧ c ≤ 'f' then some (c.toNat - 0x57)
  else none

/-- The number that hexadecimal digits stand for. -/
def hexNumber? (digits : List Char) : Option Nat :=
  digits.foldlM (fun n c => (hexValue? c).map (16 * n + ·)) 0

/-- The character that a backslash and `c` stand for. -/
def shortEscape? (c : Char) : Option Char :=
  if c = '"' ∨ c = '\\' ∨ c = '/' then some c
  else if c = 'b' then some '\x08'
  else if c = 'f' then some '\x0c'
  else if c = 'n' then some '\n'
  else if c = 'r' then some '\r'
  else if c = 't' then some '\t'
  else none

/-- The character whose number has the digits. At least one digit is needed, and zeros before
the others have no meaning. -/
def numbered? (digits : List Char) : Option Char :=
  if digits.isEmpty then none
  else (hexNumber? digits).bind fun code =>
    if code.isValidChar then some (Char.ofNat code) else none

/-- The parts of a text in simple quotes, if all its escapes are known. Within braces `open?`
holds the digits that were read, the last one first. -/
def pieces? : Option (List Char) → List Char → Option (List Piece)
  | none, [] => some []
  | none, '\\' :: 'u' :: '\x7b' :: cs => pieces? (some []) cs
  | none, '\\' :: 'u' :: a :: b :: c :: d :: cs => do
    let code ← hexNumber? [a, b, c, d]
    return .unit code :: (← pieces? none cs)
  | none, '\\' :: c :: cs => do
    let escaped ← shortEscape? c
    return .char escaped :: (← pieces? none cs)
  | none, c :: cs => if c = '\\' then none else (pieces? none cs).map (.char c :: ·)
  | some digits, '\x7d' :: cs => do
    let numbered ← numbered? digits.reverse
    return .char numbered :: (← pieces? none cs)
  | some digits, c :: cs => pieces? (some (c :: digits)) cs
  | some _, [] => none

/-- Whether a UTF-16 unit is the first of two. -/
def isLeading (code : Nat) : Bool :=
  0xd800 ≤ code && code < 0xdc00

/-- Whether a UTF-16 unit is the second of two. -/
def isTrailing (code : Nat) : Bool :=
  0xdc00 ≤ code && code < 0xe000

/-- The characters that the parts make up after the unit `leading?`, the first of two. -/
def join? : Option Nat → List Piece → Option (List Char)
  | none, [] => some []
  | none, .char c :: ps => (join? none ps).map (c :: ·)
  | none, .unit code :: ps =>
    if isLeading code then join? (some code) ps
    else if isTrailing code then none
    else (join? none ps).map (Char.ofNat code :: ·)
  | some leading, .unit code :: ps =>
    if isTrailing code then
      (join? none ps).map
        (Char.ofNat (0x10000 + 0x400 * (leading - 0xd800) + (code - 0xdc00)) :: ·)
    else none
  | some _, _ => none

/-- The meaning of a text in simple quotes, if all its escapes are known. -/
def simple? (cs : List Char) : Option (List Char) :=
  (pieces? none cs).bind (join? none)

/-- Whether a character indents a block. -/
def isIndent (c : Char) : Bool :=
  c == ' ' || c == '\t'

/-- The lines of a block, without their ends. -/
def blockLines : List Char → List (List Char)
  | [] => [[]]
  | '\r' :: '\n' :: cs => [] :: blockLines cs
  | c :: cs =>
    if c = '\n' ∨ c = '\r' then [] :: blockLines cs
    else match blockLines cs with
      | [] => [[c]]
      | l :: ls => (c :: l) :: ls

/-- Whether a line of a block holds nothing but indentation. -/
def isBlank (line : List Char) : Bool :=
  line.all isIndent

/-- The indentation that all lines with contents have in common. -/
def commonIndent (lines : List (List Char)) : Nat :=
  ((lines.filter fun line => !isBlank line).map fun line =>
    (line.takeWhile isIndent).length).min?.getD 0

/-- The meaning of a text in triple quotes. The first line starts behind the quotes and has
no indentation to take away. -/
def block (cs : List Char) : List Char :=
  let lines := match blockLines cs with
    | [] => []
    | first :: others => first :: others.map (List.drop (commonIndent others))
  let trimmed := ((lines.dropWhile isBlank).reverse.dropWhile isBlank).reverse
  ['\n'].intercalate trimmed

end SelectionMerge.Quoted
