/-!
# Source files, spans and positions

A source map keeps the files that a document was read from, in the order in which they were
added. A span names a file and a half-open range of UTF-8 bytes. A position is a line and a
column, both counted from one; the column is counted in the unit of the caller's choice,
bytes or characters. A line runs up to and including its end, and a text that stops at a
line end has no further, empty line: the offset after its last character still belongs to
the last line.

The main statement: the characters that are counted before a byte have just that many bytes
(`charsBefore?_eq_some`).
-/

namespace SelectionMerge
set_option autoImplicit false

/-- A file's path and the characters of its text. -/
structure Source where
  path : String
  text : List Char
  deriving DecidableEq, Repr

/-- Files are numbered in the order in which they are read. -/
abbrev FileId := Nat

/-- The bytes `start` to `stop` of a file. -/
structure Span where
  file : FileId
  start : Nat
  stop : Nat
  deriving DecidableEq, Repr

/-- The files whose texts are known, in the order in which they were added. -/
abbrev SourceMap := List (FileId × Source)

/-- The file of that number, if its text is known. -/
def SourceMap.file? (sources : SourceMap) (file : FileId) : Option Source :=
  (sources.find? fun entry => entry.1 == file).map Prod.snd

/-- A line and a column, counted from one. -/
structure Position where
  line : Nat
  column : Nat
  deriving DecidableEq, Repr

/-- Line feed, carriage return, vertical tab, form feed, next line, and the line and
paragraph separators end a line. -/
def isLineEnd (c : Char) : Bool :=
  c == '\n' || c == '\r' || c == '\x0b' || c == '\x0c' || c == '\u0085' || c == '\u2028' ||
    c == '\u2029'

/-- The lines of a text, each with its end. A carriage return and the line feed after it
are one line end. -/
def textLines : List Char → List (List Char)
  | [] => []
  | '\r' :: '\n' :: cs => ['\r', '\n'] :: textLines cs
  | c :: cs =>
    if isLineEnd c then [c] :: textLines cs
    else match textLines cs with
      | [] => [[c]]
      | l :: ls => (c :: l) :: ls

/-- The number of UTF-8 bytes of the characters. -/
def byteLength (cs : List Char) : Nat :=
  cs.foldr (fun c bytes => c.utf8Size + bytes) 0

/-- Whether a new line starts behind `c`, which `rest` follows: `c` is a line end, not the
carriage return of a longer one, and the text goes on. -/
def startsLine (c : Char) (rest : List Char) : Bool :=
  isLineEnd c && !rest.isEmpty && !(c == '\r' && rest.head? == some '\n')

/-- The position of an offset in a text that starts at a line and column, where a character
has `size` units. -/
def positionFrom (size : Char → Nat) (line column : Nat) : List Char → Nat → Option Position
  | [], offset => if offset = 0 then some ⟨line, column⟩ else none
  | c :: cs, offset =>
    if offset < size c then some ⟨line, column + offset⟩
    else if startsLine c cs then positionFrom size (line + 1) 1 cs (offset - size c)
    else positionFrom size line (column + size c) cs (offset - size c)

namespace Source

/-- The position of a byte offset, its column counted in bytes. -/
def bytePosition? (source : Source) (offset : Nat) : Option Position :=
  positionFrom Char.utf8Size 1 1 source.text offset

end Source

/-- The position of a character, its column counted in characters. -/
def charPosition? (text : List Char) (offset : Nat) : Option Position :=
  positionFrom (fun _ => 1) 1 1 text offset

/-- The number of characters in the first `offset` bytes and `before` more, if these bytes end
between two characters. -/
def charsFrom? (before : Nat) : List Char → Nat → Option Nat
  | _, 0 => some before
  | [], _ + 1 => none
  | c :: cs, offset + 1 =>
    if c.utf8Size ≤ offset + 1 then charsFrom? (before + 1) cs (offset + 1 - c.utf8Size) else none

/-- The number of characters in the first `offset` bytes, if these end between two characters. -/
def charsBefore? (cs : List Char) (offset : Nat) : Option Nat :=
  charsFrom? 0 cs offset

theorem charsFrom?_eq_some {before n : Nat} {cs : List Char} {offset : Nat}
    (h : charsFrom? before cs offset = some n) :
    before ≤ n ∧ n ≤ before + cs.length ∧ byteLength (cs.take (n - before)) = offset := by
  induction cs generalizing before offset with
  | nil =>
    cases offset with
    | zero => cases h; simp [byteLength]
    | succ offset => cases h
  | cons c cs ih =>
    cases offset with
    | zero => cases h; simp [byteLength]
    | succ offset =>
      unfold charsFrom? at h
      split at h
      next hc =>
        obtain ⟨hle, hlen, hbytes⟩ := ih h
        obtain ⟨m, rfl⟩ := Nat.exists_eq_add_of_lt hle
        have hm : before + 1 + m - before = m + 1 := by omega
        refine ⟨by omega, by simp only [List.length_cons]; omega, ?_⟩
        simp only [show before + m + 1 - (before + 1) = m by omega,
          show before + m + 1 - before = m + 1 by omega, byteLength, List.take_succ_cons,
          List.foldr_cons] at hbytes ⊢
        omega
      next => cases h

/-- Bytes that end between two characters are those of the characters before. -/
theorem charsBefore?_eq_some {cs : List Char} {offset n : Nat}
    (h : charsBefore? cs offset = some n) :
    n ≤ cs.length ∧ byteLength (cs.take n) = offset := by
  obtain ⟨-, hlen, hbytes⟩ := charsFrom?_eq_some h
  exact ⟨by omega, hbytes⟩

/-- The position of a span's first byte, if both its ends lie within its file's text. -/
def SourceMap.position? (sources : SourceMap) (span : Span) : Option Position := do
  let source ← sources.file? span.file
  let start ← source.bytePosition? span.start
  let _ ← source.bytePosition? span.stop
  return start

end SelectionMerge
