import SelectionMerge.Report.Label

/-!
# Reports

A report is a title, an excerpt for each path with labels, and a hint. An excerpt is headed
by the place it is about and shows lines of its text with their labels. The place is that
of the second field where it lies in the excerpt's text, and else that of the first label.

A label whose first and last character stand on one line is shown on that line and hangs from
its middle; a label over several lines is shown on the last of them and hangs from its last
character. Labels are shown by line and then by the column from which they hang.
-/

namespace SelectionMerge
set_option autoImplicit false

/-- The part of a report about one path: where it is placed, the text, and the labels that lie
in it. -/
structure Excerpt where
  path : String
  position? : Option Position
  text : List Char
  labels : List Label
  deriving DecidableEq, Repr

/-- A report on one conflict. It has a hint only if it has an excerpt. -/
structure Report where
  title : String
  excerpts : List Excerpt
  help? : Option String
  deriving DecidableEq, Repr

/-- The positions of a label's first and last character. The end of the text has a position,
so a label may reach one character beyond it. -/
def Label.ends? (text : List Char) (label : Label) : Option (Position × Position) := do
  let first ← charPosition? text label.start
  let last ← charPosition? text (max label.start (label.stop - 1))
  return (first, last)

/-- A label where it is shown: the line, the columns that it covers there, counted from zero,
and the column from which its text hangs. -/
structure Tag where
  label : Label
  line : Nat
  start : Nat
  stop : Nat
  column : Nat
  deriving DecidableEq, Repr

/-- Where a label is shown. A label that reaches beyond the end of the text is not shown. -/
def Label.tag? (text : List Char) (label : Label) : Option Tag := do
  let (first, last) ← label.ends? text
  if text.length < label.stop then none
  else if first.line = last.line then
    let start := first.column - 1
    let stop := start + (label.stop - label.start)
    return ⟨label, first.line, start, stop, (start + stop) / 2⟩
  else return ⟨label, last.line, 0, last.column, last.column - 1⟩

/-- Whether `a` is shown before `b`: on an earlier line, or on the same line further to the
left. Of two that hang from one column the label that starts later is shown first. -/
def Tag.before (a b : Tag) : Bool :=
  a.line < b.line || (a.line == b.line &&
    (a.column < b.column || (a.column == b.column && b.label.start < a.label.start)))

namespace Excerpt

/-- An excerpt's header: its path and the line and column it is about. -/
def place (excerpt : Excerpt) : String :=
  match excerpt.position? with
  | some position => excerpt.path ++ s!":{position.line}:{position.column}"
  | none => excerpt.path ++ ":?:?"

/-- The excerpt for a path, if any of the labels can be shown there. -/
def ofPath? (sources : SourceMap) (labels : List Label) (main : String × Nat) (path : String) :
    Option Excerpt :=
  let text := sources.shownText path
  match labels.filter fun label => label.path == path && (label.ends? text).isSome with
  | [] => none
  | first :: others =>
    let offset := if main.1 = path then main.2 else first.start
    some ⟨path, charPosition? text offset, text, first :: others⟩

/-- The labels of an excerpt where they are shown, in the order in which they are shown. -/
def tags (excerpt : Excerpt) : List Tag :=
  sortBy Tag.before (excerpt.labels.filterMap (Label.tag? excerpt.text))

end Excerpt

/-- The report on a conflict. -/
def Conflict.report (sources : SourceMap) (conflict : Conflict) : Report :=
  let labels := conflict.labels sources
  let paths := (labels.map Label.path).eraseDups
  let excerpts := paths.filterMap (Excerpt.ofPath? sources labels (conflict.mainPlace sources))
  ⟨"Error: " ++ conflict.message, excerpts,
    if excerpts.isEmpty then none else some conflict.reason.help⟩

namespace Report

/-- The places that the excerpts are about. -/
def places (report : Report) : List String :=
  report.excerpts.map Excerpt.place

/-- The texts of the labels as they are shown, excerpt after excerpt. -/
def labelTexts (report : Report) : List String :=
  report.excerpts.flatMap fun excerpt => excerpt.tags.map fun tag => tag.label.text

end Report

end SelectionMerge
