import SelectionMerge.Report.Excerpt

/-!
# The layout of reports

A report is drawn line by line. Of an excerpt the lines from the first label to the last are
visited: a line on which labels are shown is shown, and the labels hang from it one below the
other; a run of other lines shrinks to one row. Columns count characters, and a tab reaches to the
next multiple of four.
-/

namespace SelectionMerge
set_option autoImplicit false

/-- White space of any script. -/
def isWhiteSpace (c : Char) : Bool :=
  (0x09 ≤ c.toNat && c.toNat ≤ 0x0d) || c.toNat == 0x20 || c.toNat == 0x85 || c.toNat == 0xa0 ||
    c.toNat == 0x1680 || (0x2000 ≤ c.toNat && c.toNat ≤ 0x200a) || c.toNat == 0x2028 ||
    c.toNat == 0x2029 || c.toNat == 0x202f || c.toNat == 0x205f || c.toNat == 0x3000

namespace Layout

/-- How many columns a character takes that stands in column `column`. -/
def width (column : Nat) (c : Char) : Nat :=
  if c = '\t' then (column / 4 + 1) * 4 - column else 1

/-- A line without the white space at its end. -/
def trimmed (line : List Char) : List Char :=
  (line.reverse.dropWhile isWhiteSpace).reverse

/-- A line as it is shown: white space as blanks, and no more of it than needed. -/
def shownLine (line : List Char) : String :=
  String.ofList ((trimmed line).zipIdx.flatMap fun (c, column) =>
    List.replicate (width column c) (if isWhiteSpace c then ' ' else c))

/-- The widths of the first `columns` columns under a line: as wide as the characters above, and
one where none stands above. -/
def columnWidths (line : List Char) (columns : Nat) : List Nat :=
  let widths := (trimmed line).zipIdx.map fun (c, column) => width column c
  (widths ++ List.replicate (columns - widths.length) 1).take columns

/-- A row under a line, drawn column by column: `draw` gives the character of a column, and
the one that fills the column up to its width. -/
def row (widths : List Nat) (draw : Nat → Char × Char) : String :=
  String.ofList (widths.zipIdx.flatMap fun (width, column) =>
    let (first, filling) := draw column
    first :: List.replicate (width - 1) filling)

/-- The row above the text of a tag, from which the tags `hanging` hang. The first such row
underlines all tags of the line. -/
def stemRow (isFirst : Bool) (tags hanging : List Tag) (column : Nat) : Char × Char :=
  if hanging.any (·.column == column) then if isFirst then ('┬', '─') else ('│', ' ')
  else if isFirst && tags.any (fun tag => tag.start ≤ column && column < tag.stop) then
    ('─', '─')
  else (' ', ' ')

/-- The row that leads to the text of a tag. -/
def hookRow (tag : Tag) (column : Nat) : Char × Char :=
  if column = tag.column then ('╰', '─')
  else if tag.column < column then ('─', '─')
  else (' ', ' ')

/-- The rows under a line, two for each tag that still hangs. -/
def tagRows (widths : List Nat) (tags : List Tag) (isFirst : Bool) : List Tag → List String
  | [] => []
  | tag :: hanging =>
    row widths (stemRow isFirst tags (tag :: hanging)) ::
      (row widths (hookRow tag) ++ " " ++ tag.label.text) ::
      tagRows widths tags false hanging

/-- The numbers of the lines on which labels of an excerpt start or end. -/
def lineNumbers (excerpt : Excerpt) : List Nat :=
  (excerpt.labels.filterMap (Label.ends? excerpt.text)).flatMap fun (first, last) =>
    [first.line, last.line]

/-- Blanks. -/
def blanks (count : Nat) : String :=
  String.ofList (List.replicate count ' ')

/-- A number, with blanks before it up to a width. -/
def padded (width number : Nat) : String :=
  blanks (width - (toString number).length) ++ toString number

/-- The rows for numbered lines with the tags of their excerpt, `margin` wide. A run of lines
without tags is one row. -/
def lineRows (tags : List Tag) (margin : Nat) : Bool → List (List Char × Nat) → List String
  | _, [] => []
  | inGap, (line, number) :: rest =>
    match tags.filter (·.line == number) with
    | [] =>
      if inGap then lineRows tags margin true rest
      else (blanks (margin + 2) ++ "│ ") :: lineRows tags margin true rest
    | own =>
      let widths := columnWidths line ((own.map Tag.stop).foldl max 0 + 2)
      (" " ++ padded margin number ++ " │ " ++ shownLine line) ::
        (tagRows widths own true own).map (blanks (margin + 2) ++ "│ " ++ ·) ++
        lineRows tags margin false rest

/-- The rows of an excerpt, from the first line with a label to the last. -/
def excerptRows (margin : Nat) (isFirst : Bool) (excerpt : Excerpt) : List String :=
  let numbers := lineNumbers excerpt
  let first := numbers.min?.getD 1
  let last := numbers.max?.getD 0
  let shown := ((textLines excerpt.text).zipIdx 1).filter fun (_, number) =>
    first ≤ number && number ≤ last
  (blanks (margin + 2) ++ (if isFirst then "╭" else "├") ++ "─[" ++ excerpt.place ++ "]") ::
    (blanks (margin + 2) ++ "│") ::
    lineRows excerpt.tags margin false shown

/-- The rows of excerpts after the first, each behind a row that parts it from the one before. -/
def laterRows (margin : Nat) : List Excerpt → List String
  | [] => []
  | excerpt :: excerpts =>
    (blanks (margin + 2) ++ "│") :: excerptRows margin false excerpt ++ laterRows margin excerpts

end Layout

namespace Report

/-- The width of the largest number of a line with a label. -/
def margin (report : Report) : Nat :=
  (toString ((report.excerpts.flatMap Layout.lineNumbers).foldl max 0)).length

/-- The rows of a report. -/
def rows (report : Report) : List String :=
  report.title ::
    match report.excerpts, report.help? with
    | first :: excerpts, some help =>
      let margin := report.margin
      Layout.excerptRows margin true first ++ Layout.laterRows margin excerpts ++
        [Layout.blanks (margin + 2) ++ "│ ",
         Layout.blanks (margin + 2) ++ "│ Help: " ++ help,
         String.ofList (List.replicate (margin + 2) '─') ++ "╯"]
    | _, _ => []

/-- A report as text. -/
def render (report : Report) : String :=
  String.join (report.rows.map (· ++ "\n"))

end Report

end SelectionMerge
