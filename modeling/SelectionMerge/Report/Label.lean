import SelectionMerge.Merge.Conflict
import SelectionMerge.Ordered
import SelectionMerge.Source

/-!
# Labels

A report shows a conflict's two fields in their files, each under a label. Labels count
characters where spans count bytes: a span can be shown if its file's text is known and both
its ends lie between two characters of it. Labels are shown by path. If several files have
one path, the text of the last of them stands for the path.
-/

namespace SelectionMerge
set_option autoImplicit false

/-- A text for the characters `start` to `stop` of the file at a path. -/
structure Label where
  path : String
  start : Nat
  stop : Nat
  text : String
  deriving DecidableEq, Repr

/-- The path of a span and the characters it covers, if it can be shown. -/
def SourceMap.charSpan? (sources : SourceMap) (span : Span) : Option (String × Nat × Nat) := do
  let source ← sources.file? span.file
  let start ← charsBefore? source.text span.start
  let stop ← charsBefore? source.text span.stop
  return (source.path, start, stop)

/-- What stands for the path of a report that cannot be placed in any file. -/
def noSourceFile : String :=
  "(no source file)"

/-- The text that is shown for a path. -/
def SourceMap.shownText (sources : SourceMap) (path : String) : List Char :=
  if path = noSourceFile then []
  else ((sources.reverse.find? fun entry => entry.2.path == path).map fun entry =>
    entry.2.text).getD []

/-- The label under a field of a conflict, if it can be shown. -/
def ConflictingField.shown? (sources : SourceMap) (reason : ConflictReason)
    (conflicting : ConflictingField) : Option Label := do
  let (path, start, stop) ← sources.charSpan? (← conflicting.field.location?)
  return ⟨path, start, stop, conflicting.label reason⟩

namespace Conflict

/-- The labels of a conflict, that of the first field first. -/
def labels (sources : SourceMap) (conflict : Conflict) : List Label :=
  [conflict.first, conflict.second].filterMap (ConflictingField.shown? sources conflict.reason)

/-- The path and character where a report is placed: at the second field. -/
def mainPlace (sources : SourceMap) (conflict : Conflict) : String × Nat :=
  match conflict.location?.bind sources.charSpan? with
  | some (path, start, _) => (path, start)
  | none => (noSourceFile, 0)

/-- Line and column of the second field. -/
def mainPosition? (sources : SourceMap) (conflict : Conflict) : Option Position :=
  conflict.location?.bind sources.position?

end Conflict

/-- An error as it stands in a response. -/
structure ResponseError where
  message : String
  locations : List Position
  responseKey : String
  reason : String
  deriving DecidableEq, Repr

/-- A conflict as an error of the response, at the positions of both fields as far as they
are known. -/
def Conflict.responseError (sources : SourceMap) (conflict : Conflict) : ResponseError where
  message := conflict.message
  locations := [conflict.first, conflict.second].filterMap fun conflicting =>
    conflicting.field.location?.bind sources.position?
  responseKey := conflict.responseKey.text
  reason := conflict.reason.tag

end SelectionMerge
