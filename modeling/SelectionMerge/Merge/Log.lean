import SelectionMerge.Merge.Conflict
import SelectionMerge.Selection.Graph

/-!
# The log of a check

A check logs the size of the graph, each root as it comes to it, each conflict as it finds
it, and at its end what its memo was used for. The sizes are for debugging, the rest is a
trace.
-/

namespace SelectionMerge
set_option autoImplicit false

/-- What a check notes on its way. -/
inductive LogEntry where
  | built (roots containers fields : Nat)
  | checking (root : ContainerId)
  | conflict (key : Name) (reason : ConflictReason) (first second : FieldId)
  | memo (entries hits misses groups pairs : Nat)
  deriving DecidableEq

/-- How much of a log is shown. -/
inductive LogLevel where
  | info
  | debug
  | trace
  deriving DecidableEq, Repr

namespace LogEntry

/-- Whether the entry is one of a trace. -/
def isTrace : LogEntry → Bool
  | .built .. | .memo .. => false
  | .checking _ | .conflict .. => true

/-- The entry's line, its level first. -/
def text : LogEntry → String
  | .built roots containers fields =>
    s!"DEBUG field merging: {roots} roots, {containers} selection containers, {fields} fields"
  | .checking root => s!"TRACE checking fields of ContainerId({root})"
  | .conflict key reason first second =>
    "TRACE conflict on `" ++ key.text ++ "`: " ++ reason.text ++
      s!" between fields FieldId({first}) and FieldId({second})"
  | .memo entries hits misses groups pairs =>
    s!"DEBUG field set cache: {entries} entries, {hits} hits, {misses} misses, " ++
      s!"{groups} groups and {pairs} field pairs compared"

end LogEntry

/-- Whether an entry is shown at a level. -/
def LogLevel.shows (level : LogLevel) (entry : LogEntry) : Bool :=
  match level with
  | .info => false
  | .debug => !entry.isTrace
  | .trace => true

end SelectionMerge
