import SelectionMerge.Document.Text
import SelectionMerge.Shape
import SelectionMerge.Walk

/-!
# Traces of walks

A trace has a line for each event of a walk: blanks for the nodes that are open, a plus on
entering and a minus on leaving, and the node. The visitor that writes it can be told to
fail in place of an event, and to pass over leaving.
-/

namespace SelectionMerge
set_option autoImplicit false

/-- A text, or a question mark for what is not known. -/
def known (text? : Option String) : String :=
  text?.getD "?"

/-- A node in words. A field comes with its call, its type, the type's shape and the type it
is selected on. -/
def Visit.text : Visit → String
  | .operation ⟨kind, name?, _⟩ => kind.keyword ++ " " ++ (name?.map Name.text).getD "-"
  | .fragment ⟨name, condition, _⟩ => "fragment " ++ name.text ++ " on " ++ condition.text
  | .inline condition? _ => "... on " ++ (condition?.map Name.text).getD "-"
  | .spread name => "..." ++ name.text
  | .field selected _ type? parent? =>
    let shape? := type?.map fun type =>
      match Shape.of type.type type.definition with
      | .ok shape => shape.text
      | .error defect => defect.message
    selected.call.text ++ ": " ++ known (type?.map fun type => type.type.text) ++ " = " ++
      known shape? ++ " on " ++ known (parent?.map fun parent => parent.name.text)

/-- How a trace is written. -/
structure TraceOptions where
  /-- The number of the event in whose place the visitor fails. -/
  failAt? : Option Nat
  /-- Whether leaving is passed over. Then nodes do not count as open. -/
  enterOnly : Bool

/-- The lines so far and the number of open nodes. -/
structure Trace where
  lines : Array String
  depth : Nat

namespace Trace

/-- The visitor that writes a trace. -/
abbrev Writer := ExceptT Defect (StateM Trace)

/-- Adds an event unless it is the one to fail at. -/
def record (options : TraceOptions) (depth : Nat) (sign : String) (visit : Visit) :
    Writer Unit := do
  let trace ← get
  if options.failAt? = some trace.lines.size then throw (.noOpenContainer "probe")
  let indent := String.join (List.replicate depth "  ")
  set { trace with lines := trace.lines.push (indent ++ sign ++ visit.text) }

/-- The visitor that writes a trace. -/
def visitor (options : TraceOptions) : Visitor Writer where
  enter visit := do
    record options (← get).depth "+" visit
    if !options.enterOnly then
      modify fun trace => { trace with depth := trace.depth + 1 }
  leave visit := do
    if !options.enterOnly then
      modify fun trace => { trace with depth := trace.depth - 1 }
      record options (← get).depth "-" visit

/-- The trace of a walk, and what stopped it. -/
def ofWalk (options : TraceOptions) (schema : Schema) (definitions : List Definition) :
    List String × Option Defect :=
  let (result, trace) := ((visitor options).walk schema definitions).run.run ⟨#[], 0⟩
  (trace.lines.toList, match result with
    | .ok () => none
    | .error defect => some defect)

end Trace

end SelectionMerge
