import SelectionMerge.Selection.Graph
import SelectionMerge.Walk

/-!
# Building selection graphs

The graph of a document is built from the events of a walk. The builder keeps a stack of the
containers that are open. An event that needs an open container and finds none is a defect,
and so is a document that ends inside a container; a walk from beginning to end causes
neither, since it leaves every node that it enters.
-/

namespace SelectionMerge
set_option autoImplicit false

/-- A graph in the making, with the containers that are open, the innermost first. -/
structure GraphBuilder where
  graph : SelectionGraph
  opened : List ContainerId

namespace GraphBuilder

/-- The builder before the first event. -/
def start : GraphBuilder :=
  ⟨SelectionGraph.empty, []⟩

/-- The innermost open container. -/
def top (builder : GraphBuilder) (event : String) : Except Defect ContainerId :=
  match builder.opened with
  | top :: _ => .ok top
  | [] => .error (.noOpenContainer event)

/-- Closes the innermost open container. -/
def close (builder : GraphBuilder) (event : String) : Except Defect GraphBuilder :=
  match builder.opened with
  | _ :: outer => .ok { builder with opened := outer }
  | [] => .error (.noOpenContainer event)

/-- Opens a new container that applies at the level of the innermost open one, or is a root
if none is open. -/
def openNew (builder : GraphBuilder) : GraphBuilder :=
  let id := builder.graph.containers.size
  let graph := builder.graph.addContainer
  match builder.opened with
  | top :: _ => ⟨graph.addSpread top id, id :: builder.opened⟩
  | [] => ⟨graph.addRoot id, [id]⟩

/-- Opens the container of a fragment definition, a root if no container is open. -/
def openFragment (builder : GraphBuilder) (name : Name) : GraphBuilder :=
  let (graph, id) := builder.graph.internFragment name
  match builder.opened with
  | _ :: _ => ⟨graph, id :: builder.opened⟩
  | [] => ⟨graph.addRoot id, [id]⟩

/-- Adds a field to the container `top` and opens a new container for its sub-selections,
if it has any. -/
def select (builder : GraphBuilder) (top : ContainerId) (field : Field)
    (selections : List Selection) (type? : Option FieldType) (parent? : Option TypeDefinition) :
    GraphBuilder :=
  if selections.isEmpty then
    ⟨builder.graph.addField top ⟨field, type?, parent?, none⟩, builder.opened⟩
  else
    let id := builder.graph.containers.size
    ⟨builder.graph.addContainer.addField top ⟨field, type?, parent?, some id⟩,
      id :: builder.opened⟩

/-- The builder after entering a node. -/
def enter (builder : GraphBuilder) : Visit → Except Defect GraphBuilder
  | .operation _ => .ok builder.openNew
  | .inline _ _ => .ok builder.openNew
  | .fragment fragment => .ok (builder.openFragment fragment.name)
  | .spread name =>
    (builder.top "fragment spread").map fun top =>
      let (graph, id) := builder.graph.internFragment name
      ⟨graph.addSpread top id, builder.opened⟩
  | .field field selections type? parent? =>
    (builder.top "field").map fun top => builder.select top field selections type? parent?

/-- The builder after leaving a node. -/
def leave (builder : GraphBuilder) : Visit → Except Defect GraphBuilder
  | .operation _ => builder.close "end of operation"
  | .inline _ _ => builder.close "end of inline fragment"
  | .fragment _ => builder.close "end of fragment definition"
  | .spread _ => .ok builder
  | .field _ selections _ _ =>
    if selections.isEmpty then .ok builder else builder.close "end of field"

/-- The graph, once every container that was opened is closed. -/
def finish (builder : GraphBuilder) : Except Defect SelectionGraph :=
  if builder.opened.isEmpty then .ok builder.graph
  else .error (.unclosedContainers builder.opened.length)

/-- The visitor that builds a graph. -/
def visitor : Visitor (StateT GraphBuilder (Except Defect)) where
  enter visit := do set (← (← get).enter visit)
  leave visit := do set (← (← get).leave visit)

end GraphBuilder

/-- The selection graph of a document. -/
def SelectionGraph.ofDocument (schema : Schema) (definitions : List Definition) :
    Except Defect SelectionGraph := do
  let (_, builder) ← (GraphBuilder.visitor.walk schema definitions).run GraphBuilder.start
  builder.finish

end SelectionMerge
