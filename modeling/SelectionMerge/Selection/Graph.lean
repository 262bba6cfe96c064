import SelectionMerge.Defect
import SelectionMerge.Document.Text
import SelectionMerge.Schema
import SelectionMerge.Shape

/-!
# Selection graphs

Every operation, fragment definition, inline fragment and sub-selection of a document is a
container. A container holds the fields selected directly in it, and it spreads to the
containers whose fields apply at its level: inline fragments and named fragments. Fields and
containers are numbered from zero in the order in which a walk comes to them.
-/

namespace SelectionMerge
set_option autoImplicit false

/-- Fields are numbered in the order of the document. -/
abbrev FieldId := Nat

/-- Containers are numbered in the order in which they are first met. -/
abbrev ContainerId := Nat

/-- The fields that stand directly in a selection set, and the containers it spreads to. -/
structure Container where
  fields : List FieldId
  spreads : List ContainerId
  deriving DecidableEq, Repr

/-- The container that nothing has been put into yet. -/
def Container.empty : Container :=
  ⟨[], []⟩

/-- How far a container has come in the search for what it reaches. -/
inductive Mark where
  | unvisited
  /-- On the stack of components, with its own number and the lowest one found from it. -/
  | opened (order lowest : Nat)
  /-- Finished, with the ascending list of the containers it reaches. -/
  | closed (reached : List ContainerId)
  deriving DecidableEq, Repr

/-- The marks of all containers. -/
abbrev Marks := Array Mark

/-- A field selection with the types that the schema gives it, and the container of its
sub-selections. -/
structure SelectedField where
  field : Field
  type? : Option FieldType
  parent? : Option TypeDefinition
  container? : Option ContainerId

namespace SelectedField

/-- The name under which the field stands in the response. -/
def responseKey (selected : SelectedField) : Name :=
  selected.field.responseKey

/-- The name and arguments that are asked for. -/
def call (selected : SelectedField) : FieldCall :=
  selected.field.call

/-- The shape of the field's value, if its type is known. -/
def shape (selected : SelectedField) : Except Defect (Option Shape) :=
  match selected.type? with
  | some type => (Shape.of type.type type.definition).map some
  | none => .ok none

/-- The object type that the field is selected on. A field selected on an interface, a union
or an unknown type has none: it may apply to any object. -/
def objectParent? (selected : SelectedField) : Option Name :=
  match selected.parent? with
  | some parent => if parent.isObject then some parent.name else none
  | none => none

end SelectedField

/-- The containers and fields of a document. `resolution` has a mark for each container, with
which resolving begins. `roots` are those of its operations and fragment definitions in order of
appearance, and `fragments` names those of all fragments that are defined or spread. -/
structure SelectionGraph where
  containers : Array Container
  resolution : Marks
  fields : Array SelectedField
  roots : List ContainerId
  fragments : List (Name × ContainerId)

namespace SelectionGraph

/-- The graph of a document without definitions. -/
def empty : SelectionGraph :=
  ⟨#[], #[], #[], [], []⟩

/-- The container of that number. -/
def container (graph : SelectionGraph) (id : ContainerId) : Container :=
  graph.containers[id]?.getD Container.empty

/-- The container of a field's sub-selections. -/
def nested? (graph : SelectionGraph) (id : FieldId) : Option ContainerId :=
  graph.fields[id]?.bind SelectedField.container?

/-- The container of the fragment of that name. -/
def fragment? (graph : SelectionGraph) (name : Name) : Option ContainerId :=
  (graph.fragments.find? fun entry => entry.1 == name).map Prod.snd

/-- Adds an empty container, whose number is that of the containers so far, and its mark. -/
def addContainer (graph : SelectionGraph) : SelectionGraph :=
  { graph with
    containers := graph.containers.push Container.empty
    resolution := graph.resolution.push .unvisited }

/-- Adds a container for a fragment unless it has one: a fragment spread before its
definition, or never defined, gets a container that the definition fills later, if any. -/
def internFragment (graph : SelectionGraph) (name : Name) : SelectionGraph × ContainerId :=
  match graph.fragment? name with
  | some id => (graph, id)
  | none =>
    ({ graph.addContainer with fragments := graph.fragments ++ [(name, graph.containers.size)] },
      graph.containers.size)

/-- Lists a container as a root, once. -/
def addRoot (graph : SelectionGraph) (id : ContainerId) : SelectionGraph :=
  if id ∈ graph.roots then graph else { graph with roots := graph.roots ++ [id] }

/-- Adds a spread from one container to another. -/
def addSpread (graph : SelectionGraph) (source target : ContainerId) : SelectionGraph :=
  { graph with
    containers := graph.containers.modify source fun c => { c with spreads := c.spreads ++ [target] } }

/-- Adds a field to a container. Its number is that of the fields so far. -/
def addField (graph : SelectionGraph) (id : ContainerId) (selected : SelectedField) :
    SelectionGraph :=
  { graph with
    fields := graph.fields.push selected
    containers := graph.containers.modify id fun c =>
      { c with fields := c.fields ++ [graph.fields.size] } }

end SelectionGraph

end SelectionMerge
