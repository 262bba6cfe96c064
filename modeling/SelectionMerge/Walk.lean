import SelectionMerge.Document
import SelectionMerge.Schema

/-!
# Walks

A walk visits every node of the operations and fragment definitions of a document, in the
order of the text: it enters a node, walks what is nested in it, and leaves it. Fields come
with the types that the schema gives them. A name that the schema does not know gives no
type, and the walk goes on; spreads are not followed. The visitor acts in any monad, so that
it may stop the walk at any event.
-/

namespace SelectionMerge
set_option autoImplicit false

/-- A node of a document, with what the walk knows of its types. -/
inductive Visit where
  | operation (operation : Operation)
  | fragment (fragment : Fragment)
  | inline (condition? : Option Name) (selections : List Selection)
  | spread (fragment : Name)
  /-- A field, its sub-selections, its output type and the type it is selected on. -/
  | field (field : Field) (selections : List Selection) (type? : Option FieldType)
      (parent? : Option TypeDefinition)

/-- What is done on entering and on leaving a node. -/
structure Visitor (m : Type → Type) where
  enter : Visit → m Unit
  leave : Visit → m Unit

/-- The type that the selections of an inline fragment are selected on. -/
def Schema.inlineType? (schema : Schema) (parent? : Option TypeDefinition) :
    Option Name → Option TypeDefinition
  | some condition => schema.type? condition
  | none => parent?

namespace Visitor

variable {m : Type → Type} [Monad m]

/-- Walks what is nested in a node between entering and leaving it. -/
def around (visitor : Visitor m) (visit : Visit) (nested : m Unit) : m Unit := do
  visitor.enter visit
  nested
  visitor.leave visit

mutual

/-- Walks one selection on the type `parent?`. -/
def walkSelection (visitor : Visitor m) (schema : Schema) (parent? : Option TypeDefinition) :
    Selection → m Unit
  | .field field selections =>
    let type? := schema.fieldType? parent? field.name
    visitor.around (.field field selections type? parent?)
      (walkSelections visitor schema (type?.map FieldType.definition) selections)
  | .inline condition? selections =>
    visitor.around (.inline condition? selections)
      (walkSelections visitor schema (schema.inlineType? parent? condition?) selections)
  | .spread fragment => visitor.around (.spread fragment) (pure ())

/-- Walks a selection set on the type `parent?`. -/
def walkSelections (visitor : Visitor m) (schema : Schema) (parent? : Option TypeDefinition) :
    List Selection → m Unit
  | [] => pure ()
  | selection :: selections => do
    walkSelection visitor schema parent? selection
    walkSelections visitor schema parent? selections

end

/-- Walks one definition. Definitions of types are passed over. -/
def walkDefinition (visitor : Visitor m) (schema : Schema) : Definition → m Unit
  | .operation operation =>
    visitor.around (.operation operation)
      (visitor.walkSelections schema (schema.root? operation.kind) operation.selections)
  | .fragment fragment =>
    visitor.around (.fragment fragment)
      (visitor.walkSelections schema (schema.type? fragment.condition) fragment.selections)
  | .typeSystem _ => pure ()

/-- Walks the definitions of a document in order. -/
def walk (visitor : Visitor m) (schema : Schema) (definitions : List Definition) : m Unit :=
  definitions.forM (visitor.walkDefinition schema)

end Visitor

end SelectionMerge
