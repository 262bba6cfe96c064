import SelectionMerge.Schema.Types
import SelectionMerge.Source

/-!
# Documents

The tree of an executable document: operations and fragment definitions with their
selections, argument values included. Directives and variable definitions have no part in
merging fields and are not kept. Definitions of types may stand between the others; they are
kept for building schemas.
-/

namespace SelectionMerge
set_option autoImplicit false

/-- An argument's value. Numbers keep the text they were written with. -/
inductive Value where
  | null
  | boolean (value : Bool)
  | int (text : String)
  | float (text : String)
  | string (text : String)
  | enum (name : Name)
  | variableRef (name : Name)
  | list (items : List Value)
  | object (fields : List (Name × Value))

/-- A named value passed to a field. -/
structure Argument where
  name : Name
  value : Value

/-- A selected field without its sub-selections. -/
structure Field where
  alias? : Option Name
  name : Name
  arguments : List Argument
  location? : Option Span

/-- The name under which a field stands in the response: its alias, or else its own name. -/
def Field.responseKey (field : Field) : Name :=
  field.alias?.getD field.name

/-- An item of a selection set. A field without sub-selections has an empty list of them. -/
inductive Selection where
  | field (field : Field) (selections : List Selection)
  | inline (condition? : Option Name) (selections : List Selection)
  | spread (fragment : Name)

/-- An operation. -/
structure Operation where
  kind : OperationKind
  name? : Option Name
  selections : List Selection

/-- A fragment definition. -/
structure Fragment where
  name : Name
  condition : Name
  selections : List Selection

/-- A definition of a document. -/
inductive Definition where
  | operation (operation : Operation)
  | fragment (fragment : Fragment)
  | typeSystem (definition : TypeSystemDefinition)

/-- Definitions with the files they were read from. `files` counts the texts read so far: it
is the number of the next file. A text that was held back is not among the sources. -/
structure Document where
  definitions : List Definition
  sources : SourceMap
  files : FileId

/-- The document without definitions. -/
def Document.empty : Document :=
  ⟨[], [], 0⟩

end SelectionMerge
