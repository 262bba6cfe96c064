import SelectionMerge.Schema.Types
import SelectionMerge.Schema.Introspection

/-!
# Schemas

A schema is a list of type definitions, no two of one name, and the root types of its
operations. `Schema.field?` looks a field up on a type, the fields that every schema has
for introspection included.
-/

namespace SelectionMerge
set_option autoImplicit false

/-- The types of a service and where its operations start. -/
structure Schema where
  types : List TypeDefinition
  roots : RootTypes
  deriving DecidableEq

/-- A field's output type with the definition of the named type inside it. -/
structure FieldType where
  type : TypeRef
  definition : TypeDefinition
  deriving DecidableEq

namespace Schema

/-- The type of that name. -/
def type? (schema : Schema) (name : Name) : Option TypeDefinition :=
  schema.types.find? fun type => type.name == name

/-- The name of the type that operations of this kind start from. -/
def rootName? (schema : Schema) (kind : OperationKind) : Option Name :=
  (schema.roots.find? fun root => root.1 == kind).map Prod.snd

/-- The type that operations of this kind start from, if the schema names and defines one. -/
def root? (schema : Schema) (kind : OperationKind) : Option TypeDefinition :=
  (schema.rootName? kind).bind schema.type?

/-- The field of that name that can be selected on `parent`. A field that the type defines
goes before the ones for introspection: `__typename` on every composite type, and `__schema`
and `__type` on the query root. -/
def field? (schema : Schema) (parent : TypeDefinition) (name : Name) : Option FieldDefinition :=
  match parent.fields.find? fun field => field.name == name with
  | some field => some field
  | none =>
    if parent.isComposite && name == Introspection.typename.name then
      some Introspection.typename
    else if schema.rootName? .query == some parent.name then
      Introspection.rootFields.find? fun field => field.name == name
    else none

/-- The output type of a field selected on `parent`, if the parent is known, has the field,
and the schema defines the named type inside the field's type. -/
def fieldType? (schema : Schema) (parent : Option TypeDefinition) (name : Name) :
    Option FieldType := do
  let parent ← parent
  let field ← schema.field? parent name
  let definition ← schema.type? field.type.innerName
  return ⟨field.type, definition⟩

end Schema

end SelectionMerge
