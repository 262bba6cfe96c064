import SelectionMerge.Name

/-!
# Types

References to types, as they stand behind a field's name, and the definitions that a schema
collects. A list or non-null mark belongs to the reference, so that no reference can mark one
place non-null twice.
-/

namespace SelectionMerge
set_option autoImplicit false

/-- The kinds of operation. -/
inductive OperationKind where
  | query
  | mutation
  | subscription
  deriving DecidableEq, Repr

/-- The keyword that opens an operation of this kind. -/
def OperationKind.keyword : OperationKind → String
  | .query => "query"
  | .mutation => "mutation"
  | .subscription => "subscription"

/-- A reference to a type: a name or a list of a further type, either of them maybe non-null. -/
inductive TypeRef where
  | named (name : Name) (nonNull : Bool)
  | list (item : TypeRef) (nonNull : Bool)
  deriving DecidableEq

namespace TypeRef

/-- The named type inside all lists. -/
def innerName : TypeRef → Name
  | .named name _ => name
  | .list item _ => item.innerName

/-- The mark that ends a non-null reference. -/
def bang (nonNull : Bool) : String :=
  if nonNull then "!" else ""

/-- A reference as it is written: `[Int!]!`. -/
def text : TypeRef → String
  | .named name nonNull => name.text ++ bang nonNull
  | .list item nonNull => "[" ++ item.text ++ "]" ++ bang nonNull

end TypeRef

/-- A field that a type defines. -/
structure FieldDefinition where
  name : Name
  type : TypeRef
  deriving DecidableEq

/-- What a type definition says of its type. -/
inductive TypeBody where
  | scalar
  | object (interfaces : List Name) (fields : List FieldDefinition)
  | interface (interfaces : List Name) (fields : List FieldDefinition)
  | union (members : List Name)
  | enum (values : List Name)
  | inputObject (fields : List FieldDefinition)
  deriving DecidableEq

/-- A named type. -/
structure TypeDefinition where
  name : Name
  body : TypeBody
  deriving DecidableEq

namespace TypeDefinition

/-- Whether the type is an object type: one whose fields a response object can have. -/
def isObject (type : TypeDefinition) : Bool :=
  match type.body with
  | .object .. => true
  | _ => false

/-- Whether the type is a scalar. -/
def isScalar (type : TypeDefinition) : Bool :=
  match type.body with
  | .scalar => true
  | _ => false

/-- Whether values of the type have no fields: it is a scalar or an enum. -/
def isLeaf (type : TypeDefinition) : Bool :=
  match type.body with
  | .scalar => true
  | .enum _ => true
  | _ => false

/-- Whether `__typename` can be selected on the type: it is an object, interface or union. -/
def isComposite (type : TypeDefinition) : Bool :=
  match type.body with
  | .object .. => true
  | .interface .. => true
  | .union _ => true
  | _ => false

/-- The output fields that the type defines. -/
def fields (type : TypeDefinition) : List FieldDefinition :=
  match type.body with
  | .object _ fields => fields
  | .interface _ fields => fields
  | _ => []

end TypeDefinition

/-- The root types that a schema definition or extension names. -/
abbrev RootTypes := List (OperationKind × Name)

/-- A definition or extension of a type, of the schema, or of a directive. -/
inductive TypeSystemDefinition where
  | schema (roots : RootTypes)
  | schemaExtension (roots : RootTypes)
  | directive (name : Name)
  | type (type : TypeDefinition)
  | typeExtension (type : TypeDefinition)
  deriving DecidableEq

end SelectionMerge
