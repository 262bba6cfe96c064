import SelectionMerge.Schema.Types

/-!
# Built-in types

The types that every schema has without defining them: five scalars, and the types in which
a schema describes itself. Beside them stand the fields through which a query reaches these
descriptions.
-/

namespace SelectionMerge.Introspection
set_option autoImplicit false

/-- A named type that may be null. -/
def named (name : String) (h : isName name.toList = true := by decide) : TypeRef :=
  .named ⟨name, h⟩ false

/-- A named type that is never null. -/
def required (name : String) (h : isName name.toList = true := by decide) : TypeRef :=
  .named ⟨name, h⟩ true

/-- A list of items that are never null. -/
def listOf (name : String) (nonNull : Bool) (h : isName name.toList = true := by decide) :
    TypeRef :=
  .list (.named ⟨name, h⟩ true) nonNull

/-- A field of a built-in type. -/
def field (name : String) (type : TypeRef) (h : isName name.toList = true := by decide) :
    FieldDefinition :=
  ⟨⟨name, h⟩, type⟩

/-- A built-in scalar. -/
def scalar (name : String) (h : isName name.toList = true := by decide) : TypeDefinition :=
  ⟨⟨name, h⟩, .scalar⟩

/-- A built-in object type. -/
def object (name : String) (fields : List FieldDefinition)
    (h : isName name.toList = true := by decide) : TypeDefinition :=
  ⟨⟨name, h⟩, .object [] fields⟩

/-- A value of a built-in enum. -/
def value (name : String) (h : isName name.toList = true := by decide) : Name :=
  ⟨name, h⟩

/-- A built-in enum. -/
def enum (name : String) (values : List Name) (h : isName name.toList = true := by decide) :
    TypeDefinition :=
  ⟨⟨name, h⟩, .enum values⟩

/-- The scalars `Int`, `Float`, `String`, `Boolean` and `ID`. -/
def scalars : List TypeDefinition :=
  [scalar "Int", scalar "Float", scalar "String", scalar "Boolean", scalar "ID"]

/-- The description of a whole schema. -/
def schemaType : TypeDefinition :=
  object "__Schema"
    [field "description" (named "String"),
     field "types" (listOf "__Type" true),
     field "queryType" (required "__Type"),
     field "mutationType" (named "__Type"),
     field "subscriptionType" (named "__Type"),
     field "directives" (listOf "__Directive" true)]

/-- The description of a type. -/
def typeType : TypeDefinition :=
  object "__Type"
    [field "kind" (required "__TypeKind"),
     field "name" (named "String"),
     field "description" (named "String"),
     field "fields" (listOf "__Field" false),
     field "interfaces" (listOf "__Type" false),
     field "possibleTypes" (listOf "__Type" false),
     field "enumValues" (listOf "__EnumValue" false),
     field "inputFields" (listOf "__InputValue" false),
     field "ofType" (named "__Type"),
     field "specifiedByURL" (named "String")]

/-- The kinds of types. -/
def typeKindType : TypeDefinition :=
  enum "__TypeKind"
    [value "SCALAR", value "OBJECT", value "INTERFACE", value "UNION", value "ENUM",
     value "INPUT_OBJECT", value "LIST", value "NON_NULL"]

/-- The description of an output field. -/
def fieldType : TypeDefinition :=
  object "__Field"
    [field "name" (required "String"),
     field "description" (named "String"),
     field "args" (listOf "__InputValue" true),
     field "type" (required "__Type"),
     field "isDeprecated" (required "Boolean"),
     field "deprecationReason" (named "String")]

/-- The description of an argument or input field. -/
def inputValueType : TypeDefinition :=
  object "__InputValue"
    [field "name" (required "String"),
     field "description" (named "String"),
     field "type" (required "__Type"),
     field "defaultValue" (named "String"),
     field "isDeprecated" (required "Boolean"),
     field "deprecationReason" (named "String")]

/-- The description of an enum value. -/
def enumValueType : TypeDefinition :=
  object "__EnumValue"
    [field "name" (required "String"),
     field "description" (named "String"),
     field "isDeprecated" (required "Boolean"),
     field "deprecationReason" (named "String")]

/-- The description of a directive. -/
def directiveType : TypeDefinition :=
  object "__Directive"
    [field "name" (required "String"),
     field "description" (named "String"),
     field "locations" (listOf "__DirectiveLocation" true),
     field "args" (listOf "__InputValue" true),
     field "isRepeatable" (required "Boolean")]

/-- The places where directives may stand: in operations and fragments, and in type system
definitions. -/
def directiveLocationType : TypeDefinition :=
  enum "__DirectiveLocation"
    [value "QUERY", value "MUTATION", value "SUBSCRIPTION", value "FIELD",
     value "FRAGMENT_DEFINITION", value "FRAGMENT_SPREAD", value "INLINE_FRAGMENT",
     value "VARIABLE_DEFINITION", value "SCHEMA", value "SCALAR", value "OBJECT",
     value "FIELD_DEFINITION", value "ARGUMENT_DEFINITION", value "INTERFACE", value "UNION",
     value "ENUM", value "ENUM_VALUE", value "INPUT_OBJECT", value "INPUT_FIELD_DEFINITION"]

/-- All built-in types. -/
def types : List TypeDefinition :=
  scalars ++
    [schemaType, typeType, typeKindType, fieldType, inputValueType, enumValueType, directiveType,
     directiveLocationType]

/-- The name of the runtime type of an object, on every composite type. -/
def typename : FieldDefinition :=
  field "__typename" (required "String")

/-- The fields of the query root that lead to the description of the schema. -/
def rootFields : List FieldDefinition :=
  [field "__schema" (required "__Schema"), field "__type" (named "__Type")]

end SelectionMerge.Introspection
