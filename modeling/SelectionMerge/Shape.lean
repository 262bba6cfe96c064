import SelectionMerge.Defect
import SelectionMerge.Schema.Types

/-!
# Shapes of response values

The shape of a field's value says how lists and nulls are nested in it and which scalar or
enum stands at the bottom. All object, interface and union types have one shape: whether
their sub-selections can merge is a question of its own.
-/

namespace SelectionMerge
set_option autoImplicit false

/-- The structure of a response value. -/
inductive Shape where
  | leaf (name : Name)
  | list (item : Shape)
  | nonNull (inner : Shape)
  | composite
  deriving DecidableEq

namespace Shape

/-- Marks a shape as never null if `required` says so. -/
def mark (required : Bool) (shape : Shape) : Shape :=
  if required then .nonNull shape else shape

/-- Puts the lists and non-null marks of a type around the shape of its named type. -/
def wrap (inner : Shape) : TypeRef → Shape
  | .named _ required => mark required inner
  | .list item required => mark required (.list (wrap inner item))

/-- The shape of a named type. An input object type is no output type and has none. -/
def ofDefinition (definition : TypeDefinition) : Except Defect Shape :=
  match definition.body with
  | .scalar | .enum _ => .ok (.leaf definition.name)
  | .object .. | .interface .. | .union _ => .ok .composite
  | .inputObject _ => .error (.inputObjectOutput definition.name)

/-- The shape of a field's output type, whose named type has the given definition. -/
def of (type : TypeRef) (definition : TypeDefinition) : Except Defect Shape :=
  (ofDefinition definition).map fun inner => wrap inner type

/-- Whether a scalar or enum stands at the bottom. -/
def isLeaf : Shape → Bool
  | .leaf _ => true
  | .list item => item.isLeaf
  | .nonNull inner => inner.isLeaf
  | .composite => false

/-- A shape as it is written; three dots in braces stand for any composite type. -/
def text : Shape → String
  | .leaf name => name.text
  | .list item => "[" ++ item.text ++ "]"
  | .nonNull inner => inner.text ++ "!"
  | .composite => "\x7b...\x7d"

end Shape

end SelectionMerge
