import SelectionMerge.Grammar.TypeSystem
import SelectionMerge.Schema

/-!
# Building schemas

A schema is built from the definitions of a text, read in order after the built-in types. An
extension adds to the type of its name, which has to be of its kind. If it stands before that
type it waits for it; when the type comes, what waits and is of the type's kind is added, and
what is of another kind is dropped. No extension may wait for ever. No two types share a name
and no two members of one type do. Without a schema definition the object types named for the
operations are their roots.
-/

namespace SelectionMerge
set_option autoImplicit false

/-- What keeps definitions from making up a schema. -/
inductive SchemaError where
  | malformed (error : SyntaxError)
  | executableDefinition
  | duplicateType (name : Name)
  | duplicateMember (type member : Name)
  | duplicateDirective (name : Name)
  | undefinedExtended (name : Name)
  | extendedAsOtherKind (name : Name)
  | duplicateSchemaDefinition
  | undefinedSchemaExtended
  | duplicateRoot (kind : OperationKind)
  deriving DecidableEq

/-- The first element that stands in a list for the second time. -/
def firstRepeated? {α : Type} [DecidableEq α] : List α → Option α
  | [] => none
  | a :: as => if a ∈ as then some a else firstRepeated? as

namespace TypeDefinition

/-- The lists of names in which no name may stand twice. -/
def memberLists (type : TypeDefinition) : List (List Name) :=
  match type.body with
  | .scalar => []
  | .object interfaces fields => [interfaces, fields.map FieldDefinition.name]
  | .interface interfaces fields => [interfaces, fields.map FieldDefinition.name]
  | .union members => [members]
  | .enum values => [values]
  | .inputObject fields => [fields.map FieldDefinition.name]

/-- The type, if none of its members stands twice. -/
def checked (type : TypeDefinition) : Except SchemaError TypeDefinition :=
  match type.memberLists.findSome? firstRepeated? with
  | some member => .error (.duplicateMember type.name member)
  | none => .ok type

/-- The type with the members of an extension behind its own, if the extension is of its kind. -/
def append? (type addition : TypeDefinition) : Option TypeDefinition :=
  match type.body, addition.body with
  | .scalar, .scalar => some type
  | .object is fs, .object js gs => some { type with body := .object (is ++ js) (fs ++ gs) }
  | .interface is fs, .interface js gs =>
    some { type with body := .interface (is ++ js) (fs ++ gs) }
  | .union ms, .union ns => some { type with body := .union (ms ++ ns) }
  | .enum vs, .enum ws => some { type with body := .enum (vs ++ ws) }
  | .inputObject fs, .inputObject gs => some { type with body := .inputObject (fs ++ gs) }
  | _, _ => none

/-- The type with an extension that stands behind it. -/
def extend (type addition : TypeDefinition) : Except SchemaError TypeDefinition :=
  match type.append? addition with
  | some extended => .ok extended
  | none => .error (.extendedAsOtherKind type.name)

/-- The type with the extensions that waited for it, as far as they are of its kind. -/
def adopt (type : TypeDefinition) (waiting : List TypeDefinition) : TypeDefinition :=
  waiting.foldl (fun type addition => (type.append? addition).getD type) type

end TypeDefinition

namespace Schema

/-- The type system definitions of a text; nothing else may stand in a schema. -/
def typeSystem : List Definition → Except SchemaError (List TypeSystemDefinition)
  | [] => .ok []
  | .typeSystem definition :: definitions => (typeSystem definitions).map (definition :: ·)
  | _ :: _ => .error .executableDefinition

/-- Adds the members of an extension to the type of its name. -/
def extendType (addition : TypeDefinition) :
    List TypeDefinition → Except SchemaError (List TypeDefinition)
  | [] => .error (.undefinedExtended addition.name)
  | type :: types =>
    if type.name == addition.name then (type.extend addition).map (· :: types)
    else (extendType addition types).map (type :: ·)

/-- The types that were read, and the extensions whose types were not. -/
structure TypesRead where
  types : List TypeDefinition
  waiting : List TypeDefinition

namespace TypesRead

/-- Whether a type of the name was read. -/
def has (read : TypesRead) (name : Name) : Bool :=
  read.types.any (·.name == name)

/-- Reads one definition. -/
def add (read : TypesRead) : TypeSystemDefinition → Except SchemaError TypesRead
  | .type type =>
    if read.has type.name then .error (.duplicateType type.name)
    else
      let (own, others) := read.waiting.partition (·.name == type.name)
      .ok ⟨read.types ++ [type.adopt own], others⟩
  | .typeExtension addition =>
    if read.has addition.name then
      (extendType addition read.types).map fun types => { read with types }
    else .ok { read with waiting := read.waiting ++ [addition] }
  | _ => .ok read

/-- The types, if no extension waits any more and no member stands in a type twice. -/
def finished (read : TypesRead) : Except SchemaError (List TypeDefinition) :=
  match read.waiting with
  | [] => read.types.mapM TypeDefinition.checked
  | addition :: _ => .error (.undefinedExtended addition.name)

end TypesRead

/-- The object types that are named for the operations. -/
def implicitRoots (types : List TypeDefinition) : RootTypes :=
  [(OperationKind.query, "Query"), (.mutation, "Mutation"), (.subscription, "Subscription")].filterMap
    fun (kind, text) =>
      (types.find? fun type => type.isObject && type.name.text == text).map fun type =>
        (kind, type.name)

/-- The root types: those of the one schema definition or else of the types that are named for
the operations, and those of the extensions. -/
def rootTypes (definitions : List TypeSystemDefinition) (types : List TypeDefinition) :
    Except SchemaError RootTypes := do
  let extensions := definitions.filterMap fun
    | .schemaExtension roots => some roots
    | _ => none
  let roots ← match definitions.filterMap fun
    | .schema roots => some roots
    | _ => none with
    | [roots] => pure roots
    | _ :: _ :: _ => throw .duplicateSchemaDefinition
    | [] =>
      let roots := implicitRoots types
      if roots.isEmpty && !extensions.isEmpty then throw .undefinedSchemaExtended
      pure roots
  let roots := roots ++ extensions.flatten
  match firstRepeated? (roots.map Prod.fst) with
  | some kind => throw (.duplicateRoot kind)
  | none => return roots

/-- The schema that definitions make up. -/
def ofDefinitions (definitions : List Definition) : Except SchemaError Schema := do
  let definitions ← typeSystem definitions
  let directives := definitions.filterMap fun
    | .directive name => some name
    | _ => none
  if let some name := firstRepeated? directives then throw (.duplicateDirective name)
  let read ← definitions.foldlM TypesRead.add ⟨Introspection.types, []⟩
  let types ← read.finished
  return ⟨types, ← rootTypes definitions types⟩

/-- The schema that a text defines. -/
def parse (text : String) : Except SchemaError Schema :=
  match Definition.parseAll 0 text with
  | .error error => .error (.malformed error)
  | .ok definitions => ofDefinitions definitions

end Schema

end SelectionMerge
