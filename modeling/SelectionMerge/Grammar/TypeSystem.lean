import SelectionMerge.Grammar.Executable

/-!
# The grammar of type systems

Reads definitions and extensions of types, of the schema and of directives. Descriptions,
default values and arguments of fields are read and dropped. An extension has to add
something.
-/

namespace SelectionMerge.Grammar
set_option autoImplicit false

open SelectionMerge.Parser

/-- A description, dropped. -/
def description : Parser Unit := do
  match ← peek with
  | some (.string _) => advance
  | _ => return

/-- The definition of an argument or of a field of an input object. -/
def inputValue : Parser FieldDefinition := do
  description
  let valueName ← name
  expect (.mark ':')
  let type ← typeRef (nestingLimit + 1)
  if ← accept (.mark '=') then
    let _ ← value true (nestingLimit + 1)
  let _ ← directives true nestingLimit
  return ⟨valueName, type⟩

/-- The definition of an output field. -/
def fieldDefinition : Parser FieldDefinition := do
  description
  let fieldName ← name
  let _ ← optionalBetween (.mark '(') (.mark ')') inputValue
  expect (.mark ':')
  let type ← typeRef (nestingLimit + 1)
  let _ ← directives true nestingLimit
  return ⟨fieldName, type⟩

/-- The definition of an enum value. -/
def enumValue : Parser Name := do
  description
  let valueName ← name
  if ["true", "false", "null"].contains valueName.text then unexpected
  let _ ← directives true nestingLimit
  return valueName

/-- The keyword of a kind of operations. -/
def rootKind : Parser OperationKind := do
  if ← acceptWord "query" then return .query
  if ← acceptWord "mutation" then return .mutation
  if ← acceptWord "subscription" then return .subscription
  unexpected

/-- A root type of a schema definition. -/
def rootType : Parser (OperationKind × Name) := do
  let kind ← rootKind
  expect (.mark ':')
  return (kind, ← name)

/-- Items in braces, if there are any. -/
def optionalBraces {α : Type} (item : Parser α) : Parser (List α) :=
  optionalBetween (.mark '\x7b') (.mark '\x7d') item

/-- The interfaces that a type implements. -/
def interfaces : Parser (List Name) := do
  if ← acceptWord "implements" then separated (.mark '&') name else return []

/-- The members of a union. -/
def members : Parser (List Name) := do
  if ← accept (.mark '=') then separated (.mark '|') name else return []

/-- A definition or extension that has directives or anything else; an extension needs it. -/
def unlessBare (isExtension bare : Bool) : Parser Unit := do
  if isExtension && bare then unexpected

/-- The definition or extension of a type, from behind its keyword. -/
def typeDefinition (isExtension : Bool) (keyword : String) : Parser TypeDefinition := do
  let typeName ← name
  match keyword with
  | "scalar" =>
    let directed ← directives true nestingLimit
    unlessBare isExtension !directed
    return ⟨typeName, .scalar⟩
  | "type" | "interface" =>
    let interfaces ← interfaces
    let directed ← directives true nestingLimit
    let fields ← optionalBraces fieldDefinition
    unlessBare isExtension (interfaces.isEmpty && !directed && fields.isEmpty)
    return ⟨typeName,
      if keyword == "type" then .object interfaces fields else .interface interfaces fields⟩
  | "union" =>
    let directed ← directives true nestingLimit
    let members ← members
    unlessBare isExtension (!directed && members.isEmpty)
    return ⟨typeName, .union members⟩
  | "enum" =>
    let directed ← directives true nestingLimit
    let values ← optionalBraces enumValue
    unlessBare isExtension (!directed && values.isEmpty)
    return ⟨typeName, .enum values⟩
  | "input" =>
    let directed ← directives true nestingLimit
    let fields ← optionalBraces inputValue
    unlessBare isExtension (!directed && fields.isEmpty)
    return ⟨typeName, .inputObject fields⟩
  | _ => unexpected

/-- The places where a directive may be declared to stand. -/
def directiveLocations : List String :=
  ["QUERY", "MUTATION", "SUBSCRIPTION", "FIELD", "FRAGMENT_DEFINITION", "FRAGMENT_SPREAD",
   "INLINE_FRAGMENT", "VARIABLE_DEFINITION", "SCHEMA", "SCALAR", "OBJECT", "FIELD_DEFINITION",
   "ARGUMENT_DEFINITION", "INTERFACE", "UNION", "ENUM", "ENUM_VALUE", "INPUT_OBJECT",
   "INPUT_FIELD_DEFINITION"]

/-- A directive's place. -/
def directiveLocation : Parser Unit := do
  let location ← name
  if !directiveLocations.contains location.text then unexpected

/-- The definition of a directive, from behind its keyword. -/
def directiveDefinition : Parser Name := do
  expect (.mark '@')
  let directiveName ← name
  let _ ← optionalBetween (.mark '(') (.mark ')') inputValue
  let _ ← acceptWord "repeatable"
  expectWord "on"
  let _ ← separated (.mark '|') directiveLocation
  return directiveName

/-- The keywords that open the definition of a type. -/
def typeKeywords : List String :=
  ["scalar", "type", "interface", "union", "enum", "input"]

/-- A definition that belongs to a type system, opened by `keyword`. -/
def typeSystemDefinition (keyword : String) : Parser TypeSystemDefinition := do
  if keyword == "schema" then
    let _ ← directives true nestingLimit
    return .schema (← between (.mark '\x7b') (.mark '\x7d') rootType)
  else if keyword == "directive" then return .directive (← directiveDefinition)
  else if typeKeywords.contains keyword then return .type (← typeDefinition false keyword)
  else unexpected

/-- An extension, from behind its keyword. -/
def extension : Parser TypeSystemDefinition := do
  let keyword ← name
  if keyword.text == "schema" then
    let directed ← directives true nestingLimit
    let roots ← optionalBraces rootType
    unlessBare true (!directed && roots.isEmpty)
    return .schemaExtension roots
  else return .typeExtension (← typeDefinition true keyword.text)

/-- A definition of file `file`. Only those of a type system may have a description. -/
def definition (file : FileId) : Parser Definition := do
  match ← peek with
  | some (.mark '\x7b') => return .operation (← operation file .query)
  | some (.string _) =>
    advance
    return .typeSystem (← typeSystemDefinition (← name).text)
  | _ =>
    match (← name).text with
    | "query" => return .operation (← operation file .query)
    | "mutation" => return .operation (← operation file .mutation)
    | "subscription" => return .operation (← operation file .subscription)
    | "fragment" => return .fragment (← fragment file)
    | "extend" => return .typeSystem (← extension)
    | keyword => return .typeSystem (← typeSystemDefinition keyword)

end SelectionMerge.Grammar

namespace SelectionMerge
set_option autoImplicit false

/-- The definitions of a text, their spans in file `file`. -/
def Definition.parseAll (file : FileId) (text : String) : Except SyntaxError (List Definition) :=
  (Grammar.definition file).all text

/-- The type reference that a text is. -/
def TypeRef.parse (text : String) : Except SyntaxError TypeRef :=
  (Grammar.typeRef (Grammar.nestingLimit + 1)).whole text

end SelectionMerge
