import SelectionMerge.Document
import SelectionMerge.Grammar.Parser

/-!
# The grammar of operations and fragments

Reads values, types, selection sets, operations and fragment definitions. Directives and
variable definitions are read and dropped. Selection sets, lists, objects and list types may
stand in each other up to a limit, which also bounds the recursion here.
-/

namespace SelectionMerge.Grammar
set_option autoImplicit false

open SelectionMerge.Parser

/-- How deep selection sets, values and types may stand in each other. -/
def nestingLimit : Nat :=
  500

/-- A value; a constant one holds no variables. -/
def value (constant : Bool) : Nat → Parser Value
  | 0 => throw .nestedTooDeep
  | depth + 1 => do
    match ← peek with
    | some (.int text) =>
      advance
      return .int text
    | some (.float text) =>
      advance
      return .float text
    | some (.string text) =>
      advance
      return .string text
    | some (.name name) =>
      advance
      return match name.text with
        | "null" => .null
        | "true" => .boolean true
        | "false" => .boolean false
        | _ => .enum name
    | some (.mark '$') =>
      if constant then unexpected
      advance
      return .variableRef (← name)
    | some (.mark '[') =>
      advance
      if ← accept (.mark ']') then return .list []
      return .list (← itemsUntil (.mark ']') (value constant depth) (← get).rest.length)
    | some (.mark '\x7b') =>
      advance
      if ← accept (.mark '\x7d') then return .object []
      return .object (← itemsUntil (.mark '\x7d')
        (do
          let fieldName ← name
          expect (.mark ':')
          return (fieldName, ← value constant depth))
        (← get).rest.length)
    | _ => unexpected

/-- An argument. -/
def argument (constant : Bool) (depth : Nat) : Parser Argument := do
  let argumentName ← name
  expect (.mark ':')
  return ⟨argumentName, ← value constant (depth + 1)⟩

/-- Arguments in parentheses, if there are any. -/
def arguments (constant : Bool) (depth : Nat) : Parser (List Argument) :=
  optionalBetween (.mark '(') (.mark ')') (argument constant depth)

/-- Directives, dropped but for whether there were any. -/
def directives (constant : Bool) (depth : Nat) : Parser Bool := do
  let read ← many (.mark '@') (do
    expect (.mark '@')
    let _ ← name
    arguments constant depth)
  return !read.isEmpty

/-- A reference to a type. -/
def typeRef : Nat → Parser TypeRef
  | 0 => throw .nestedTooDeep
  | depth + 1 => do
    if ← accept (.mark '[') then
      let item ← typeRef depth
      expect (.mark ']')
      return .list item (← accept (.mark '!'))
    else
      let typeName ← name
      return .named typeName (← accept (.mark '!'))

/-- A field of file `file`, whose sub-selections `nested` reads. -/
def field (file : FileId) (depth : Nat) (nested : Parser (List Selection)) : Parser Selection := do
  let start := ((← get).rest.head?.map Token.start).getD 0
  let first ← name
  let (alias?, fieldName) ←
    if ← accept (.mark ':') then pure (some first, ← name) else pure (none, first)
  let arguments ← arguments false depth
  let _ ← directives false depth
  let selections ← if ← isNext (.mark '\x7b') then nested else pure []
  return .field ⟨alias?, fieldName, arguments, some ⟨file, start, (← get).stop⟩⟩ selections

/-- A spread or inline fragment, whose selections `nested` reads. -/
def spread (depth : Nat) (nested : Parser (List Selection)) : Parser Selection := do
  expect .ellipsis
  if ← acceptWord "on" then
    let condition ← name
    let _ ← directives false depth
    return .inline (some condition) (← nested)
  match ← peek with
  | some (.name fragment) =>
    advance
    let _ ← directives false depth
    return .spread fragment
  | _ =>
    let _ ← directives false depth
    return .inline none (← nested)

/-- A selection set of file `file`. -/
def selectionSet (file : FileId) : Nat → Parser (List Selection)
  | 0 => throw .nestedTooDeep
  | depth + 1 =>
    between (.mark '\x7b') (.mark '\x7d') (do
      if ← isNext .ellipsis then spread depth (selectionSet file depth)
      else field file depth (selectionSet file depth))

/-- A variable definition, dropped. -/
def variableDefinition : Parser Unit := do
  expect (.mark '$')
  let _ ← name
  expect (.mark ':')
  let _ ← typeRef (nestingLimit + 1)
  if ← accept (.mark '=') then
    let _ ← value true (nestingLimit + 1)
  let _ ← directives true nestingLimit

/-- An operation of file `file`. -/
def operation (file : FileId) (kind : OperationKind) : Parser Operation := do
  let name? ← match ← peek with
    | some (.name operationName) => do
      advance
      pure (some operationName)
    | _ => pure none
  let _ ← optionalBetween (.mark '(') (.mark ')') variableDefinition
  let _ ← directives false nestingLimit
  return ⟨kind, name?, ← selectionSet file nestingLimit⟩

/-- A fragment definition of file `file`, from its name on. -/
def fragment (file : FileId) : Parser Fragment := do
  let fragmentName ← name
  if fragmentName.text == "on" then unexpected
  expectWord "on"
  let condition ← name
  let _ ← directives false nestingLimit
  return ⟨fragmentName, condition, ← selectionSet file nestingLimit⟩

end SelectionMerge.Grammar
