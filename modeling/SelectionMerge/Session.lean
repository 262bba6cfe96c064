import SelectionMerge.Merge.Check
import SelectionMerge.Schema.Build

/-!
# Sessions

A document is put together from parts: texts, and definitions that come from no text. A
session holds a schema and a document and changes them step by step. The source map keeps
what it was given, also when the definitions read from it are gone. A step that fails
changes nothing.
-/

namespace SelectionMerge
set_option autoImplicit false

/-- A part of a document. -/
inductive Part where
  | definitions (definitions : List Definition)
  /-- A text under a path. The source map shows `shown?` in its place, or nothing at all if
  the source is held back. -/
  | text (path text : String) (shown? : Option String) (heldBack : Bool)

/-- Why a step fails. -/
inductive StepError where
  | malformed (error : SyntaxError)
  | schema (error : SchemaError)
  | noSuchDefinition
  deriving DecidableEq

namespace Document

/-- Adds a part behind the definitions so far. -/
def add (document : Document) : Part → Except SyntaxError Document
  | .definitions definitions =>
    .ok { document with definitions := document.definitions ++ definitions }
  | .text path text shown? heldBack => do
    let definitions ← Definition.parseAll document.files text
    let source := (document.files, ⟨path, (shown?.getD text).toList⟩)
    return {
      definitions := document.definitions ++ definitions
      sources := if heldBack then document.sources else document.sources ++ [source]
      files := document.files + 1 }

/-- The document that parts make up. -/
def ofParts (parts : List Part) : Except SyntaxError Document :=
  parts.foldlM add empty

/-- Removes the definition at an index. -/
def remove? (document : Document) (index : Nat) : Option Document :=
  if index < document.definitions.length then
    some { document with definitions := document.definitions.eraseIdx index }
  else none

/-- Moves the definition at an index: removes it and puts it at another index of the rest. -/
def move? (document : Document) (source target : Nat) : Option Document := do
  let definition ← document.definitions[source]?
  let rest := document.definitions.eraseIdx source
  if target ≤ rest.length then
    some { document with definitions := rest.insertIdx target definition }
  else none

end Document

/-- A change to a session. -/
inductive Step where
  | add (part : Part)
  | remove (index : Nat)
  | move (source target : Nat)
  | schema (text : String)

/-- A schema and a document. -/
structure Session where
  schema : Schema
  document : Document

namespace Session

/-- The session after a step. -/
def apply (session : Session) : Step → Except StepError Session
  | .add part =>
    match session.document.add part with
    | .ok document => .ok { session with document }
    | .error error => .error (.malformed error)
  | .remove index =>
    match session.document.remove? index with
    | some document => .ok { session with document }
    | none => .error .noSuchDefinition
  | .move source target =>
    match session.document.move? source target with
    | some document => .ok { session with document }
    | none => .error .noSuchDefinition
  | .schema text =>
    match Schema.parse text with
    | .ok schema => .ok { session with schema }
    | .error error => .error (.schema error)

/-- The conflicts of the document. -/
def conflicts (session : Session) : Except Defect (List Conflict) :=
  validate session.schema session.document.definitions

end Session

end SelectionMerge
