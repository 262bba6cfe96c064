import SelectionMerge.Document.Text

/-!
# Conflicts

A conflict is a pair of fields that stand under one response key and cannot be merged into
one value, with the reason why. Reasons have a tag for machines and a text for readers;
conflicts have a message, a hint on what to do, and a label for each of the two fields.
-/

namespace SelectionMerge
set_option autoImplicit false

/-- Why two fields under one response key cannot merge. -/
inductive ConflictReason where
  /-- One has a scalar type and the other an enum type. -/
  | leafKindMismatch
  /-- They are different fields of the schema. -/
  | differentFieldName
  /-- The named types inside their types differ. -/
  | typeMismatch
  /-- They have different arguments. -/
  | argumentMismatch
  deriving DecidableEq, Repr

namespace ConflictReason

/-- The tag that machines read. -/
def tag : ConflictReason → String
  | .leafKindMismatch => "LEAF_KIND_MISMATCH"
  | .differentFieldName => "DIFFERENT_FIELD_NAME"
  | .typeMismatch => "TYPE_MISMATCH"
  | .argumentMismatch => "ARGUMENT_MISMATCH"

/-- The reason in words. -/
def text : ConflictReason → String
  | .leafKindMismatch => "scalar and enum types mixed"
  | .differentFieldName => "different field name"
  | .typeMismatch => "type mismatch"
  | .argumentMismatch => "argument mismatch"

/-- What to know or do about conflicts of this reason. -/
def help : ConflictReason → String
  | .differentFieldName =>
    "Both fields may be present on the schema type, so it's not clear which one should be " ++
      "used to fill the response"
  | .argumentMismatch =>
    "The same field cannot be selected into one response key with different arguments"
  | .leafKindMismatch | .typeMismatch =>
    "Use different aliases to select values of different types"

end ConflictReason

/-- One of the two fields of a conflict, with its output type if that is known. -/
structure ConflictingField where
  field : Field
  type? : Option TypeRef

/-- The label under a field in the report of a conflict. -/
def ConflictingField.label (conflicting : ConflictingField) : ConflictReason → String
  | .differentFieldName =>
    "`" ++ conflicting.field.responseKey.text ++ "` is selected from `" ++
      conflicting.field.name.text ++ "` here"
  | .argumentMismatch =>
    if conflicting.field.arguments.isEmpty then
      "`" ++ conflicting.field.name.text ++ "` is selected without arguments here"
    else
      "`" ++ conflicting.field.name.text ++ "` is selected with arguments `" ++
        ", ".intercalate (conflicting.field.arguments.map Argument.text) ++ "` here"
  | .leafKindMismatch | .typeMismatch =>
    match conflicting.type? with
    | some type =>
      "`" ++ conflicting.field.responseKey.text ++ "` has type `" ++ type.text ++ "` here"
    | none => "`" ++ conflicting.field.responseKey.text ++ "` is selected here"

/-- Two fields that cannot merge; `first` stands first in the document. -/
structure Conflict where
  responseKey : Name
  reason : ConflictReason
  first : ConflictingField
  second : ConflictingField

namespace Conflict

/-- The conflict in words. -/
def message (conflict : Conflict) : String :=
  conflict.reason.text ++ " for response key `" ++ conflict.responseKey.text ++ "`"

/-- Where the conflict is shown first: at its second field. -/
def location? (conflict : Conflict) : Option Span :=
  conflict.second.field.location?

end Conflict

end SelectionMerge
