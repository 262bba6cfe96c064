import SelectionMerge.Merge.Conflict
import SelectionMerge.Selection.Graph

/-!
# The rule for a pair of fields

Whether two fields under one response key conflict, and why. Fields selected on two
different object types are never in one response object and do not conflict. Otherwise the
first reason that applies counts; a reason that needs a type is passed over where a type is
unknown.
-/

namespace SelectionMerge
set_option autoImplicit false

namespace SelectedField

/-- Whether the fields are selected on two different object types. -/
def neverTogether (a b : SelectedField) : Bool :=
  match a.objectParent?, b.objectParent? with
  | some p, some q => p != q
  | _, _ => false

/-- Whether one field is a scalar and the other an enum. -/
def leafKindsDiffer (a b : SelectedField) : Bool :=
  match a.type?, b.type? with
  | some s, some t =>
    s.definition.isLeaf && t.definition.isLeaf && s.definition.isScalar != t.definition.isScalar
  | _, _ => false

/-- Whether the named types inside the fields' types are known and differ. -/
def namedTypesDiffer (a b : SelectedField) : Bool :=
  match a.type?, b.type? with
  | some s, some t => s.type.innerName != t.type.innerName
  | _, _ => false

/-- The reason for which two fields under one response key conflict, if they do. -/
def conflict? (a b : SelectedField) : Option ConflictReason :=
  if neverTogether a b then none
  else if leafKindsDiffer a b then some .leafKindMismatch
  else if a.field.name != b.field.name then some .differentFieldName
  else if namedTypesDiffer a b then some .typeMismatch
  else if a.call.arguments != b.call.arguments then some .argumentMismatch
  else none

/-- The field as it stands in a conflict. -/
def conflicting (selected : SelectedField) : ConflictingField :=
  ⟨selected.field, selected.type?.map FieldType.type⟩

end SelectedField

/-- A conflict that a check found, by the numbers of its fields, the smaller one first. -/
structure Finding where
  first : FieldId
  second : FieldId
  reason : ConflictReason
  deriving DecidableEq, Repr

namespace Finding

/-- Findings are ordered by their first fields, then by their second ones. -/
def before (a b : Finding) : Bool :=
  a.first < b.first || (a.first == b.first && a.second < b.second)

/-- The conflict that a finding stands for, with the fields numbered as in `fields`. -/
def conflict? (fields : Array SelectedField) (finding : Finding) : Option Conflict := do
  let first ← fields[finding.first]?
  let second ← fields[finding.second]?
  return ⟨first.responseKey, finding.reason, first.conflicting, second.conflicting⟩

end Finding

end SelectionMerge
