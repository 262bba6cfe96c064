import SelectionMerge.Name

/-!
# Defects

A defect is a fault in what the check of field merging is given, or in the check itself, and
not in the query: it ends the check and is never mixed with conflicts.
-/

namespace SelectionMerge
set_option autoImplicit false

/-- What can stop a check. -/
inductive Defect where
  /-- A field's output type is an input object type. -/
  | inputObjectOutput (type : Name)
  /-- An event of a walk needs a container to be open, and none is. -/
  | noOpenContainer (event : String)
  /-- The document ended inside this many containers. -/
  | unclosedContainers (count : Nat)
  /-- Selections were followed deeper than there are sets of fields. -/
  | depthExhausted
  deriving DecidableEq

/-- The defect in words. -/
def Defect.message : Defect → String
  | .inputObjectOutput type =>
    "input object type `" ++ type.text ++ "` cannot be the output type of a field"
  | .noOpenContainer event => "no selection container is open when visiting " ++ event
  | .unclosedContainers count =>
    toString count ++ " selection container(s) left open at the end of the document"
  | .depthExhausted => "selections are nested deeper than there are sets of fields"

end SelectionMerge
