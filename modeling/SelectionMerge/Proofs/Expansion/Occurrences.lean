import SelectionMerge.Walk

/-!
# Field selections of a document

The field selections of a document are numbered from zero in the order in which they are
written, a field before its sub-selections. `occurrences` lists them with the types that the
schema gives them, and `Expands` says which of them a selection set has once every fragment
spread is replaced by the definitions of the fragment. It is read off the tree: fragments may
spread each other in circles, be defined several times or not at all.
-/

namespace SelectionMerge
set_option autoImplicit false

/-- A field selection of a document: the field with its sub-selections, its output type and the
type it is selected on, where these are known. -/
structure Occurrence where
  field : Field
  selections : List Selection
  type? : Option FieldType
  parent? : Option TypeDefinition

mutual

/-- The field selections in a selection, itself included, in the order of the document. -/
def Selection.occurrences (schema : Schema) (parent? : Option TypeDefinition) :
    Selection → List Occurrence
  | .field field selections =>
    let type? := schema.fieldType? parent? field.name
    ⟨field, selections, type?, parent?⟩ ::
      occurrencesIn schema (type?.map FieldType.definition) selections
  | .inline condition? selections =>
    occurrencesIn schema (schema.inlineType? parent? condition?) selections
  | .spread _ => []

/-- The field selections in a selection set on the type `parent?`. -/
def occurrencesIn (schema : Schema) (parent? : Option TypeDefinition) :
    List Selection → List Occurrence
  | [] => []
  | selection :: selections =>
    selection.occurrences schema parent? ++ occurrencesIn schema parent? selections

end

mutual

/-- The number of field selections in a selection, itself included. -/
def Selection.fieldCount : Selection → Nat
  | .field _ selections => fieldCount selections + 1
  | .inline _ selections => fieldCount selections
  | .spread _ => 0

/-- The number of field selections in a selection set. -/
def fieldCount : List Selection → Nat
  | [] => 0
  | selection :: selections => selection.fieldCount + fieldCount selections

end

namespace Definition

/-- The selections of an operation or a fragment. -/
def selections : Definition → List Selection
  | .operation o => o.selections
  | .fragment f => f.selections
  | .typeSystem _ => []

/-- The type that the selections of a definition are selected on. -/
def parent? (schema : Schema) : Definition → Option TypeDefinition
  | .operation o => schema.root? o.kind
  | .fragment f => schema.type? f.condition
  | .typeSystem _ => none

end Definition

/-- The field selections of a document. Their places in this list are their numbers. -/
def occurrences (schema : Schema) (definitions : List Definition) : List Occurrence :=
  definitions.flatMap fun definition => occurrencesIn schema (definition.parent? schema) definition.selections

/-- The definitions, each with the number of the first field that stands in it or behind it. -/
def numberedFrom (first : Nat) : List Definition → List (Nat × Definition)
  | [] => []
  | definition :: definitions =>
    (first, definition) :: numberedFrom (first + fieldCount definition.selections) definitions

/-- `Expands definitions first selections field`: the field selection of that number belongs to
the selections, whose first field would be number `first`, when fragments are expanded. -/
inductive Expands (definitions : List Definition) : Nat → List Selection → Nat → Prop where
  | here {first : Nat} {field : Field} {selections later : List Selection} :
    Expands definitions first (.field field selections :: later) first
  | later {first : Nat} {selection : Selection} {later : List Selection} {field : Nat} :
    Expands definitions (first + selection.fieldCount) later field →
      Expands definitions first (selection :: later) field
  | inline {first : Nat} {condition? : Option Name} {selections later : List Selection} {field : Nat} :
    Expands definitions first selections field →
      Expands definitions first (.inline condition? selections :: later) field
  | spread {first start : Nat} {fragment : Fragment} {name : Name} {later : List Selection} {field : Nat} :
    (start, .fragment fragment) ∈ numberedFrom 0 definitions → fragment.name = name →
      Expands definitions start fragment.selections field →
      Expands definitions first (.spread name :: later) field

/-- The field belongs to the definition when fragments are expanded. -/
def ExpandsOperation (definitions : List Definition) (start : Nat) (operation : Operation) (field : Nat) :
    Prop :=
  (start, .operation operation) ∈ numberedFrom 0 definitions ∧
    Expands definitions start operation.selections field

/-- The field belongs to a definition of the fragment when fragments are expanded. -/
def ExpandsFragment (definitions : List Definition) (name : Name) (field : Nat) : Prop :=
  ∃ start fragment, (start, .fragment fragment) ∈ numberedFrom 0 definitions ∧ fragment.name = name ∧
    Expands definitions start fragment.selections field

/-- The field belongs to the sub-selections of the field `above` when fragments are expanded. -/
def ExpandsBelow (schema : Schema) (definitions : List Definition) (above field : Nat) : Prop :=
  ∃ occurrence, (occurrences schema definitions)[above]? = some occurrence ∧
    Expands definitions (above + 1) occurrence.selections field

/-- A property of selection sets holds if it passes from the rest of a set, and from the sets
nested in its first selection, to the set. -/
@[elab_as_elim]
theorem selections_induction {P : List Selection → Prop} (nil : P [])
    (field : ∀ field selections later, P selections → P later → P (.field field selections :: later))
    (inline : ∀ condition? selections later, P selections → P later →
      P (.inline condition? selections :: later))
    (spread : ∀ fragment later, P later → P (.spread fragment :: later)) (selections : List Selection) :
    P selections := by
  refine @Selection.rec_1 (fun selection => ∀ later, P later → P (selection :: later)) P
    ?_ ?_ ?_ nil ?_ selections
  · intro f selections hselections later hlater
    exact field f selections later hselections hlater
  · intro condition? selections hselections later hlater
    exact inline condition? selections later hselections hlater
  · intro fragment later hlater
    exact spread fragment later hlater
  · intro selection later hselection hlater
    exact hselection later hlater

theorem fieldCount_append (first second : List Selection) :
    fieldCount (first ++ second) = fieldCount first + fieldCount second := by
  induction first with
  | nil => simp [fieldCount]
  | cons selection first ih => simp only [List.cons_append, fieldCount, ih, Nat.add_assoc]

theorem occurrencesIn_append (schema : Schema) (parent? : Option TypeDefinition) (first second : List Selection) :
    occurrencesIn schema parent? (first ++ second) =
      occurrencesIn schema parent? first ++ occurrencesIn schema parent? second := by
  induction first with
  | nil => rfl
  | cons selection first ih => simp only [List.cons_append, occurrencesIn, ih, List.append_assoc]

/-- There are as many occurrences as fields are counted. -/
theorem length_occurrencesIn (schema : Schema) (parent? : Option TypeDefinition)
    (selections : List Selection) :
    (occurrencesIn schema parent? selections).length = fieldCount selections := by
  induction selections using selections_induction generalizing parent? with
  | nil => rfl
  | field f selections later ih ih' =>
    simp only [occurrencesIn, Selection.occurrences, fieldCount, Selection.fieldCount, List.length_append,
      List.length_cons, ih, ih']
  | inline condition? selections later ih ih' =>
    simp only [occurrencesIn, Selection.occurrences, fieldCount, Selection.fieldCount, List.length_append,
      ih, ih']
  | spread fragment later ih =>
    simp only [occurrencesIn, Selection.occurrences, fieldCount, Selection.fieldCount, List.length_append,
      List.length_nil, ih]

theorem Selection.length_occurrences (schema : Schema) (parent? : Option TypeDefinition)
    (selection : Selection) : (selection.occurrences schema parent?).length = selection.fieldCount := by
  have hlength := length_occurrencesIn schema parent? [selection]
  simp only [occurrencesIn, SelectionMerge.fieldCount, List.append_nil, Nat.add_zero] at hlength
  exact hlength

end SelectionMerge
