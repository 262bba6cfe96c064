import SelectionMerge.Proofs.Expansion.Levels

/-!
# Neutral inline fragments

An inline fragment without a type condition, or with the name of the type that its selections are on
anyway, changes nothing: what it holds stays at its level and on its type. So selections may be wrapped
into such fragments, at any depth (`Wrapped`), and are reported as before (`neutral_fragments_transparent`).
-/

namespace SelectionMerge
set_option autoImplicit false

/-- An inline fragment among selections on `parent?` that does not restrict their type: it has no condition,
or the type is known and the condition is its name. -/
inductive Neutral (parent? : Option TypeDefinition) : Option Name → Prop where
  | bare : Neutral parent? none
  | named {type : TypeDefinition} : parent? = some type → Neutral parent? (some type.name)

/-- Runs of the selections on the type `parent?`, or of those nested in them, are wrapped into neutral
inline fragments. Fields may be at other places in the text. -/
inductive Wrapped (schema : Schema) : Option TypeDefinition → List Selection → List Selection → Prop where
  | nil {parent? : Option TypeDefinition} : Wrapped schema parent? [] []
  | field {parent? : Option TypeDefinition} {x y : Field} {nested nested' later later' : List Selection} :
    x.Alike y → Wrapped schema ((schema.fieldType? parent? x.name).map FieldType.definition) nested nested' →
      Wrapped schema parent? later later' →
      Wrapped schema parent? (.field x nested :: later) (.field y nested' :: later')
  | inline {parent? : Option TypeDefinition} {condition? : Option Name}
    {nested nested' later later' : List Selection} :
    Wrapped schema (schema.inlineType? parent? condition?) nested nested' → Wrapped schema parent? later later' →
      Wrapped schema parent? (.inline condition? nested :: later) (.inline condition? nested' :: later')
  | spread {parent? : Option TypeDefinition} {name : Name} {later later' : List Selection} :
    Wrapped schema parent? later later' →
      Wrapped schema parent? (.spread name :: later) (.spread name :: later')
  | wrap {parent? : Option TypeDefinition} {condition? : Option Name} {run run' later later' : List Selection} :
    Neutral parent? condition? → Wrapped schema parent? run run' → Wrapped schema parent? later later' →
      Wrapped schema parent? (run ++ later) (.inline condition? run' :: later')

/-- The definitions are the same but for neutral inline fragments in the second one. -/
structure Definition.Wrapped (schema : Schema) (definition definition' : Definition) : Prop where
  heading : definition.SameHeading definition'
  selections : SelectionMerge.Wrapped schema (definition.parent? schema) definition.selections definition'.selections

section Types

variable {schema : Schema} {parent? : Option TypeDefinition}

/-- The type, if it is known, is the one that the schema has under its name. -/
def Schema.Knows (schema : Schema) (parent? : Option TypeDefinition) : Prop :=
  ∀ type, parent? = some type → schema.type? type.name = some type

theorem Schema.knows_type? (schema : Schema) (name : Name) : schema.Knows (schema.type? name) := by
  intro type htype
  rw [Schema.name_of_type? htype]
  exact htype

theorem Schema.knows_fieldType? (schema : Schema) (parent? : Option TypeDefinition) (name : Name) :
    schema.Knows ((schema.fieldType? parent? name).map FieldType.definition) := by
  intro type htype
  obtain ⟨output, houtput, rfl⟩ := Option.map_eq_some_iff.1 htype
  obtain ⟨parent, -, houtput⟩ := Option.bind_eq_some_iff.1 houtput
  obtain ⟨field, -, houtput⟩ := Option.bind_eq_some_iff.1 houtput
  obtain ⟨definition, hdefinition, houtput⟩ := Option.bind_eq_some_iff.1 houtput
  obtain rfl := Option.some.inj houtput
  exact schema.knows_type? _ _ hdefinition

theorem Schema.Knows.inlineType? (h : schema.Knows parent?) (condition? : Option Name) :
    schema.Knows (schema.inlineType? parent? condition?) := by
  cases condition? with
  | none => exact h
  | some condition => exact schema.knows_type? condition

theorem Definition.knows_parent? (schema : Schema) (definition : Definition) :
    schema.Knows (definition.parent? schema) := by
  cases definition with
  | operation operation =>
    intro type htype
    obtain ⟨name, -, htype⟩ := Option.bind_eq_some_iff.1 htype
    exact schema.knows_type? name _ htype
  | fragment fragment => exact schema.knows_type? fragment.condition
  | typeSystem definition => exact nofun

/-- Selections stay on their type within a neutral inline fragment. -/
theorem Neutral.inlineType? {condition? : Option Name} (h : Neutral parent? condition?) (hknows : schema.Knows parent?) :
    schema.inlineType? parent? condition? = parent? := by
  cases h with
  | bare => rfl
  | named htype => exact (hknows _ htype).trans htype.symm

end Types

namespace Wrapped

variable {schema : Schema} {definitions definitions' : List Definition} {parent? : Option TypeDefinition}
variable {selections selections' : List Selection}

theorem fieldCount (h : Wrapped schema parent? selections selections') :
    fieldCount selections = fieldCount selections' := by
  induction h with
  | nil => rfl
  | field _ _ _ ih ih' => simp only [SelectionMerge.fieldCount, Selection.fieldCount, ih, ih']
  | inline _ _ ih ih' => simp only [SelectionMerge.fieldCount, Selection.fieldCount, ih, ih']
  | spread _ ih => simp only [SelectionMerge.fieldCount, Selection.fieldCount, ih]
  | wrap _ _ _ ih ih' => rw [fieldCount_append, SelectionMerge.fieldCount, Selection.fieldCount, ih, ih']

theorem levelSpreads (h : Wrapped schema parent? selections selections') :
    levelSpreads selections = levelSpreads selections' := by
  induction h with
  | nil => rfl
  | field _ _ _ _ ih => simp only [SelectionMerge.levelSpreads, Selection.levelSpreads, ih]
  | inline _ _ ih ih' => simp only [SelectionMerge.levelSpreads, Selection.levelSpreads, ih, ih']
  | spread _ ih => simp only [SelectionMerge.levelSpreads, ih]
  | wrap _ _ _ ih ih' => rw [levelSpreads_append, SelectionMerge.levelSpreads, Selection.levelSpreads, ih, ih']

theorem levelFields (h : Wrapped schema parent? selections selections') (first : Nat) :
    levelFields first selections = levelFields first selections' := by
  induction h generalizing first with
  | nil => rfl
  | field _ hnested _ _ ih =>
    simp only [SelectionMerge.levelFields, Selection.levelFields, Selection.fieldCount, hnested.fieldCount, ih]
  | inline hnested _ ih ih' =>
    simp only [SelectionMerge.levelFields, Selection.levelFields, Selection.fieldCount, hnested.fieldCount, ih, ih']
  | spread _ ih => simp only [SelectionMerge.levelFields, ih]
  | wrap _ hrun _ ih ih' =>
    rw [levelFields_append, SelectionMerge.levelFields, Selection.levelFields, Selection.fieldCount, hrun.fieldCount,
      ih, ih']

theorem sameLevel (h : Wrapped schema parent? selections selections')
    (hnames : definedNames definitions = definedNames definitions') :
    SameLevel definitions definitions' selections selections' where
  fields := h.levelFields
  forth _ hspread hdefined := .spread (h.levelSpreads ▸ hspread) (hnames ▸ hdefined)
  back _ hspread hdefined := .spread (h.levelSpreads ▸ hspread) (hnames ▸ hdefined)

/-- The fields are the same, on the same types, and so are their sub-selections at their levels. -/
theorem occurrences (h : Wrapped schema parent? selections selections') (hknows : schema.Knows parent?)
    (hnames : definedNames definitions = definedNames definitions') :
    List.Forall₂ (Occurrence.SameLevel definitions definitions') (occurrencesIn schema parent? selections)
      (occurrencesIn schema parent? selections') := by
  induction h with
  | nil => exact .nil
  | field hxy hnested _ ih ih' =>
    simp only [occurrencesIn, Selection.occurrences, List.cons_append, ← hxy.name]
    have hbelow := ih (schema.knows_fieldType? _ _)
    exact .cons ⟨⟨hxy, rfl, rfl⟩, hnested.sameLevel hnames⟩ (List.rel_append hbelow (ih' hknows))
  | inline _ _ ih ih' => exact List.rel_append (ih (hknows.inlineType? _)) (ih' hknows)
  | spread _ ih => exact ih hknows
  | wrap hneutral _ _ ih ih' =>
    rw [occurrencesIn_append, occurrencesIn, Selection.occurrences, hneutral.inlineType? hknows]
    exact List.rel_append (ih hknows) (ih' hknows)

end Wrapped

section Documents

variable {schema : Schema} {definitions definitions' : List Definition}

/-- Documents with the same headings define the same fragments. -/
theorem definedNames_eq (h : List.Forall₂ Definition.SameHeading definitions definitions') :
    definedNames definitions = definedNames definitions' := by
  unfold definedNames
  induction h with
  | nil => rfl
  | cons hheading _ ih =>
    rw [List.filterMap_cons, List.filterMap_cons, ih]
    cases hheading with
    | operation => rfl
    | fragment hname => simp only [Definition.fragmentName?, hname]
    | typeSystem => rfl

theorem sameLevels_of_wrapped (h : List.Forall₂ (Definition.Wrapped schema) definitions definitions') :
    SameLevels schema definitions definitions' := by
  have hnames := definedNames_eq (h.imp fun _ _ hwrapped => hwrapped.heading)
  refine h.imp fun definition definition' hwrapped => ?_
  refine ⟨hwrapped.heading, hwrapped.selections.sameLevel hnames, ?_⟩
  rw [← hwrapped.heading.parent?]
  exact hwrapped.selections.occurrences (definition.knows_parent? schema) hnames

end Documents

/-- **Neutral inline fragments are transparent.** Wrap runs of selections of a document, in any selection
sets and at any depth, into inline fragments that have no type condition or name the known type that
encloses the selection set. The check finds the same conflicts between corresponding fields in the same
order, or the same defect stops it. -/
theorem neutral_fragments_transparent {schema : Schema} {definitions definitions' : List Definition}
    (h : List.Forall₂ (Definition.Wrapped schema) definitions definitions') :
    findings schema definitions' = findings schema definitions ∧
    SameOutcome (validate schema definitions) (validate schema definitions') := by
  have hsame := (sameLevels_of_wrapped h).sameExpansions
  exact ⟨hsame.findings, hsame.validate⟩

/-- A query with a conflict of its own, and one below `next` with a field of a fragment. -/
def plainDocument : List Definition :=
  [.operation ⟨.query, none,
    [.field ⟨some ⟨"x", Eq.refl true⟩, ⟨"a", Eq.refl true⟩, [], none⟩ [],
     .field ⟨some ⟨"x", Eq.refl true⟩, ⟨"b", Eq.refl true⟩, [], none⟩ [],
     .field ⟨none, ⟨"next", Eq.refl true⟩, [], none⟩
      [.field ⟨some ⟨"x", Eq.refl true⟩, ⟨"a", Eq.refl true⟩, [], none⟩ [], .spread ⟨"F", Eq.refl true⟩]]⟩,
   .fragment ⟨⟨"F", Eq.refl true⟩, ⟨"Query", Eq.refl true⟩,
    [.field ⟨some ⟨"x", Eq.refl true⟩, ⟨"b", Eq.refl true⟩, [], none⟩ []]⟩]

/-- The same with the first two fields in an inline fragment, the second of them in a further one on
`Query`, and all that stands below `next` in one on `Query`. -/
def wrappedDocument : List Definition :=
  [.operation ⟨.query, none,
    [.inline none
      [.field ⟨some ⟨"x", Eq.refl true⟩, ⟨"a", Eq.refl true⟩, [], none⟩ [],
       .inline (some ⟨"Query", Eq.refl true⟩)
        [.field ⟨some ⟨"x", Eq.refl true⟩, ⟨"b", Eq.refl true⟩, [], none⟩ []]],
     .field ⟨none, ⟨"next", Eq.refl true⟩, [], none⟩
      [.inline (some ⟨"Query", Eq.refl true⟩)
        [.field ⟨some ⟨"x", Eq.refl true⟩, ⟨"a", Eq.refl true⟩, [], none⟩ [], .spread ⟨"F", Eq.refl true⟩]]]⟩,
   .fragment ⟨⟨"F", Eq.refl true⟩, ⟨"Query", Eq.refl true⟩,
    [.field ⟨some ⟨"x", Eq.refl true⟩, ⟨"b", Eq.refl true⟩, [], none⟩ []]⟩]

/-- A whole selection set is wrapped. -/
theorem Wrapped.all {schema : Schema} {parent? : Option TypeDefinition} {condition? : Option Name}
    {selections selections' : List Selection} (h : Neutral parent? condition?)
    (hselections : Wrapped schema parent? selections selections') :
    Wrapped schema parent? selections [.inline condition? selections'] := by
  have hwrapped := Wrapped.wrap h hselections .nil
  rwa [List.append_nil] at hwrapped

/-- The conflicts on the top level and below `next` are reported in both documents. -/
theorem wrapped_reported_like_plain : ∃ conflicts conflicts',
    List.Forall₂ (Definition.Wrapped loopSchema) plainDocument wrappedDocument ∧
    validate loopSchema plainDocument = .ok conflicts ∧ conflicts.length = 2 ∧
    validate loopSchema wrappedDocument = .ok conflicts' ∧ List.Forall₂ Conflict.Alike conflicts conflicts' := by
  have hquery : loopSchema.root? .query = some (loopSchema.types.head (by decide)) := rfl
  have hwrapped : List.Forall₂ (Definition.Wrapped loopSchema) plainDocument wrappedDocument := by
    refine .cons ⟨.operation rfl rfl, ?_⟩ (.cons ⟨.fragment rfl rfl, .field (.refl _) .nil .nil⟩ .nil)
    refine .wrap .bare (.field (.refl _) .nil (.all ?_ (.field (.refl _) .nil .nil))) ?_
    · exact .named hquery
    · refine .field (.refl _) (.all ?_ (.field (.refl _) .nil (.spread .nil))) .nil
      exact .named hquery
  have hlength : (validate loopSchema plainDocument).toOption.map List.length = some 2 := by decide +kernel
  obtain ⟨conflicts, hvalidate, hlength⟩ := exists_validate_eq hlength
  obtain ⟨conflicts', hvalidate', halike⟩ := (neutral_fragments_transparent hwrapped).2.exists_eq_ok hvalidate
  exact ⟨conflicts, conflicts', hwrapped, hvalidate, hlength, hvalidate', halike⟩

end SelectionMerge
