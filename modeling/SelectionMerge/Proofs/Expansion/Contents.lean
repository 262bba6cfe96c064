import SelectionMerge.Proofs.Expansion.Occurrences

/-!
# Contents and places

`Content` is what a root of a document stands for: one operation, or all definitions of one
fragment; `documentRoots` lists them in the order of the document, a fragment where it is first
defined. `PlacedAt` says that selections stand in a document from a certain number on. It passes
from a selection set to the rest of it and to the sets nested in it, so that a number and a
selection set found on the way down a tree still speak of the same fields. `expands_induction` goes
by the selections of a set, each at its number.
-/

namespace SelectionMerge
set_option autoImplicit false

/-- One selection set, whose first field has the given number, or all definitions of a fragment. -/
inductive Content where
  | selections (first : Nat) (selections : List Selection)
  | fragment (name : Name)

/-- The field belongs to the content when fragments are expanded. -/
def Content.Expands (definitions : List Definition) (content : Content) (field : Nat) : Prop :=
  match content with
  | .selections start nested => SelectionMerge.Expands definitions start nested field
  | .fragment name => ExpandsFragment definitions name field

/-- What a definition is a root for, if its first field has the given number. -/
def Definition.content? (first : Nat) : Definition → Option Content
  | .operation o => some (.selections first o.selections)
  | .fragment f => some (.fragment f.name)
  | .typeSystem _ => none

/-- The roots that definitions add to those of the fragments `defined`. -/
def rootsFrom (first : Nat) (defined : List Name) : List Definition → List Content
  | [] => []
  | .operation operation :: later =>
    .selections first operation.selections ::
      rootsFrom (first + fieldCount operation.selections) defined later
  | .fragment fragment :: later =>
    if fragment.name ∈ defined then
      rootsFrom (first + fieldCount fragment.selections) defined later
    else
      .fragment fragment.name ::
        rootsFrom (first + fieldCount fragment.selections) (fragment.name :: defined) later
  | .typeSystem _ :: later => rootsFrom first defined later

/-- The operations and the fragments of a document, each fragment once, where it is first defined. -/
def documentRoots (definitions : List Definition) : List Content :=
  rootsFrom 0 [] definitions

theorem mem_rootsFrom {first : Nat} {defined : List Name} {definitions : List Definition}
    {content : Content} : content ∈ rootsFrom first defined definitions ↔
      (∀ name ∈ defined, content ≠ .fragment name) ∧
      ∃ entry ∈ numberedFrom first definitions, entry.2.content? entry.1 = some content := by
  induction definitions generalizing first defined with
  | nil => simp [rootsFrom, numberedFrom]
  | cons definition definitions ih =>
    simp only [numberedFrom, List.mem_cons, exists_eq_or_imp]
    cases definition with
    | operation operation =>
      simp only [rootsFrom, List.mem_cons, ih, Definition.content?, Option.some.injEq, Definition.selections]
      constructor
      · rintro (rfl | ⟨hnew, hlater⟩)
        · exact ⟨fun _ _ => Content.noConfusion, .inl rfl⟩
        · exact ⟨hnew, .inr hlater⟩
      · rintro ⟨hnew, rfl | hlater⟩
        · exact .inl rfl
        · exact .inr ⟨hnew, hlater⟩
    | fragment fragment =>
      have hcontent : Definition.content? first (.fragment fragment) = some (.fragment fragment.name) := rfl
      simp only [rootsFrom, Definition.selections, hcontent, Option.some.injEq]
      split
      next hold =>
        rw [ih]
        apply and_congr_right
        intro hnew
        rw [or_iff_right]
        rintro rfl
        exact hnew _ hold rfl
      next hfirst =>
        simp only [List.mem_cons, ih, forall_eq_or_imp]
        constructor
        · rintro (rfl | ⟨⟨-, hnew⟩, hlater⟩)
          · refine ⟨fun name hname heq => hfirst ?_, .inl rfl⟩
            rwa [Content.fragment.inj heq]
          · exact ⟨hnew, .inr hlater⟩
        · rintro ⟨hnew, heq | hlater⟩
          · exact .inl heq.symm
          · by_cases heq : content = .fragment fragment.name
            · exact .inl heq
            · exact .inr ⟨⟨heq, hnew⟩, hlater⟩
    | typeSystem definition =>
      simp only [rootsFrom, ih, Definition.content?, Definition.selections, fieldCount, Nat.add_zero,
        reduceCtorEq, false_or]

/-- A root is an operation of the document or a fragment that it defines. -/
theorem mem_documentRoots {definitions : List Definition} {content : Content} :
    content ∈ documentRoots definitions ↔
      ∃ entry ∈ numberedFrom 0 definitions, entry.2.content? entry.1 = some content := by
  unfold documentRoots
  rw [mem_rootsFrom]
  exact and_iff_right fun name hname => absurd hname List.not_mem_nil

section Places

variable {schema : Schema} {definitions : List Definition} {number : Nat} {parent? : Option TypeDefinition}

/-- The selections, selected on the type `parent?`, stand in the document, and their first field
has the given number. -/
def PlacedAt (schema : Schema) (definitions : List Definition) (number : Nat)
    (parent? : Option TypeDefinition) (selections : List Selection) : Prop :=
  ∀ k occurrence, (occurrencesIn schema parent? selections)[k]? = some occurrence →
    (occurrences schema definitions)[number + k]? = some occurrence

theorem PlacedAt.first {selection : Selection} {later : List Selection}
    (h : PlacedAt schema definitions number parent? (selection :: later)) :
    PlacedAt schema definitions number parent? [selection] := by
  intro k occurrence hk
  apply h
  simp only [occurrencesIn, List.append_nil] at hk ⊢
  rw [List.getElem?_append_left (List.getElem?_eq_some_iff.1 hk).1, hk]

theorem PlacedAt.later {selection : Selection} {later : List Selection}
    (h : PlacedAt schema definitions number parent? (selection :: later)) :
    PlacedAt schema definitions (number + selection.fieldCount) parent? later := by
  intro k occurrence hk
  rw [Nat.add_assoc]
  apply h
  unfold occurrencesIn
  rw [List.getElem?_append_right (by rw [Selection.length_occurrences]; omega),
    Selection.length_occurrences, Nat.add_sub_cancel_left, hk]

theorem PlacedAt.inside {condition? : Option Name} {selections : List Selection}
    (h : PlacedAt schema definitions number parent? [.inline condition? selections]) :
    PlacedAt schema definitions number (schema.inlineType? parent? condition?) selections := by
  intro k occurrence hk
  apply h
  simpa only [occurrencesIn, Selection.occurrences, List.append_nil] using hk

/-- The field has its own number. -/
theorem PlacedAt.here {field : Field} {selections : List Selection}
    (h : PlacedAt schema definitions number parent? [.field field selections]) :
    (occurrences schema definitions)[number]? =
      some ⟨field, selections, schema.fieldType? parent? field.name, parent?⟩ :=
  h 0 _ rfl

theorem PlacedAt.below {field : Field} {selections : List Selection}
    (h : PlacedAt schema definitions number parent? [.field field selections]) :
    PlacedAt schema definitions (number + 1)
      ((schema.fieldType? parent? field.name).map FieldType.definition) selections := by
  intro k occurrence hk
  rw [Nat.add_assoc, Nat.add_comm 1 k]
  apply h
  simpa only [occurrencesIn, Selection.occurrences, List.append_nil, List.getElem?_cons_succ] using hk

/-- The selections of a set, each with the number of the first field that stands in it or behind it. -/
def numberedSelections (first : Nat) : List Selection → List (Nat × Selection)
  | [] => []
  | selection :: later => (first, selection) :: numberedSelections (first + selection.fieldCount) later

theorem exists_numbered {selection : Selection} {selections : List Selection} (h : selection ∈ selections)
    (first : Nat) : ∃ own, (own, selection) ∈ numberedSelections first selections := by
  induction selections generalizing first with
  | nil => cases h
  | cons head later ih =>
    cases h with
    | head => exact ⟨first, .head _⟩
    | tail _ h =>
      obtain ⟨own, hown⟩ := ih h (first + head.fieldCount)
      exact ⟨own, .tail _ hown⟩

/-- Each selection of a set stands in the document at its number. -/
theorem PlacedAt.of_mem {own : Nat} {selection : Selection} {selections : List Selection}
    (h : PlacedAt schema definitions number parent? selections)
    (hmem : (own, selection) ∈ numberedSelections number selections) :
    PlacedAt schema definitions own parent? [selection] := by
  induction selections generalizing number with
  | nil => cases hmem
  | cons head later ih =>
    obtain heq | hmem := List.mem_cons.1 hmem
    · obtain ⟨rfl, rfl⟩ := Prod.mk.inj heq
      exact h.first
    · exact ih h.later hmem

/-- A set expands to what its selections do. -/
theorem Expands.of_mem {own : Nat} {selection : Selection} {selections : List Selection} {field : Nat}
    (h : Expands definitions own [selection] field)
    (hmem : (own, selection) ∈ numberedSelections number selections) :
    Expands definitions number selections field := by
  induction selections generalizing number with
  | nil => cases hmem
  | cons head later ih =>
    obtain heq | hmem := List.mem_cons.1 hmem
    · obtain ⟨rfl, rfl⟩ := Prod.mk.inj heq
      cases h with
      | here => exact .here
      | later hnone => cases hnone
      | inline h => exact .inline h
      | spread hfragment hname h => exact .spread hfragment hname h
    · exact .later (ih hmem)

/-- What a set expands to are its fields, what its inline fragments do, and what the fragments do that
it spreads. -/
@[elab_as_elim]
theorem expands_induction {P : Nat → List Selection → Nat → Prop}
    (field : ∀ {number selections own x nested}, (own, .field x nested) ∈ numberedSelections number selections →
      P number selections own)
    (inline : ∀ {number selections own condition? nested i},
      (own, .inline condition? nested) ∈ numberedSelections number selections →
      Expands definitions own nested i → P own nested i → P number selections i)
    (spread : ∀ {number selections own name start fragment i},
      (own, .spread name) ∈ numberedSelections number selections →
      (start, .fragment fragment) ∈ numberedFrom 0 definitions → fragment.name = name →
      Expands definitions start fragment.selections i → P start fragment.selections i → P number selections i)
    {selections : List Selection} {i : Nat} (h : Expands definitions number selections i) :
    P number selections i := by
  -- The set may be the rest of a larger one, of which everything is to hold.
  suffices hwider : ∀ number' wider,
      (∀ entry ∈ numberedSelections number selections, entry ∈ numberedSelections number' wider) →
      P number' wider i from hwider _ _ fun _ => id
  induction h with
  | here => exact fun number' wider hwider => field (hwider _ (.head _))
  | later _ ih => exact fun number' wider hwider => ih number' wider fun entry hentry => hwider _ (.tail _ hentry)
  | inline hnested ih => exact fun number' wider hwider => inline (hwider _ (.head _)) hnested (ih _ _ fun _ => id)
  | spread hmem hname hnested ih =>
    exact fun number' wider hwider => spread (hwider _ (.head _)) hmem hname hnested (ih _ _ fun _ => id)

/-- Each definition has a number. -/
theorem exists_number {definition : Definition} (h : definition ∈ definitions) (first : Nat) :
    ∃ number, (number, definition) ∈ numberedFrom first definitions := by
  induction definitions generalizing first with
  | nil => cases h
  | cons d ds ih =>
    cases h with
    | head => exact ⟨first, .head _⟩
    | tail _ h =>
      obtain ⟨number, hnumber⟩ := ih h (first + fieldCount d.selections)
      exact ⟨number, .tail _ hnumber⟩

theorem mem_of_numbered {definition : Definition} {first number : Nat}
    (h : (number, definition) ∈ numberedFrom first definitions) : definition ∈ definitions := by
  induction definitions generalizing first with
  | nil => cases h
  | cons d ds ih =>
    obtain heq | h := List.mem_cons.1 h
    · obtain ⟨-, rfl⟩ := Prod.mk.inj heq
      exact .head _
    · exact .tail _ (ih h)

/-- Each definition stands in the document at its number. -/
theorem placedAt_of_mem {definition : Definition} (h : (number, definition) ∈ numberedFrom 0 definitions) :
    PlacedAt schema definitions number (definition.parent? schema) definition.selections := by
  suffices hfrom : ∀ (first : Nat) (ds : List Definition), (number, definition) ∈ numberedFrom first ds →
      ∀ k occurrence,
        (occurrencesIn schema (definition.parent? schema) definition.selections)[k]? = some occurrence →
        ∃ i, number + k = first + i ∧ (occurrences schema ds)[i]? = some occurrence by
    intro k occurrence hk
    obtain ⟨i, hsum, hi⟩ := hfrom 0 definitions h k occurrence hk
    rw [hsum, Nat.zero_add, hi]
  intro first ds hmem k occurrence hk
  induction ds generalizing first with
  | nil => cases hmem
  | cons d ds ih =>
    simp only [occurrences, List.flatMap_cons]
    obtain heq | hmem := List.mem_cons.1 hmem
    · obtain ⟨rfl, rfl⟩ := Prod.mk.inj heq
      refine ⟨k, rfl, ?_⟩
      rw [List.getElem?_append_left (List.getElem?_eq_some_iff.1 hk).1, hk]
    · obtain ⟨i, hsum, hi⟩ := ih _ hmem
      refine ⟨fieldCount d.selections + i, by omega, ?_⟩
      rw [List.getElem?_append_right (by rw [length_occurrencesIn]; omega), length_occurrencesIn,
        Nat.add_sub_cancel_left]
      exact hi

end Places

end SelectionMerge
