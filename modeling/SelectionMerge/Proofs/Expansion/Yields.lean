import SelectionMerge.Proofs.Expansion.Contents
import SelectionMerge.Proofs.Expansion.FieldSets

/-!
# Expansion without numbers

`Yields` says which field selections a selection set has when fragments are expanded, by what they
are and not by their numbers: where two documents number their fields in different ways, it still
speaks of both. What a selection set that stands in a document yields are the field selections whose
numbers it expands to (`Expands.exists_yields`, `Yields.exists_expands`), and the sub-selections of a
field stand in the document as well (`placedAt_below`).
-/

namespace SelectionMerge
set_option autoImplicit false

/-- The selections on the type `parent?` have the field selection when fragments are expanded. -/
inductive Yields (schema : Schema) (definitions : List Definition) :
    Option TypeDefinition → List Selection → Occurrence → Prop where
  | field {parent? : Option TypeDefinition} {selections nested : List Selection} {field : Field} :
    .field field nested ∈ selections →
      Yields schema definitions parent? selections ⟨field, nested, schema.fieldType? parent? field.name, parent?⟩
  | inline {parent? : Option TypeDefinition} {selections nested : List Selection} {condition? : Option Name}
    {occurrence : Occurrence} :
    .inline condition? nested ∈ selections →
      Yields schema definitions (schema.inlineType? parent? condition?) nested occurrence →
      Yields schema definitions parent? selections occurrence
  | spread {parent? : Option TypeDefinition} {selections : List Selection} {name : Name} {fragment : Fragment}
    {occurrence : Occurrence} :
    .spread name ∈ selections → .fragment fragment ∈ definitions → fragment.name = name →
      Yields schema definitions (schema.type? fragment.condition) fragment.selections occurrence →
      Yields schema definitions parent? selections occurrence

variable {schema : Schema} {definitions : List Definition} {parent? : Option TypeDefinition}
variable {selections : List Selection} {occurrence : Occurrence}

/-- More selections yield more. -/
theorem Yields.mono {wider : List Selection} (h : Yields schema definitions parent? selections occurrence)
    (hwider : ∀ selection ∈ selections, selection ∈ wider) :
    Yields schema definitions parent? wider occurrence := by
  cases h with
  | field hmem => exact .field (hwider _ hmem)
  | inline hmem hnested => exact .inline (hwider _ hmem) hnested
  | spread hmem hfragment hname hnested => exact .spread (hwider _ hmem) hfragment hname hnested

section Numbers

variable {number : Nat}

/-- What selections expand to they yield. -/
theorem Expands.exists_yields {i : Nat} (h : Expands definitions number selections i)
    (hplaced : PlacedAt schema definitions number parent? selections) :
    ∃ occurrence, (occurrences schema definitions)[i]? = some occurrence ∧
      Yields schema definitions parent? selections occurrence := by
  induction h generalizing parent? with
  | here => exact ⟨_, hplaced.first.here, .field (.head _)⟩
  | later _ ih =>
    obtain ⟨occurrence, hoccurrence, hyields⟩ := ih hplaced.later
    exact ⟨occurrence, hoccurrence, hyields.mono fun selection hmem => .tail _ hmem⟩
  | inline _ ih =>
    obtain ⟨occurrence, hoccurrence, hyields⟩ := ih hplaced.first.inside
    exact ⟨occurrence, hoccurrence, .inline (.head _) hyields⟩
  | spread hmem hname _ ih =>
    obtain ⟨occurrence, hoccurrence, hyields⟩ := ih (placedAt_of_mem hmem)
    exact ⟨occurrence, hoccurrence, .spread (.head _) (mem_of_numbered hmem) hname hyields⟩

/-- What selections yield they expand to. -/
theorem Yields.exists_expands (h : Yields schema definitions parent? selections occurrence)
    (hplaced : PlacedAt schema definitions number parent? selections) :
    ∃ i, Expands definitions number selections i ∧ (occurrences schema definitions)[i]? = some occurrence := by
  induction h generalizing number with
  | field hmem =>
    obtain ⟨own, hown⟩ := exists_numbered hmem number
    exact ⟨own, .of_mem .here hown, (hplaced.of_mem hown).here⟩
  | inline hmem _ ih =>
    obtain ⟨own, hown⟩ := exists_numbered hmem number
    obtain ⟨i, hi, hoccurrence⟩ := ih (hplaced.of_mem hown).inside
    exact ⟨i, .of_mem (.inline hi) hown, hoccurrence⟩
  | spread hmem hfragment hname _ ih =>
    obtain ⟨own, hown⟩ := exists_numbered hmem number
    obtain ⟨start, hstart⟩ := exists_number hfragment 0
    obtain ⟨i, hi, hoccurrence⟩ := ih (placedAt_of_mem hstart)
    exact ⟨i, .of_mem (.spread hstart hname hi) hown, hoccurrence⟩

end Numbers

/-- The sub-selections of a field selection stand behind it, on its type. -/
theorem PlacedAt.nested {number k : Nat} (hplaced : PlacedAt schema definitions number parent? selections)
    (hk : (occurrencesIn schema parent? selections)[k]? = some occurrence) :
    PlacedAt schema definitions (number + k + 1) (occurrence.type?.map FieldType.definition)
      occurrence.selections := by
  induction selections using selections_induction generalizing parent? number k with
  | nil => cases hk
  | field field nested later ih ih' =>
    unfold occurrencesIn at hk
    rw [List.getElem?_append, Selection.length_occurrences] at hk
    split at hk
    next hlt =>
      cases k with
      | zero =>
        obtain rfl := Option.some.inj hk
        exact hplaced.first.below
      | succ k =>
        have hnested := ih hplaced.first.below hk
        rw [Nat.add_right_comm number 1 k, Nat.add_assoc number k 1] at hnested
        exact hnested
    next hge =>
      have hlater := ih' hplaced.later hk
      rw [Nat.add_assoc number, Nat.add_sub_cancel' (Nat.not_lt.1 hge)] at hlater
      exact hlater
  | inline condition? nested later ih ih' =>
    unfold occurrencesIn at hk
    rw [List.getElem?_append, Selection.length_occurrences] at hk
    split at hk
    next hlt => exact ih hplaced.first.inside hk
    next hge =>
      have hlater := ih' hplaced.later hk
      rw [Nat.add_assoc number, Nat.add_sub_cancel' (Nat.not_lt.1 hge)] at hlater
      exact hlater
  | spread name later ih => exact ih hplaced.later hk

section Below

variable {above i : Nat}

theorem placedAt_below (h : (occurrences schema definitions)[above]? = some occurrence) :
    PlacedAt schema definitions (above + 1) (occurrence.type?.map FieldType.definition)
      occurrence.selections := by
  obtain ⟨number, definition, k, hmem, hsum, hk⟩ := SelectionGraph.exists_definition 0 h
  rw [Nat.zero_add] at hsum
  subst hsum
  exact (placedAt_of_mem hmem).nested hk

theorem expandsBelow_iff (h : (occurrences schema definitions)[above]? = some occurrence) :
    ExpandsBelow schema definitions above i ↔ Expands definitions (above + 1) occurrence.selections i := by
  unfold ExpandsBelow
  simp [h]

end Below

end SelectionMerge
