import SelectionMerge.Proofs.Expansion.Insertion
import SelectionMerge.Proofs.Expansion.Places

/-!
# Writing selections twice

`DoublesInto` writes a run of selections of some selection set twice in a row, with all that is nested in
it. The fields of the copy are new, and all behind them move up; `original` gives back the number that a
field, or the field that it is a copy of, had before. `Folds` compares a selection set of the new document
with the one that it comes from: at its level are copies of the fields there, and the same fragments are
spread. It is put together from the parts of the set, and the two copies of the run fold onto one
(`Folds.twice`), so a document folds onto the one that it comes from (`DoublesInto.foldsOnto`).
-/

namespace SelectionMerge
set_option autoImplicit false

/-- A run of selections of the set, or of one nested in it, is written twice in a row. -/
inductive Doubles : List Selection → List Selection → Prop where
  | here {before before' run run' copy later later' : List Selection} :
    SameSelections before before' → SameSelections run run' → SameSelections run copy →
      SameSelections later later' → Doubles (before ++ run ++ later) (before' ++ (run' ++ copy) ++ later')
  | field {x y : Field} {before before' nested nested' later later' : List Selection} :
    SameSelections before before' → x.Alike y → Doubles nested nested' → SameSelections later later' →
      Doubles (before ++ [.field x nested] ++ later) (before' ++ [.field y nested'] ++ later')
  | inline {condition? : Option Name} {before before' nested nested' later later' : List Selection} :
    SameSelections before before' → Doubles nested nested' → SameSelections later later' →
      Doubles (before ++ [.inline condition? nested] ++ later) (before' ++ [.inline condition? nested'] ++ later')

/-- A whole set may be written twice. -/
theorem Doubles.whole {selections : List Selection} (h : SameSelections selections selections) :
    Doubles selections (selections ++ selections) := by
  have hdoubles := Doubles.here .nil h h .nil
  rwa [List.nil_append, List.append_nil, List.nil_append, List.append_nil] at hdoubles

/-- A run of selections in one of the definitions is written twice in a row. -/
inductive DoublesInto : List Definition → List Definition → Prop where
  | intro {before before' later later' : List Definition} {definition definition' : Definition} :
    List.Forall₂ SameDefinition before before' → definition.SameHeading definition' →
      Doubles definition.selections definition'.selections → List.Forall₂ SameDefinition later later' →
      DoublesInto (before ++ [definition] ++ later) (before' ++ [definition'] ++ later')

/-- The number that a field, or the one that it is a copy of, had before `length` fields from number `start`
on were written twice. -/
def original (start length j : Nat) : Nat :=
  if j < start + length then j else j - length

theorem original_of_lt {start length j : Nat} (h : j < start + length) : original start length j = j :=
  if_pos h

theorem original_add {start length j : Nat} (h : start + length ≤ j) : original start length j + length = j := by
  have hmoved : original start length j = j - length := if_neg (by omega)
  omega

theorem original_lt_iff {start length count : Nat} (h : start + length ≤ count) (j : Nat) :
    original start length j < count ↔ j < count + length := by
  unfold original
  split <;> omega

theorem exists_original_eq (start length i : Nat) : ∃ j, original start length j = i := by
  by_cases h : i < start + length
  · exact ⟨i, original_of_lt h⟩
  · have hmoved := original_add (show start + length ≤ i + length by omega)
    exact ⟨i + length, by omega⟩

/-- At the level of the new set, which begins at number `m`, are copies of the fields at that of the old
one, which begins at `n`, and the same fragments are spread. -/
structure FoldsLevel (origin : Nat → Nat) (m n : Nat) (selections' selections : List Selection) : Prop where
  fields : ∀ j ∈ levelFields m selections', origin j ∈ levelFields n selections
  spreads : ∀ name, name ∈ levelSpreads selections' ↔ name ∈ levelSpreads selections

/-- So it is at the levels of the sets nested in the new set as well. -/
structure Folds (schema : Schema) (origin : Nat → Nat) (parent? : Option TypeDefinition) (m n : Nat)
    (selections' selections : List Selection) : Prop extends FoldsLevel origin m n selections' selections where
  nested : ∀ entry ∈ (occurrencesIn schema parent? selections').zipIdx m, ∃ x,
    (x, origin entry.2) ∈ (occurrencesIn schema parent? selections).zipIdx n ∧ x.Alike entry.1 ∧
      FoldsLevel origin (entry.2 + 1) (origin entry.2 + 1) entry.1.selections x.selections

namespace Folds

variable {schema : Schema} {origin : Nat → Nat} {parent? : Option TypeDefinition} {m n : Nat}
variable {selections selections' later later' run run' copy nested nested' : List Selection}

theorem nil : Folds schema origin parent? m n [] [] where
  fields j hj := by cases hj
  spreads name := .rfl
  nested entry hentry := by cases hentry

/-- Parts fold one after the other. -/
theorem append (h : Folds schema origin parent? m n selections' selections)
    (h' : Folds schema origin parent? (m + fieldCount selections') (n + fieldCount selections) later' later) :
    Folds schema origin parent? m n (selections' ++ later') (selections ++ later) where
  fields j hj := by
    rw [levelFields_append, List.mem_append] at hj ⊢
    exact hj.imp (h.fields j) (h'.fields j)
  spreads name := by
    rw [levelSpreads_append, levelSpreads_append, List.mem_append, List.mem_append, h.spreads, h'.spreads]
  nested entry hentry := by
    rw [occurrencesIn_append, List.zipIdx_append, length_occurrencesIn, List.mem_append] at hentry
    rw [occurrencesIn_append, List.zipIdx_append, length_occurrencesIn]
    obtain hentry | hentry := hentry
    · obtain ⟨x, hx, hsame⟩ := h.nested entry hentry
      exact ⟨x, List.mem_append_left _ hx, hsame⟩
    · obtain ⟨x, hx, hsame⟩ := h'.nested entry hentry
      exact ⟨x, List.mem_append_right _ hx, hsame⟩

/-- Both copies of a run fold onto the run. -/
theorem twice (h : Folds schema origin parent? m n run' run)
    (h' : Folds schema origin parent? (m + fieldCount run') n copy run) :
    Folds schema origin parent? m n (run' ++ copy) run where
  fields j hj := by
    rw [levelFields_append, List.mem_append] at hj
    exact hj.elim (h.fields j) (h'.fields j)
  spreads name := by
    rw [levelSpreads_append, List.mem_append, h.spreads, h'.spreads, or_self]
  nested entry hentry := by
    rw [occurrencesIn_append, List.zipIdx_append, length_occurrencesIn, List.mem_append] at hentry
    exact hentry.elim (h.nested entry) (h'.nested entry)

theorem field {x y : Field} (hnumber : origin m = n) (hxy : x.Alike y)
    (h : Folds schema origin ((schema.fieldType? parent? x.name).map FieldType.definition) (m + 1) (n + 1)
      nested' nested) : Folds schema origin parent? m n [.field y nested'] [.field x nested] where
  fields j hj := by
    obtain rfl := List.mem_singleton.1 hj
    exact List.mem_singleton.2 hnumber
  spreads name := .rfl
  nested entry hentry := by
    simp only [occurrencesIn, Selection.occurrences, List.append_nil, List.zipIdx_cons, List.mem_cons,
      ← hxy.name] at hentry ⊢
    obtain rfl | hentry := hentry
    · refine ⟨_, .inl (congrArg (Prod.mk _) hnumber), ⟨hxy, rfl, rfl⟩, ?_⟩
      rw [hnumber]
      exact h.toFoldsLevel
    · obtain ⟨z, hz, hsame⟩ := h.nested entry hentry
      exact ⟨z, .inr hz, hsame⟩

theorem inline {condition? : Option Name}
    (h : Folds schema origin (schema.inlineType? parent? condition?) m n nested' nested) :
    Folds schema origin parent? m n [.inline condition? nested'] [.inline condition? nested] where
  fields j hj := by
    simp only [levelFields, Selection.levelFields, List.append_nil] at hj ⊢
    exact h.fields j hj
  spreads name := by
    simp only [levelSpreads, Selection.levelSpreads, List.append_nil]
    exact h.spreads name
  nested := by
    simp only [occurrencesIn, Selection.occurrences, List.append_nil]
    exact h.nested

theorem spread (name : Name) : Folds schema origin parent? m n [.spread name] [.spread name] where
  fields j hj := by cases hj
  spreads _ := .rfl
  nested entry hentry := by cases hentry

end Folds

section Numbers

variable {schema : Schema} {origin : Nat → Nat} {m n start length : Nat}
variable {selections selections' : List Selection}

/-- Selections that are the same fold onto each other where all their numbers are moved up by the same. -/
theorem folds_of_same (h : SameSelections selections selections') (parent? : Option TypeDefinition)
    (moved : Nat) (hm : m = n + moved)
    (horigin : ∀ j, m ≤ j → j < m + fieldCount selections → origin j + moved = j) :
    Folds schema origin parent? m n selections' selections := by
  induction h generalizing parent? m n with
  | nil => exact .nil
  | @field x y nested nested' later later' hxy hnested hlater ih ih' =>
    have hcount := hnested.fieldCount
    simp only [fieldCount, Selection.fieldCount] at horigin
    have hfirst := horigin m (by omega) (by omega)
    refine .append (.field (by omega) hxy (ih _ (by omega) fun j _ _ => horigin j (by omega) (by omega))) ?_
    simp only [fieldCount, Selection.fieldCount, Nat.add_zero, ← hcount]
    exact ih' _ (by omega) fun j _ _ => horigin j (by omega) (by omega)
  | @inline condition? nested nested' later later' hnested hlater ih ih' =>
    have hcount := hnested.fieldCount
    simp only [fieldCount, Selection.fieldCount] at horigin
    refine .append (.inline (ih _ (by omega) fun j _ _ => horigin j (by omega) (by omega))) ?_
    simp only [fieldCount, Selection.fieldCount, Nat.add_zero, ← hcount]
    exact ih' _ (by omega) fun j _ _ => horigin j (by omega) (by omega)
  | @spread name later later' hlater ih =>
    simp only [fieldCount, Selection.fieldCount, Nat.zero_add] at horigin
    exact .append (.spread name) (ih _ hm horigin)

/-- Selections before the copy keep their numbers. -/
theorem folds_before (h : SameSelections selections selections') (parent? : Option TypeDefinition)
    (hbound : m + fieldCount selections ≤ start + length) :
    Folds schema (original start length) parent? m m selections' selections := by
  exact folds_of_same h parent? 0 rfl fun j _ _ => original_of_lt (by omega)

/-- The copy and the selections behind it move up. -/
theorem folds_behind (h : SameSelections selections selections') (parent? : Option TypeDefinition)
    (hm : m = n + length) (hbound : start ≤ n) :
    Folds schema (original start length) parent? m n selections' selections := by
  exact folds_of_same h parent? length hm fun j _ _ => original_add (by omega)

/-- The set folds onto one that has `length` fields from number `start` on once where it has them twice. -/
structure FoldsRun (schema : Schema) (start length : Nat) (parent? : Option TypeDefinition) (m : Nat)
    (selections' selections : List Selection) : Prop
    extends Folds schema (original start length) parent? m m selections' selections where
  lower : m ≤ start
  upper : start + length ≤ m + fieldCount selections
  count : fieldCount selections' = fieldCount selections + length

namespace FoldsRun

variable {parent? : Option TypeDefinition} {part part' before before' later later' : List Selection}

theorem twice {run run' copy : List Selection} (h : SameSelections run run') (h' : SameSelections run copy)
    (m : Nat) : FoldsRun schema m (fieldCount run) parent? m (run' ++ copy) run where
  toFolds := by
    have hcount := h.fieldCount
    exact .twice (folds_before h _ (Nat.le_refl _)) (folds_behind h' _ (by omega) (Nat.le_refl m))
  lower := Nat.le_refl m
  upper := Nat.le_refl _
  count := by rw [fieldCount_append, ← h.fieldCount, ← h'.fieldCount]

/-- What stands before and behind a part stays as it is. -/
theorem frame (hbefore : SameSelections before before')
    (h : FoldsRun schema start length parent? (m + fieldCount before) part' part)
    (hlater : SameSelections later later') :
    FoldsRun schema start length parent? m (before' ++ part' ++ later') (before ++ part ++ later) := by
  have hbeforeCount := hbefore.fieldCount
  have hlaterCount := hlater.fieldCount
  obtain ⟨hfolds, hlower, hupper, hcount⟩ := h
  rw [hbeforeCount] at hfolds
  refine ⟨.append (.append (folds_before hbefore _ (by omega)) ?_) ?_, by omega, ?_, ?_⟩
  · rwa [hbeforeCount]
  all_goals simp only [fieldCount_append]
  · exact folds_behind hlater _ (by omega) (by omega)
  · omega
  · omega

theorem field {x y : Field} (hxy : x.Alike y) (h : FoldsRun schema start length
      ((schema.fieldType? parent? x.name).map FieldType.definition) (m + 1) part' part) :
    FoldsRun schema start length parent? m [.field y part'] [.field x part] := by
  obtain ⟨hfolds, hlower, hupper, hcount⟩ := h
  refine ⟨.field (original_of_lt (by omega)) hxy hfolds, by omega, ?_, ?_⟩
  all_goals
    simp only [fieldCount, Selection.fieldCount]
    omega

theorem inline {condition? : Option Name}
    (h : FoldsRun schema start length (schema.inlineType? parent? condition?) m part' part) :
    FoldsRun schema start length parent? m [.inline condition? part'] [.inline condition? part] :=
  ⟨.inline h.toFolds, h.lower, h.upper, h.count⟩

end FoldsRun

/-- A selection set with a run written twice folds onto the set. -/
theorem exists_foldsRun (h : Doubles selections selections') (schema : Schema) (parent? : Option TypeDefinition)
    (m : Nat) : ∃ start length, FoldsRun schema start length parent? m selections' selections := by
  induction h generalizing parent? m with
  | here hbefore hrun hcopy hlater => exact ⟨_, _, .frame hbefore (.twice hrun hcopy _) hlater⟩
  | @field x y before _ _ _ _ _ hbefore hxy _ hlater ih =>
    obtain ⟨start, length, hfolds⟩ :=
      ih ((schema.fieldType? parent? x.name).map FieldType.definition) (m + fieldCount before + 1)
    exact ⟨start, length, .frame hbefore (.field hxy hfolds) hlater⟩
  | @inline condition? before _ _ _ _ _ hbefore _ hlater ih =>
    obtain ⟨start, length, hfolds⟩ := ih (schema.inlineType? parent? condition?) (m + fieldCount before)
    exact ⟨start, length, .frame hbefore (.inline hfolds) hlater⟩

end Numbers

section Documents

/-- The numbered definitions have one heading, and the selections of the new one fold onto those of the
old one. -/
structure FoldsEntry (schema : Schema) (origin : Nat → Nat) (entry entry' : Nat × Definition) : Prop where
  heading : entry.2.SameHeading entry'.2
  selections : Folds schema origin (entry.2.parent? schema) entry'.1 entry.1 entry'.2.selections entry.2.selections

/-- The new document folds onto the old one, definition by definition. Its fields are those that come from
fields of the old one. -/
structure FoldsOnto (schema : Schema) (origin : Nat → Nat) (definitions' definitions : List Definition) : Prop where
  entries : List.Forall₂ (FoldsEntry schema origin) (numberedFrom 0 definitions) (numberedFrom 0 definitions')
  lt_iff : ∀ j, j < documentFieldCount definitions' ↔ origin j < documentFieldCount definitions
  onto : ∀ i, ∃ j, origin j = i

variable {schema : Schema} {origin : Nat → Nat} {definitions definitions' : List Definition} {m n : Nat}

theorem documentFieldCount_append (definitions later : List Definition) :
    documentFieldCount (definitions ++ later) = documentFieldCount definitions + documentFieldCount later := by
  unfold documentFieldCount
  rw [List.flatMap_append, fieldCount_append]

theorem documentFieldCount_same (h : List.Forall₂ SameDefinition definitions definitions') :
    documentFieldCount definitions = documentFieldCount definitions' := by
  induction h with
  | nil => rfl
  | cons hsame _ ih =>
    have hcount := hsame.selections.fieldCount
    simp only [documentFieldCount_cons]
    omega

/-- Definitions that are the same fold onto each other where all their numbers are moved up by the same. -/
theorem foldsEntries_of_same (h : List.Forall₂ SameDefinition definitions definitions') (moved : Nat)
    (hm : m = n + moved) (horigin : ∀ j, m ≤ j → j < m + documentFieldCount definitions → origin j + moved = j) :
    List.Forall₂ (FoldsEntry schema origin) (numberedFrom n definitions) (numberedFrom m definitions') := by
  induction h generalizing m n with
  | nil => exact .nil
  | cons hsame _ ih =>
    have hcount := hsame.selections.fieldCount
    simp only [documentFieldCount_cons] at horigin
    refine .cons ⟨hsame.heading, ?_⟩ (ih (by omega) fun j _ _ => horigin j (by omega) (by omega))
    exact folds_of_same hsame.selections _ moved hm fun j _ _ => horigin j (by omega) (by omega)

/-- A document with a run written twice folds onto the document. -/
theorem DoublesInto.foldsOnto (h : DoublesInto definitions definitions') (schema : Schema) :
    ∃ start length, FoldsOnto schema (original start length) definitions' definitions := by
  cases h with
  | @intro before before' later later' definition definition' hbefore hheading hdoubles hlater =>
    have hcount := documentFieldCount_same hbefore
    have hlaterCount := documentFieldCount_same hlater
    obtain ⟨start, length, hfolds, hlower, hupper, hlength⟩ :=
      exists_foldsRun hdoubles schema (definition.parent? schema) (documentFieldCount before)
    have hcounts : documentFieldCount (before ++ [definition] ++ later) = documentFieldCount before +
        (fieldCount definition.selections + documentFieldCount later) := by
      rw [List.append_assoc, documentFieldCount_append, List.singleton_append, documentFieldCount_cons]
    have hcounts' : documentFieldCount (before' ++ [definition'] ++ later') = documentFieldCount before' +
        (fieldCount definition'.selections + documentFieldCount later') := by
      rw [List.append_assoc, documentFieldCount_append, List.singleton_append, documentFieldCount_cons]
    refine ⟨start, length, ?_, fun j => ?_, exists_original_eq start length⟩
    · simp only [List.append_assoc, numberedFrom_append, List.singleton_append, numberedFrom, Nat.zero_add]
      have horigin : ∀ j, 0 ≤ j → j < 0 + documentFieldCount before → original start length j + 0 = j :=
        fun j _ _ => original_of_lt (by omega)
      refine List.rel_append (foldsEntries_of_same hbefore 0 rfl horigin) ?_
      rw [← hcount]
      refine .cons ⟨hheading, hfolds⟩ (foldsEntries_of_same hlater length (by omega) fun j _ _ => ?_)
      exact original_add (by omega)
    · rw [original_lt_iff (by omega), hcounts, hcounts']
      omega

end Documents

end SelectionMerge
