import SelectionMerge.Proofs.Expansion.Yields
import SelectionMerge.Proofs.Merge.Simulation

/-!
# Inserting a field of unknown type

`InsertsInto` puts one more field somewhere into a document: a field without sub-selections whose
output type the schema does not give. All fields behind it move up by one number (`shift`).
`Aligned` follows the two documents side by side, with the numbers at which their selections stand,
from the place of the new field `u` back to their beginnings. So the document without it is
simulated by the one with it, with one extra field (`AlignedDocuments.simulates`).
-/

namespace SelectionMerge
set_option autoImplicit false

/-- The selections are the same, maybe at other places in the text. -/
inductive SameSelections : List Selection → List Selection → Prop where
  | nil : SameSelections [] []
  | field {x y : Field} {nested nested' later later' : List Selection} :
    x.Alike y → SameSelections nested nested' → SameSelections later later' →
      SameSelections (.field x nested :: later) (.field y nested' :: later')
  | inline {condition? : Option Name} {nested nested' later later' : List Selection} :
    SameSelections nested nested' → SameSelections later later' →
      SameSelections (.inline condition? nested :: later) (.inline condition? nested' :: later')
  | spread {name : Name} {later later' : List Selection} :
    SameSelections later later' → SameSelections (.spread name :: later) (.spread name :: later')

/-- A field without sub-selections whose output type is not known on `parent?`, or one in an inline
fragment on a type that the schema does not have. -/
inductive UnknownSelection (schema : Schema) (parent? : Option TypeDefinition) : Selection → Prop where
  | field {x : Field} : schema.fieldType? parent? x.name = none → UnknownSelection schema parent? (.field x [])
  | inline {condition : Name} {x : Field} :
    schema.type? condition = none → UnknownSelection schema parent? (.inline (some condition) [.field x []])

/-- A selection of unknown type is inserted into the set, or into one nested in it. -/
inductive Inserts (schema : Schema) : Option TypeDefinition → List Selection → List Selection → Prop where
  | here {parent? : Option TypeDefinition} {new : Selection} {before before' later later' : List Selection} :
    SameSelections before before' → UnknownSelection schema parent? new → SameSelections later later' →
      Inserts schema parent? (before ++ later) (before' ++ new :: later')
  | field {parent? : Option TypeDefinition} {x y : Field}
    {before before' nested nested' later later' : List Selection} :
    SameSelections before before' → x.Alike y →
      Inserts schema ((schema.fieldType? parent? x.name).map FieldType.definition) nested nested' →
      SameSelections later later' →
      Inserts schema parent? (before ++ .field x nested :: later) (before' ++ .field y nested' :: later')
  | inline {parent? : Option TypeDefinition} {condition? : Option Name}
    {before before' nested nested' later later' : List Selection} :
    SameSelections before before' → Inserts schema (schema.inlineType? parent? condition?) nested nested' →
      SameSelections later later' →
      Inserts schema parent? (before ++ .inline condition? nested :: later)
        (before' ++ .inline condition? nested' :: later')

/-- The definitions are the same, maybe at other places in the text. -/
structure SameDefinition (definition definition' : Definition) : Prop where
  heading : definition.SameHeading definition'
  selections : SameSelections definition.selections definition'.selections

/-- A selection of unknown type is inserted into one of the definitions. -/
inductive InsertsInto (schema : Schema) : List Definition → List Definition → Prop where
  | intro {before before' later later' : List Definition} {definition definition' : Definition} :
    List.Forall₂ SameDefinition before before' → definition.SameHeading definition' →
      Inserts schema (definition.parent? schema) definition.selections definition'.selections →
      List.Forall₂ SameDefinition later later' →
      InsertsInto schema (before ++ definition :: later) (before' ++ definition' :: later')

/-- The number of a field after one has been inserted that has number `u` then. -/
def shift (u i : Nat) : Nat :=
  if i < u then i else i + 1

theorem shift_ne (u i : Nat) : shift u i ≠ u := by
  unfold shift
  split <;> omega

theorem shift_lt_shift {u i j : Nat} (h : i < j) : shift u i < shift u j := by
  unfold shift
  split <;> split <;> omega

/-- The selections on the left are those on the right without the new field `u`. Their first fields
have the numbers `n` and `m`. -/
inductive Aligned (schema : Schema) (u : Nat) :
    Option TypeDefinition → Nat → Nat → List Selection → List Selection → Prop where
  | nil {parent? : Option TypeDefinition} {n m : Nat} : Aligned schema u parent? n m [] []
  | field {parent? : Option TypeDefinition} {n m : Nat} {x y : Field}
    {nested nested' later later' : List Selection} :
    m = shift u n → x.Alike y →
      Aligned schema u ((schema.fieldType? parent? x.name).map FieldType.definition) (n + 1) (m + 1) nested nested' →
      Aligned schema u parent? (n + (fieldCount nested + 1)) (m + (fieldCount nested' + 1)) later later' →
      Aligned schema u parent? n m (.field x nested :: later) (.field y nested' :: later')
  | inline {parent? : Option TypeDefinition} {n m : Nat} {condition? : Option Name}
    {nested nested' later later' : List Selection} :
    Aligned schema u (schema.inlineType? parent? condition?) n m nested nested' →
      Aligned schema u parent? (n + fieldCount nested) (m + fieldCount nested') later later' →
      Aligned schema u parent? n m (.inline condition? nested :: later) (.inline condition? nested' :: later')
  | spread {parent? : Option TypeDefinition} {n m : Nat} {name : Name} {later later' : List Selection} :
    Aligned schema u parent? n m later later' →
      Aligned schema u parent? n m (.spread name :: later) (.spread name :: later')
  | extra {parent? : Option TypeDefinition} {n m : Nat} {new : Selection} {later later' : List Selection} :
    m = u → UnknownSelection schema parent? new → Aligned schema u parent? n (m + 1) later later' →
      Aligned schema u parent? n m later (new :: later')

variable {schema : Schema} {definitions definitions' : List Definition} {u : Nat}
variable {parent? : Option TypeDefinition} {selections selections' : List Selection}

section Alignment

theorem UnknownSelection.fieldCount {new : Selection} (h : UnknownSelection schema parent? new) :
    new.fieldCount = 1 := by
  cases h <;> rfl

theorem SameSelections.fieldCount (h : SameSelections selections selections') :
    fieldCount selections = fieldCount selections' := by
  induction h with
  | nil => rfl
  | field _ _ _ ih ih' => simp only [SelectionMerge.fieldCount, Selection.fieldCount, ih, ih']
  | inline _ _ ih ih' => simp only [SelectionMerge.fieldCount, Selection.fieldCount, ih, ih']
  | spread _ ih => simp only [SelectionMerge.fieldCount, Selection.fieldCount, ih]

/-- Selections that are the same are aligned before the new field and, one number further, after
it. -/
theorem SameSelections.aligned (h : SameSelections selections selections') (parent? : Option TypeDefinition)
    {n m : Nat} (hplace : m = n ∧ n + SelectionMerge.fieldCount selections ≤ u ∨ m = n + 1 ∧ u ≤ n) :
    Aligned schema u parent? n m selections selections' := by
  induction h generalizing parent? n m with
  | nil => exact .nil
  | field hxy hnested hlater ih ih' =>
    have hcount := hnested.fieldCount
    simp only [SelectionMerge.fieldCount, Selection.fieldCount] at hplace
    refine .field ?_ hxy (ih _ ?_) (ih' _ ?_)
    · unfold shift
      split <;> omega
    · omega
    · omega
  | inline hnested hlater ih ih' =>
    have hcount := hnested.fieldCount
    simp only [SelectionMerge.fieldCount, Selection.fieldCount] at hplace
    exact .inline (ih _ (by omega)) (ih' _ (by omega))
  | spread hlater ih =>
    simp only [SelectionMerge.fieldCount, Selection.fieldCount, Nat.zero_add] at hplace
    exact .spread (ih _ hplace)

theorem Aligned.append {n m : Nat} {later later' : List Selection}
    (h : Aligned schema u parent? n m selections selections')
    (hlater : Aligned schema u parent? (n + fieldCount selections) (m + fieldCount selections') later later') :
    Aligned schema u parent? n m (selections ++ later) (selections' ++ later') := by
  induction h with
  | nil => exact hlater
  | field hm hxy hnested _ _ ih =>
    refine .field hm hxy hnested (ih ?_)
    simp only [fieldCount, Selection.fieldCount] at hlater
    simpa only [Nat.add_assoc] using hlater
  | inline hnested _ _ ih =>
    refine .inline hnested (ih ?_)
    simp only [fieldCount, Selection.fieldCount] at hlater
    simpa only [Nat.add_assoc] using hlater
  | spread _ ih =>
    refine .spread (ih ?_)
    simpa only [fieldCount, Selection.fieldCount, Nat.zero_add] using hlater
  | extra hm hnew _ ih =>
    refine .extra hm hnew (ih ?_)
    simp only [fieldCount, hnew.fieldCount] at hlater
    simpa only [Nat.add_assoc] using hlater

theorem Inserts.fieldCount (h : Inserts schema parent? selections selections') :
    fieldCount selections' = fieldCount selections + 1 := by
  induction h with
  | here hbefore hnew hlater =>
    simp only [fieldCount_append, SelectionMerge.fieldCount, hbefore.fieldCount, hnew.fieldCount, hlater.fieldCount]
    omega
  | field hbefore _ _ hlater ih =>
    simp only [fieldCount_append, SelectionMerge.fieldCount, Selection.fieldCount, hbefore.fieldCount, ih,
      hlater.fieldCount]
    omega
  | inline hbefore _ hlater ih =>
    simp only [fieldCount_append, SelectionMerge.fieldCount, Selection.fieldCount, hbefore.fieldCount, ih,
      hlater.fieldCount]
    omega

/-- Selections are aligned with those that a new field is inserted into. -/
theorem Inserts.aligned (h : Inserts schema parent? selections selections') (n : Nat) :
    ∃ u, n ≤ u ∧ u ≤ n + SelectionMerge.fieldCount selections ∧
      Aligned schema u parent? n n selections selections' := by
  induction h generalizing n with
  | @here parent? new before before' later later' hbefore hnew hlater =>
    rw [fieldCount_append]
    refine ⟨n + SelectionMerge.fieldCount before, by omega, by omega, .append (hbefore.aligned _ (by omega)) ?_⟩
    rw [← hbefore.fieldCount]
    exact .extra rfl hnew (hlater.aligned _ (by omega))
  | @field parent? x y before before' nested nested' later later' hbefore hxy hnested hlater ih =>
    obtain ⟨u, hle, hge, haligned⟩ := ih (n + SelectionMerge.fieldCount before + 1)
    have hcount := hnested.fieldCount
    simp only [fieldCount_append, SelectionMerge.fieldCount, Selection.fieldCount]
    refine ⟨u, by omega, by omega, .append (hbefore.aligned _ (by omega)) ?_⟩
    rw [← hbefore.fieldCount]
    refine .field ?_ hxy haligned (hlater.aligned _ (by omega))
    exact (if_pos (by omega)).symm
  | @inline parent? condition? before before' nested nested' later later' hbefore hnested hlater ih =>
    obtain ⟨u, hle, hge, haligned⟩ := ih (n + SelectionMerge.fieldCount before)
    have hcount := hnested.fieldCount
    simp only [fieldCount_append, SelectionMerge.fieldCount, Selection.fieldCount]
    refine ⟨u, by omega, by omega, .append (hbefore.aligned _ (by omega)) ?_⟩
    rw [← hbefore.fieldCount]
    exact .inline haligned (hlater.aligned _ (by omega))

theorem UnknownSelection.type? {new : Selection} (h : UnknownSelection schema parent? new) {y : Occurrence}
    (hy : y ∈ new.occurrences schema parent?) : y.type? = none := by
  cases h with
  | field hunknown =>
    obtain rfl := List.mem_singleton.1 hy
    exact hunknown
  | @inline condition x hunknown =>
    obtain rfl := List.mem_singleton.1 hy
    change schema.fieldType? (schema.type? condition) x.name = none
    rw [hunknown]
    rfl

/-- The field selections on the right are alike those on the left, apart from the new one. -/
theorem Aligned.exists_occurrence {n m : Nat} (h : Aligned schema u parent? n m selections selections')
    {y : Occurrence} (hy : y ∈ occurrencesIn schema parent? selections') :
    y.type? = none ∨ ∃ x ∈ occurrencesIn schema parent? selections, x.Alike y := by
  induction h with
  | nil => cases hy
  | field _ hxy _ _ ih ih' =>
    simp only [occurrencesIn, Selection.occurrences, List.cons_append, List.mem_cons, List.mem_append,
      ← hxy.name] at hy ⊢
    obtain rfl | hy | hy := hy
    · exact .inr ⟨_, .inl rfl, hxy, rfl, rfl⟩
    · apply (ih hy).imp_right
      rintro ⟨x, hx, halike⟩
      exact ⟨x, .inr (.inl hx), halike⟩
    · apply (ih' hy).imp_right
      rintro ⟨x, hx, halike⟩
      exact ⟨x, .inr (.inr hx), halike⟩
  | inline _ _ ih ih' =>
    simp only [occurrencesIn, Selection.occurrences, List.mem_append] at hy ⊢
    obtain hy | hy := hy
    · apply (ih hy).imp_right
      rintro ⟨x, hx, halike⟩
      exact ⟨x, .inl hx, halike⟩
    · apply (ih' hy).imp_right
      rintro ⟨x, hx, halike⟩
      exact ⟨x, .inr hx, halike⟩
  | spread _ ih => exact ih hy
  | extra _ hnew _ ih =>
    obtain hy | hy := List.mem_append.1 hy
    · exact .inl (hnew.type? hy)
    · exact ih hy

end Alignment

section Entries

/-- The numbered definitions are the same without the new field `u`. -/
structure AlignedEntries (schema : Schema) (u : Nat) (entry entry' : Nat × Definition) : Prop where
  heading : entry.2.SameHeading entry'.2
  selections : Aligned schema u (entry.2.parent? schema) entry.1 entry'.1 entry.2.selections entry'.2.selections

/-- The definitions of two documents are the same, one by one, without the new field `u`. -/
def AlignedDocuments (schema : Schema) (u : Nat) (definitions definitions' : List Definition) : Prop :=
  List.Forall₂ (AlignedEntries schema u) (numberedFrom 0 definitions) (numberedFrom 0 definitions')

/-- Definitions behind the new field. -/
theorem aligned_later (h : List.Forall₂ SameDefinition definitions definitions') {n : Nat} (hn : u ≤ n) :
    List.Forall₂ (AlignedEntries schema u) (numberedFrom n definitions) (numberedFrom (n + 1) definitions') := by
  induction h generalizing n with
  | nil => exact .nil
  | @cons definition definition' later later' hsame _ ih =>
    refine .cons ⟨hsame.heading, hsame.selections.aligned _ (.inr ⟨rfl, hn⟩)⟩ ?_
    have hlater := ih (n := n + fieldCount definition.selections) (by omega)
    rw [← hsame.selections.fieldCount, Nat.add_right_comm]
    exact hlater

/-- A document is aligned with one that a new field is inserted into. -/
theorem InsertsInto.aligned (h : InsertsInto schema definitions definitions') :
    ∃ u, AlignedDocuments schema u definitions definitions' := by
  suffices hfrom : ∀ n, ∃ u, n ≤ u ∧
      List.Forall₂ (AlignedEntries schema u) (numberedFrom n definitions) (numberedFrom n definitions') by
    obtain ⟨u, -, haligned⟩ := hfrom 0
    exact ⟨u, haligned⟩
  cases h with
  | intro hbefore hheading hinserts hlater =>
    induction hbefore with
    | nil =>
      intro n
      obtain ⟨u, hle, hge, haligned⟩ := hinserts.aligned n
      refine ⟨u, hle, .cons ⟨hheading, haligned⟩ ?_⟩
      have hbehind := @aligned_later schema _ _ _ hlater _ hge
      rw [hinserts.fieldCount, ← Nat.add_assoc]
      exact hbehind
    | @cons definition definition' _ _ hsame _ ih =>
      intro n
      obtain ⟨u, hle, haligned⟩ := ih (n + fieldCount definition.selections)
      refine ⟨u, by omega, .cons ⟨hsame.heading, hsame.selections.aligned _ (.inl ⟨rfl, hle⟩)⟩ ?_⟩
      rw [← hsame.selections.fieldCount]
      exact haligned

theorem AlignedDocuments.exists_occurrence (h : AlignedDocuments schema u definitions definitions')
    {y : Occurrence} (hy : y ∈ occurrences schema definitions') :
    y.type? = none ∨ ∃ x ∈ occurrences schema definitions, x.Alike y := by
  obtain ⟨definition', hmem', hy⟩ := List.mem_flatMap.1 hy
  obtain ⟨number', hmem'⟩ := exists_number hmem' 0
  obtain ⟨⟨number, definition⟩, hmem, hentry⟩ := exists_of_forall₂_right h hmem'
  rw [← hentry.heading.parent?] at hy
  apply (hentry.selections.exists_occurrence hy).imp_right
  rintro ⟨x, hx, halike⟩
  exact ⟨x, List.mem_flatMap.2 ⟨definition, mem_of_numbered hmem, hx⟩, halike⟩

end Entries

section Expansion

/-- The fields correspond: `j` is the number that `i` has after the insertion. -/
def ShiftsTo (schema : Schema) (u : Nat) (definitions definitions' : List Definition) (i j : Nat) : Prop :=
  j = shift u i ∧ ∃ x y, (occurrences schema definitions)[i]? = some x ∧
    (occurrences schema definitions')[j]? = some y ∧ x.Alike y ∧
    Aligned schema u (x.type?.map FieldType.definition) (i + 1) (j + 1) x.selections y.selections

/-- The field is the new one, of unknown type and without sub-selections. -/
def IsNew (schema : Schema) (u : Nat) (definitions' : List Definition) (j : Nat) : Prop :=
  j = u ∧ ∃ y, (occurrences schema definitions')[u]? = some y ∧ y.selections = [] ∧ y.type? = none

/-- Two selections are the same without the new field `u`. -/
inductive Aligned.One (schema : Schema) (u : Nat) (parent? : Option TypeDefinition) (n m : Nat) :
    Selection → Selection → Prop where
  | field {x y : Field} {nested nested' : List Selection} :
    m = shift u n → x.Alike y →
      Aligned schema u ((schema.fieldType? parent? x.name).map FieldType.definition) (n + 1) (m + 1) nested nested' →
      One schema u parent? n m (.field x nested) (.field y nested')
  | inline {condition? : Option Name} {nested nested' : List Selection} :
    Aligned schema u (schema.inlineType? parent? condition?) n m nested nested' →
      One schema u parent? n m (.inline condition? nested) (.inline condition? nested')
  | spread {name : Name} : One schema u parent? n m (.spread name) (.spread name)

/-- Each selection on the left has one on the right. -/
theorem Aligned.exists_right {n m : Nat} (h : Aligned schema u parent? n m selections selections') {own : Nat}
    {selection : Selection} (hmem : (own, selection) ∈ numberedSelections n selections) :
    ∃ entry' ∈ numberedSelections m selections', One schema u parent? own entry'.1 selection entry'.2 := by
  induction h with
  | nil => cases hmem
  | field hm hxy hnested _ _ ih =>
    obtain heq | hmem := List.mem_cons.1 hmem
    · obtain ⟨rfl, rfl⟩ := Prod.mk.inj heq
      exact ⟨_, .head _, .field hm hxy hnested⟩
    · exact List.exists_mem_cons_of_exists (ih hmem)
  | inline hnested _ _ ih =>
    obtain heq | hmem := List.mem_cons.1 hmem
    · obtain ⟨rfl, rfl⟩ := Prod.mk.inj heq
      exact ⟨_, .head _, .inline hnested⟩
    · exact List.exists_mem_cons_of_exists (ih hmem)
  | spread _ ih =>
    obtain heq | hmem := List.mem_cons.1 hmem
    · obtain ⟨rfl, rfl⟩ := Prod.mk.inj heq
      exact ⟨_, .head _, .spread⟩
    · exact List.exists_mem_cons_of_exists (ih hmem)
  | extra _ hnew _ ih =>
    rw [numberedSelections, hnew.fieldCount]
    exact List.exists_mem_cons_of_exists (ih hmem)

/-- Each selection on the right has one on the left or is the new one. -/
theorem Aligned.exists_left {n m : Nat} (h : Aligned schema u parent? n m selections selections') {own : Nat}
    {selection : Selection} (hmem : (own, selection) ∈ numberedSelections m selections') :
    own = u ∧ UnknownSelection schema parent? selection ∨
      ∃ entry ∈ numberedSelections n selections, One schema u parent? entry.1 own entry.2 selection := by
  induction h with
  | nil => cases hmem
  | field hm hxy hnested _ _ ih =>
    obtain heq | hmem := List.mem_cons.1 hmem
    · obtain ⟨rfl, rfl⟩ := Prod.mk.inj heq
      exact .inr ⟨_, .head _, .field hm hxy hnested⟩
    · exact (ih hmem).imp_right List.exists_mem_cons_of_exists
  | inline hnested _ _ ih =>
    obtain heq | hmem := List.mem_cons.1 hmem
    · obtain ⟨rfl, rfl⟩ := Prod.mk.inj heq
      exact .inr ⟨_, .head _, .inline hnested⟩
    · exact (ih hmem).imp_right List.exists_mem_cons_of_exists
  | spread _ ih =>
    obtain heq | hmem := List.mem_cons.1 hmem
    · obtain ⟨rfl, rfl⟩ := Prod.mk.inj heq
      exact .inr ⟨_, .head _, .spread⟩
    · exact (ih hmem).imp_right List.exists_mem_cons_of_exists
  | extra hm hnew _ ih =>
    obtain heq | hmem := List.mem_cons.1 hmem
    · obtain ⟨rfl, rfl⟩ := Prod.mk.inj heq
      exact .inl ⟨hm, hnew⟩
    · rw [hnew.fieldCount] at hmem
      exact ih hmem

variable {n m : Nat}

/-- A field that aligned selections expand to on the left is one on the right, one number further if
it stands behind the new field. -/
theorem AlignedDocuments.forth (hdocuments : AlignedDocuments schema u definitions definitions') {i : Nat}
    (hi : Expands definitions n selections i) (h : Aligned schema u parent? n m selections selections')
    (hplaced : PlacedAt schema definitions n parent? selections)
    (hplaced' : PlacedAt schema definitions' m parent? selections') :
    ∃ j, Expands definitions' m selections' j ∧ ShiftsTo schema u definitions definitions' i j := by
  refine expands_induction (P := fun n selections i => ∀ {m parent? selections'},
    Aligned schema u parent? n m selections selections' →
    PlacedAt schema definitions n parent? selections → PlacedAt schema definitions' m parent? selections' →
    ∃ j, Expands definitions' m selections' j ∧ ShiftsTo schema u definitions definitions' i j)
    ?field ?inline ?spread hi h hplaced hplaced'
  case field =>
    intro n selections own x nested hmem m parent? selections' h hplaced hplaced'
    obtain ⟨⟨m', _⟩, hmem', hone⟩ := h.exists_right hmem
    cases hone with
    | field hm hxy hnested =>
      have hx := (hplaced.of_mem hmem).here
      have hy := (hplaced'.of_mem hmem').here
      refine ⟨m', .of_mem .here hmem', hm, _, _, hx, hy, ⟨hxy, ?_, rfl⟩, hnested⟩
      exact congrArg (schema.fieldType? parent?) hxy.name
  case inline =>
    intro n selections own condition? nested i hmem _ ih m parent? selections' h hplaced hplaced'
    obtain ⟨⟨m', _⟩, hmem', hone⟩ := h.exists_right hmem
    cases hone with
    | inline hnested =>
      obtain ⟨j, hj, hij⟩ := ih hnested (hplaced.of_mem hmem).inside (hplaced'.of_mem hmem').inside
      exact ⟨j, .of_mem (.inline hj) hmem', hij⟩
  case spread =>
    intro n selections own name start fragment i hmem hfragment hname _ ih m parent? selections' h _ _
    obtain ⟨⟨m', _⟩, hmem', hone⟩ := h.exists_right hmem
    cases hone with
    | spread =>
      obtain ⟨⟨start', _⟩, hfragment', hheading, hselections⟩ := exists_of_forall₂_left hdocuments hfragment
      have hplaced' : PlacedAt schema definitions' start' _ _ := placedAt_of_mem hfragment'
      rw [← hheading.parent?] at hplaced'
      obtain ⟨j, hj, hij⟩ := ih hselections (placedAt_of_mem hfragment) hplaced'
      cases hheading with
      | fragment hsame _ => exact ⟨j, .of_mem (.spread hfragment' (hsame.symm.trans hname) hj) hmem', hij⟩

/-- A field that aligned selections expand to on the right is the new one or one on the left. -/
theorem AlignedDocuments.back (hdocuments : AlignedDocuments schema u definitions definitions') {j : Nat}
    (hj : Expands definitions' m selections' j) (h : Aligned schema u parent? n m selections selections')
    (hplaced : PlacedAt schema definitions n parent? selections)
    (hplaced' : PlacedAt schema definitions' m parent? selections') :
    IsNew schema u definitions' j ∨
      ∃ i, Expands definitions n selections i ∧ ShiftsTo schema u definitions definitions' i j := by
  refine expands_induction (P := fun m selections' j => ∀ {n parent? selections},
    Aligned schema u parent? n m selections selections' →
    PlacedAt schema definitions n parent? selections → PlacedAt schema definitions' m parent? selections' →
    IsNew schema u definitions' j ∨
      ∃ i, Expands definitions n selections i ∧ ShiftsTo schema u definitions definitions' i j)
    ?field ?inline ?spread hj h hplaced hplaced'
  case field =>
    intro m selections' own y nested' hmem' n parent? selections h hplaced hplaced'
    have hy := (hplaced'.of_mem hmem').here
    obtain ⟨rfl, hnew⟩ | ⟨⟨n', _⟩, hmem, hone⟩ := h.exists_left hmem'
    · cases hnew with
      | field hunknown => exact .inl ⟨rfl, _, hy, rfl, hunknown⟩
    · cases hone with
      | field hm hxy hnested =>
        have hx := (hplaced.of_mem hmem).here
        refine .inr ⟨n', .of_mem .here hmem, hm, _, _, hx, hy, ⟨hxy, ?_, rfl⟩, hnested⟩
        exact congrArg (schema.fieldType? parent?) hxy.name
  case inline =>
    intro m selections' own condition? nested' j hmem' hj ih n parent? selections h hplaced hplaced'
    have hinside := (hplaced'.of_mem hmem').inside
    obtain ⟨rfl, hnew⟩ | ⟨⟨n', _⟩, hmem, hone⟩ := h.exists_left hmem'
    · cases hnew with
      | @inline condition x hunknown =>
        cases hj with
        | here => exact .inl ⟨rfl, _, hinside.here, rfl, (UnknownSelection.inline hunknown).type? (.head _)⟩
        | later hnone => cases hnone
    · cases hone with
      | inline hnested =>
        apply (ih hnested (hplaced.of_mem hmem).inside hinside).imp_right
        rintro ⟨i, hi, hij⟩
        exact ⟨i, .of_mem (.inline hi) hmem, hij⟩
  case spread =>
    intro m selections' own name start' fragment' j hmem' hfragment' hname _ ih n parent? selections h _ _
    obtain ⟨-, hnew⟩ | ⟨⟨n', _⟩, hmem, hone⟩ := h.exists_left hmem'
    · cases hnew
    · cases hone with
      | spread =>
        obtain ⟨⟨start, _⟩, hfragment, hheading, hselections⟩ := exists_of_forall₂_right hdocuments hfragment'
        have hplaced' : PlacedAt schema definitions' start' _ _ := placedAt_of_mem hfragment'
        rw [← hheading.parent?] at hplaced'
        apply (ih hselections (placedAt_of_mem hfragment) hplaced').imp_right
        rintro ⟨i, hi, hij⟩
        cases hheading with
        | fragment hsame _ => exact ⟨i, .of_mem (.spread hfragment (hsame.trans hname) hi) hmem, hij⟩

/-- Aligned selections expand to corresponding fields, apart from the new one. -/
theorem AlignedDocuments.matches (hdocuments : AlignedDocuments schema u definitions definitions')
    (h : Aligned schema u parent? n m selections selections')
    (hplaced : PlacedAt schema definitions n parent? selections)
    (hplaced' : PlacedAt schema definitions' m parent? selections') :
    Matches (ShiftsTo schema u definitions definitions') (IsNew schema u definitions')
      (Expands definitions n selections) (Expands definitions' m selections') where
  forth hi := hdocuments.forth hi h hplaced hplaced'
  back hj := hdocuments.back hj h hplaced hplaced'

/-- A document is simulated by one with a new field. -/
theorem AlignedDocuments.simulates (hdocuments : AlignedDocuments schema u definitions definitions') :
    Simulates schema definitions definitions' (ShiftsTo schema u definitions definitions')
      (IsNew schema u definitions') where
  alike := by
    rintro i j ⟨-, x, y, hx, hy, hxy, -⟩
    exact ⟨x, y, hx, hy, hxy⟩
  below := by
    rintro i j ⟨-, x, y, hx, hy, hxy, haligned⟩
    have hplaced := placedAt_below hy
    rw [← hxy.type?] at hplaced
    have hmatches := hdocuments.matches haligned (placedAt_below hx) hplaced
    exact hmatches.congr (fun k => expandsBelow_iff hx) fun k => expandsBelow_iff hy
  lone := by
    rintro j k ⟨rfl, y, hy, hnone, -⟩ hbelow
    have hexpands := (expandsBelow_iff hy).1 hbelow
    rw [hnone] at hexpands
    cases hexpands
  roots := by
    intro content hcontent
    have hentries : ∀ {entry entry'}, entry ∈ numberedFrom 0 definitions → entry' ∈ numberedFrom 0 definitions' →
        AlignedEntries schema u entry entry' → CorrespondingEntries definitions definitions'
          (ShiftsTo schema u definitions definitions') (IsNew schema u definitions') entry entry' := by
      intro entry entry' hentry hentry' haligned
      have hplaced : PlacedAt schema definitions' entry'.1 _ _ := placedAt_of_mem hentry'
      rw [← haligned.heading.parent?] at hplaced
      exact ⟨haligned.heading, hdocuments.matches haligned.selections (placedAt_of_mem hentry) hplaced⟩
    refine exists_root_matches (fun entry hentry => ?_) (fun entry' hentry' => ?_) hcontent
    · obtain ⟨entry', hentry', haligned⟩ := exists_of_forall₂_left hdocuments hentry
      exact ⟨entry', hentry', hentries hentry hentry' haligned⟩
    · obtain ⟨entry, hentry, haligned⟩ := exists_of_forall₂_right hdocuments hentry'
      exact ⟨entry, hentry, hentries hentry hentry' haligned⟩

end Expansion

end SelectionMerge
