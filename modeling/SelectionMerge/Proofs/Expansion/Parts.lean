import SelectionMerge.Proofs.Expansion.Yields

/-!
# Documents put together

A document may be made of parts that share no fragment: no fragment that one part defines is defined or
spread in another. Spreads then stay within their part, and each part expands in the whole document as it
does by itself, with the numbers of its fields moved up by those that stand before it
(`PartOf.expands_iff`, `PartOf.expandsFragment_iff`, `PartOf.expandsBelow_iff`). The roots of the whole
are those of the parts (`documentRoots_append`).
-/

namespace SelectionMerge
set_option autoImplicit false

mutual

/-- The names of the fragments that a selection spreads, at any depth. -/
def Selection.spreadNames : Selection → List Name
  | .field _ selections => spreadNamesIn selections
  | .inline _ selections => spreadNamesIn selections
  | .spread name => [name]

/-- The names of the fragments that a selection set spreads, at any depth. -/
def spreadNamesIn : List Selection → List Name
  | [] => []
  | selection :: selections => selection.spreadNames ++ spreadNamesIn selections

end

/-- The name of the fragment that a definition defines. -/
def Definition.fragmentName? : Definition → Option Name
  | .fragment f => some f.name
  | _ => none

/-- The names of the fragments that a document defines. -/
def definedNames (definitions : List Definition) : List Name :=
  definitions.filterMap Definition.fragmentName?

/-- The names of the fragments that a document spreads. -/
def spreadNames (definitions : List Definition) : List Name :=
  definitions.flatMap fun definition => spreadNamesIn definition.selections

/-- No fragment that one of the documents defines is defined or spread in the other. -/
structure Independent (first second : List Definition) : Prop where
  apart : ∀ name ∈ definedNames first, name ∉ definedNames second ∧ name ∉ spreadNames second
  apart' : ∀ name ∈ definedNames second, name ∉ definedNames first ∧ name ∉ spreadNames first

/-- The number of field selections of a document. -/
def documentFieldCount (definitions : List Definition) : Nat :=
  fieldCount (definitions.flatMap Definition.selections)

theorem documentFieldCount_cons (definition : Definition) (definitions : List Definition) :
    documentFieldCount (definition :: definitions) =
      fieldCount definition.selections + documentFieldCount definitions := by
  unfold documentFieldCount
  rw [List.flatMap_cons, fieldCount_append]

theorem length_occurrences (schema : Schema) (definitions : List Definition) :
    (occurrences schema definitions).length = documentFieldCount definitions := by
  induction definitions with
  | nil => rfl
  | cons definition definitions ih =>
    unfold occurrences at ih ⊢
    rw [List.flatMap_cons, List.length_append, length_occurrencesIn, ih, documentFieldCount_cons]

/-- Definitions behind others have their numbers moved up. -/
theorem numberedFrom_append (first : Nat) (before definitions : List Definition) :
    numberedFrom first (before ++ definitions) =
      numberedFrom first before ++ numberedFrom (first + documentFieldCount before) definitions := by
  induction before generalizing first with
  | nil => rfl
  | cons definition before ih =>
    rw [List.cons_append, numberedFrom, numberedFrom, ih, documentFieldCount_cons, Nat.add_assoc, List.cons_append]

theorem numberedFrom_add (offset first : Nat) (definitions : List Definition) :
    numberedFrom (offset + first) definitions =
      (numberedFrom first definitions).map (Prod.map (offset + ·) id) := by
  induction definitions generalizing first with
  | nil => rfl
  | cons definition definitions ih =>
    rw [numberedFrom, numberedFrom, List.map_cons, Nat.add_assoc, ih]
    rfl

theorem mem_definedNames {definitions : List Definition} {name : Name} :
    name ∈ definedNames definitions ↔ ∃ fragment, .fragment fragment ∈ definitions ∧ fragment.name = name := by
  unfold definedNames
  rw [List.mem_filterMap]
  constructor
  · rintro ⟨definition, hmem, hname⟩
    cases definition with
    | operation operation => cases hname
    | fragment fragment => exact ⟨fragment, hmem, Option.some.inj hname⟩
    | typeSystem definition => cases hname
  · rintro ⟨fragment, hmem, rfl⟩
    exact ⟨_, hmem, rfl⟩

/-- The sub-selections of a field spread no other fragments than the selections that it stands in. -/
theorem spreadNames_of_occurrence {schema : Schema} {parent? : Option TypeDefinition}
    {selections : List Selection} {occurrence : Occurrence} (h : occurrence ∈ occurrencesIn schema parent? selections) :
    ∀ name ∈ spreadNamesIn occurrence.selections, name ∈ spreadNamesIn selections := by
  induction selections using selections_induction generalizing parent? with
  | nil => cases h
  | field field nested later ih ih' =>
    intro name hname
    unfold spreadNamesIn
    rw [List.mem_append]
    simp only [occurrencesIn, Selection.occurrences, List.cons_append, List.mem_cons, List.mem_append] at h
    obtain rfl | h | h := h
    · exact .inl hname
    · exact .inl (ih h name hname)
    · exact .inr (ih' h name hname)
  | inline condition? nested later ih ih' =>
    intro name hname
    unfold spreadNamesIn
    rw [List.mem_append]
    simp only [occurrencesIn, Selection.occurrences, List.mem_append] at h
    obtain h | h := h
    · exact .inl (ih h name hname)
    · exact .inr (ih' h name hname)
  | spread fragment later ih =>
    intro name hname
    exact List.mem_append_right _ (ih h name hname)

/-- The document has the part, behind `offset` other fields, and the fragments of the part are its own. -/
inductive PartOf (part : List Definition) : Nat → List Definition → Prop where
  | intro {before after : List Definition} :
    (∀ name ∈ definedNames before ++ definedNames after, name ∉ definedNames part ∧ name ∉ spreadNames part) →
      PartOf part (documentFieldCount before) (before ++ part ++ after)

namespace PartOf

variable {part whole : List Definition} {offset : Nat} (h : PartOf part offset whole)
include h

/-- The definitions of the part are numbered behind the other fields. -/
theorem numbered {start : Nat} {definition : Definition} (hmem : (start, definition) ∈ numberedFrom 0 part) :
    (offset + start, definition) ∈ numberedFrom 0 whole := by
  obtain @⟨before, after, -⟩ := h
  rw [numberedFrom_append, numberedFrom_append, Nat.zero_add]
  refine List.mem_append_left _ (List.mem_append_right _ ?_)
  have hadd := numberedFrom_add (documentFieldCount before) 0 part
  rw [Nat.add_zero] at hadd
  rw [hadd]
  exact List.mem_map_of_mem hmem

/-- All definitions of a fragment that the part defines or spreads are in the part. -/
theorem exists_numbered {start : Nat} {fragment : Fragment}
    (hmem : (start, .fragment fragment) ∈ numberedFrom 0 whole)
    (hname : fragment.name ∈ definedNames part ∨ fragment.name ∈ spreadNames part) :
    ∃ start', (start', .fragment fragment) ∈ numberedFrom 0 part ∧ offset + start' = start := by
  obtain @⟨before, after, hown⟩ := h
  have hforeign : ∀ {first : Nat} {definitions : List Definition},
      (start, .fragment fragment) ∈ numberedFrom first definitions → fragment.name ∈ definedNames definitions :=
    fun hmem => mem_definedNames.2 ⟨fragment, mem_of_numbered hmem, rfl⟩
  rw [numberedFrom_append, numberedFrom_append, Nat.zero_add, List.mem_append, List.mem_append] at hmem
  obtain (hmem | hmem) | hmem := hmem
  · obtain ⟨hdefined, hspread⟩ := hown _ (List.mem_append_left _ (hforeign hmem))
    exact absurd hname (not_or.2 ⟨hdefined, hspread⟩)
  · have hadd := numberedFrom_add (documentFieldCount before) 0 part
    rw [Nat.add_zero] at hadd
    rw [hadd] at hmem
    obtain ⟨⟨start', definition⟩, hmem, heq⟩ := List.mem_map.1 hmem
    obtain ⟨hstart, hdefinition⟩ := Prod.mk.inj heq
    obtain rfl : definition = .fragment fragment := hdefinition
    exact ⟨start', hmem, hstart⟩
  · obtain ⟨hdefined, hspread⟩ := hown _ (List.mem_append_right _ (hforeign hmem))
    exact absurd hname (not_or.2 ⟨hdefined, hspread⟩)

/-- The part has its field selections at the same distance from its beginning. -/
theorem getElem?_occurrences {schema : Schema} {i : Nat} (hi : i < (occurrences schema part).length) :
    (occurrences schema whole)[offset + i]? = (occurrences schema part)[i]? := by
  obtain ⟨-⟩ := h
  unfold occurrences at hi ⊢
  rw [← length_occurrences schema, List.flatMap_append, List.flatMap_append, List.append_assoc]
  unfold occurrences
  rw [List.getElem?_append_right (Nat.le_add_right _ _), Nat.add_sub_cancel_left, List.getElem?_append_left hi]

/-- What selections of the part expand to in the document. -/
theorem expands_iff {first : Nat} {selections : List Selection}
    (hspreads : ∀ name ∈ spreadNamesIn selections, name ∈ spreadNames part) (j : Nat) :
    Expands whole (offset + first) selections j ↔ ∃ k, Expands part first selections k ∧ offset + k = j := by
  constructor
  · intro hexpands
    generalize hn : offset + first = n at hexpands
    induction hexpands generalizing first with
    | here => exact ⟨first, .here, hn⟩
    | later _ ih =>
      subst hn
      obtain ⟨k, hk, hj⟩ := ih (fun name hname => hspreads name (List.mem_append_right _ hname)) (Nat.add_assoc _ _ _).symm
      exact ⟨k, .later hk, hj⟩
    | inline _ ih =>
      obtain ⟨k, hk, hj⟩ := ih (fun name hname => hspreads name (List.mem_append_left _ hname)) hn
      exact ⟨k, .inline hk, hj⟩
    | spread hmem hname _ ih =>
      have hspread := hspreads _ (List.mem_append_left _ (.head _))
      obtain ⟨start, hstart, rfl⟩ := h.exists_numbered hmem (.inr (hname ▸ hspread))
      have hnested := mem_of_numbered hstart
      obtain ⟨k, hk, hj⟩ := ih (fun name hname => List.mem_flatMap.2 ⟨_, hnested, hname⟩) rfl
      exact ⟨k, .spread hstart hname hk, hj⟩
  · rintro ⟨k, hexpands, rfl⟩
    clear hspreads
    induction hexpands with
    | here => exact .here
    | later _ ih => exact .later (Nat.add_assoc _ _ _ ▸ ih)
    | inline _ ih => exact .inline ih
    | spread hmem hname _ ih => exact .spread (h.numbered hmem) hname ih

/-- What a fragment of the part expands to in the document. -/
theorem expandsFragment_iff {name : Name} (hname : name ∈ definedNames part) (j : Nat) :
    ExpandsFragment whole name j ↔ ∃ k, ExpandsFragment part name k ∧ offset + k = j := by
  have hspreads : ∀ {start fragment}, (start, .fragment fragment) ∈ numberedFrom 0 part →
      ∀ name ∈ spreadNamesIn fragment.selections, name ∈ spreadNames part :=
    fun hmem name hname => List.mem_flatMap.2 ⟨_, mem_of_numbered hmem, hname⟩
  constructor
  · rintro ⟨_, fragment, hmem, rfl, hj⟩
    obtain ⟨start, hstart, rfl⟩ := h.exists_numbered hmem (.inl hname)
    obtain ⟨k, hk, hkj⟩ := (h.expands_iff (hspreads hstart) j).1 hj
    exact ⟨k, ⟨start, fragment, hstart, rfl, hk⟩, hkj⟩
  · rintro ⟨k, ⟨start, fragment, hstart, rfl, hk⟩, hkj⟩
    exact ⟨_, fragment, h.numbered hstart, rfl, (h.expands_iff (hspreads hstart) j).2 ⟨k, hk, hkj⟩⟩

/-- What the sub-selections of a field of the part expand to in the document. -/
theorem expandsBelow_iff {schema : Schema} {i : Nat} (hi : i < (occurrences schema part).length) (j : Nat) :
    ExpandsBelow schema whole (offset + i) j ↔ ∃ k, ExpandsBelow schema part i k ∧ offset + k = j := by
  have hoccurrence := List.getElem?_eq_getElem hi
  have hspreads : ∀ name ∈ spreadNamesIn (occurrences schema part)[i].selections, name ∈ spreadNames part := by
    intro name hname
    obtain ⟨definition, hdefinition, hmem⟩ := List.mem_flatMap.1 (List.getElem_mem hi)
    exact List.mem_flatMap.2 ⟨definition, hdefinition, spreadNames_of_occurrence hmem name hname⟩
  rw [SelectionMerge.expandsBelow_iff ((h.getElem?_occurrences hi).trans hoccurrence), Nat.add_assoc,
    h.expands_iff hspreads]
  simp only [SelectionMerge.expandsBelow_iff hoccurrence]

end PartOf

/-- The content with its fields moved up. -/
def Content.shift (offset : Nat) : Content → Content
  | .selections first nested => .selections (offset + first) nested
  | .fragment name => .fragment name

theorem Content.shift_zero (content : Content) : content.shift 0 = content := by
  cases content with
  | selections first nested => rw [shift, Nat.zero_add]
  | fragment name => rfl

theorem rootsFrom_add (offset first : Nat) (defined : List Name) (definitions : List Definition) :
    rootsFrom (offset + first) defined definitions = (rootsFrom first defined definitions).map (Content.shift offset) := by
  induction definitions generalizing first defined with
  | nil => rfl
  | cons definition definitions ih =>
    cases definition with
    | operation operation =>
      simp only [rootsFrom, List.map_cons, Nat.add_assoc, ih]
      rfl
    | fragment fragment =>
      simp only [rootsFrom, Nat.add_assoc, ih]
      split <;> rfl
    | typeSystem definition => exact ih first defined

/-- Only the fragments that are defined again matter to the roots that definitions add. -/
theorem rootsFrom_congr {defined defined' : List Name} {definitions : List Definition}
    (h : ∀ name ∈ definedNames definitions, name ∈ defined ↔ name ∈ defined') (first : Nat) :
    rootsFrom first defined definitions = rootsFrom first defined' definitions := by
  induction definitions generalizing first defined defined' with
  | nil => rfl
  | cons definition definitions ih =>
    cases definition with
    | operation operation => simp only [rootsFrom, ih h]
    | fragment fragment =>
      have hlater : ∀ name ∈ definedNames definitions, name ∈ defined ↔ name ∈ defined' :=
        fun name hname => h name (.tail _ hname)
      have hnew : ∀ name ∈ definedNames definitions, name ∈ fragment.name :: defined ↔ name ∈ fragment.name :: defined' :=
        fun name hname => by rw [List.mem_cons, List.mem_cons, hlater name hname]
      have hfirst := h fragment.name (.head _)
      simp only [rootsFrom, hfirst, ih hlater, ih hnew]
    | typeSystem definition => exact ih h first

/-- Definitions of other fragments add their own roots behind those before them. -/
theorem rootsFrom_append {before definitions : List Definition}
    (h : ∀ name ∈ definedNames definitions, name ∉ definedNames before) (first : Nat) (defined : List Name) :
    rootsFrom first defined (before ++ definitions) =
      rootsFrom first defined before ++ rootsFrom (first + documentFieldCount before) defined definitions := by
  induction before generalizing first defined with
  | nil => rfl
  | cons definition before ih =>
    rw [documentFieldCount_cons, ← Nat.add_assoc, List.cons_append]
    cases definition with
    | operation operation =>
      simp only [rootsFrom, List.cons_append, ih h]
      rfl
    | fragment fragment =>
      have hlater : ∀ name ∈ definedNames definitions, name ∉ definedNames before :=
        fun name hname hmem => h name hname (.tail _ hmem)
      have hother : ∀ name ∈ definedNames definitions, name ∈ fragment.name :: defined ↔ name ∈ defined := by
        refine fun name hname => List.mem_cons.trans (or_iff_right ?_)
        rintro rfl
        exact h _ hname (.head _)
      simp only [rootsFrom, ih hlater, rootsFrom_congr hother]
      split <;> rfl
    | typeSystem definition => exact ih h first defined

namespace Independent

variable {first second : List Definition} (h : Independent first second)
include h

theorem documentRoots_append : documentRoots (first ++ second) =
    documentRoots first ++ (documentRoots second).map (Content.shift (documentFieldCount first)) := by
  have hadd := rootsFrom_add (documentFieldCount first) 0 [] second
  rw [Nat.add_zero] at hadd
  unfold documentRoots
  rw [rootsFrom_append (fun name hname => (h.apart' name hname).1), Nat.zero_add, hadd]

theorem partOf_first : PartOf first 0 (first ++ second) :=
  @PartOf.intro first [] second h.apart'

theorem partOf_second : PartOf second (documentFieldCount first) (first ++ second) := by
  have hpart : PartOf second (documentFieldCount first) (first ++ second ++ []) :=
    .intro fun name hname => h.apart name (by simpa [definedNames] using hname)
  rwa [List.append_nil] at hpart

end Independent

end SelectionMerge
