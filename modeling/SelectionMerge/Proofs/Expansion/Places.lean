import Mathlib.Data.List.Nodup
import SelectionMerge.Proofs.Expansion.Levels

/-!
# Where field selections stand

A field selection stands at the level of a definition or of the sub-selections of another field. The levels
of a document have all its fields, each of them once (`documentLevels_perm`), so each field has a place and
no other one (`exists_place_iff`, `Place.eq_of_has`). With the spreads, places say what selections expand to:
the fields at their own level, and those at the levels of the fragments that they lead to
(`expands_iff_leadsTo`).
-/

namespace SelectionMerge
set_option autoImplicit false

/-- The fields at the levels of the sub-selections of field selections, which come with their numbers. -/
def nestedLevels (entries : List (Occurrence × Nat)) : List Nat :=
  entries.flatMap fun entry => levelFields (entry.2 + 1) entry.1.selections

/-- The fields at the levels of definitions, which come with the numbers of their first fields. -/
def definitionLevels (entries : List (Nat × Definition)) : List Nat :=
  entries.flatMap fun entry => levelFields entry.1 entry.2.selections

/-- Field selections from number `first` on stand at the level `own` or below one of them, each at one
level. -/
def CoversLevels (first : Nat) (own : List Nat) (fields : List Occurrence) : Prop :=
  (own ++ nestedLevels (fields.zipIdx first)).Perm (List.range' first fields.length)

namespace CoversLevels

variable {first : Nat} {own own' : List Nat} {fields fields' : List Occurrence}

theorem nil (first : Nat) : CoversLevels first [] [] :=
  List.Perm.nil

theorem append (h : CoversLevels first own fields) (h' : CoversLevels (first + fields.length) own' fields') :
    CoversLevels first (own ++ own') (fields ++ fields') := by
  unfold CoversLevels nestedLevels at *
  rw [List.zipIdx_append, List.flatMap_append, List.length_append, ← List.range'_append_1]
  refine List.Perm.trans ?_ (List.Perm.append h h')
  rw [List.append_assoc, List.append_assoc]
  apply List.Perm.append_left
  rw [← List.append_assoc, ← List.append_assoc]
  exact List.perm_append_comm.append_right _

/-- A field stands at its own level, and the fields at the level of its sub-selections right below it. -/
theorem field {occurrence : Occurrence}
    (h : CoversLevels (first + 1) (levelFields (first + 1) occurrence.selections) fields) :
    CoversLevels first [first] (occurrence :: fields) :=
  List.Perm.cons first h

end CoversLevels

/-- The levels in a selection set have each field of it once. -/
theorem coversLevels (schema : Schema) (selections : List Selection) (parent? : Option TypeDefinition)
    (first : Nat) : CoversLevels first (levelFields first selections) (occurrencesIn schema parent? selections) := by
  induction selections using selections_induction generalizing parent? first with
  | nil => exact .nil first
  | field x nested later ih ih' =>
    refine .append (.field (ih _ _)) ?_
    rw [Selection.length_occurrences]
    exact ih' _ _
  | inline condition? nested later ih ih' =>
    refine .append (ih _ _) ?_
    rw [Selection.length_occurrences]
    exact ih' _ _
  | spread name later ih => exact ih _ _

/-- The levels of a document have each of its fields once. -/
theorem documentLevels_perm (schema : Schema) (definitions : List Definition) (first : Nat) :
    CoversLevels first (definitionLevels (numberedFrom first definitions)) (occurrences schema definitions) := by
  induction definitions generalizing first with
  | nil => exact .nil first
  | cons definition definitions ih =>
    refine (coversLevels schema definition.selections _ first).append ?_
    rw [length_occurrencesIn]
    exact ih _

/-- Where a field can stand: at the level of a definition, by its index, or right below a field. -/
inductive Place where
  | definition (index : Nat)
  | field (above : Nat)

/-- The field stands in that place. -/
def Place.Has (schema : Schema) (definitions : List Definition) : Place → Nat → Prop
  | .definition index, i => ∃ entry, (numberedFrom 0 definitions)[index]? = some entry ∧
      i ∈ levelFields entry.1 entry.2.selections
  | .field above, i => ∃ occurrence, (occurrences schema definitions)[above]? = some occurrence ∧
      i ∈ levelFields (above + 1) occurrence.selections

section Places

variable {schema : Schema} {definitions : List Definition} {i : Nat}

/-- The fields that have a place are those of the document. -/
theorem exists_place_iff : (∃ place : Place, place.Has schema definitions i) ↔
    i < (occurrences schema definitions).length := by
  have hperm := (documentLevels_perm schema definitions 0).mem_iff (a := i)
  rw [List.mem_range'_1, Nat.zero_add] at hperm
  have hlt := and_iff_right (b := i < (occurrences schema definitions).length) (Nat.zero_le i)
  rw [← hlt, ← hperm, List.mem_append]
  unfold definitionLevels nestedLevels
  rw [List.mem_flatMap, List.mem_flatMap]
  constructor
  · rintro ⟨index | above, entry, hentry, hi⟩
    · exact .inl ⟨entry, List.mem_of_getElem? hentry, hi⟩
    · exact .inr ⟨(entry, above), List.mk_mem_zipIdx_iff_getElem?.2 hentry, hi⟩
  · rintro (⟨entry, hentry, hi⟩ | ⟨⟨occurrence, above⟩, hentry, hi⟩)
    · obtain ⟨index, hindex⟩ := List.getElem?_of_mem hentry
      exact ⟨.definition index, entry, hindex, hi⟩
    · exact ⟨.field above, occurrence, List.mk_mem_zipIdx_iff_getElem?.1 hentry, hi⟩

/-- Where the items of a list have no element in common, each element belongs to one of them. -/
theorem eq_of_pairwise_disjoint {α β : Type} {f : β → List α} {items : List β}
    (h : items.Pairwise (Function.onFun List.Disjoint f)) {p q : Nat} {x y : β} (hx : items[p]? = some x)
    (hy : items[q]? = some y) {a : α} (ha : a ∈ f x) (ha' : a ∈ f y) : p = q := by
  obtain ⟨hp, rfl⟩ := List.getElem?_eq_some_iff.1 hx
  obtain ⟨hq, rfl⟩ := List.getElem?_eq_some_iff.1 hy
  have hapart := List.pairwise_iff_getElem.1 h
  obtain hlt | heq | hlt := Nat.lt_trichotomy p q
  · exact absurd ha' (hapart p q hp hq hlt ha)
  · exact heq
  · exact absurd ha (hapart q p hq hp hlt ha')

/-- A field stands in one place. -/
theorem Place.eq_of_has {p q : Place} (hp : p.Has schema definitions i) (hq : q.Has schema definitions i) :
    p = q := by
  have hnodup := (documentLevels_perm schema definitions 0).nodup_iff.2 List.nodup_range'
  obtain ⟨hdefinitions, hfields, hapart⟩ := List.nodup_append'.1 hnodup
  have hdefinitions := (List.nodup_flatMap.1 hdefinitions).2
  have hfields := (List.nodup_flatMap.1 hfields).2
  have hnested : ∀ {above : Nat} {x : Occurrence}, (occurrences schema definitions)[above]? = some x →
      ((occurrences schema definitions).zipIdx)[above]? = some (x, above) := by
    intro above x hx
    rw [List.getElem?_zipIdx, hx, Option.map_some, Nat.zero_add]
  obtain index | above := p
  all_goals
    obtain index' | above' := q
    all_goals
      obtain ⟨x, hx, hi⟩ := hp
      obtain ⟨y, hy, hi'⟩ := hq
  · exact congrArg Place.definition (eq_of_pairwise_disjoint hdefinitions hx hy hi hi')
  · exact absurd (List.mem_flatMap.2 ⟨_, List.mem_of_getElem? (hnested hy), hi'⟩)
      (hapart (List.mem_flatMap.2 ⟨_, List.mem_of_getElem? hx, hi⟩))
  · exact absurd (List.mem_flatMap.2 ⟨_, List.mem_of_getElem? (hnested hx), hi⟩)
      (hapart (List.mem_flatMap.2 ⟨_, List.mem_of_getElem? hy, hi'⟩))
  · exact congrArg Place.field (eq_of_pairwise_disjoint hfields (hnested hx) (hnested hy) hi hi')

end Places

section Expansion

variable {definitions : List Definition} {selections : List Selection} {first i : Nat} {name : Name}

/-- The field stands at the level of a definition of the fragment. -/
def InFragment (definitions : List Definition) (name : Name) (i : Nat) : Prop :=
  ∃ start fragment, (start, .fragment fragment) ∈ numberedFrom 0 definitions ∧ fragment.name = name ∧
    i ∈ levelFields start fragment.selections

/-- Selections expand to the fields at their level and to those at the levels of the fragments that they
lead to. -/
theorem expands_iff_leadsTo : Expands definitions first selections i ↔
    i ∈ levelFields first selections ∨
      ∃ name, LeadsTo definitions selections name ∧ InFragment definitions name i := by
  constructor
  · intro h
    refine levels_induction ?_ ?_ h
    · exact fun hfield => .inl hfield
    · intro first selections start fragment i hspread hmem _ ih
      have hdefined : .fragment fragment ∈ definitions := mem_of_numbered hmem
      obtain hfield | ⟨name, hleads, hname⟩ := ih
      · refine .inr ⟨fragment.name, .spread hspread ?_, start, fragment, hmem, rfl, hfield⟩
        exact mem_definedNames.2 ⟨fragment, hdefined, rfl⟩
      · exact .inr ⟨name, .through hspread hdefined hleads, hname⟩
  · rintro (hfield | ⟨name, hleads, start, fragment, hmem, hname, hfield⟩)
    · exact expands_of_mem_levelFields hfield
    · exact hleads.expands ⟨start, fragment, hmem, hname, expands_of_mem_levelFields hfield⟩

end Expansion

end SelectionMerge
