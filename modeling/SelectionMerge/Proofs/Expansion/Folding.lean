import SelectionMerge.Proofs.Expansion.Doubling

/-!
# Expansions of a document that folds

A document that folds onto another one expands to what the other does, and to all copies of it: a field
belongs to an operation or a fragment exactly if the field does that it comes from (`FoldsOnto.entries_expand`,
`FoldsOnto.expandsFragment_iff`), and it belongs to the sub-selections of a field or of a copy of that field
exactly if the one that it comes from does (`FoldsOnto.expandsBelow_iff`).

In one direction this is what folding says of each level. In the other direction it takes that a field has
some place, that this place folds onto one of the field that it comes from, and that a field has no other
place (`FoldsOnto.has_iff`).
-/

namespace SelectionMerge
set_option autoImplicit false

/-- Spreads lead to no less where the same fragments are defined and each is spread wherever it was. -/
theorem LeadsTo.mono {definitions definitions' : List Definition} {selections selections' : List Selection}
    {name : Name}
    (hfragments : ∀ {fragment : Fragment}, .fragment fragment ∈ definitions → ∃ fragment' : Fragment,
      .fragment fragment' ∈ definitions' ∧ fragment'.name = fragment.name ∧
        ∀ spread ∈ levelSpreads fragment.selections, spread ∈ levelSpreads fragment'.selections)
    (h : LeadsTo definitions selections name)
    (hspreads : ∀ spread ∈ levelSpreads selections, spread ∈ levelSpreads selections') :
    LeadsTo definitions' selections' name := by
  induction h generalizing selections' with
  | spread hspread hdefined =>
    obtain ⟨fragment, hmem, rfl⟩ := mem_definedNames.1 hdefined
    obtain ⟨fragment', hmem', hname, -⟩ := hfragments hmem
    exact .spread (hspreads _ hspread) (mem_definedNames.2 ⟨fragment', hmem', hname⟩)
  | @through _ fragment _ hspread hmem _ ih =>
    obtain ⟨fragment', hmem', hname, hlevel⟩ := hfragments hmem
    have hspread' := hspreads _ hspread
    rw [← hname] at hspread'
    exact .through hspread' hmem' (ih hlevel)

/-- Where definitions correspond with what holds of their selections, so do the fragments of a name. -/
theorem exists_fragment_iff (P P' : Nat → List Selection → Prop) {entries entries' : List (Nat × Definition)}
    (h : List.Forall₂ (fun entry entry' => entry.2.SameHeading entry'.2 ∧
      (P' entry'.1 entry'.2.selections ↔ P entry.1 entry.2.selections)) entries entries') {name : Name} :
    (∃ start fragment, (start, .fragment fragment) ∈ entries' ∧ fragment.name = name ∧ P' start fragment.selections) ↔
      ∃ start fragment, (start, .fragment fragment) ∈ entries ∧ fragment.name = name ∧ P start fragment.selections := by
  constructor
  · rintro ⟨start', fragment', hmem', rfl, hp'⟩
    obtain ⟨⟨start, definition⟩, hmem, hheading, hiff⟩ := exists_of_forall₂_right h hmem'
    have hp := hiff.1 hp'
    cases hheading with
    | fragment hname => exact ⟨start, _, hmem, hname, hp⟩
  · rintro ⟨start, fragment, hmem, rfl, hp⟩
    obtain ⟨⟨start', definition'⟩, hmem', hheading, hiff⟩ := exists_of_forall₂_left h hmem
    have hp' := hiff.2 hp
    cases hheading with
    | fragment hname => exact ⟨start', _, hmem', hname.symm, hp'⟩

/-- The place that a place comes from. -/
def Place.map (origin : Nat → Nat) : Place → Place
  | .definition index => .definition index
  | .field above => .field (origin above)

namespace FoldsOnto

variable {schema : Schema} {origin : Nat → Nat} {definitions definitions' : List Definition}
variable (h : FoldsOnto schema origin definitions' definitions)
include h

/-- A field selection is written like the one that it comes from, and its sub-selections fold. -/
theorem occurrence {j : Nat} {y : Occurrence} (hy : (occurrences schema definitions')[j]? = some y) :
    ∃ x, (occurrences schema definitions)[origin j]? = some x ∧ x.Alike y ∧
      FoldsLevel origin (j + 1) (origin j + 1) y.selections x.selections := by
  obtain ⟨number, definition', k, hmem', hsum, hk⟩ := SelectionGraph.exists_definition 0 hy
  obtain ⟨⟨start, definition⟩, hmem, hentry⟩ := exists_of_forall₂_right h.entries hmem'
  obtain rfl : j = number + k := by omega
  rw [← hentry.heading.parent?] at hk
  have hfield : (y, number + k) ∈
      (occurrencesIn schema (definition.parent? schema) definition'.selections).zipIdx number := by
    rw [List.mk_mem_zipIdx_iff_le_and_getElem?_sub, Nat.add_sub_cancel_left]
    exact ⟨Nat.le_add_right _ _, hk⟩
  obtain ⟨x, hx, hsame⟩ := hentry.selections.nested _ hfield
  obtain ⟨hle, hx⟩ := List.mk_mem_zipIdx_iff_le_and_getElem?_sub.1 hx
  have hplaced := placedAt_of_mem hmem _ _ hx
  rw [Nat.add_sub_cancel' hle] at hplaced
  exact ⟨x, hplaced, hsame⟩

/-- A field has its copies, and each of them comes from a field. -/
theorem lt_iff_lt (j : Nat) :
    j < (occurrences schema definitions').length ↔ origin j < (occurrences schema definitions).length := by
  rw [length_occurrences, length_occurrences]
  exact h.lt_iff j

/-- Where a field stands, there stands the one that it comes from. -/
theorem has {place : Place} {j : Nat} (hplace : place.Has schema definitions' j) :
    (place.map origin).Has schema definitions (origin j) := by
  cases place with
  | definition index =>
    obtain ⟨entry', hentry', hj⟩ := hplace
    obtain ⟨hlt, rfl⟩ := List.getElem?_eq_some_iff.1 hentry'
    obtain ⟨hlength, hentries⟩ := List.forall₂_iff_get.1 h.entries
    have hlt' := hlength ▸ hlt
    exact ⟨_, List.getElem?_eq_getElem hlt', (hentries index hlt' hlt).selections.fields j hj⟩
  | field above =>
    obtain ⟨y, hy, hj⟩ := hplace
    obtain ⟨x, hx, -, hlevel⟩ := h.occurrence hy
    exact ⟨x, hx, hlevel.fields j hj⟩

/-- A field stands where the one that it comes from does, or in a copy of that place. -/
theorem has_iff {place : Place} {j : Nat} : place.Has schema definitions (origin j) ↔
    ∃ place' : Place, place'.map origin = place ∧ place'.Has schema definitions' j := by
  constructor
  · intro hplace
    have hlt := (h.lt_iff_lt j).2 (exists_place_iff.1 ⟨place, hplace⟩)
    obtain ⟨place', hplace'⟩ := exists_place_iff.2 hlt
    exact ⟨place', Place.eq_of_has (h.has hplace') hplace, hplace'⟩
  · rintro ⟨place', rfl, hplace'⟩
    exact h.has hplace'

/-- At the level of a definition are all copies of the fields there. -/
theorem mem_level_iff {index j : Nat} {entry entry' : Nat × Definition}
    (hentry : (numberedFrom 0 definitions)[index]? = some entry)
    (hentry' : (numberedFrom 0 definitions')[index]? = some entry') :
    j ∈ levelFields entry'.1 entry'.2.selections ↔ origin j ∈ levelFields entry.1 entry.2.selections := by
  constructor
  · intro hj
    have hplace : (Place.definition index).Has schema definitions' j := ⟨entry', hentry', hj⟩
    obtain ⟨_, hentry₂, hi⟩ := h.has hplace
    obtain rfl := Option.some.inj (hentry.symm.trans hentry₂)
    exact hi
  · intro hi
    have hplace : (Place.definition index).Has schema definitions (origin j) := ⟨entry, hentry, hi⟩
    obtain ⟨index' | above, heq, hplace'⟩ := h.has_iff.1 hplace
    · obtain rfl := Place.definition.inj heq
      obtain ⟨_, hentry₂, hj⟩ := hplace'
      obtain rfl := Option.some.inj (hentry'.symm.trans hentry₂)
      exact hj
    · cases heq

theorem levels : List.Forall₂ (fun entry entry' => FoldsEntry schema origin entry entry' ∧
      ∀ j, j ∈ levelFields entry'.1 entry'.2.selections ↔ origin j ∈ levelFields entry.1 entry.2.selections)
    (numberedFrom 0 definitions) (numberedFrom 0 definitions') := by
  obtain ⟨hlength, hentries⟩ := List.forall₂_iff_get.1 h.entries
  refine List.forall₂_iff_get.2 ⟨hlength, fun index hlt hlt' => ⟨hentries index hlt hlt', fun j => ?_⟩⟩
  exact h.mem_level_iff (List.getElem?_eq_getElem hlt) (List.getElem?_eq_getElem hlt')

/-- The same spreads lead to the same fragments. -/
theorem leadsTo_iff {selections selections' : List Selection} {name : Name}
    (hspreads : ∀ spread, spread ∈ levelSpreads selections' ↔ spread ∈ levelSpreads selections) :
    LeadsTo definitions' selections' name ↔ LeadsTo definitions selections name := by
  constructor
  · refine fun hleads => hleads.mono (fun {fragment'} hmem' => ?_) fun spread hspread => (hspreads spread).1 hspread
    obtain ⟨start', hstart'⟩ := exists_number hmem' 0
    obtain ⟨⟨start, definition⟩, hmem, hheading, hfolds⟩ := exists_of_forall₂_right h.entries hstart'
    cases hheading with
    | fragment hname => exact ⟨_, mem_of_numbered hmem, hname, fun spread => (hfolds.spreads spread).1⟩
  · refine fun hleads => hleads.mono (fun {fragment} hmem => ?_) fun spread hspread => (hspreads spread).2 hspread
    obtain ⟨start, hstart⟩ := exists_number hmem 0
    obtain ⟨⟨start', definition'⟩, hmem', hheading, hfolds⟩ := exists_of_forall₂_left h.entries hstart
    cases hheading with
    | fragment hname => exact ⟨_, mem_of_numbered hmem', hname.symm, fun spread => (hfolds.spreads spread).2⟩

theorem inFragment_iff {name : Name} {j : Nat} :
    InFragment definitions' name j ↔ InFragment definitions name (origin j) := by
  refine exists_fragment_iff (fun start selections => origin j ∈ levelFields start selections)
    (fun start selections => j ∈ levelFields start selections) ?_
  exact h.levels.imp fun _ _ ⟨hentry, hlevel⟩ => ⟨hentry.heading, hlevel j⟩

/-- Definitions expand to all copies of what they did. -/
theorem entries_expand : List.Forall₂ (fun entry entry' => entry.2.SameHeading entry'.2 ∧
      ∀ j, Expands definitions' entry'.1 entry'.2.selections j ↔
        Expands definitions entry.1 entry.2.selections (origin j))
    (numberedFrom 0 definitions) (numberedFrom 0 definitions') := by
  refine h.levels.imp fun entry entry' ⟨hentry, hlevel⟩ => ⟨hentry.heading, fun j => ?_⟩
  simp only [expands_iff_leadsTo, hlevel, h.leadsTo_iff hentry.selections.spreads, h.inFragment_iff]

/-- A fragment expands to all copies of what it did. -/
theorem expandsFragment_iff {name : Name} {j : Nat} :
    ExpandsFragment definitions' name j ↔ ExpandsFragment definitions name (origin j) := by
  refine exists_fragment_iff (fun start selections => Expands definitions start selections (origin j))
    (fun start selections => Expands definitions' start selections j) ?_
  exact h.entries_expand.imp fun _ _ ⟨hheading, hexpands⟩ => ⟨hheading, hexpands j⟩

/-- A field belongs below a field or one of its copies if the one that it comes from belongs below this field. -/
theorem expandsBelow_iff {above j : Nat} : ExpandsBelow schema definitions above (origin j) ↔
    ∃ above', origin above' = above ∧ ExpandsBelow schema definitions' above' j := by
  constructor
  · rintro ⟨x, hx, hi⟩
    obtain hfield | ⟨name, hleads, hname⟩ := expands_iff_leadsTo.1 hi
    · have hplace : (Place.field above).Has schema definitions (origin j) := ⟨x, hx, hfield⟩
      obtain ⟨index | above', heq, y, hy, hj⟩ := h.has_iff.1 hplace
      · cases heq
      · exact ⟨above', Place.field.inj heq, y, hy, expands_of_mem_levelFields hj⟩
    · -- Any copy of the field spreads the fragment.
      obtain ⟨above', rfl⟩ := h.onto above
      have hlt := (h.lt_iff_lt above').2 (List.getElem?_eq_some_iff.1 hx).1
      obtain ⟨x', hx', -, hlevel⟩ := h.occurrence (List.getElem?_eq_getElem hlt)
      obtain rfl := Option.some.inj (hx.symm.trans hx')
      refine ⟨above', rfl, _, List.getElem?_eq_getElem hlt, expands_iff_leadsTo.2 (.inr ⟨name, ?_, ?_⟩)⟩
      · exact (h.leadsTo_iff hlevel.spreads).2 hleads
      · exact h.inFragment_iff.2 hname
  · rintro ⟨above', rfl, y, hy, hj⟩
    obtain ⟨x, hx, -, hlevel⟩ := h.occurrence hy
    refine ⟨x, hx, expands_iff_leadsTo.2 ?_⟩
    obtain hfield | ⟨name, hleads, hname⟩ := expands_iff_leadsTo.1 hj
    · exact .inl (hlevel.fields j hfield)
    · exact .inr ⟨name, (h.leadsTo_iff hlevel.spreads).1 hleads, h.inFragment_iff.1 hname⟩

/-- A root expands to all copies of what one of the other document does, and to nothing else. -/
theorem rel_content : List.Forall₂ (fun entry entry' => Option.Rel (fun content content' =>
      ∀ j, content'.Expands definitions' j ↔ content.Expands definitions (origin j))
    (entry.2.content? entry.1) (entry'.2.content? entry'.1)) (numberedFrom 0 definitions)
      (numberedFrom 0 definitions') := by
  refine h.entries_expand.imp fun ⟨start, _⟩ ⟨start', _⟩ ⟨hheading, hexpands⟩ => ?_
  cases hheading with
  | operation => exact .some hexpands
  | fragment hname =>
    refine .some fun j => ?_
    rw [← hname]
    exact h.expandsFragment_iff
  | typeSystem => exact .none

/-- Each root has one in the new document that expands to all copies of what it does. -/
theorem exists_content {content : Content} (hcontent : content ∈ documentRoots definitions) :
    ∃ content' ∈ documentRoots definitions',
      ∀ j, content'.Expands definitions' j ↔ content.Expands definitions (origin j) := by
  obtain ⟨entry, hmem, hsome⟩ := mem_documentRoots.1 hcontent
  obtain ⟨entry', hmem', hrel⟩ := exists_of_forall₂_left h.rel_content hmem
  rw [hsome] at hrel
  generalize hsome' : entry'.2.content? entry'.1 = result at hrel
  cases hrel with
  | some hexpands => exact ⟨_, mem_documentRoots.2 ⟨entry', hmem', hsome'⟩, hexpands⟩

/-- Each root of the new document comes from one. -/
theorem exists_origin_content {content' : Content} (hcontent' : content' ∈ documentRoots definitions') :
    ∃ content ∈ documentRoots definitions,
      ∀ j, content'.Expands definitions' j ↔ content.Expands definitions (origin j) := by
  obtain ⟨entry', hmem', hsome'⟩ := mem_documentRoots.1 hcontent'
  obtain ⟨entry, hmem, hrel⟩ := exists_of_forall₂_right h.rel_content hmem'
  rw [hsome'] at hrel
  generalize hsome : entry.2.content? entry.1 = result at hrel
  cases hrel with
  | some hexpands => exact ⟨_, mem_documentRoots.2 ⟨entry, hmem, hsome⟩, hexpands⟩

end FoldsOnto

end SelectionMerge
