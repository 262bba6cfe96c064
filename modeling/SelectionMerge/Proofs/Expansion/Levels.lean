import SelectionMerge.Proofs.Expansion.Parts
import SelectionMerge.Proofs.Merge.Renumbering

/-!
# Levels of selection sets

The level of a selection set takes in what stands in its inline fragments, but not what stands below its
fields. A selection set expands to the fields at its level and to what the fragments expand to that are
spread at it (`levels_induction`), so two things matter of it: these fields, and the defined fragments that
the spreads at its level lead to (`LeadsTo`). Where each selection set of a document has the same fields at
its level as that of another one, and leads to all that is spread there, the two documents expand alike
(`SameLevels.sameExpansions`), however differently they spread their fragments.
-/

namespace SelectionMerge
set_option autoImplicit false

mutual

/-- The names of the fragments that are spread at the level of a selection. -/
def Selection.levelSpreads : Selection → List Name
  | .field _ _ => []
  | .inline _ selections => levelSpreads selections
  | .spread name => [name]

/-- The names of the fragments that are spread at the level of a selection set. -/
def levelSpreads : List Selection → List Name
  | [] => []
  | selection :: selections => selection.levelSpreads ++ levelSpreads selections

end

mutual

/-- The numbers of the fields at the level of a selection whose first field would be number `first`. -/
def Selection.levelFields (first : Nat) : Selection → List Nat
  | .field _ _ => [first]
  | .inline _ selections => levelFields first selections
  | .spread _ => []

/-- The numbers of the fields at the level of a selection set. -/
def levelFields (first : Nat) : List Selection → List Nat
  | [] => []
  | selection :: selections =>
    selection.levelFields first ++ levelFields (first + selection.fieldCount) selections

end

section Appending

variable {selections later : List Selection}

theorem levelSpreads_append : levelSpreads (selections ++ later) = levelSpreads selections ++ levelSpreads later := by
  induction selections with
  | nil => rfl
  | cons selection selections ih => simp only [List.cons_append, levelSpreads, ih, List.append_assoc]

theorem levelFields_append (first : Nat) : levelFields first (selections ++ later) =
    levelFields first selections ++ levelFields (first + fieldCount selections) later := by
  induction selections generalizing first with
  | nil => rfl
  | cons selection selections ih =>
    simp only [List.cons_append, levelFields, fieldCount, ih, List.append_assoc, Nat.add_assoc]

end Appending

/-- The spreads at the level of the selections, and those in the definitions that they name, lead to the
fragment, which is defined. -/
inductive LeadsTo (definitions : List Definition) : List Selection → Name → Prop where
  | spread {selections : List Selection} {name : Name} :
    name ∈ levelSpreads selections → name ∈ definedNames definitions → LeadsTo definitions selections name
  | through {selections : List Selection} {fragment : Fragment} {name : Name} :
    fragment.name ∈ levelSpreads selections → .fragment fragment ∈ definitions →
      LeadsTo definitions fragment.selections name → LeadsTo definitions selections name

section Expansion

variable {definitions : List Definition} {selections : List Selection} {first i : Nat} {name : Name}

/-- A field at the level of a set belongs to it, whatever its spreads lead to. -/
theorem expands_of_mem_levelFields (h : i ∈ levelFields first selections) : Expands definitions first selections i := by
  induction selections using selections_induction generalizing first with
  | nil => cases h
  | field x nested later _ ih =>
    obtain h | h := List.mem_append.1 h
    · obtain rfl := List.mem_singleton.1 h
      exact .here
    · exact .later (ih h)
  | inline condition? nested later ih ih' =>
    obtain h | h := List.mem_append.1 h
    · exact .inline (ih h)
    · exact .later (ih' h)
  | spread name later ih => exact .later (ih h)

/-- What a fragment expands to belongs to the sets at whose level it is spread. -/
theorem expands_of_mem_levelSpreads (h : name ∈ levelSpreads selections)
    (hi : ExpandsFragment definitions name i) : Expands definitions first selections i := by
  induction selections using selections_induction generalizing first with
  | nil => cases h
  | field x nested later _ ih => exact .later (ih h)
  | inline condition? nested later ih ih' =>
    obtain h | h := List.mem_append.1 h
    · exact .inline (ih h)
    · exact .later (ih' h)
  | spread fragment later ih =>
    obtain h | h := List.mem_append.1 h
    · obtain rfl := List.mem_singleton.1 h
      obtain ⟨start, fragment, hmem, hname, hi⟩ := hi
      exact .spread hmem hname hi
    · exact .later (ih h)

/-- What selections expand to are the fields at their level, and what the definitions of the fragments
expand to that are spread there. -/
@[elab_as_elim]
theorem levels_induction {P : Nat → List Selection → Nat → Prop}
    (field : ∀ {first selections i}, i ∈ levelFields first selections → P first selections i)
    (spread : ∀ {first selections start fragment i}, fragment.name ∈ levelSpreads selections →
      (start, .fragment fragment) ∈ numberedFrom 0 definitions →
      Expands definitions start fragment.selections i → P start fragment.selections i → P first selections i)
    (h : Expands definitions first selections i) : P first selections i := by
  -- The rest of a set and its inline fragments are at its own level, so these steps only widen the level.
  suffices hplace : i ∈ levelFields first selections ∨ ∃ start fragment,
      fragment.name ∈ levelSpreads selections ∧ (start, .fragment fragment) ∈ numberedFrom 0 definitions ∧
      Expands definitions start fragment.selections i ∧ P start fragment.selections i by
    obtain hfield | ⟨start, fragment, hname, hmem, hexpands, hp⟩ := hplace
    · exact field hfield
    · exact spread hname hmem hexpands hp
  induction h with
  | here => exact .inl (.head _)
  | later _ ih =>
    obtain hfield | ⟨start, fragment, hname, hrest⟩ := ih
    · exact .inl (List.mem_append_right _ hfield)
    · exact .inr ⟨start, fragment, List.mem_append_right _ hname, hrest⟩
  | inline _ ih =>
    obtain hfield | ⟨start, fragment, hname, hrest⟩ := ih
    · exact .inl (List.mem_append_left _ hfield)
    · exact .inr ⟨start, fragment, List.mem_append_left _ hname, hrest⟩
  | spread hmem hname hexpands ih =>
    subst hname
    refine .inr ⟨_, _, List.mem_append_left _ (.head _), hmem, hexpands, ?_⟩
    obtain hfield | ⟨start, fragment, hname, hmem, hexpands, hp⟩ := ih
    · exact field hfield
    · exact spread hname hmem hexpands hp

/-- Selections lead to all that the fragments do that they lead to. -/
theorem LeadsTo.trans {fragment : Fragment} (h : LeadsTo definitions selections fragment.name)
    (hmem : .fragment fragment ∈ definitions) (h' : LeadsTo definitions fragment.selections name) :
    LeadsTo definitions selections name := by
  generalize hname : fragment.name = middle at h
  induction h with
  | spread hspread =>
    subst hname
    exact .through hspread hmem h'
  | through hspread hother _ ih => exact .through hspread hother (ih hname)

/-- What a fragment expands to belongs to all sets that lead to it. -/
theorem LeadsTo.expands (h : LeadsTo definitions selections name) (hi : ExpandsFragment definitions name i) :
    Expands definitions first selections i := by
  induction h generalizing first with
  | spread hspread => exact expands_of_mem_levelSpreads hspread hi
  | @through _ fragment _ hspread hmem _ ih =>
    obtain ⟨start, hstart⟩ := exists_number hmem 0
    exact expands_of_mem_levelSpreads hspread ⟨start, fragment, hstart, rfl, ih hi⟩

end Expansion

/-- Each spread at the level of the one set is of a fragment that is not defined, or that the other set
leads to: by the same spread, by another one of this fragment, or through other fragments. -/
structure SpreadsReached (definitions definitions' : List Definition) (selections selections' : List Selection) :
    Prop where
  forth : ∀ name ∈ levelSpreads selections, name ∈ definedNames definitions → LeadsTo definitions' selections' name
  back : ∀ name ∈ levelSpreads selections', name ∈ definedNames definitions' → LeadsTo definitions selections name

/-- The selection sets of two documents have the same fields at their levels, and each reaches what is
spread at the level of the other. -/
structure SameLevel (definitions definitions' : List Definition) (selections selections' : List Selection) : Prop
    extends SpreadsReached definitions definitions' selections selections' where
  fields : ∀ first, levelFields first selections = levelFields first selections'

/-- The field selections are alike, and their sub-selections are the same at their levels. -/
structure Occurrence.SameLevel (definitions definitions' : List Definition) (x y : Occurrence) : Prop
    extends x.Alike y where
  level : SelectionMerge.SameLevel definitions definitions' x.selections y.selections

/-- The definitions have one heading and the same selection sets, level by level. -/
structure Definition.SameLevels (schema : Schema) (definitions definitions' : List Definition)
    (definition definition' : Definition) : Prop where
  heading : definition.SameHeading definition'
  level : SameLevel definitions definitions' definition.selections definition'.selections
  occurrences : List.Forall₂ (Occurrence.SameLevel definitions definitions')
    (occurrencesIn schema (definition.parent? schema) definition.selections)
    (occurrencesIn schema (definition'.parent? schema) definition'.selections)

/-- The documents have the same selection sets, level by level. -/
def SameLevels (schema : Schema) (definitions definitions' : List Definition) : Prop :=
  List.Forall₂ (Definition.SameLevels schema definitions definitions') definitions definitions'

/-- The contents are one fragment, or selections with the same numbers that are the same at their level. -/
inductive Content.SameLevel (definitions definitions' : List Definition) : Content → Content → Prop where
  | selections (first : Nat) {nested nested' : List Selection} :
    SelectionMerge.SameLevel definitions definitions' nested nested' →
      SameLevel definitions definitions' (.selections first nested) (.selections first nested')
  | fragment (name : Name) : SameLevel definitions definitions' (.fragment name) (.fragment name)

theorem SameLevel.symm {definitions definitions' : List Definition} {selections selections' : List Selection}
    (h : SameLevel definitions definitions' selections selections') :
    SameLevel definitions' definitions selections' selections :=
  ⟨⟨h.back, h.forth⟩, fun first => (h.fields first).symm⟩

namespace Definition.SameLevels

variable {schema : Schema} {definitions definitions' : List Definition} {definition definition' : Definition}

theorem symm (h : definition.SameLevels schema definitions definitions' definition') :
    definition'.SameLevels schema definitions' definitions definition where
  heading := h.heading.symm
  level := h.level.symm
  occurrences := (h.occurrences.imp fun _ _ hxy => ⟨hxy.toAlike.symm, hxy.level.symm⟩).flip

theorem fieldCount (h : definition.SameLevels schema definitions definitions' definition') :
    fieldCount definition.selections = fieldCount definition'.selections := by
  have hlength := h.occurrences.length_eq
  rwa [length_occurrencesIn, length_occurrencesIn] at hlength

end Definition.SameLevels

section Documents

variable {schema : Schema} {definitions definitions' : List Definition}

section Numbers

variable {ds ds' : List Definition}
variable (h : List.Forall₂ (Definition.SameLevels schema definitions definitions') ds ds')
include h

/-- Definitions with the same selection sets have the same numbers. -/
theorem forall₂_numberedFrom (first : Nat) :
    List.Forall₂ (fun entry entry' => entry.1 = entry'.1 ∧
        entry.2.SameLevels schema definitions definitions' entry'.2)
      (numberedFrom first ds) (numberedFrom first ds') := by
  induction h generalizing first with
  | nil => exact .nil
  | cons hdefinition _ ih =>
    unfold numberedFrom
    rw [hdefinition.fieldCount]
    exact .cons ⟨rfl, hdefinition⟩ (ih _)

/-- They add the same roots. -/
theorem forall₂_rootsFrom (first : Nat) (defined : List Name) :
    List.Forall₂ (Content.SameLevel definitions definitions') (rootsFrom first defined ds)
      (rootsFrom first defined ds') := by
  induction h generalizing first defined with
  | nil => exact .nil
  | cons hdefinition _ ih =>
    have hcount := hdefinition.fieldCount
    have hlevel := hdefinition.level
    cases hdefinition.heading with
    | @operation x y =>
      have hcount : fieldCount x.selections = fieldCount y.selections := hcount
      unfold rootsFrom
      rw [hcount]
      exact .cons (.selections first hlevel) (ih _ _)
    | @fragment x y hname =>
      have hcount : fieldCount x.selections = fieldCount y.selections := hcount
      unfold rootsFrom
      rw [hcount, hname]
      split
      · exact ih _ _
      · exact .cons (.fragment _) (ih _ _)
    | typeSystem definition => exact ih _ _

end Numbers

variable {selections selections' : List Selection} {first i : Nat}

theorem SameLevels.symm (h : SameLevels schema definitions definitions') :
    SameLevels schema definitions' definitions :=
  (h.imp fun _ _ hdefinition => hdefinition.symm).flip

section Expansion

variable (h : SameLevels schema definitions definitions')
include h

/-- A definition of a fragment has its counterpart at the same number. -/
theorem SameLevels.exists_fragment {start : Nat} {fragment : Fragment}
    (hmem : (start, .fragment fragment) ∈ numberedFrom 0 definitions) :
    ∃ fragment', (start, .fragment fragment') ∈ numberedFrom 0 definitions' ∧ fragment'.name = fragment.name ∧
      SameLevel definitions definitions' fragment.selections fragment'.selections := by
  obtain ⟨⟨start', definition'⟩, hmem', hstart, hsame⟩ := exists_of_forall₂_left (forall₂_numberedFrom h 0) hmem
  obtain rfl : start = start' := hstart
  have hlevel := hsame.level
  cases hsame.heading with
  | @fragment _ fragment' hname => exact ⟨fragment', hmem', hname.symm, hlevel⟩

/-- Where the fragments that are spread in a set are reached from another set, so are those that they
lead to. -/
theorem SameLevels.leadsTo {name : Name} (hspreads : SpreadsReached definitions definitions' selections selections')
    (hreach : LeadsTo definitions selections name) : LeadsTo definitions' selections' name := by
  induction hreach generalizing selections' with
  | spread hspread hdefined => exact hspreads.forth _ hspread hdefined
  | @through _ fragment _ hspread hmem _ ih =>
    obtain ⟨start, hstart⟩ := exists_number hmem 0
    obtain ⟨fragment', hmem', hname, hlevel⟩ := h.exists_fragment hstart
    have hfragment := hspreads.forth _ hspread (mem_definedNames.2 ⟨fragment, hmem, rfl⟩)
    rw [← hname] at hfragment
    exact hfragment.trans (mem_of_numbered hmem') (ih hlevel.toSpreadsReached)

/-- What selections expand to, those that are the same at their level do. -/
theorem SameLevel.expands (hlevel : SameLevel definitions definitions' selections selections')
    (hexpands : Expands definitions first selections i) : Expands definitions' first selections' i := by
  refine levels_induction (P := fun first selections i => ∀ {selections'},
    SameLevel definitions definitions' selections selections' → Expands definitions' first selections' i) ?_ ?_
    hexpands hlevel
  · intro first selections i hfield selections' hlevel
    rw [hlevel.fields] at hfield
    exact expands_of_mem_levelFields hfield
  · intro first selections start fragment i hspread hmem _ ih selections' hlevel
    obtain ⟨fragment', hmem', hname, hlevel'⟩ := h.exists_fragment hmem
    have hdefined : fragment.name ∈ definedNames definitions :=
      mem_definedNames.2 ⟨fragment, mem_of_numbered hmem, rfl⟩
    exact (hlevel.forth _ hspread hdefined).expands ⟨start, fragment', hmem', hname, ih hlevel'⟩

/-- What a fragment expands to, it does in the other document. -/
theorem SameLevels.expandsFragment {name : Name} (hi : ExpandsFragment definitions name i) :
    ExpandsFragment definitions' name i := by
  obtain ⟨start, fragment, hmem, hname, hi⟩ := hi
  obtain ⟨fragment', hmem', hname', hlevel⟩ := h.exists_fragment hmem
  exact ⟨start, fragment', hmem', hname'.trans hname, hlevel.expands h hi⟩

/-- The field selections of the documents correspond. -/
theorem SameLevels.occurrences :
    List.Forall₂ (Occurrence.SameLevel definitions definitions') (SelectionMerge.occurrences schema definitions)
      (SelectionMerge.occurrences schema definitions') :=
  List.rel_flatMap h fun _ _ hdefinition => hdefinition.occurrences

theorem SameLevels.expandsBelow {above : Nat} (hi : ExpandsBelow schema definitions above i) :
    ExpandsBelow schema definitions' above i := by
  obtain ⟨x, hx, hi⟩ := hi
  have hsame := List.forall₂_iff_get.1 h.occurrences
  obtain ⟨hlt, rfl⟩ := List.getElem?_eq_some_iff.1 hx
  have hlt' := hsame.1 ▸ hlt
  exact ⟨_, List.getElem?_eq_getElem hlt', (hsame.2 above hlt hlt').level.expands h hi⟩

end Expansion

/-- Documents with the same selection sets, level by level, expand alike. -/
theorem SameLevels.sameExpansions (h : SameLevels schema definitions definitions') :
    SameExpansions schema definitions definitions' where
  alike := h.occurrences.imp fun _ _ hxy => hxy.toAlike
  below _ _ := ⟨h.expandsBelow, h.symm.expandsBelow⟩
  roots := by
    refine (forall₂_rootsFrom h 0 []).imp fun content content' hcontent j => ?_
    cases hcontent with
    | selections first hlevel => exact ⟨hlevel.expands h, hlevel.symm.expands h.symm⟩
    | fragment name => exact ⟨h.expandsFragment, h.symm.expandsFragment⟩

end Documents

end SelectionMerge
