import SelectionMerge.Proofs.Expansion.Yields
import SelectionMerge.Proofs.Merge.Simulation

/-!
# Selections in another order

`Reordered` are two selection lists if one is the other with the selections of some of its sets, at
any depth, in another order. Reordering changes the numbers of fields, but every expansion has the
same fields before and after (`Yields.reorder`), so that reordered documents simulate each other
(`simulates_of_reordered`).
-/

namespace SelectionMerge
set_option autoImplicit false

/-- The selections are the same up to the order in which those of a set are written. Fields may be
at other places in the text. -/
inductive Reordered : List Selection → List Selection → Prop where
  | nil : Reordered [] []
  | field {x y : Field} {nested nested' later later' : List Selection} :
    x.Alike y → Reordered nested nested' → Reordered later later' →
      Reordered (.field x nested :: later) (.field y nested' :: later')
  | inline {condition? : Option Name} {nested nested' later later' : List Selection} :
    Reordered nested nested' → Reordered later later' →
      Reordered (.inline condition? nested :: later) (.inline condition? nested' :: later')
  | spread {name : Name} {later later' : List Selection} :
    Reordered later later' → Reordered (.spread name :: later) (.spread name :: later')
  | swap (first second : Selection) (later : List Selection) :
    Reordered (first :: second :: later) (second :: first :: later)
  | trans {selections middle selections' : List Selection} :
    Reordered selections middle → Reordered middle selections' → Reordered selections selections'

namespace Reordered

variable {selections selections' : List Selection}

theorem refl (selections : List Selection) : Reordered selections selections := by
  induction selections using selections_induction with
  | nil => exact .nil
  | field x nested later ih ih' => exact .field (.refl x) ih ih'
  | inline condition? nested later ih ih' => exact .inline ih ih'
  | spread name later ih => exact .spread ih

theorem symm (h : Reordered selections selections') : Reordered selections' selections := by
  induction h with
  | nil => exact .nil
  | field hxy _ _ ih ih' => exact .field hxy.symm ih ih'
  | inline _ _ ih ih' => exact .inline ih ih'
  | spread _ ih => exact .spread ih
  | swap first second later => exact .swap second first later
  | trans _ _ ih ih' => exact .trans ih' ih

/-- Two selections are the same up to the order of what is nested in them. -/
inductive One : Selection → Selection → Prop where
  | field {x y : Field} {nested nested' : List Selection} :
    x.Alike y → Reordered nested nested' → One (.field x nested) (.field y nested')
  | inline {condition? : Option Name} {nested nested' : List Selection} :
    Reordered nested nested' → One (.inline condition? nested) (.inline condition? nested')
  | spread {name : Name} : One (.spread name) (.spread name)

theorem One.refl : ∀ selection : Selection, One selection selection
  | .field x nested => .field (.refl x) (.refl nested)
  | .inline _ nested => .inline (.refl nested)
  | .spread _ => .spread

theorem One.trans {first second third : Selection} (h : One first second) (h' : One second third) :
    One first third := by
  cases h with
  | field hxy hnested =>
    cases h' with
    | field hyz hnested' => exact .field (hxy.trans hyz) (.trans hnested hnested')
  | inline hnested =>
    cases h' with
    | inline hnested' => exact .inline (.trans hnested hnested')
  | spread => exact h'

/-- A selection of a set is, up to order, one of the reordered set. -/
theorem exists_of_mem (h : Reordered selections selections') {selection : Selection}
    (hmem : selection ∈ selections) : ∃ selection' ∈ selections', One selection selection' := by
  induction h generalizing selection with
  | nil => cases hmem
  | field hxy hnested _ _ ih =>
    cases hmem with
    | head => exact ⟨_, .head _, .field hxy hnested⟩
    | tail _ hmem => exact List.exists_mem_cons_of_exists (ih hmem)
  | inline hnested _ _ ih =>
    cases hmem with
    | head => exact ⟨_, .head _, .inline hnested⟩
    | tail _ hmem => exact List.exists_mem_cons_of_exists (ih hmem)
  | spread _ ih =>
    cases hmem with
    | head => exact ⟨_, .head _, .spread⟩
    | tail _ hmem => exact List.exists_mem_cons_of_exists (ih hmem)
  | swap first second later =>
    have hperm : (first :: second :: later).Perm (second :: first :: later) := .swap second first later
    exact ⟨selection, hperm.mem_iff.1 hmem, .refl selection⟩
  | trans _ _ ih ih' =>
    obtain ⟨middle, hmiddle, hone⟩ := ih hmem
    obtain ⟨selection', hmem', hone'⟩ := ih' hmiddle
    exact ⟨selection', hmem', hone.trans hone'⟩

end Reordered

/-- The definitions are the same up to the order of their selections. -/
structure Definition.Reordered (definition definition' : Definition) : Prop where
  heading : definition.SameHeading definition'
  selections : SelectionMerge.Reordered definition.selections definition'.selections

theorem Definition.Reordered.symm {definition definition' : Definition} (h : definition.Reordered definition') :
    definition'.Reordered definition :=
  ⟨h.heading.symm, h.selections.symm⟩

/-- The documents have the same definitions in the same order, up to the order of their
selections. -/
def ReorderedDocuments (definitions definitions' : List Definition) : Prop :=
  List.Forall₂ Definition.Reordered definitions definitions'

theorem ReorderedDocuments.symm {definitions definitions' : List Definition}
    (h : ReorderedDocuments definitions definitions') : ReorderedDocuments definitions' definitions :=
  (h.imp fun _ _ hreordered => hreordered.symm).flip

/-- The field selections are the same up to the order of their sub-selections. -/
structure Occurrence.Reordered (x y : Occurrence) : Prop extends x.Alike y where
  selections : SelectionMerge.Reordered x.selections y.selections

theorem Occurrence.Reordered.symm {x y : Occurrence} (h : x.Reordered y) : y.Reordered x :=
  ⟨h.toAlike.symm, h.selections.symm⟩

section Expansion

variable {schema : Schema} {definitions definitions' : List Definition} {parent? : Option TypeDefinition}
variable {selections selections' : List Selection}

/-- Reordered selections yield the same field selections, up to order. -/
theorem Yields.reorder (hdocuments : ReorderedDocuments definitions definitions') {occurrence : Occurrence}
    (h : Yields schema definitions parent? selections occurrence) (hselections : Reordered selections selections') :
    ∃ occurrence', Yields schema definitions' parent? selections' occurrence' ∧
      occurrence.Reordered occurrence' := by
  induction h generalizing selections' with
  | @field parent? _ nested x hmem =>
    obtain ⟨_, hmem', hone⟩ := hselections.exists_of_mem hmem
    cases hone with
    | @field _ y _ nested' hxy hnested =>
      refine ⟨_, .field hmem', ⟨⟨hxy, ?_, rfl⟩, hnested⟩⟩
      exact congrArg (schema.fieldType? parent?) hxy.name
  | inline hmem _ ih =>
    obtain ⟨_, hmem', hone⟩ := hselections.exists_of_mem hmem
    cases hone with
    | inline hnested =>
      obtain ⟨occurrence', hyields, hreordered⟩ := ih hnested
      exact ⟨occurrence', .inline hmem' hyields, hreordered⟩
  | spread hmem hfragment hname _ ih =>
    obtain ⟨_, hmem', hone⟩ := hselections.exists_of_mem hmem
    cases hone with
    | spread =>
      obtain ⟨_, hfragment', hheading, hnested⟩ := exists_of_forall₂_left hdocuments hfragment
      cases hheading with
      | fragment hsame hcondition =>
        obtain ⟨occurrence', hyields, hreordered⟩ := ih hnested
        rw [hcondition] at hyields
        exact ⟨occurrence', .spread hmem' hfragment' (hsame.symm.trans hname) hyields, hreordered⟩

/-- The fields of these numbers are the same up to the order of their sub-selections. -/
def SameField (schema : Schema) (definitions definitions' : List Definition) (i j : Nat) : Prop :=
  ∃ x y, (occurrences schema definitions)[i]? = some x ∧ (occurrences schema definitions')[j]? = some y ∧
    x.Reordered y

/-- Reordered selections expand to the same fields. -/
theorem matches_expands (hdocuments : ReorderedDocuments definitions definitions')
    (hselections : Reordered selections selections') {number number' : Nat}
    (hplaced : PlacedAt schema definitions number parent? selections)
    (hplaced' : PlacedAt schema definitions' number' parent? selections') :
    Matches (SameField schema definitions definitions') (fun _ => False)
      (Expands definitions number selections) (Expands definitions' number' selections') where
  forth hi := by
    obtain ⟨x, hx, hyields⟩ := hi.exists_yields hplaced
    obtain ⟨y, hyields', hxy⟩ := hyields.reorder hdocuments hselections
    obtain ⟨j, hj, hy⟩ := hyields'.exists_expands hplaced'
    exact ⟨j, hj, x, y, hx, hy, hxy⟩
  back hj := by
    obtain ⟨y, hy, hyields⟩ := hj.exists_yields hplaced'
    obtain ⟨x, hyields', hyx⟩ := hyields.reorder hdocuments.symm hselections.symm
    obtain ⟨i, hi, hx⟩ := hyields'.exists_expands hplaced
    exact .inr ⟨i, hi, x, y, hx, hy, hyx.symm⟩

/-- Definitions that are the same up to order expand to the same fields. -/
theorem correspondingEntries (hdocuments : ReorderedDocuments definitions definitions')
    {entry entry' : Nat × Definition} (hentry : entry ∈ numberedFrom 0 definitions)
    (hentry' : entry' ∈ numberedFrom 0 definitions') (hdefinition : entry.2.Reordered entry'.2) :
    CorrespondingEntries definitions definitions' (SameField schema definitions definitions') (fun _ => False)
      entry entry' := by
  have hplaced : PlacedAt schema definitions' entry'.1 _ _ := placedAt_of_mem hentry'
  rw [← hdefinition.heading.parent?] at hplaced
  exact ⟨hdefinition.heading,
    matches_expands hdocuments hdefinition.selections (placedAt_of_mem hentry) hplaced⟩

/-- Reordered documents simulate each other. -/
theorem simulates_of_reordered (schema : Schema) (hdocuments : ReorderedDocuments definitions definitions') :
    Simulates schema definitions definitions' (SameField schema definitions definitions') fun _ => False where
  alike := by
    rintro i j ⟨x, y, hx, hy, hxy⟩
    exact ⟨x, y, hx, hy, hxy.toAlike⟩
  below := by
    rintro i j ⟨x, y, hx, hy, hxy⟩
    have hplaced := placedAt_below hy
    rw [← hxy.type?] at hplaced
    have hmatches := matches_expands hdocuments hxy.selections (placedAt_below hx) hplaced
    exact hmatches.congr (fun k => expandsBelow_iff hx) fun k => expandsBelow_iff hy
  lone := nofun
  roots := by
    intro content hcontent
    refine exists_root_matches (fun entry hentry => ?_) (fun entry' hentry' => ?_) hcontent
    · obtain ⟨definition', hmem', hdefinition⟩ := exists_of_forall₂_left hdocuments (mem_of_numbered hentry)
      obtain ⟨start', hentry'⟩ := exists_number hmem' 0
      exact ⟨_, hentry', correspondingEntries hdocuments hentry hentry' hdefinition⟩
    · obtain ⟨definition, hmem, hdefinition⟩ := exists_of_forall₂_right hdocuments (mem_of_numbered hentry')
      obtain ⟨start, hentry⟩ := exists_number hmem 0
      exact ⟨_, hentry, correspondingEntries hdocuments hentry hentry' hdefinition⟩

end Expansion

end SelectionMerge
