import SelectionMerge.Proofs.Expansion.Exactness
import SelectionMerge.Proofs.Merge.Defects

/-!
# Documents that correspond

A document can be written in other ways and still select the same: its fields correspond to those of
the other document, whatever their numbers. `Simulates` says so of the expansions of the two
documents; the other document may have extra fields besides. It is enough for the check: to each
group that a pass comes to in the one document a group corresponds that the pass comes to in the
other (`Simulates.reachedGroup`), and fields that correspond are the same to the rule for pairs.
-/

namespace SelectionMerge
set_option autoImplicit false

/-- The fields are written alike, maybe at different places. -/
structure Field.Alike (x y : Field) : Prop where
  alias? : x.alias? = y.alias?
  name : x.name = y.name
  arguments : x.arguments = y.arguments

namespace Field.Alike

variable {x y z : Field}

theorem refl (x : Field) : x.Alike x :=
  ⟨rfl, rfl, rfl⟩

theorem symm (h : x.Alike y) : y.Alike x :=
  ⟨h.alias?.symm, h.name.symm, h.arguments.symm⟩

theorem trans (h : x.Alike y) (h' : y.Alike z) : x.Alike z :=
  ⟨h.alias?.trans h'.alias?, h.name.trans h'.name, h.arguments.trans h'.arguments⟩

theorem responseKey (h : x.Alike y) : x.responseKey = y.responseKey := by
  unfold Field.responseKey
  rw [h.alias?, h.name]

theorem call (h : x.Alike y) : x.call = y.call := by
  unfold Field.call
  rw [h.name, h.arguments]

end Field.Alike

/-- The field selections are written alike and have the same types. -/
structure Occurrence.Alike (x y : Occurrence) : Prop where
  field : x.field.Alike y.field
  type? : x.type? = y.type?
  parent? : x.parent? = y.parent?

theorem Occurrence.Alike.refl (x : Occurrence) : x.Alike x :=
  ⟨.refl _, rfl, rfl⟩

theorem Occurrence.Alike.symm {x y : Occurrence} (h : x.Alike y) : y.Alike x :=
  ⟨h.field.symm, h.type?.symm, h.parent?.symm⟩

/-- The fields are written alike and have the same types. -/
structure SelectedField.Alike (x y : SelectedField) : Prop where
  field : x.field.Alike y.field
  type? : x.type? = y.type?
  parent? : x.parent? = y.parent?

namespace SelectedField.Alike

variable {x y x' y' : SelectedField}

theorem responseKey (h : x.Alike x') : x.responseKey = x'.responseKey :=
  h.field.responseKey

theorem call (h : x.Alike x') : x.call = x'.call :=
  h.field.call

theorem shape (h : x.Alike x') : x.shape = x'.shape := by
  unfold SelectedField.shape
  rw [h.type?]

theorem objectParent? (h : x.Alike x') : x.objectParent? = x'.objectParent? := by
  unfold SelectedField.objectParent?
  rw [h.parent?]

/-- The rule for pairs sees no difference. -/
theorem conflict? (hx : x.Alike x') (hy : y.Alike y') : x.conflict? y = x'.conflict? y' := by
  unfold SelectedField.conflict? neverTogether leafKindsDiffer namedTypesDiffer
  rw [hx.objectParent?, hy.objectParent?, hx.type?, hy.type?, hx.field.name, hy.field.name, hx.call, hy.call]

end SelectedField.Alike

/-- Each field on the left corresponds to one on the right, and each on the right to one on the left
unless it is extra. -/
structure Matches (R : Nat → Nat → Prop) (extra left right : Nat → Prop) : Prop where
  forth : ∀ {i}, left i → ∃ j, right j ∧ R i j
  back : ∀ {j}, right j → extra j ∨ ∃ i, left i ∧ R i j

namespace Matches

variable {R : Nat → Nat → Prop} {extra left right p q : Nat → Prop}

/-- A choice that makes no difference between corresponding fields. -/
theorem filter (h : Matches R extra left right) (hpq : ∀ {i j}, R i j → (p i ↔ q j)) :
    Matches R extra (fun i => left i ∧ p i) fun j => right j ∧ q j where
  forth := by
    rintro i ⟨hi, hp⟩
    obtain ⟨j, hj, hij⟩ := h.forth hi
    exact ⟨j, ⟨hj, (hpq hij).1 hp⟩, hij⟩
  back := by
    rintro j ⟨hj, hq⟩
    obtain hextra | ⟨i, hi, hij⟩ := h.back hj
    · exact .inl hextra
    · exact .inr ⟨i, ⟨hi, (hpq hij).2 hq⟩, hij⟩

theorem congr {left' right' : Nat → Prop} (h : Matches R extra left right) (hleft : ∀ i, left' i ↔ left i)
    (hright : ∀ j, right' j ↔ right j) : Matches R extra left' right' where
  forth hi := by
    obtain ⟨j, hj, hij⟩ := h.forth ((hleft _).1 hi)
    exact ⟨j, (hright j).2 hj, hij⟩
  back hj := by
    apply (h.back ((hright _).1 hj)).imp_right
    rintro ⟨i, hi, hij⟩
    exact ⟨i, (hleft i).2 hi, hij⟩

end Matches

/-- The definitions are of one kind and name, and their selections are on one type. -/
inductive Definition.SameHeading : Definition → Definition → Prop where
  | operation {x y : Operation} :
    x.kind = y.kind → x.name? = y.name? → SameHeading (.operation x) (.operation y)
  | fragment {x y : Fragment} :
    x.name = y.name → x.condition = y.condition → SameHeading (.fragment x) (.fragment y)
  | typeSystem (definition : TypeSystemDefinition) :
    SameHeading (.typeSystem definition) (.typeSystem definition)

namespace Definition.SameHeading

variable {definition definition' : Definition}

theorem symm (h : definition.SameHeading definition') : definition'.SameHeading definition := by
  cases h with
  | operation hkind hname => exact .operation hkind.symm hname.symm
  | fragment hname hcondition => exact .fragment hname.symm hcondition.symm
  | typeSystem definition => exact .typeSystem definition

theorem parent? (h : definition.SameHeading definition') (schema : Schema) :
    definition.parent? schema = definition'.parent? schema := by
  cases h with
  | operation hkind _ => exact congrArg schema.root? hkind
  | fragment _ hcondition => exact congrArg schema.type? hcondition
  | typeSystem definition => rfl

end Definition.SameHeading

/-- The numbered definitions have one heading and expand to corresponding fields. -/
structure CorrespondingEntries (definitions definitions' : List Definition) (R : Nat → Nat → Prop)
    (extra : Nat → Prop) (entry entry' : Nat × Definition) : Prop where
  heading : entry.2.SameHeading entry'.2
  expands : Matches R extra (Expands definitions entry.1 entry.2.selections)
    (Expands definitions' entry'.1 entry'.2.selections)

/-- If definitions correspond then so do the roots that they make up, all definitions of a fragment
taken together. -/
theorem exists_root_matches {definitions definitions' : List Definition} {R : Nat → Nat → Prop}
    {extra : Nat → Prop}
    (hforth : ∀ entry ∈ numberedFrom 0 definitions, ∃ entry' ∈ numberedFrom 0 definitions',
      CorrespondingEntries definitions definitions' R extra entry entry')
    (hback : ∀ entry' ∈ numberedFrom 0 definitions', ∃ entry ∈ numberedFrom 0 definitions,
      CorrespondingEntries definitions definitions' R extra entry entry')
    {content : Content} (hcontent : content ∈ documentRoots definitions) :
    ∃ content' ∈ documentRoots definitions',
      Matches R extra (content.Expands definitions) (content'.Expands definitions') := by
  have hfragment : ∀ name, Matches R extra (ExpandsFragment definitions name) (ExpandsFragment definitions' name) := by
    intro name
    constructor
    · rintro i ⟨start, fragment, hmem, rfl, hi⟩
      obtain ⟨⟨start', _⟩, hmem', hheading, hexpands⟩ := hforth _ hmem
      obtain ⟨j, hj, hij⟩ := hexpands.forth hi
      cases hheading with
      | fragment hname _ => exact ⟨j, ⟨start', _, hmem', hname.symm, hj⟩, hij⟩
    · rintro j ⟨start', fragment', hmem', rfl, hj⟩
      obtain ⟨⟨start, _⟩, hmem, hheading, hexpands⟩ := hback _ hmem'
      apply (hexpands.back hj).imp_right
      rintro ⟨i, hi, hij⟩
      cases hheading with
      | fragment hname _ => exact ⟨i, ⟨start, _, hmem, hname, hi⟩, hij⟩
  obtain ⟨⟨start, definition⟩, hmem, hcontent⟩ := mem_documentRoots.1 hcontent
  obtain ⟨⟨start', _⟩, hmem', hheading, hexpands⟩ := hforth _ hmem
  cases hheading with
  | operation _ _ =>
    obtain rfl := Option.some.inj hcontent
    exact ⟨_, mem_documentRoots.2 ⟨_, hmem', rfl⟩, hexpands⟩
  | fragment hname _ =>
    obtain rfl := Option.some.inj hcontent
    refine ⟨_, mem_documentRoots.2 ⟨_, hmem', rfl⟩, ?_⟩
    rw [← hname]
    exact hfragment _
  | typeSystem => cases hcontent

/-- The fields of a document correspond to those of another one in every expansion. The extra ones
have nothing below them. -/
structure Simulates (schema : Schema) (definitions definitions' : List Definition) (R : Nat → Nat → Prop)
    (extra : Nat → Prop) : Prop where
  alike : ∀ {i j}, R i j → ∃ x y, (occurrences schema definitions)[i]? = some x ∧
    (occurrences schema definitions')[j]? = some y ∧ x.Alike y
  below : ∀ {i j}, R i j → Matches R extra (ExpandsBelow schema definitions i) (ExpandsBelow schema definitions' j)
  lone : ∀ {j k}, extra j → ¬ ExpandsBelow schema definitions' j k
  roots : ∀ content ∈ documentRoots definitions, ∃ content' ∈ documentRoots definitions',
    Matches R extra (content.Expands definitions) (content'.Expands definitions')

namespace ResolvedGraph

/-- The fields of these numbers are alike. -/
def Alike (left right : ResolvedGraph) (i j : FieldId) : Prop :=
  ∃ x y, left.field? i = some x ∧ right.field? j = some y ∧ x.Alike y

variable {left right : ResolvedGraph} {R : Nat → Nat → Prop} {extra : Nat → Prop}

namespace Alike

variable {i j k l : FieldId}

theorem responseKey? (h : left.Alike right i j) : left.responseKey? i = right.responseKey? j := by
  obtain ⟨x, y, hx, hy, hxy⟩ := h
  rw [responseKey?_eq hx, responseKey?_eq hy, hxy.responseKey]

theorem call? (h : left.Alike right i j) : left.call? i = right.call? j := by
  obtain ⟨x, y, hx, hy, hxy⟩ := h
  rw [call?_eq hx, call?_eq hy, hxy.call]

theorem objectParent? (h : left.Alike right i j) : left.objectParent? i = right.objectParent? j := by
  obtain ⟨x, y, hx, hy, hxy⟩ := h
  rw [objectParent?_eq hx, objectParent?_eq hy, hxy.objectParent?]

theorem innerName? (h : left.Alike right i j) : left.innerName? i = right.innerName? j := by
  obtain ⟨x, y, hx, hy, hxy⟩ := h
  simp only [ResolvedGraph.innerName?, hx, hy, Option.bind_some, hxy.type?]

theorem shape? (h : left.Alike right i j) : left.shape? i = right.shape? j := by
  obtain ⟨x, y, hx, hy, hxy⟩ := h
  simp only [ResolvedGraph.shape?, ResolvedGraph.shape, hx, hy, hxy.shape]

theorem conflict? (hij : left.Alike right i j) (hkl : left.Alike right k l) :
    left.conflict? i k = right.conflict? j l := by
  obtain ⟨x, y, hx, hy, hxy⟩ := hij
  obtain ⟨x', y', hx', hy', hxy'⟩ := hkl
  rw [conflict?_eq hx hx', conflict?_eq hy hy', hxy.conflict? hxy']

end Alike

section Groups

variable {set set' fields fields' group : List FieldId} (halike : ∀ {i j}, R i j → left.Alike right i j)
include halike

/-- The fields of one response key correspond to those of one response key. -/
theorem exists_keyGroup_matches (h : Matches R extra (· ∈ set) (· ∈ set')) (hgroup : group ∈ left.keyGroups set) :
    ∃ group' ∈ right.keyGroups set', Matches R extra (· ∈ group) (· ∈ group') := by
  obtain ⟨a, ha, rfl⟩ := mem_classes.1 hgroup
  obtain ⟨b, hb, hab⟩ := h.forth ha
  refine ⟨_, mem_classes.2 ⟨b, hb, rfl⟩, ?_⟩
  have hfilter := h.filter (p := fun i => left.responseKey? i = left.responseKey? a)
    (q := fun j => right.responseKey? j = right.responseKey? b) fun hij => by
      rw [(halike hij).responseKey?, (halike hab).responseKey?]
  exact hfilter.congr (fun i => by simp) fun j => by simp

/-- The fields that can stand in objects of a type correspond to those that can. -/
theorem onParent_matches (h : Matches R extra (· ∈ fields) (· ∈ fields')) (parent : Name) :
    Matches R extra (· ∈ left.onParent fields parent) (· ∈ right.onParent fields' parent) := by
  have hfilter := h.filter (p := fun i => ∀ p, left.objectParent? i = some p → p = parent)
    (q := fun j => ∀ p, right.objectParent? j = some p → p = parent) fun hij => by
      rw [(halike hij).objectParent?]
  exact hfilter.congr (fun i => mem_onParent) fun j => mem_onParent

/-- The fields that can stand in one object correspond to those that can. -/
theorem exists_parentGroup_matches (h : Matches R extra (· ∈ fields) (· ∈ fields'))
    (hgroup : group ∈ left.parentGroups fields) :
    ∃ group' ∈ right.parentGroups fields', Matches R extra (· ∈ group) (· ∈ group') := by
  obtain ⟨hnone, hne, rfl⟩ | ⟨parent, hparent, rfl⟩ := mem_parentGroups.1 hgroup
  · by_cases hnone' : right.parents fields' = []
    · refine ⟨fields', mem_parentGroups.2 (.inl ⟨hnone', ?_, rfl⟩), h⟩
      obtain ⟨a, ha⟩ := List.exists_mem_of_ne_nil _ hne
      obtain ⟨b, hb, -⟩ := h.forth ha
      exact List.ne_nil_of_mem hb
    · -- An extra field is selected on an object type, and all others may apply there.
      obtain ⟨parent, hparent⟩ := List.exists_mem_of_ne_nil _ hnone'
      refine ⟨_, mem_parentGroups.2 (.inr ⟨parent, hparent, rfl⟩), ?_⟩
      refine (onParent_matches halike h parent).congr (fun i => ?_) fun j => .rfl
      refine ⟨fun hi => mem_onParent.2 ⟨hi, fun p hp => ?_⟩, fun hi => (mem_onParent.1 hi).1⟩
      have hmem := mem_parents.2 ⟨i, hi, hp⟩
      rw [hnone] at hmem
      cases hmem
  · refine ⟨_, mem_parentGroups.2 (.inr ⟨parent, ?_, rfl⟩), onParent_matches halike h parent⟩
    obtain ⟨a, ha, hp⟩ := mem_parents.1 hparent
    obtain ⟨b, hb, hab⟩ := h.forth ha
    exact mem_parents.2 ⟨b, hb, (halike hab).objectParent?.symm.trans hp⟩

/-- A group that a pass takes of a set corresponds to one that it takes of a corresponding set. -/
theorem exists_group_matches {pass : Pass} (h : Matches R extra (· ∈ set) (· ∈ set'))
    (hgroup : group ∈ left.groups pass set) :
    ∃ group' ∈ right.groups pass set', Matches R extra (· ∈ group) (· ∈ group') := by
  obtain ⟨fields, hfields, hpart⟩ := mem_groups.1 hgroup
  obtain ⟨fields', hfields', hmatches⟩ := exists_keyGroup_matches halike h hfields
  cases pass with
  | shapes =>
    obtain rfl := List.mem_singleton.1 hpart
    exact ⟨fields', mem_groups.2 ⟨fields', hfields', .head _⟩, hmatches⟩
  | calls =>
    obtain ⟨group', hgroup', hmatches'⟩ := exists_parentGroup_matches halike hmatches hpart
    exact ⟨group', mem_groups.2 ⟨fields', hfields', hgroup'⟩, hmatches'⟩

end Groups

end ResolvedGraph

/-- Field selections that are alike are alike in the graphs. -/
theorem SelectionGraph.Represents.alike {schema : Schema} {definitions definitions' : List Definition}
    {graph graph' : SelectionGraph} (hleft : Represents schema definitions graph)
    (hright : Represents schema definitions' graph') {i j : FieldId} {x y : Occurrence}
    (hx : (occurrences schema definitions)[i]? = some x) (hy : (occurrences schema definitions')[j]? = some y)
    (hxy : x.Alike y) : graph.resolved.Alike graph'.resolved i j := by
  obtain ⟨x', hx', hfield, htype, hparent⟩ := hleft.exists_selected hx
  obtain ⟨y', hy', hfield', htype', hparent'⟩ := hright.exists_selected hy
  refine ⟨x', y', hx', hy', ?_, ?_, ?_⟩
  · rw [hfield, hfield']
    exact hxy.field
  · rw [htype, htype', hxy.type?]
  · rw [hparent, hparent', hxy.parent?]

namespace Simulates

variable {schema : Schema} {definitions definitions' : List Definition} {R : Nat → Nat → Prop}
variable {extra : Nat → Prop} {graph graph' : SelectionGraph}

/-- Corresponding fields are alike in the graphs. -/
theorem selected (h : Simulates schema definitions definitions' R extra)
    (hleft : SelectionGraph.Represents schema definitions graph)
    (hright : SelectionGraph.Represents schema definitions' graph') {i j : FieldId} (hij : R i j) :
    graph.resolved.Alike graph'.resolved i j := by
  obtain ⟨x, y, hx, hy, hxy⟩ := h.alike hij
  exact hleft.alike hright hx hy hxy

/-- The merged sub-selections of corresponding groups correspond. -/
theorem children (h : Simulates schema definitions definitions' R extra)
    (hleft : SelectionGraph.Expanded schema definitions graph)
    (hright : SelectionGraph.Expanded schema definitions' graph') {group group' : List FieldId}
    (hmatches : Matches R extra (· ∈ group) (· ∈ group')) :
    Matches R extra (· ∈ graph.resolved.children group) (· ∈ graph'.resolved.children group') where
  forth hi := by
    obtain ⟨above, habove, hbelow⟩ := (hleft.children _ _).1 hi
    obtain ⟨above', habove', habove⟩ := hmatches.forth habove
    obtain ⟨j, hj, hij⟩ := (h.below habove).forth hbelow
    exact ⟨j, (hright.children _ _).2 ⟨above', habove', hj⟩, hij⟩
  back hj := by
    obtain ⟨above', habove', hbelow⟩ := (hright.children _ _).1 hj
    obtain hextra | ⟨above, habove, habove'⟩ := hmatches.back habove'
    · exact absurd hbelow (h.lone hextra)
    · apply ((h.below habove').back hbelow).imp_right
      rintro ⟨i, hi, hij⟩
      exact ⟨i, (hleft.children _ _).2 ⟨above, habove, hi⟩, hij⟩

/-- To each root corresponds a root. -/
theorem root (h : Simulates schema definitions definitions' R extra)
    (hleft : SelectionGraph.Expanded schema definitions graph)
    (hright : SelectionGraph.Expanded schema definitions' graph') {root : ContainerId}
    (hroot : root ∈ graph.roots) : ∃ root' ∈ graph'.roots,
      Matches R extra (· ∈ graph.resolved.fieldSet root) (· ∈ graph'.resolved.fieldSet root') := by
  obtain ⟨content, hcontent, hfields⟩ := exists_of_forall₂_right hleft.roots hroot
  obtain ⟨content', hcontent', hmatches⟩ := h.roots content hcontent
  obtain ⟨root', hroot', hfields'⟩ := exists_of_forall₂_left hright.roots hcontent'
  exact ⟨root', hroot', hmatches.congr hfields hfields'⟩

/-- To each set that a pass comes to corresponds one that it comes to in the other document. -/
theorem reached (h : Simulates schema definitions definitions' R extra)
    (hleft : SelectionGraph.Expanded schema definitions graph)
    (hright : SelectionGraph.Expanded schema definitions' graph') {pass : Pass} {start start' set : List FieldId}
    (hstart : Matches R extra (· ∈ start) (· ∈ start')) (hset : graph.resolved.Reached pass start set) :
    ∃ set', graph'.resolved.Reached pass start' set' ∧ Matches R extra (· ∈ set) (· ∈ set') := by
  induction hset with
  | start => exact ⟨start', .start, hstart⟩
  | children _ hgroup ih =>
    obtain ⟨set', hset', hmatches⟩ := ih
    obtain ⟨group', hgroup', hmatches'⟩ := ResolvedGraph.exists_group_matches
      (h.selected hleft.represents hright.represents) hmatches hgroup
    exact ⟨_, hset'.children hgroup', h.children hleft hright hmatches'⟩

/-- To each group that a pass comes to corresponds one that it comes to in the other document. -/
theorem reachedGroup (h : Simulates schema definitions definitions' R extra)
    (hleft : SelectionGraph.Expanded schema definitions graph)
    (hright : SelectionGraph.Expanded schema definitions' graph') {pass : Pass} {root : ContainerId}
    (hroot : root ∈ graph.roots) {group : List FieldId}
    (hgroup : graph.resolved.ReachedGroup pass (graph.resolved.fieldSet root) group) :
    ∃ root' ∈ graph'.roots, ∃ group',
      graph'.resolved.ReachedGroup pass (graph'.resolved.fieldSet root') group' ∧
      Matches R extra (· ∈ group) (· ∈ group') := by
  obtain ⟨set, hset, hmem⟩ := hgroup
  obtain ⟨root', hroot', hstart⟩ := h.root hleft hright hroot
  obtain ⟨set', hset', hmatches⟩ := h.reached hleft hright hstart hset
  obtain ⟨group', hgroup', hmatches'⟩ := ResolvedGraph.exists_group_matches
    (h.selected hleft.represents hright.represents) hmatches hmem
  exact ⟨root', hroot', group', ⟨set', hset', hgroup'⟩, hmatches'⟩

end Simulates

end SelectionMerge
