import SelectionMerge.Proofs.Check.Transparency
import SelectionMerge.Proofs.Expansion.FieldSets

/-!
# Fields that meet in a response

`Overlap` says which field selections of a document can give one value of a response, as the
language defines it: all pairs, on the document itself, with fragments expanded. The check
compares neighbours of some groups only. It is enough: two fields that overlap are always in one
group that the second pass comes to (`Overlap.shares`), the neighbours of a group without conflict
ask for the same, and so do all its fields (`Quiet.agree`). The main statement is
`overlapping_fields_agree`.
-/

namespace SelectionMerge
set_option autoImplicit false

/-- Two field selections have one response key, and their parents are not two known object types
of different names. -/
structure Occurrence.Compatible (x y : Occurrence) : Prop where
  responseKey : x.field.responseKey = y.field.responseKey
  parents : ∀ p q, x.parent? = some p → y.parent? = some q → p.isObject = true → q.isObject = true →
    p.name = q.name

/-- The field selections of these numbers are two and compatible. -/
def Compatible (schema : Schema) (definitions : List Definition) (a b : Nat) : Prop :=
  a ≠ b ∧ ∃ x y, (occurrences schema definitions)[a]? = some x ∧
    (occurrences schema definitions)[b]? = some y ∧ x.Compatible y

/-- Compatible fields overlap that belong to one operation or one fragment, or to the
sub-selections of one field or of two that overlap, each time with fragments expanded. -/
inductive Overlap (schema : Schema) (definitions : List Definition) : Nat → Nat → Prop where
  | operation {start : Nat} {operation : Operation} {a b : Nat} :
    ExpandsOperation definitions start operation a → ExpandsOperation definitions start operation b →
      Compatible schema definitions a b → Overlap schema definitions a b
  | fragment {name : Name} {a b : Nat} :
    ExpandsFragment definitions name a → ExpandsFragment definitions name b →
      Compatible schema definitions a b → Overlap schema definitions a b
  | within {f a b : Nat} :
    ExpandsBelow schema definitions f a → ExpandsBelow schema definitions f b →
      Compatible schema definitions a b → Overlap schema definitions a b
  | children {f g a b : Nat} :
    Overlap schema definitions f g → ExpandsBelow schema definitions f a →
      ExpandsBelow schema definitions g b → Compatible schema definitions a b →
      Overlap schema definitions a b

namespace SelectionGraph

variable {graph : SelectionGraph} {schema : Schema} {definitions : List Definition}

/-- The graph has a field for each field selection of the document. -/
theorem Represents.exists_selected (h : Represents schema definitions graph) {i : Nat}
    {occurrence : Occurrence} (hi : (occurrences schema definitions)[i]? = some occurrence) :
    ∃ selected, graph.fields[i]? = some selected ∧ selected.field = occurrence.field ∧
      selected.type? = occurrence.type? ∧ selected.parent? = occurrence.parent? := by
  obtain ⟨selected, hselected, hbare⟩ := h.exists_bare hi
  refine ⟨selected, hselected, ?_, ?_, ?_⟩
  · exact congrArg SelectedField.field hbare
  · exact congrArg SelectedField.type? hbare
  · exact congrArg SelectedField.parent? hbare

theorem objectParent?_eq_some {selected : SelectedField} {name : Name} :
    selected.objectParent? = some name ↔
      ∃ parent, selected.parent? = some parent ∧ parent.isObject = true ∧ parent.name = name := by
  unfold SelectedField.objectParent?
  cases selected.parent? with
  | none => simp
  | some parent => simp

/-- Compatible field selections have one response key in the graph and can stand in one object. -/
theorem Represents.compatible (h : Represents schema definitions graph) {a b : Nat}
    (hab : Compatible schema definitions a b) :
    graph.resolved.responseKey? a = graph.resolved.responseKey? b ∧ graph.resolved.Together a b := by
  obtain ⟨-, x, y, hx, hy, hkey, hparents⟩ := hab
  obtain ⟨first, hfirst, hfield, -, hparent⟩ := h.exists_selected hx
  obtain ⟨second, hsecond, hfield', -, hparent'⟩ := h.exists_selected hy
  have hfirst : graph.resolved.field? a = some first := hfirst
  have hsecond : graph.resolved.field? b = some second := hsecond
  constructor
  · rw [ResolvedGraph.responseKey?_eq hfirst, ResolvedGraph.responseKey?_eq hsecond]
    unfold SelectedField.responseKey
    rw [hfield, hfield', hkey]
  · intro p q hp hq
    rw [ResolvedGraph.objectParent?_eq hfirst] at hp
    rw [ResolvedGraph.objectParent?_eq hsecond] at hq
    obtain ⟨p', hp', hobject, rfl⟩ := objectParent?_eq_some.1 hp
    obtain ⟨q', hq', hobject', rfl⟩ := objectParent?_eq_some.1 hq
    exact hparents p' q' (hparent ▸ hp') (hparent' ▸ hq') hobject hobject'

/-- The fields are in one group that the second pass comes to. -/
def Shares (graph : SelectionGraph) (a b : FieldId) : Prop :=
  ∃ root ∈ graph.roots, ∃ group,
    graph.resolved.ReachedGroup .calls (graph.resolved.fieldSet root) group ∧ a ∈ group ∧ b ∈ group

/-- Compatible fields of one set share a group. -/
theorem Represents.shares (h : Represents schema definitions graph) {a b : Nat}
    (hab : Compatible schema definitions a b) {root : ContainerId} {set : List FieldId}
    (hroot : root ∈ graph.roots)
    (hset : graph.resolved.Reached .calls (graph.resolved.fieldSet root) set) (ha : a ∈ set) (hb : b ∈ set) :
    graph.Shares a b := by
  obtain ⟨hkey, htogether⟩ := h.compatible hab
  obtain ⟨group, hgroup, ha, hb⟩ := ResolvedGraph.exists_group .calls ha hb hkey fun _ => htogether
  exact ⟨root, hroot, group, ⟨set, hset, hgroup⟩, ha, hb⟩

/-- **Coverage.** Fields that overlap share a group, however fragments spread each other. -/
theorem Represents.shares_of_overlap (h : Represents schema definitions graph) {a b : Nat}
    (hab : Overlap schema definitions a b) : graph.Shares a b := by
  induction hab with
  | operation ha hb hcompatible =>
    obtain ⟨hmem, ha⟩ := ha
    obtain ⟨root, hroot, hholds⟩ := h.definitions hmem
    have hfrom : graph.FromRoots root := ⟨root, hroot, .refl⟩
    exact h.shares hcompatible hroot .start (h.mem_fieldSet hfrom hholds ha) (h.mem_fieldSet hfrom hholds hb.2)
  | fragment ha hb hcompatible =>
    obtain ⟨start, fragment, hmem, hname, ha⟩ := ha
    obtain ⟨start', fragment', hmem', hname', hb⟩ := hb
    -- All definitions of a fragment stand in one container.
    obtain ⟨root, hroot, hfragment, hholds⟩ := h.definitions hmem
    obtain ⟨root', -, hfragment', hholds'⟩ := h.definitions hmem'
    rw [hname] at hfragment
    rw [hname'] at hfragment'
    obtain rfl := Option.some.inj (hfragment.symm.trans hfragment')
    have hfrom : graph.FromRoots root := ⟨root, hroot, .refl⟩
    exact h.shares hcompatible hroot .start (h.mem_fieldSet hfrom hholds ha) (h.mem_fieldSet hfrom hholds' hb)
  | within ha hb hcompatible =>
    obtain ⟨occurrence, hoccurrence, -⟩ := id ha
    obtain ⟨root, hroot, set, hset, hf⟩ := h.exists_reached .calls hoccurrence
    obtain ⟨group, hgroup, hf, -⟩ := ResolvedGraph.exists_group .calls hf hf rfl
      fun _ p q hp hq => Option.some.inj (hp.symm.trans hq)
    exact h.shares hcompatible hroot (hset.children hgroup) (h.mem_children hf ha) (h.mem_children hf hb)
  | children _ ha hb hcompatible ih =>
    obtain ⟨root, hroot, group, ⟨set, hset, hgroup⟩, hf, hg⟩ := ih
    exact h.shares hcompatible hroot (hset.children hgroup) (h.mem_children hf ha) (h.mem_children hg hb)

end SelectionGraph

namespace SelectedField

/-- What two fields that can stand in one object have in common if they do not conflict. -/
theorem conflict?_eq_none {x y : SelectedField} (htogether : x.neverTogether y = false)
    (h : x.conflict? y = none) :
    x.call = y.call ∧ ∀ s t, x.type? = some s → y.type? = some t → s.type.innerName = t.type.innerName := by
  unfold conflict? at h
  rw [htogether, if_neg Bool.false_ne_true] at h
  split at h
  · cases h
  split at h
  · cases h
  split at h
  · cases h
  split at h
  · cases h
  next hname htypes harguments =>
    rw [bne_iff_ne, ne_eq, not_not] at hname harguments
    refine ⟨?_, fun s t hs ht => ?_⟩
    · have hcall : ∀ z : SelectedField, z.call = ⟨z.field.name, z.call.arguments⟩ := fun _ => rfl
      rw [hcall x, hcall y, hname, harguments]
    · unfold namedTypesDiffer at htypes
      simp only [hs, ht] at htypes
      rw [bne_iff_ne, ne_eq, not_not] at htypes
      exact htypes

end SelectedField

namespace ResolvedGraph

variable {resolved : ResolvedGraph}

/-- The named type inside a field's type. -/
def innerName? (resolved : ResolvedGraph) (id : FieldId) : Option Name :=
  (resolved.field? id).bind fun selected => selected.type?.map fun type => type.type.innerName

theorem innerName?_eq {a : FieldId} {selected : SelectedField} {type : FieldType}
    (h : resolved.field? a = some selected) (htype : selected.type? = some type) :
    resolved.innerName? a = some type.type.innerName := by
  simp [innerName?, h, htype]

/-- Whether fields can stand in one object is a matter of their parents. -/
theorem neverTogether_eq_false_iff {a b : FieldId} {first second : SelectedField}
    (ha : resolved.field? a = some first) (hb : resolved.field? b = some second) :
    first.neverTogether second = false ↔ resolved.Together a b := by
  unfold Together SelectedField.neverTogether
  rw [objectParent?_eq ha, objectParent?_eq hb]
  cases first.objectParent? with
  | none => simp
  | some p =>
    cases second.objectParent? with
    | none => simp
    | some q => simp

/-- Neighbours of a group that do not conflict ask for the same. -/
theorem agree_of_conflict? {a b : FieldId} {first second : SelectedField}
    (ha : resolved.field? a = some first) (hb : resolved.field? b = some second)
    (htogether : resolved.Together a b) (h : resolved.conflict? a b = none) :
    first.call = second.call ∧
      ∀ s t, first.type? = some s → second.type? = some t → s.type.innerName = t.type.innerName := by
  rw [conflict?_eq ha hb] at h
  exact SelectedField.conflict?_eq_none ((neverTogether_eq_false_iff ha hb).2 htogether) h

/-- In a quiet graph the fields of a pair that a pass compares ask for the same if they can stand in
one object. -/
theorem Quiet.agree_of_listed (h : resolved.Quiet) {pass : Pass} {root : ContainerId}
    (hroot : root ∈ resolved.graph.roots) {group : List FieldId}
    (hgroup : resolved.ReachedGroup pass (resolved.fieldSet root) group) {a b : FieldId}
    {first second : SelectedField} (ha : resolved.field? a = some first) (hb : resolved.field? b = some second)
    (hpair : ListedPair (resolved.pairs pass group) a b) (htogether : resolved.Together a b) :
    first.call = second.call ∧
      ∀ s t, first.type? = some s → second.type? = some t → s.type.innerName = t.type.innerName := by
  -- The pass compares the field that stands first in the document with the other.
  obtain hlt | rfl | hlt := Nat.lt_trichotomy a b
  · exact agree_of_conflict? ha hb htogether (h pass root hroot group hgroup a b hlt hpair)
  · obtain rfl := Option.some.inj (ha.symm.trans hb)
    refine ⟨rfl, fun s t hs ht => ?_⟩
    obtain rfl := Option.some.inj (hs.symm.trans ht)
    rfl
  · have hnone := h pass root hroot group hgroup b a hlt hpair.symm
    obtain ⟨hcall, htypes⟩ := agree_of_conflict? hb ha htogether.symm hnone
    exact ⟨hcall.symm, fun s t hs ht => (htypes t s ht hs).symm⟩

/-- In a quiet graph all fields of a group of the second pass ask for the same, and where all their
types are known these have one named type inside. -/
theorem Quiet.agree (h : resolved.Quiet) {root : ContainerId} (hroot : root ∈ resolved.graph.roots)
    {group : List FieldId} (hgroup : resolved.ReachedGroup .calls (resolved.fieldSet root) group)
    (hfields : ∀ i ∈ group, ∃ selected, resolved.field? i = some selected) :
    (∀ a ∈ group, ∀ b ∈ group, resolved.call? a = resolved.call? b) ∧
    ((∀ i ∈ group, ∀ selected, resolved.field? i = some selected → selected.type? ≠ none) →
      ∀ a ∈ group, ∀ b ∈ group, resolved.innerName? a = resolved.innerName? b) := by
  have hneighbours : ∀ a b, (a, b) ∈ neighbours (layout resolved.call? group) →
      ∀ first second, resolved.field? a = some first → resolved.field? b = some second →
      first.call = second.call ∧
        ∀ s t, first.type? = some s → second.type? = some t → s.type.innerName = t.type.innerName := by
    intro a b hab first second hfirst hsecond
    obtain ⟨set, -, hmem⟩ := id hgroup
    obtain ⟨ha, hb⟩ := mem_of_neighbours hab
    have htogether := ((mem_group hmem (mem_layout.1 ha)).2 b (mem_layout.1 hb)).2 rfl
    exact h.agree_of_listed hroot hgroup hfirst hsecond (.inl hab) htogether
  have hlayout : ∀ i ∈ group, i ∈ layout resolved.call? group := fun i hi => mem_layout.2 hi
  constructor
  · intro a ha b hb
    refine eq_of_neighbours (fun x y hxy => ?_) a (hlayout a ha) b (hlayout b hb)
    obtain ⟨hx, hy⟩ := mem_of_neighbours hxy
    obtain ⟨first, hfirst⟩ := hfields x (mem_layout.1 hx)
    obtain ⟨second, hsecond⟩ := hfields y (mem_layout.1 hy)
    rw [call?_eq hfirst, call?_eq hsecond, (hneighbours x y hxy first second hfirst hsecond).1]
  · intro hknown a ha b hb
    refine eq_of_neighbours (fun x y hxy => ?_) a (hlayout a ha) b (hlayout b hb)
    obtain ⟨hx, hy⟩ := mem_of_neighbours hxy
    obtain ⟨first, hfirst⟩ := hfields x (mem_layout.1 hx)
    obtain ⟨second, hsecond⟩ := hfields y (mem_layout.1 hy)
    obtain ⟨s, hs⟩ := Option.ne_none_iff_exists'.1 (hknown x (mem_layout.1 hx) first hfirst)
    obtain ⟨t, ht⟩ := Option.ne_none_iff_exists'.1 (hknown y (mem_layout.1 hy) second hsecond)
    have htypes := (hneighbours x y hxy first second hfirst hsecond).2 s t hs ht
    rw [innerName?_eq hfirst hs, innerName?_eq hsecond ht, htypes]

end ResolvedGraph

namespace SelectionGraph

variable {graph : SelectionGraph} {schema : Schema} {definitions : List Definition}

/-- The sets that a pass comes to have fields of the graph. -/
theorem WellFormed.exists_field (h : graph.WellFormed) {pass : Pass} {c : ContainerId} {set : List FieldId}
    (hset : graph.resolved.Reached pass (graph.resolved.fieldSet c) set) {i : FieldId} (hi : i ∈ set) :
    ∃ selected, graph.resolved.field? i = some selected := by
  obtain ⟨ids, hids⟩ : ∃ ids, i ∈ graph.fieldsOf ids := by
    cases hset with
    | start => exact ⟨_, hi⟩
    | children _ _ => exact ⟨_, hi⟩
  obtain ⟨d, -, hd⟩ := ResolvedGraph.mem_fieldsOf.1 hids
  exact ⟨_, Array.getElem?_eq_getElem (h.fields_lt hd)⟩

/-- The fields of a group that a pass comes to are fields of the graph. -/
theorem WellFormed.exists_field_of_group (h : graph.WellFormed) {pass : Pass} {c : ContainerId}
    {group : List FieldId} (hgroup : graph.resolved.ReachedGroup pass (graph.resolved.fieldSet c) group)
    {i : FieldId} (hi : i ∈ group) : ∃ selected, graph.resolved.field? i = some selected := by
  obtain ⟨set, hset, hmem⟩ := hgroup
  exact h.exists_field hset (ResolvedGraph.mem_group hmem hi).1

/-- Every field of the graph of a document has a known type if every field selection has. -/
theorem Represents.known (h : Represents schema definitions graph)
    (hknown : ∀ occurrence ∈ occurrences schema definitions, occurrence.type? ≠ none) {i : FieldId}
    {selected : SelectedField} (hi : graph.resolved.field? i = some selected) : selected.type? ≠ none := by
  obtain ⟨occurrence, hoccurrence, hbare⟩ := h.field? hi
  have htype : selected.type? = occurrence.type? := congrArg SelectedField.type? hbare
  rw [htype]
  exact hknown occurrence (List.mem_of_getElem? hoccurrence)

end SelectionGraph

theorem Overlap.compatible {schema : Schema} {definitions : List Definition} {a b : Nat}
    (h : Overlap schema definitions a b) : Compatible schema definitions a b := by
  cases h with
  | operation _ _ hcompatible => exact hcompatible
  | fragment _ _ hcompatible => exact hcompatible
  | within _ _ hcompatible => exact hcompatible
  | children _ _ _ hcompatible => exact hcompatible

/-- **Agreement.** In a document without conflicts any two fields that overlap have one name and
one set of written arguments, and where the types of all fields are known, theirs have one named
type inside. -/
theorem overlapping_fields_agree {schema : Schema} {definitions : List Definition}
    (h : validate schema definitions = .ok []) {a b : Nat} (hab : Overlap schema definitions a b) :
    ∃ x y, (occurrences schema definitions)[a]? = some x ∧ (occurrences schema definitions)[b]? = some y ∧
      x.field.name = y.field.name ∧
      (∀ text, text ∈ x.field.arguments.map Argument.text ↔ text ∈ y.field.arguments.map Argument.text) ∧
      ((∀ occurrence ∈ occurrences schema definitions, occurrence.type? ≠ none) →
        ∃ s t, x.type? = some s ∧ y.type? = some t ∧ s.type.innerName = t.type.innerName) := by
  obtain ⟨-, x, y, hx, hy, -⟩ := hab.compatible
  obtain ⟨graph, hgraph, hquiet⟩ := quiet_of_validate h
  have hrepresents := SelectionGraph.represents_ofDocument hgraph
  obtain ⟨root, hroot, group, hgroup, ha, hb⟩ := hrepresents.shares_of_overlap hab
  obtain ⟨first, hfirst, hfield, htype, -⟩ := hrepresents.exists_selected hx
  obtain ⟨second, hsecond, hfield', htype', -⟩ := hrepresents.exists_selected hy
  have hfirst : graph.resolved.field? a = some first := hfirst
  have hsecond : graph.resolved.field? b = some second := hsecond
  obtain ⟨hcalls, htypes⟩ := hquiet.agree hroot hgroup fun i hi =>
    hrepresents.wellFormed.exists_field_of_group hgroup hi
  have hcall : x.field.call = y.field.call := by
    have hcall := hcalls a ha b hb
    rw [ResolvedGraph.call?_eq hfirst, ResolvedGraph.call?_eq hsecond] at hcall
    unfold SelectedField.call at hcall
    rw [hfield, hfield'] at hcall
    exact Option.some.inj hcall
  refine ⟨x, y, hx, hy, congrArg FieldCall.name hcall, fun text => ?_, fun hknown => ?_⟩
  · have harguments := congrArg (fun call => text ∈ call.arguments) hcall
    unfold Field.call at harguments
    simp only [Ascending.mem_ofList] at harguments
    exact iff_of_eq harguments
  · obtain ⟨s, hs⟩ := Option.ne_none_iff_exists'.1 (hknown x (List.mem_of_getElem? hx))
    obtain ⟨t, ht⟩ := Option.ne_none_iff_exists'.1 (hknown y (List.mem_of_getElem? hy))
    have hinner := htypes (fun i _ selected hselected => hrepresents.known hknown hselected) a ha b hb
    rw [ResolvedGraph.innerName?_eq hfirst (htype.trans hs),
      ResolvedGraph.innerName?_eq hsecond (htype'.trans ht)] at hinner
    exact ⟨s, t, hs, ht, Option.some.inj hinner⟩

/-- A fragment that spreads itself below a field, so that its two selections of `a` as `x` meet
there. -/
def agreeingDocument : List Definition :=
  [.fragment ⟨⟨"F", Eq.refl true⟩, ⟨"Query", Eq.refl true⟩,
    [.field ⟨none, ⟨"next", Eq.refl true⟩, [], none⟩
      [.spread ⟨"F", Eq.refl true⟩, .field ⟨some ⟨"x", Eq.refl true⟩, ⟨"a", Eq.refl true⟩, [], none⟩ []],
     .field ⟨some ⟨"x", Eq.refl true⟩, ⟨"a", Eq.refl true⟩, [], none⟩ []]⟩]

/-- The selections meet once the fragment is expanded in itself, and agree. -/
theorem agreeing_fields_overlap :
    validate loopSchema agreeingDocument = .ok [] ∧ Overlap loopSchema agreeingDocument 1 2 ∧
      ∃ x y, (occurrences loopSchema agreeingDocument)[1]? = some x ∧
        (occurrences loopSchema agreeingDocument)[2]? = some y ∧ x.field.name = y.field.name := by
  have hvalidate : validate loopSchema agreeingDocument = .ok [] := by
    apply validate_eq_nil
    decide +kernel
  have hbelow : ExpandsBelow loopSchema agreeingDocument 0 1 := ⟨_, rfl, .later .here⟩
  have hspread : ExpandsBelow loopSchema agreeingDocument 0 2 :=
    ⟨_, rfl, .spread (.head _) rfl (.later .here)⟩
  have hoverlap : Overlap loopSchema agreeingDocument 1 2 := by
    refine .within hbelow hspread ⟨by decide, _, _, rfl, rfl, rfl, ?_⟩
    intro p q hp hq _ _
    obtain rfl := Option.some.inj (hp.symm.trans hq)
    rfl
  obtain ⟨x, y, hx, hy, hname, -⟩ := overlapping_fields_agree hvalidate hoverlap
  exact ⟨hvalidate, hoverlap, x, y, hx, hy, hname⟩

end SelectionMerge
