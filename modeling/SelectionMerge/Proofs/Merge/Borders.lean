import SelectionMerge.Proofs.Merge.Overlap

/-!
# Fields of different shapes

The first pass compares fields of different shapes only where they are neighbours in the layout of
a group, at the border between two shapes. That does not cover the group: a border pair on two
object types never conflicts, whatever it asks for, and what a border pair agrees on says nothing
of the other fields of its shapes. Nor need the second pass make up for it, as it keeps the
sub-selections of fields on two object types apart. So a document may pass though two of its fields
ask for different values under one response key: `owners_conflict_unreported`.

`Hidden` are the pairs that both passes leave out. That those agree is what it takes
(`conflict?_eq_none_iff_hidden`).
-/

namespace SelectionMerge
set_option autoImplicit false

namespace Schema

variable {schema : Schema} {parent? : Option TypeDefinition} {type : FieldType}

/-- The definition in a field's type is the one that the schema has for the named type inside. -/
theorem definition_of_fieldType? {name : Name} (h : schema.fieldType? parent? name = some type) :
    schema.type? type.type.innerName = some type.definition := by
  unfold fieldType? at h
  obtain ⟨parent, -, h⟩ := Option.bind_eq_some_iff.1 h
  obtain ⟨field, -, h⟩ := Option.bind_eq_some_iff.1 h
  obtain ⟨definition, hdefinition, h⟩ := Option.bind_eq_some_iff.1 h
  obtain rfl := Option.some.inj h
  exact hdefinition

theorem definition_of_mem_occurrencesIn {selections : List Selection} {occurrence : Occurrence}
    (hmem : occurrence ∈ occurrencesIn schema parent? selections) (h : occurrence.type? = some type) :
    schema.type? type.type.innerName = some type.definition := by
  induction selections using selections_induction generalizing parent? with
  | nil => cases hmem
  | field field selections later ih ih' =>
    unfold occurrencesIn at hmem
    obtain hmem | hmem := List.mem_append.1 hmem
    · unfold Selection.occurrences at hmem
      obtain rfl | hmem := List.mem_cons.1 hmem
      · exact definition_of_fieldType? h
      · exact ih hmem
    · exact ih' hmem
  | inline condition? selections later ih ih' =>
    unfold occurrencesIn at hmem
    obtain hmem | hmem := List.mem_append.1 hmem
    · exact ih hmem
    · exact ih' hmem
  | spread name later ih => exact ih hmem

end Schema

namespace SelectedField

/-- Fields whose types are known do not conflict if they ask for the same or can never stand in
one object, and only then. -/
theorem conflict?_eq_none_iff {x y : SelectedField} {s t : FieldType} (hs : x.type? = some s)
    (ht : y.type? = some t)
    (hdefinition : s.type.innerName = t.type.innerName → s.definition = t.definition) :
    x.conflict? y = none ↔ (x.neverTogether y = false →
      x.call = y.call ∧ s.type.innerName = t.type.innerName) := by
  constructor
  · intro h htogether
    obtain ⟨hcall, htypes⟩ := conflict?_eq_none htogether h
    exact ⟨hcall, htypes s t hs ht⟩
  · intro h
    unfold conflict?
    cases htogether : x.neverTogether y with
    | true => rfl
    | false =>
      obtain ⟨hcall, hinner⟩ := h htogether
      have hname : x.field.name = y.field.name := congrArg FieldCall.name hcall
      have hleaf : x.leafKindsDiffer y = false := by
        unfold leafKindsDiffer
        simp [hs, ht, hdefinition hinner]
      have hnamed : x.namedTypesDiffer y = false := by
        unfold namedTypesDiffer
        simp [hs, ht, hinner]
      simp [hleaf, hname, hnamed, hcall]

end SelectedField

namespace ResolvedGraph

/-- The fields have one name, one set of written arguments, and one named type inside their
types. -/
def Agree (resolved : ResolvedGraph) (a b : FieldId) : Prop :=
  resolved.call? a = resolved.call? b ∧ resolved.innerName? a = resolved.innerName? b

end ResolvedGraph

namespace SelectionGraph

variable {graph : SelectionGraph} {schema : Schema} {definitions : List Definition}

/-- The fields are of different shapes and in one group that the first pass comes to. -/
def ShapesMeet (graph : SelectionGraph) (a b : FieldId) : Prop :=
  ∃ root ∈ graph.roots, ∃ group,
    graph.resolved.ReachedGroup .shapes (graph.resolved.fieldSet root) group ∧ a ∈ group ∧ b ∈ group ∧
    graph.resolved.shape? a ≠ graph.resolved.shape? b

/-- The fields are neighbours of different shapes in a group that the first pass comes to. -/
def Border (graph : SelectionGraph) (a b : FieldId) : Prop :=
  ∃ root ∈ graph.roots, ∃ group,
    graph.resolved.ReachedGroup .shapes (graph.resolved.fieldSet root) group ∧
    ListedPair (graph.resolved.pairs .shapes group) a b

/-- The fields can stand in one object, but are neither neighbours for the first pass nor in one
group of the second. -/
structure Hidden (graph : SelectionGraph) (a b : FieldId) : Prop where
  together : graph.resolved.Together a b
  border : ¬ graph.Border a b
  shares : ¬ graph.Shares a b

theorem Represents.definition (h : Represents schema definitions graph) {i : FieldId}
    {selected : SelectedField} (hi : graph.resolved.field? i = some selected) {type : FieldType}
    (htype : selected.type? = some type) : schema.type? type.type.innerName = some type.definition := by
  obtain ⟨occurrence, hoccurrence, hbare⟩ := h.field? hi
  have hmem : occurrence ∈ occurrences schema definitions := List.mem_of_getElem? hoccurrence
  obtain ⟨definition, -, hmem⟩ := List.mem_flatMap.1 hmem
  apply Schema.definition_of_mem_occurrencesIn hmem
  exact (congrArg SelectedField.type? hbare).symm.trans htype

/-- In a document whose types are known, fields conflict if they can stand in one object and do not
agree. -/
theorem Represents.conflict?_eq_none_iff (h : Represents schema definitions graph)
    (hknown : ∀ occurrence ∈ occurrences schema definitions, occurrence.type? ≠ none) {a b : FieldId}
    {first second : SelectedField} (ha : graph.resolved.field? a = some first)
    (hb : graph.resolved.field? b = some second) :
    graph.resolved.conflict? a b = none ↔ (graph.resolved.Together a b → graph.resolved.Agree a b) := by
  obtain ⟨s, hs⟩ := Option.ne_none_iff_exists'.1 (h.known hknown ha)
  obtain ⟨t, ht⟩ := Option.ne_none_iff_exists'.1 (h.known hknown hb)
  have hdefinition : s.type.innerName = t.type.innerName → s.definition = t.definition := by
    intro hinner
    have hfirst := h.definition ha hs
    rw [hinner, h.definition hb ht] at hfirst
    exact (Option.some.inj hfirst).symm
  have hagree : graph.resolved.Agree a b ↔
      first.call = second.call ∧ s.type.innerName = t.type.innerName := by
    unfold ResolvedGraph.Agree
    rw [ResolvedGraph.call?_eq ha, ResolvedGraph.call?_eq hb, ResolvedGraph.innerName?_eq ha hs,
      ResolvedGraph.innerName?_eq hb ht, Option.some_inj, Option.some_inj]
  rw [ResolvedGraph.conflict?_eq ha hb, SelectedField.conflict?_eq_none_iff hs ht hdefinition,
    ResolvedGraph.neverTogether_eq_false_iff ha hb, hagree]

/-- In a quiet graph the neighbours at a border agree if they can stand in one object. -/
theorem Border.agree (h : Represents schema definitions graph) (hquiet : graph.resolved.Quiet)
    (hknown : ∀ occurrence ∈ occurrences schema definitions, occurrence.type? ≠ none) {a b : FieldId}
    {first second : SelectedField} (ha : graph.resolved.field? a = some first)
    (hb : graph.resolved.field? b = some second) (htogether : graph.resolved.Together a b)
    (hborder : graph.Border a b) : graph.resolved.Agree a b := by
  obtain ⟨root, hroot, group, hgroup, hpair⟩ := hborder
  obtain ⟨s, hs⟩ := Option.ne_none_iff_exists'.1 (h.known hknown ha)
  obtain ⟨t, ht⟩ := Option.ne_none_iff_exists'.1 (h.known hknown hb)
  obtain ⟨hcall, htypes⟩ := hquiet.agree_of_listed hroot hgroup ha hb hpair htogether
  constructor
  · rw [ResolvedGraph.call?_eq ha, ResolvedGraph.call?_eq hb, hcall]
  · rw [ResolvedGraph.innerName?_eq ha hs, ResolvedGraph.innerName?_eq hb ht, htypes s t hs ht]

/-- In a quiet graph the fields of one group of the second pass agree. -/
theorem Shares.agree (h : Represents schema definitions graph) (hquiet : graph.resolved.Quiet)
    (hknown : ∀ occurrence ∈ occurrences schema definitions, occurrence.type? ≠ none) {a b : FieldId}
    (hshares : graph.Shares a b) : graph.resolved.Agree a b := by
  obtain ⟨root, hroot, group, hgroup, ha, hb⟩ := hshares
  obtain ⟨hcalls, htypes⟩ := hquiet.agree hroot hgroup fun i hi => h.wellFormed.exists_field_of_group hgroup hi
  constructor
  · exact hcalls a ha b hb
  · exact htypes (fun i _ selected hselected => h.known hknown hselected) a ha b hb

end SelectionGraph

/-- **What the borders leave out.** In a document without conflicts whose types are all known, two
fields of different shapes in a group of the first pass are free of conflict exactly if they agree
or are not hidden: those that are neighbours, or in one group of the second pass, or never in one
object, always are. -/
theorem conflict?_eq_none_iff_hidden {schema : Schema} {definitions : List Definition}
    (h : validate schema definitions = .ok [])
    (hknown : ∀ occurrence ∈ occurrences schema definitions, occurrence.type? ≠ none) :
    ∃ graph, SelectionGraph.ofDocument schema definitions = .ok graph ∧
      ∀ a b, graph.ShapesMeet a b →
        (graph.resolved.conflict? a b = none ↔ (graph.Hidden a b → graph.resolved.Agree a b)) := by
  obtain ⟨graph, hgraph, hquiet⟩ := quiet_of_validate h
  have hrepresents := SelectionGraph.represents_ofDocument hgraph
  refine ⟨graph, hgraph, fun a b hmeet => ?_⟩
  obtain ⟨root, -, group, hgroup, ha, hb, -⟩ := hmeet
  obtain ⟨first, hfirst⟩ := hrepresents.wellFormed.exists_field_of_group hgroup ha
  obtain ⟨second, hsecond⟩ := hrepresents.wellFormed.exists_field_of_group hgroup hb
  rw [hrepresents.conflict?_eq_none_iff hknown hfirst hsecond]
  constructor
  · intro hagree hhidden
    exact hagree hhidden.together
  · intro hagree htogether
    by_cases hborder : graph.Border a b
    · exact hborder.agree hrepresents hquiet hknown hfirst hsecond htogether
    by_cases hshares : graph.Shares a b
    · exact hshares.agree hrepresents hquiet hknown
    exact hagree ⟨htogether, hborder, hshares⟩

/-- Pets with owners, who are persons or clubs. -/
def ownerSchema : Schema where
  types :=
    let owner : FieldDefinition := ⟨⟨"owner", Eq.refl true⟩, .named ⟨"Owner", Eq.refl true⟩ false⟩
    let id : FieldDefinition := ⟨⟨"id", Eq.refl true⟩, .named ⟨"ID", Eq.refl true⟩ false⟩
    let age : FieldDefinition := ⟨⟨"age", Eq.refl true⟩, .named ⟨"Int", Eq.refl true⟩ false⟩
    [⟨⟨"Query", Eq.refl true⟩, .object [] [⟨⟨"pet", Eq.refl true⟩, .named ⟨"Pet", Eq.refl true⟩ false⟩]⟩,
     ⟨⟨"Pet", Eq.refl true⟩, .interface [] [owner]⟩,
     ⟨⟨"Dog", Eq.refl true⟩, .object [⟨"Pet", Eq.refl true⟩] [owner]⟩,
     ⟨⟨"Cat", Eq.refl true⟩, .object [⟨"Pet", Eq.refl true⟩] [owner]⟩,
     ⟨⟨"Owner", Eq.refl true⟩, .interface [] [id]⟩,
     ⟨⟨"Person", Eq.refl true⟩, .object [⟨"Owner", Eq.refl true⟩]
       [id, age, ⟨⟨"name", Eq.refl true⟩, .named ⟨"String", Eq.refl true⟩ false⟩]⟩,
     ⟨⟨"Club", Eq.refl true⟩, .object [⟨"Owner", Eq.refl true⟩] [id, age]⟩] ++ Introspection.scalars
  roots := [(.query, ⟨"Query", Eq.refl true⟩)]

/-- The age of a dog's owner as `k`, and the name of a cat's owner who is a person, as `k` too. -/
def ownerDocument : List Definition :=
  let on (name : String) (h : isName name.toList = true) (field : Selection) : Selection :=
    .inline (some ⟨name, h⟩) [field]
  let owner (selections : List Selection) : Selection :=
    .field ⟨none, ⟨"owner", Eq.refl true⟩, [], none⟩ selections
  let select (name : String) (h : isName name.toList = true) : Selection :=
    .field ⟨some ⟨"k", Eq.refl true⟩, ⟨name, h⟩, [], none⟩ []
  [.operation ⟨.query, none, [.field ⟨none, ⟨"pet", Eq.refl true⟩, [], none⟩
    [on "Dog" (Eq.refl true) (owner
      [on "Person" (Eq.refl true) (select "age" (Eq.refl true)),
       on "Club" (Eq.refl true) (select "age" (Eq.refl true))]),
     on "Cat" (Eq.refl true) (owner
      [on "Person" (Eq.refl true) (select "name" (Eq.refl true))])]]⟩]

theorem ownerDocument_quiet : validate ownerSchema ownerDocument = .ok [] := by
  apply validate_eq_nil
  decide +kernel

theorem ownerDocument_known :
    ∀ occurrence ∈ occurrences ownerSchema ownerDocument, occurrence.type? ≠ none := by
  decide +kernel

/-- Fields 2 and 5, the age and the name of a person, are in the group `k` of the first pass. -/
theorem ownerDocument_meet : ∃ graph, SelectionGraph.ofDocument ownerSchema ownerDocument = .ok graph ∧
    graph.ShapesMeet 2 5 ∧ graph.resolved.conflict? 2 5 = some .differentFieldName := by
  have hall : (SelectionGraph.ofDocument ownerSchema ownerDocument).toOption.any (fun graph =>
      decide (0 ∈ graph.roots ∧
        [0] ∈ graph.resolved.groups .shapes (graph.resolved.fieldSet 0) ∧
        [1, 4] ∈ graph.resolved.groups .shapes (graph.resolved.children [0]) ∧
        [2, 3, 5] ∈ graph.resolved.groups .shapes (graph.resolved.children [1, 4]) ∧
        graph.resolved.shape? 2 ≠ graph.resolved.shape? 5 ∧
        graph.resolved.conflict? 2 5 = some .differentFieldName)) = true := by
    decide +kernel
  obtain ⟨graph, hgraph, hroot, hpet, howner, hk, hshapes, hconflict⟩ := SelectionGraph.exists_ofDocument hall
  refine ⟨graph, hgraph, ⟨0, hroot, [2, 3, 5], ⟨_, ?_, hk⟩, by decide, by decide, hshapes⟩, hconflict⟩
  exact (ResolvedGraph.Reached.start.children hpet).children howner

/-- The age and the name of a person conflict and nothing is reported: between them in the layout
of their group stands the age of a club, which is compared with the name of a person as one that
it never meets. -/
theorem owners_conflict_unreported :
    validate ownerSchema ownerDocument = .ok [] ∧
    (∀ occurrence ∈ occurrences ownerSchema ownerDocument, occurrence.type? ≠ none) ∧
    ∃ graph, SelectionGraph.ofDocument ownerSchema ownerDocument = .ok graph ∧
      ∃ a b, graph.ShapesMeet a b ∧ graph.resolved.conflict? a b = some .differentFieldName := by
  obtain ⟨graph, hgraph, hmeet, hconflict⟩ := ownerDocument_meet
  exact ⟨ownerDocument_quiet, ownerDocument_known, graph, hgraph, 2, 5, hmeet, hconflict⟩

/-- The two are hidden from both passes. -/
theorem owners_hidden : ∃ graph, SelectionGraph.ofDocument ownerSchema ownerDocument = .ok graph ∧
    graph.Hidden 2 5 ∧ ¬ graph.resolved.Agree 2 5 := by
  obtain ⟨graph, hgraph, hiff⟩ := conflict?_eq_none_iff_hidden ownerDocument_quiet ownerDocument_known
  obtain ⟨graph', hgraph', hmeet, hconflict⟩ := ownerDocument_meet
  obtain rfl := Except.ok.inj (hgraph.symm.trans hgraph')
  have hmissed : ¬ graph.resolved.conflict? 2 5 = none := by
    rw [hconflict]
    exact Option.some_ne_none _
  rw [hiff 2 5 hmeet, Classical.not_imp] at hmissed
  exact ⟨graph, hgraph, hmissed⟩

end SelectionMerge
