import SelectionMerge.Proofs.Expansion.Insertion
import SelectionMerge.Proofs.Merge.Layout

/-!
# Fields of unknown type

Rules about types are skipped where a type is not known, and such a field should not hide a conflict
of two others. It can: the fields of unknown type make up a class of their own in the layout of a
group by shape, and where it stands between two classes, their border pair is not compared
(`unknown_field_hides_conflict`). It is the only way: conflicts that are no more reported after a
field of unknown type was inserted are those that it parts (`hidden_conflicts_are_parted`).
-/

namespace SelectionMerge
set_option autoImplicit false

namespace ResolvedGraph

/-- In the layout of the group only fields of unknown type stand between the two, the field `u` among
them. -/
def Parts (resolved : ResolvedGraph) (pass : Pass) (group : List FieldId) (u a b : FieldId) : Prop :=
  ∃ before between after, resolved.arranged pass group = before ++ a :: between ++ b :: after ∧
    u ∈ between ∧ ∀ c ∈ between, resolved.innerName? c = none

/-- Each pair that conflicts and that a pass compares on the left corresponds to one that the field
`u` parts in a group on the right. -/
def Hides (u : FieldId) (left right : ResolvedGraph) : Prop :=
  ∀ pass, ∀ root ∈ left.graph.roots, ∀ group, left.ReachedGroup pass (left.fieldSet root) group →
    ∀ a b, (a, b) ∈ left.pairs pass group → left.conflict? a b ≠ none →
      ∃ root' ∈ right.graph.roots, ∃ group', right.ReachedGroup pass (right.fieldSet root') group' ∧
        right.Parts pass group' u (shift u a) (shift u b)

/-- The group on the right has the fields of the one on the left, and maybe the field `u` of unknown
type. -/
structure Gains (left right : ResolvedGraph) (u : FieldId) (group group' : List FieldId) : Prop where
  others : group'.filter (fun c => c ≠ u) = group.map (shift u)
  alike : ∀ {i}, i ∈ group → left.Alike right i (shift u i)
  unknown : u ∈ group' → right.innerName? u = none
  /-- The fields without a shape are those of unknown type. -/
  shape? : ∀ {c}, c ∈ group' → (right.shape? c = none ↔ right.innerName? c = none)

namespace Gains

variable {left right : ResolvedGraph} {u : FieldId} {group group' : List FieldId}

/-- Without the new field the groups are the same. -/
theorem eq_of_not_mem (h : left.Gains right u group group') (hu : u ∉ group') : group' = group.map (shift u) := by
  rw [← h.others, eq_comm, List.filter_eq_self]
  intro c hc
  exact decide_eq_true (ne_of_mem_of_not_mem hc hu)

/-- The fields of known shape are the same, one behind the other, in both layouts by shape. -/
theorem shapes_eq (h : left.Gains right u group group') :
    (layout right.shape? group').filter (fun c => (right.shape? c).isSome) =
      ((layout left.shape? group).filter fun i => (left.shape? i).isSome).map (shift u) := by
  have hshape : ∀ i ∈ group, right.shape? (shift u i) = left.shape? i := fun i hi => (h.alike hi).shape?.symm
  have hknown : group'.filter (fun c => (right.shape? c).isSome) =
      (group.filter fun i => (left.shape? i).isSome).map (shift u) := by
    calc group'.filter (fun c => (right.shape? c).isSome)
        = (group'.filter fun c => c ≠ u).filter fun c => (right.shape? c).isSome := by
          rw [List.filter_filter]
          refine List.filter_congr fun c hc => ?_
          by_cases hcu : c = u
          · subst hcu
            simp [(h.shape? hc).2 (h.unknown hc)]
          · simp [hcu]
      _ = (group.filter fun i => (left.shape? i).isSome).map (shift u) := by
          rw [h.others, List.filter_map]
          congr 1
          exact List.filter_congr fun i hi => by simp [hshape i hi]
  rw [filter_layout Option.isSome, filter_layout Option.isSome, hknown]
  exact layout_map fun i hi => hshape i (List.mem_filter.1 hi).1

/-- Where two neighbours in the layout by shape are so no more, the new field is in the group. -/
theorem mem_of_apart (h : left.Gains right u group group') {a b : FieldId}
    (hneighbours : (a, b) ∈ neighbours (layout left.shape? group))
    (hapart : (shift u a, shift u b) ∉ neighbours (layout right.shape? group')) : u ∈ group' := by
  by_contra hu
  have hshape : ∀ i ∈ group, right.shape? (shift u i) = left.shape? i := fun i hi => (h.alike hi).shape?.symm
  refine hapart ?_
  rw [h.eq_of_not_mem hu, layout_map hshape]
  exact mem_neighbours_map _ hneighbours

/-- Between two fields that the first pass would compare only fields of unknown type stand, the new one
among them, unless they are neighbours still. -/
theorem parts_shapes (h : left.Gains right u group group') {a b : FieldId}
    (hpair : (a, b) ∈ left.pairs .shapes group)
    (hapart : (shift u a, shift u b) ∉ neighbours (right.arranged .shapes group')) :
    right.Parts .shapes group' u (shift u a) (shift u b) := by
  obtain ⟨hneighbours, hshapes⟩ := mem_pairs_iff.1 hpair
  obtain ⟨s, t, hs, ht, -⟩ := hshapes rfl
  have hkept : (shift u a, shift u b) ∈
      neighbours ((layout right.shape? group').filter fun c => (right.shape? c).isSome) := by
    rw [h.shapes_eq]
    exact mem_neighbours_map _ (mem_neighbours_filter hneighbours (by simp [hs]) (by simp [ht]))
  obtain ⟨before, between, after, hlayout, hne, hbetween⟩ := exists_between hkept hapart
  have hunknown : ∀ c ∈ between, right.shape? c = none := fun c hc => by simpa using hbetween c hc
  have hgroup : ∀ c ∈ between, c ∈ group' := by
    intro c hc
    have hmem : c ∈ layout right.shape? group' := by
      rw [hlayout]
      simp [hc]
    exact mem_layout.1 hmem
  refine ⟨before, between, after, hlayout, ?_, fun c hc => (h.shape? (hgroup c hc)).1 (hunknown c hc)⟩
  -- The fields of unknown type stand together, the new one with the others.
  obtain ⟨ha, hb⟩ := mem_of_pairs hpair
  rw [(h.alike ha).shape?] at hs
  rw [(h.alike hb).shape?] at ht
  have hu := h.mem_of_apart hneighbours hapart
  obtain ⟨c, hc⟩ := List.exists_mem_of_ne_nil _ hne
  have hnone := hunknown c hc
  refine mem_between hlayout hc ?_ ?_ hu ?_
  · simp [hnone, hs]
  · simp [hnone, ht]
  · rw [hnone, (h.shape? hu).2 (h.unknown hu)]

/-- Where all fields have one name and one set of arguments, only the new field stands between two that
the second pass would compare, unless they are neighbours still. -/
theorem parts_calls (h : left.Gains right u group group')
    (hcalls : ∀ i ∈ group', ∀ j ∈ group', right.call? i = right.call? j) {a b : FieldId}
    (hpair : (a, b) ∈ left.pairs .calls group)
    (hapart : (shift u a, shift u b) ∉ neighbours (right.arranged .calls group')) :
    right.Parts .calls group' u (shift u a) (shift u b) := by
  have hshift : ∀ i ∈ group, shift u i ∈ group' := by
    intro i hi
    have hmem := List.mem_map_of_mem (f := shift u) hi
    rw [← h.others] at hmem
    exact (List.mem_filter.1 hmem).1
  have hleft : left.arranged .calls group = group := layout_eq_self fun i hi j hj => by
    rw [(h.alike hi).call?, (h.alike hj).call?]
    exact hcalls _ (hshift i hi) _ (hshift j hj)
  have hright : right.arranged .calls group' = group' := layout_eq_self hcalls
  have hneighbours := (mem_pairs_iff.1 hpair).1
  rw [hleft] at hneighbours
  rw [hright] at hapart
  have hkept : (shift u a, shift u b) ∈ neighbours (group'.filter fun c => c ≠ u) := by
    rw [h.others]
    exact mem_neighbours_map _ hneighbours
  obtain ⟨before, between, after, hgroup, hne, hbetween⟩ := exists_between hkept hapart
  have hnew : ∀ c ∈ between, c = u := fun c hc => by simpa using hbetween c hc
  obtain ⟨c, hc⟩ := List.exists_mem_of_ne_nil _ hne
  have hu : u ∈ between := hnew c hc ▸ hc
  refine ⟨before, between, after, hright.trans hgroup, hu, fun c hc => ?_⟩
  rw [hnew c hc]
  exact h.unknown (by simp [hgroup, hu])

end Gains

end ResolvedGraph

/-- A field has no shape if its type is not known. -/
theorem SelectedField.shape_eq_ok_none (x : SelectedField) : x.shape = .ok none ↔ x.type? = none := by
  unfold SelectedField.shape
  cases x.type? with
  | none => simp
  | some type => cases hof : Shape.of type.type type.definition <;> simp [hof, Except.map]

section Documents

variable {schema : Schema} {definitions definitions' : List Definition} {graph graph' : SelectionGraph}
variable {u : Nat}

/-- Where all types are output types, a field has no shape exactly if its type is not known. -/
theorem SelectionGraph.Represents.shape?_eq_none_iff (h : Represents schema definitions graph)
    (hnone : ∀ occurrence ∈ occurrences schema definitions, ∀ name, ¬ occurrence.ReturnsInput schema name)
    (i : FieldId) : graph.resolved.shape? i = none ↔ graph.resolved.innerName? i = none := by
  cases hshape : graph.resolved.shape i with
  | error defect =>
    obtain ⟨occurrence, name, hi, hinput, -⟩ := h.shape_eq_error.1 hshape
    exact absurd hinput (hnone occurrence (List.mem_of_getElem? hi) name)
  | ok shape =>
    have hjoin : graph.resolved.shape? i = shape := by simp [ResolvedGraph.shape?, hshape, Except.toOption]
    rw [hjoin]
    unfold ResolvedGraph.shape at hshape
    unfold ResolvedGraph.innerName?
    cases hselected : graph.resolved.field? i with
    | none =>
      simp only [hselected, Except.ok.injEq] at hshape
      simp [← hshape]
    | some selected =>
      simp only [hselected] at hshape
      simp [← selected.shape_eq_ok_none, hshape]

namespace AlignedDocuments

/-- The new field does not return an input object. -/
theorem not_returnsInput (h : AlignedDocuments schema u definitions definitions')
    (hnone : ∀ occurrence ∈ occurrences schema definitions, ∀ name, ¬ occurrence.ReturnsInput schema name) :
    ∀ occurrence ∈ occurrences schema definitions', ∀ name, ¬ occurrence.ReturnsInput schema name := by
  intro y hy name hinput
  obtain hunknown | ⟨x, hx, halike⟩ := h.exists_occurrence hy
  · obtain ⟨type, _, htype, -⟩ := hinput
    rw [hunknown] at htype
    cases htype
  · unfold Occurrence.ReturnsInput at hinput
    rw [← halike.type?] at hinput
    exact hnone x hx name hinput

/-- A group that corresponds to one has its fields, one number further behind the new field, and maybe
that. -/
theorem gains (h : AlignedDocuments schema u definitions definitions')
    (hleft : SelectionGraph.Expanded schema definitions graph)
    (hright : SelectionGraph.Expanded schema definitions' graph')
    (hnone : ∀ occurrence ∈ occurrences schema definitions', ∀ name, ¬ occurrence.ReturnsInput schema name)
    {group group' : List FieldId} (hgroup : group.Pairwise (· < ·)) (hgroup' : group'.Pairwise (· < ·))
    (hmatches : Matches (ShiftsTo schema u definitions definitions') (IsNew schema u definitions')
      (· ∈ group) (· ∈ group')) :
    graph.resolved.Gains graph'.resolved u group group' where
  others := by
    refine Ascending.eq_of_mem_iff (hgroup'.filter _) ?_ fun j => ?_
    · exact List.pairwise_map.2 (hgroup.imp shift_lt_shift)
    · rw [List.mem_filter, List.mem_map, decide_eq_true_eq]
      constructor
      · rintro ⟨hj, hne⟩
        obtain hnew | ⟨i, hi, rfl, -⟩ := hmatches.back hj
        · exact absurd hnew.1 hne
        · exact ⟨i, hi, rfl⟩
      · rintro ⟨i, hi, rfl⟩
        obtain ⟨j, hj, rfl, -⟩ := hmatches.forth hi
        exact ⟨hj, shift_ne u i⟩
  alike := by
    intro i hi
    obtain ⟨j, -, hij⟩ := hmatches.forth hi
    obtain rfl := hij.1
    exact h.simulates.selected hleft.represents hright.represents hij
  unknown := by
    intro hu
    obtain ⟨-, y, hy, -, hunknown⟩ | ⟨i, -, hshift, -⟩ := hmatches.back hu
    · obtain ⟨selected, hselected, -, htype, -⟩ := hright.represents.exists_selected hy
      have hselected : graph'.resolved.field? u = some selected := hselected
      simp [ResolvedGraph.innerName?, hselected, htype, hunknown]
    · exact absurd hshift.symm (shift_ne u i)
  shape? := fun {c} _ => hright.represents.shape?_eq_none_iff hnone c

/-- If nothing is reported with the new field, it parts all that conflicted without it. -/
theorem hides (h : AlignedDocuments schema u definitions definitions')
    (hleft : SelectionGraph.Expanded schema definitions graph)
    (hright : SelectionGraph.Expanded schema definitions' graph')
    (hnone : ∀ occurrence ∈ occurrences schema definitions', ∀ name, ¬ occurrence.ReturnsInput schema name)
    (hquiet : graph'.resolved.Quiet) : ResolvedGraph.Hides u graph.resolved graph'.resolved := by
  intro pass root hroot group hgroup a b hpair hconflict
  obtain ⟨root', hroot', group', hgroup', hmatches⟩ := h.simulates.reachedGroup hleft hright hroot hgroup
  refine ⟨root', hroot', group', hgroup', ?_⟩
  have hgains : graph.resolved.Gains graph'.resolved u group group' := by
    obtain ⟨set, hset, hmem⟩ := hgroup
    obtain ⟨set', hset', hmem'⟩ := hgroup'
    exact h.gains hleft hright hnone (ResolvedGraph.pairwise_group hmem hset.pairwise)
      (ResolvedGraph.pairwise_group hmem' hset'.pairwise) hmatches
  obtain ⟨ha, hb⟩ := ResolvedGraph.mem_of_pairs hpair
  -- As neighbours the two would be compared, and conflict as before.
  have hapart : (shift u a, shift u b) ∉ neighbours (graph'.resolved.arranged pass group') := by
    intro hneighbours
    rw [(hgains.alike ha).conflict? (hgains.alike hb)] at hconflict
    refine hconflict (hquiet.conflict?_eq_none hroot' hgroup' (ResolvedGraph.mem_pairs_iff.2 ⟨hneighbours, ?_⟩))
    rw [← (hgains.alike ha).shape?, ← (hgains.alike hb).shape?]
    exact (ResolvedGraph.mem_pairs_iff.1 hpair).2
  cases pass with
  | shapes => exact hgains.parts_shapes hpair hapart
  | calls =>
    have hfields := fun i hi => hright.represents.wellFormed.exists_field_of_group hgroup' (i := i) hi
    exact hgains.parts_calls (hquiet.agree hroot' hgroup' hfields).1 hpair hapart

end AlignedDocuments

end Documents

/-- **Unknown fields.** A field of unknown type that is inserted into a document does not make the
check fail; and if no conflict is reported then, each pair of fields that was compared before and
conflicts has this field and others of unknown type between them where they would be compared, and
nothing else. -/
theorem hidden_conflicts_are_parted {schema : Schema} {definitions definitions' : List Definition}
    {conflicts : List Conflict} (hinserts : InsertsInto schema definitions definitions')
    (h : validate schema definitions = .ok conflicts) :
    ∃ u, AlignedDocuments schema u definitions definitions' ∧
      ∃ graph graph', SelectionGraph.ofDocument schema definitions = .ok graph ∧
        SelectionGraph.ofDocument schema definitions' = .ok graph' ∧
        ∃ conflicts', validate schema definitions' = .ok conflicts' ∧
          (conflicts' = [] → ResolvedGraph.Hides u graph.resolved graph'.resolved) := by
  obtain ⟨u, haligned⟩ := hinserts.aligned
  have hgraph := SelectionGraph.ofDocument_eq schema definitions
  have hgraph' := SelectionGraph.ofDocument_eq schema definitions'
  have hnone := haligned.not_returnsInput (exists_validate_iff.1 ⟨conflicts, h⟩)
  obtain ⟨conflicts', h'⟩ := exists_validate_iff.2 hnone
  refine ⟨u, haligned, _, _, hgraph, hgraph', conflicts', h', ?_⟩
  rintro rfl
  have hleft := SelectionGraph.expanded_ofDocument hgraph
  have hright := SelectionGraph.expanded_ofDocument hgraph'
  exact haligned.hides hleft hright hnone ((validate_eq_nil_iff hgraph').1 h').2

/-- Two interfaces with a field `x`, of two types. -/
def nodeSchema : Schema where
  types :=
    [⟨⟨"Query", Eq.refl true⟩, .object [] [⟨⟨"node", Eq.refl true⟩, .named ⟨"I", Eq.refl true⟩ false⟩]⟩,
     ⟨⟨"I", Eq.refl true⟩, .interface [] [⟨⟨"x", Eq.refl true⟩, .named ⟨"Int", Eq.refl true⟩ false⟩]⟩,
     ⟨⟨"J", Eq.refl true⟩, .interface [] [⟨⟨"x", Eq.refl true⟩, .named ⟨"String", Eq.refl true⟩ false⟩]⟩] ++
      Introspection.scalars
  roots := [(.query, ⟨"Query", Eq.refl true⟩)]

/-- The field `x` of a type. -/
def selectX (type : Name) : Selection :=
  .inline (some type) [.field ⟨none, ⟨"x", Eq.refl true⟩, [], none⟩ []]

/-- The `x` of both interfaces, and between them maybe that of a type that is missing. -/
def nodeDocument (missing : Bool) : List Definition :=
  let last := [selectX ⟨"J", Eq.refl true⟩]
  [.operation ⟨.query, none, [.field ⟨none, ⟨"node", Eq.refl true⟩, [], none⟩
    ([selectX ⟨"I", Eq.refl true⟩] ++ if missing then selectX ⟨"Nope", Eq.refl true⟩ :: last else last)]⟩]

theorem nodeDocument_inserts : InsertsInto nodeSchema (nodeDocument false) (nodeDocument true) := by
  have hsame : ∀ type, SameSelections [selectX type] [selectX type] := fun _ =>
    .inline (.field (.refl _) .nil .nil) .nil
  have hunknown : ∀ parent?, UnknownSelection nodeSchema parent? (selectX ⟨"Nope", by decide⟩) := fun _ =>
    .inline (by decide +kernel)
  refine .intro .nil (.operation rfl rfl) (.field .nil (.refl _) ?_ .nil) .nil
  exact .here (hsame ⟨"I", by decide⟩) (hunknown _) (hsame ⟨"J", by decide⟩)

/-- The fields 1 and 2, both called `x`, are compared in the first pass and conflict. -/
theorem nodeDocument_conflict :
    ∃ graph, SelectionGraph.ofDocument nodeSchema (nodeDocument false) = .ok graph ∧
      ∃ root ∈ graph.roots, ∃ group,
        graph.resolved.ReachedGroup .shapes (graph.resolved.fieldSet root) group ∧
        (1, 2) ∈ graph.resolved.pairs .shapes group ∧ graph.resolved.conflict? 1 2 = some .typeMismatch := by
  have hall : (SelectionGraph.ofDocument nodeSchema (nodeDocument false)).toOption.any (fun graph =>
      decide (0 ∈ graph.roots ∧ [0] ∈ graph.resolved.groups .shapes (graph.resolved.fieldSet 0) ∧
        [1, 2] ∈ graph.resolved.groups .shapes (graph.resolved.children [0]) ∧
        (1, 2) ∈ graph.resolved.pairs .shapes [1, 2] ∧
        graph.resolved.conflict? 1 2 = some .typeMismatch)) = true := by
    decide +kernel
  obtain ⟨graph, hgraph, hroot, hnode, hx, hpair, hconflict⟩ := SelectionGraph.exists_ofDocument hall
  exact ⟨graph, hgraph, 0, hroot, [1, 2], ⟨_, .children .start hnode, hx⟩, hpair, hconflict⟩

theorem nodeDocument_reported : ∃ conflict, validate nodeSchema (nodeDocument false) = .ok [conflict] := by
  have hcount : (validate nodeSchema (nodeDocument false)).toOption.map List.length = some 1 := by
    decide +kernel
  obtain ⟨conflicts, hvalidate, hlength⟩ := exists_validate_eq hcount
  obtain ⟨conflict, rfl⟩ := List.length_eq_one_iff.1 hlength
  exact ⟨conflict, hvalidate⟩

theorem nodeDocument_quiet : validate nodeSchema (nodeDocument true) = .ok [] := by
  apply validate_eq_nil
  decide +kernel

/-- The two are parted by the `x` of the missing type. -/
theorem nodes_parted :
    ∃ u graph, SelectionGraph.ofDocument nodeSchema (nodeDocument true) = .ok graph ∧
      ∃ root ∈ graph.roots, ∃ group,
        graph.resolved.ReachedGroup .shapes (graph.resolved.fieldSet root) group ∧
        graph.resolved.Parts .shapes group u (shift u 1) (shift u 2) := by
  obtain ⟨conflict, hreported⟩ := nodeDocument_reported
  obtain ⟨u, -, graph, graph', hgraph, hgraph', conflicts', h', hhides⟩ :=
    hidden_conflicts_are_parted nodeDocument_inserts hreported
  obtain rfl := Except.ok.inj (h'.symm.trans nodeDocument_quiet)
  obtain ⟨graph₀, hgraph₀, root, hroot, group, hgroup, hpair, hconflict⟩ := nodeDocument_conflict
  obtain rfl := Except.ok.inj (hgraph₀.symm.trans hgraph)
  have hparts := hhides rfl .shapes root hroot group hgroup 1 2 hpair (by simp [hconflict])
  exact ⟨u, graph', hgraph', hparts⟩

/-- A conflict is reported, and no more with the `x` of a missing type between its two fields. -/
theorem unknown_field_hides_conflict :
    InsertsInto nodeSchema (nodeDocument false) (nodeDocument true) ∧
    (∃ conflict, validate nodeSchema (nodeDocument false) = .ok [conflict]) ∧
    validate nodeSchema (nodeDocument true) = .ok [] :=
  ⟨nodeDocument_inserts, nodeDocument_reported, nodeDocument_quiet⟩

end SelectionMerge
