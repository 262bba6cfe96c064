import SelectionMerge.Proofs.Build.Labels
import SelectionMerge.Proofs.Expansion.FieldSets

/-!
# Field sets are expansions

The graph of a document computes what its syntax tree means. `Expands` and `ExpandsBelow` are read
off the tree, where fragments may spread each other in circles, and know no containers. All that
belongs to a content is found in the containers that its container reaches (`Represents`), and what
is found there belongs to it (`Labelled`), so the field sets and the merged sub-selections of the
resolved graph are the expansions of the tree: `field_sets_are_expansions`.
-/

namespace SelectionMerge
set_option autoImplicit false

/-- The list is strictly ascending and has the fields that belong. -/
structure Enumerates (fields : List FieldId) (belongs : FieldId → Prop) : Prop where
  ascending : fields.Pairwise (· < ·)
  mem_iff : ∀ i, i ∈ fields ↔ belongs i

namespace SelectionGraph

variable {schema : Schema} {definitions : List Definition} {graph : SelectionGraph}
variable {content : ContainerId → Content}

/-- The fields in the field set of a container stand in containers that it reaches. One that no root
leads to has its own fields only. -/
theorem WellFormed.exists_of_mem_fieldSet (h : graph.WellFormed) {c : ContainerId} {i : FieldId}
    (hi : i ∈ graph.resolved.fieldSet c) : ∃ d, graph.Reaches c d ∧ i ∈ (graph.container d).fields := by
  obtain ⟨d, hd, hi⟩ := ResolvedGraph.mem_fieldsOf.1 hi
  rw [marks_resolved h.resolution] at hd
  refine ⟨d, ?_, hi⟩
  have hself : (∀ reached, (graph.marksAfter graph.roots).get c ≠ .closed reached) → d = c := by
    intro hopen
    unfold Marks.reach at hd
    split at hd
    next reached hget => exact absurd hget (hopen reached)
    next => exact List.mem_singleton.1 hd
  by_cases hclosed : (graph.marksAfter graph.roots).IsClosed c
  · exact ((reach_marksAfter h.inRange h.roots_lt hclosed).2 d).1 hd
  · obtain rfl := hself fun reached hget => hclosed ⟨reached, hget⟩
    exact .refl d

theorem Rooted.expands_of_mem_fieldSet {contents : List Content}
    (h : graph.Rooted schema definitions contents content) (hgraph : graph.WellFormed) {c : ContainerId}
    {i : FieldId} (hi : i ∈ graph.resolved.fieldSet c) : (content c).Expands definitions i := by
  obtain ⟨d, hreaches, hi⟩ := hgraph.exists_of_mem_fieldSet hi
  exact h.labelled.expands hreaches hi

/-- The definitions of a fragment are found in its container. -/
theorem Represents.mem_fragment (h : Represents schema definitions graph) {name : Name} {c : ContainerId}
    (hname : graph.fragment? name = some c) {i : FieldId} (hi : ExpandsFragment definitions name i) :
    i ∈ graph.resolved.fieldSet c := by
  obtain ⟨start, fragment, hmem, rfl, hi⟩ := hi
  obtain ⟨root, hroot, hroot', hholds⟩ := h.definitions hmem
  obtain rfl := Option.some.inj (hname.symm.trans hroot')
  exact h.mem_fieldSet ⟨c, hroot, .refl⟩ hholds hi

/-- The field set of a fragment has what its definitions expand to. -/
theorem Rooted.mem_fragment_iff {contents : List Content}
    (h : graph.Rooted schema definitions contents content) (hrep : Represents schema definitions graph)
    {name : Name} {c : ContainerId} (hname : graph.fragment? name = some c) (i : FieldId) :
    i ∈ graph.resolved.fieldSet c ↔ ExpandsFragment definitions name i := by
  constructor
  · intro hi
    have hexpands := h.expands_of_mem_fieldSet hrep.wellFormed hi
    rw [(h.labelled.fragments.1 hname).2] at hexpands
    exact hexpands
  · exact hrep.mem_fragment hname

/-- The field set of a root has what the root expands to. -/
theorem Rooted.mem_root_iff {contents : List Content}
    (h : graph.Rooted schema definitions contents content) (hrep : Represents schema definitions graph)
    {root : ContainerId} (hroot : root ∈ graph.roots) (i : FieldId) :
    i ∈ graph.resolved.fieldSet root ↔ (content root).Expands definitions i := by
  refine ⟨h.expands_of_mem_fieldSet hrep.wellFormed, fun hi => ?_⟩
  have hholds := h.holds root hroot
  cases hcontent : content root with
  | selections first selections =>
    rw [hcontent] at hi
    exact hrep.mem_fieldSet ⟨root, hroot, .refl⟩ (hholds first selections hcontent) hi
  | fragment name =>
    rw [hcontent] at hi
    have hname := h.labelled.fragments.2 ⟨hrep.wellFormed.roots_lt root hroot, hcontent⟩
    exact hrep.mem_fragment hname hi

/-- The merged sub-selections of fields have what those of each of them expand to. -/
theorem Rooted.mem_children_iff {contents : List Content}
    (h : graph.Rooted schema definitions contents content) (hrep : Represents schema definitions graph)
    (fields : List FieldId) (i : FieldId) :
    i ∈ graph.resolved.children fields ↔ ∃ above ∈ fields, ExpandsBelow schema definitions above i := by
  constructor
  · intro hi
    obtain ⟨above, habove, c, hc, hi⟩ := ResolvedGraph.mem_children.1 hi
    obtain ⟨occurrence, hoccurrence, hcontent⟩ := h.labelled.nested hc
    have hexpands := h.expands_of_mem_fieldSet hrep.wellFormed hi
    rw [hcontent] at hexpands
    exact ⟨above, habove, occurrence, hoccurrence, hexpands⟩
  · rintro ⟨above, habove, hbelow⟩
    exact hrep.mem_children habove hbelow

/-- The sets of the graph are the expansions of the document: those of its roots, in order, and the
merged sub-selections. -/
structure Expanded (schema : Schema) (definitions : List Definition) (graph : SelectionGraph) : Prop where
  represents : Represents schema definitions graph
  roots : List.Forall₂ (fun content root =>
      ∀ i, i ∈ graph.resolved.fieldSet root ↔ content.Expands definitions i)
    (documentRoots definitions) graph.roots
  children : ∀ fields i,
    i ∈ graph.resolved.children fields ↔ ∃ above ∈ fields, ExpandsBelow schema definitions above i

theorem expanded_ofDocument (h : ofDocument schema definitions = .ok graph) :
    Expanded schema definitions graph := by
  have hrep := represents_ofDocument h
  obtain ⟨content, hrooted⟩ := exists_rooted h
  refine ⟨hrep, ?_, hrooted.mem_children_iff hrep⟩
  rw [← hrooted.roots, List.forall₂_map_left_iff, List.forall₂_same]
  exact fun root hroot => hrooted.mem_root_iff hrep hroot

end SelectionGraph

/-- **Expansion.** In the graph of a document the fields have the numbers of its field selections;
the roots are its operations and fragments in order, and the field set of each is the ascending
list of what the operation, or all definitions of the fragment, expand to; a fragment that is not
defined has none; and the merged sub-selections of fields are what the sub-selections of these
fields expand to, for any fields. -/
theorem field_sets_are_expansions (schema : Schema) (definitions : List Definition) :
    ∃ graph, SelectionGraph.ofDocument schema definitions = .ok graph ∧
      graph.fields.toList.map SelectedField.bare = (occurrences schema definitions).map Occurrence.bare ∧
      List.Forall₂ (fun content root =>
          Enumerates (graph.resolved.fieldSet root) (content.Expands definitions))
        (documentRoots definitions) graph.roots ∧
      (∀ start fragment, (start, .fragment fragment) ∈ numberedFrom 0 definitions →
        ∃ c ∈ graph.roots, graph.fragment? fragment.name = some c) ∧
      (∀ name c, graph.fragment? name = some c →
        Enumerates (graph.resolved.fieldSet c) (ExpandsFragment definitions name)) ∧
      ∀ fields, Enumerates (graph.resolved.children fields) fun i =>
        ∃ above ∈ fields, ExpandsBelow schema definitions above i := by
  have hgraph := SelectionGraph.ofDocument_eq schema definitions
  generalize definitions.foldl (SelectionGraph.define schema) SelectionGraph.empty = graph at hgraph
  have hrep := SelectionGraph.represents_ofDocument hgraph
  have hexpanded := SelectionGraph.expanded_ofDocument hgraph
  obtain ⟨content, hrooted⟩ := SelectionGraph.exists_rooted hgraph
  refine ⟨graph, hgraph, hrep.fields, ?_, ?_, ?_, ?_⟩
  · exact hexpanded.roots.imp fun content root hroot => ⟨ResolvedGraph.pairwise_fieldsOf _ _, hroot⟩
  · intro start fragment hmem
    obtain ⟨root, hroot, hname, -⟩ := hrep.definitions hmem
    exact ⟨root, hroot, hname⟩
  · exact fun name c hname => ⟨ResolvedGraph.pairwise_fieldsOf _ _, hrooted.mem_fragment_iff hrep hname⟩
  · exact fun fields => ⟨ResolvedGraph.pairwise_fieldsOf _ _, hexpanded.children fields⟩

end SelectionMerge
