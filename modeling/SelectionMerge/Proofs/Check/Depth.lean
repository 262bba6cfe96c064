import Mathlib.Data.Finset.Card
import Mathlib.Data.List.Chain
import Mathlib.Data.List.Sublists
import Mathlib.Data.Set.Card
import SelectionMerge.Proofs.Expansion.FieldSets

/-!
# The sets that a pass comes to

A pass goes on from a set to the merged sub-selections of its groups (`ResolvedGraph.LeadsOn`), around
cycles as well. All sets but the first are ascending lists of fields of the graph, so a pass comes to no
more than `2 ^ n` sets where the graph has `n` fields (`ncard_reachedSets_le`), nor from a container where
it has `n` containers (`ncard_reachedSets_fieldSet_le`). A chain of different sets has no more of them than
the pass comes to (`length_le_ncard`).
-/

namespace SelectionMerge
set_option autoImplicit false

namespace ResolvedGraph

variable {resolved : ResolvedGraph} {pass : Pass} {start set : List FieldId}

/-- The ascending lists of fields of the graph. -/
def fieldSets (resolved : ResolvedGraph) : Finset (List FieldId) :=
  (List.range resolved.graph.fields.size).sublists.toFinset

theorem card_fieldSets_le (resolved : ResolvedGraph) :
    resolved.fieldSets.card ≤ 2 ^ resolved.graph.fields.size := by
  have hcard := List.toFinset_card_le (List.range resolved.graph.fields.size).sublists
  rw [List.length_sublists, List.length_range] at hcard
  exact hcard

/-- The fields of containers are an ascending list. -/
theorem fieldsOf_mem_fieldSets (h : resolved.graph.WellFormed) (ids : List ContainerId) :
    resolved.graph.fieldsOf ids ∈ resolved.fieldSets := by
  unfold fieldSets
  rw [List.mem_toFinset, List.mem_sublists]
  have heq : resolved.graph.fieldsOf ids =
      (List.range resolved.graph.fields.size).filter (· ∈ resolved.graph.fieldsOf ids) := by
    apply Ascending.eq_of_mem_iff (pairwise_fieldsOf _ _)
    · exact List.pairwise_lt_range.filter _
    · intro i
      rw [List.mem_filter, List.mem_range, decide_eq_true_eq]
      refine ⟨fun hi => ⟨?_, hi⟩, And.right⟩
      obtain ⟨c, -, hi⟩ := mem_fieldsOf.1 hi
      exact h.fields_lt hi
  rw [heq]
  exact List.filter_sublist

/-- The sets that a pass comes to from a set. -/
def reachedSets (resolved : ResolvedGraph) (pass : Pass) (start : List FieldId) : Set (List FieldId) :=
  { set | resolved.Reached pass start set }

theorem reachedSets_subset (h : resolved.graph.WellFormed) (pass : Pass) (start : List FieldId) :
    resolved.reachedSets pass start ⊆ insert start resolved.fieldSets := by
  intro set hset
  cases hset with
  | start => exact Set.mem_insert _ _
  | children _ _ => exact Set.mem_insert_of_mem _ (fieldsOf_mem_fieldSets h _)

theorem finite_reachedSets (h : resolved.graph.WellFormed) (pass : Pass) (start : List FieldId) :
    (resolved.reachedSets pass start).Finite :=
  (resolved.fieldSets.finite_toSet.insert start).subset (reachedSets_subset h pass start)

/-- There are no more sets than a graph has ascending lists of fields, besides the first. -/
theorem ncard_reachedSets_le_succ (h : resolved.graph.WellFormed) (pass : Pass) (start : List FieldId) :
    (resolved.reachedSets pass start).ncard ≤ 2 ^ resolved.graph.fields.size + 1 := by
  have hsub := Set.ncard_le_ncard (reachedSets_subset h pass start) (resolved.fieldSets.finite_toSet.insert start)
  have hinsert := Set.ncard_insert_le start (resolved.fieldSets : Set (List FieldId))
  have hcard := resolved.card_fieldSets_le
  rw [Set.ncard_coe_finset] at hinsert
  omega

theorem ncard_reachedSets_le (h : resolved.graph.WellFormed) (pass : Pass) (hstart : start ∈ resolved.fieldSets) :
    (resolved.reachedSets pass start).ncard ≤ 2 ^ resolved.graph.fields.size := by
  have hsub := Set.ncard_le_ncard (reachedSets_subset h pass start) (resolved.fieldSets.finite_toSet.insert start)
  rw [Set.insert_eq_of_mem (Finset.mem_coe.2 hstart), Set.ncard_coe_finset] at hsub
  exact hsub.trans resolved.card_fieldSets_le

/-- The fields of containers are those of an ascending list of containers of the graph. -/
theorem fieldsOf_filter_range (graph : SelectionGraph) (ids : List ContainerId) :
    graph.fieldsOf ((List.range graph.containers.size).filter (· ∈ ids)) = graph.fieldsOf ids := by
  apply Ascending.eq_of_mem_iff (pairwise_fieldsOf _ _) (pairwise_fieldsOf _ _)
  intro i
  rw [mem_fieldsOf, mem_fieldsOf]
  constructor
  · rintro ⟨c, hc, hi⟩
    exact ⟨c, of_decide_eq_true (List.mem_filter.1 hc).2, hi⟩
  · rintro ⟨c, hc, hi⟩
    refine ⟨c, List.mem_filter.2 ⟨List.mem_range.2 ?_, decide_eq_true hc⟩, hi⟩
    by_contra hsize
    rw [SelectionGraph.container_eq_empty (Nat.le_of_not_lt hsize)] at hi
    cases hi

/-- From a container a pass comes to no more sets than the graph has sets of containers. -/
theorem ncard_reachedSets_fieldSet_le (resolved : ResolvedGraph) (pass : Pass) (c : ContainerId) :
    (resolved.reachedSets pass (resolved.fieldSet c)).ncard ≤ 2 ^ resolved.graph.containers.size := by
  let sets := (List.range resolved.graph.containers.size).sublists.map resolved.graph.fieldsOf
  have hmem : ∀ ids, resolved.graph.fieldsOf ids ∈ sets := fun ids =>
    List.mem_map.2 ⟨_, List.mem_sublists.2 List.filter_sublist, fieldsOf_filter_range resolved.graph ids⟩
  have hsub : resolved.reachedSets pass (resolved.fieldSet c) ⊆ sets.toFinset := by
    intro set hset
    rw [Finset.mem_coe, List.mem_toFinset]
    cases hset with
    | start => exact hmem _
    | children _ _ => exact hmem _
  have hcard := Set.ncard_le_ncard hsub sets.toFinset.finite_toSet
  have hlength := sets.toFinset_card_le
  rw [Set.ncard_coe_finset] at hcard
  rw [List.length_map, List.length_sublists, List.length_range] at hlength
  exact hcard.trans hlength

/-- A pass goes on from one set to the other: it has the merged sub-selections of one of its groups. -/
def LeadsOn (resolved : ResolvedGraph) (pass : Pass) (set next : List FieldId) : Prop :=
  ∃ group ∈ resolved.groups pass set, next = resolved.children group

/-- The sets of a chain are sets that the pass comes to. -/
theorem reached_of_chain {rest : List (List FieldId)} (h : (start :: rest).IsChain (resolved.LeadsOn pass)) :
    ∀ set ∈ start :: rest, resolved.Reached pass start set := by
  induction rest generalizing start with
  | nil =>
    intro set hset
    rw [List.mem_singleton.1 hset]
    exact .start
  | cons next rest ih =>
    obtain ⟨⟨group, hgroup, rfl⟩, hrest⟩ := List.isChain_cons_cons.1 h
    intro set hset
    rcases List.mem_cons.1 hset with rfl | hset
    · exact .start
    · exact (Reached.children .start hgroup).trans (ih hrest set hset)

/-- A chain of different sets is no longer than the number of sets that the pass comes to. -/
theorem length_le_ncard (hgraph : resolved.graph.WellFormed) {sets : List (List FieldId)} (hnodup : sets.Nodup)
    (hsets : ∀ set ∈ sets, resolved.Reached pass start set) :
    sets.length ≤ (resolved.reachedSets pass start).ncard := by
  classical
  rw [← List.toFinset_card_of_nodup hnodup, ← Set.ncard_coe_finset]
  apply Set.ncard_le_ncard _ (finite_reachedSets hgraph pass start)
  intro set hset
  exact hsets set (List.mem_toFinset.1 (Finset.mem_coe.1 hset))

end ResolvedGraph

end SelectionMerge
