import SelectionMerge.Proofs.Merge.Layout
import SelectionMerge.Proofs.Merge.Simulation
import Mathlib.Order.Monotone.Basic

/-!
# Graphs within graphs

Fields keep their order and what they select when the document around them grows, and only their
numbers change. `ResolvedGraph.Embeds` says so of two graphs: the fields of the left one are fields of
the right one under ascending new numbers, with the same fields below them. What a pass makes of a set
is then the same on both sides but for the numbers: its groups (`Embeds.keyGroups`, `Embeds.parts`), the
pairs that are compared (`Embeds.pairs`), and what comparing them finds (`Embeds.findings`).
-/

namespace SelectionMerge
set_option autoImplicit false

/-- The finding under other numbers. -/
def Finding.rename (rename : FieldId → FieldId) (finding : Finding) : Finding :=
  ⟨rename finding.first, rename finding.second, finding.reason⟩

/-- Ascending new numbers keep findings in order. -/
theorem Finding.before_rename {rename : FieldId → FieldId} (h : StrictMono rename) (x y : Finding) :
    (x.rename rename).before (y.rename rename) = x.before y := by
  have hbeq : (rename x.first == rename y.first) = (x.first == y.first) := by
    rw [Bool.eq_iff_iff, beq_iff_eq, beq_iff_eq, h.injective.eq_iff]
  simp only [Finding.before, Finding.rename, h.lt_iff_lt, hbeq]

namespace ResolvedGraph

/-- The fields of the set are fields of the graph. -/
def Within (resolved : ResolvedGraph) (set : List FieldId) : Prop :=
  ∀ i ∈ set, i < resolved.graph.fields.size

/-- The fields of the left graph are fields of the right one under ascending new numbers, with the same
fields below them. -/
structure Embeds (left right : ResolvedGraph) (rename : FieldId → FieldId) : Prop where
  mono : StrictMono rename
  alike : ∀ i < left.graph.fields.size, left.Alike right i (rename i)
  children : ∀ set, left.Within set → right.children (set.map rename) = (left.children set).map rename
  within : ∀ set, left.Within (left.children set)

variable {left right : ResolvedGraph} {rename : FieldId → FieldId} {pass : Pass}
variable {set fields group : List FieldId} {a b : FieldId}

theorem Within.of_keyGroups (h : left.Within set) (hgroup : fields ∈ left.keyGroups set) : left.Within fields :=
  fun i hi => h i (mem_keyGroup hgroup hi).1

theorem Within.of_parts (h : left.Within fields) (hgroup : group ∈ left.parts pass fields) :
    left.Within group := by
  cases pass with
  | shapes =>
    obtain rfl := List.mem_singleton.1 hgroup
    exact h
  | calls => exact fun i hi => h i (mem_parentGroup hgroup hi).1

namespace Embeds

variable (h : left.Embeds right rename)
include h

/-- The right graph has no fewer fields. -/
theorem size_le : left.graph.fields.size ≤ right.graph.fields.size := by
  cases hsize : left.graph.fields.size with
  | zero => exact Nat.zero_le _
  | succ n =>
    obtain ⟨x, y, -, hy, -⟩ := h.alike n (by omega)
    have hlt : rename n < right.graph.fields.size := (Array.getElem?_eq_some_iff.1 hy).1
    exact Nat.succ_le_of_lt (lt_of_le_of_lt (h.mono.le_apply) hlt)

theorem keyGroups (hset : left.Within set) :
    right.keyGroups (set.map rename) = (left.keyGroups set).map (List.map rename) :=
  classes_map fun i hi => (h.alike i (hset i hi)).responseKey?.symm

theorem parentGroups (hset : left.Within set) :
    right.parentGroups (set.map rename) = (left.parentGroups set).map (List.map rename) := by
  have hparent : ∀ i ∈ set, right.objectParent? (rename i) = left.objectParent? i :=
    fun i hi => (h.alike i (hset i hi)).objectParent?.symm
  have hparents : (set.map rename).filterMap right.objectParent? = set.filterMap left.objectParent? := by
    rw [List.filterMap_map]
    exact List.filterMap_congr hparent
  unfold ResolvedGraph.parentGroups
  rw [hparents]
  cases firstKeys (set.filterMap left.objectParent?) with
  | nil => cases set <;> rfl
  | cons first later =>
    simp only [List.map_map]
    refine List.map_congr_left fun parent _ => ?_
    rw [List.filter_map, Function.comp_apply]
    congr 1
    exact List.filter_congr fun i hi => by simp [hparent i hi]

theorem parts (hset : left.Within set) :
    right.parts pass (set.map rename) = (left.parts pass set).map (List.map rename) := by
  cases pass with
  | shapes => rfl
  | calls => exact h.parentGroups hset

theorem shapePairs (hset : left.Within set) :
    right.shapePairs (set.map rename) = (left.shapePairs set).map (Prod.map rename rename) := by
  have hshape : ∀ i ∈ set, right.shape? (rename i) = left.shape? i :=
    fun i hi => (h.alike i (hset i hi)).shape?.symm
  unfold ResolvedGraph.shapePairs
  rw [layout_map hshape, neighbours_map, List.filter_map]
  congr 1
  refine List.filter_congr fun pair hpair => ?_
  obtain ⟨hfirst, hsecond⟩ := mem_of_neighbours hpair
  simp only [Function.comp_apply, Prod.map_fst, Prod.map_snd, hshape _ (mem_layout.1 hfirst),
    hshape _ (mem_layout.1 hsecond)]

theorem callPairs (hset : left.Within set) :
    right.callPairs (set.map rename) = (left.callPairs set).map (Prod.map rename rename) := by
  have hcall : ∀ i ∈ set, right.call? (rename i) = left.call? i :=
    fun i hi => (h.alike i (hset i hi)).call?.symm
  unfold ResolvedGraph.callPairs
  rw [layout_map hcall, neighbours_map]

theorem pairs (hset : left.Within set) :
    right.pairs pass (set.map rename) = (left.pairs pass set).map (Prod.map rename rename) := by
  cases pass with
  | shapes => exact h.shapePairs hset
  | calls => exact h.callPairs hset

theorem shape (ha : a < left.graph.fields.size) : right.shape (rename a) = left.shape a := by
  obtain ⟨x, y, hx, hy, hxy⟩ := h.alike a ha
  simp only [ResolvedGraph.shape, hx, hy, hxy.shape]

theorem findings (ha : a < left.graph.fields.size) (hb : b < left.graph.fields.size) :
    right.findings (rename a) (rename b) = (left.findings a b).map (Finding.rename rename) := by
  unfold ResolvedGraph.findings
  rw [← (h.alike a ha).conflict? (h.alike b hb)]
  cases left.conflict? a b <;> rfl

/-- The sets that a pass comes to from a set of the left graph are sets of the left graph. -/
theorem exists_of_reached {set' : List FieldId} (hset : left.Within set)
    (hreached : right.Reached pass (set.map rename) set') :
    ∃ reached, left.Within reached ∧ set' = reached.map rename := by
  induction hreached with
  | start => exact ⟨set, hset, rfl⟩
  | children _ hgroup ih =>
    obtain ⟨reached, hwithin, rfl⟩ := ih
    obtain ⟨_, hmem, hpart⟩ := mem_groups.1 hgroup
    rw [h.keyGroups hwithin] at hmem
    obtain ⟨fields, hfields, rfl⟩ := List.mem_map.1 hmem
    have hwithin' := hwithin.of_keyGroups hfields
    rw [h.parts hwithin'] at hpart
    obtain ⟨group, hgroup', rfl⟩ := List.mem_map.1 hpart
    exact ⟨_, h.within group, h.children group (hwithin'.of_parts hgroup')⟩

end Embeds

end ResolvedGraph

end SelectionMerge
