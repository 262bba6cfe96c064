import SelectionMerge.Proofs.Merge.Overlap
import Mathlib.Data.List.Nodup
import Mathlib.Data.List.Pairwise

/-!
# The order within a layout

A layout commutes with what respects keys: with leaving out all elements of some keys
(`filter_layout`) and with renaming the elements (`layout_map`). What stands between two elements of
a layout is made of whole classes, apart from those of the two themselves (`mem_between`).

The pairs that a pass compares are the neighbours in the layout that it arranges a group in
(`ResolvedGraph.mem_pairs_iff`).
-/

namespace SelectionMerge
set_option autoImplicit false

variable {α β κ : Type}

/-- Neighbours stand one right behind the other. -/
theorem mem_neighbours_iff {as : List α} {a b : α} :
    (a, b) ∈ neighbours as ↔ ∃ before after, as = before ++ a :: b :: after := by
  induction as with
  | nil => simp [neighbours]
  | cons first as ih =>
    cases as with
    | nil =>
      refine ⟨nofun, ?_⟩
      rintro ⟨before, after, h⟩
      cases before <;> simp at h
    | cons second as =>
      rw [neighbours_cons, List.mem_cons, ih]
      constructor
      · rintro (heq | ⟨before, after, h⟩)
        · obtain ⟨rfl, rfl⟩ := Prod.mk.inj heq
          exact ⟨[], as, rfl⟩
        · exact ⟨first :: before, after, by rw [h, List.cons_append]⟩
      · rintro ⟨before, after, h⟩
        cases before with
        | nil =>
          injection h with hfirst h
          injection h with hsecond _
          exact .inl (by rw [hfirst, hsecond])
        | cons _ before =>
          injection h with _ h
          exact .inr ⟨before, after, h⟩

theorem neighbours_map (f : α → β) (as : List α) :
    neighbours (as.map f) = (neighbours as).map (Prod.map f f) := by
  unfold neighbours
  rw [← List.map_tail, List.zip_map]

theorem mem_neighbours_map (f : α → β) {as : List α} {a b : α} (h : (a, b) ∈ neighbours as) :
    (f a, f b) ∈ neighbours (as.map f) := by
  rw [neighbours_map]
  exact List.mem_map_of_mem h

/-- Neighbours that are kept stay neighbours. -/
theorem mem_neighbours_filter {keep : α → Bool} {as : List α} {a b : α} (h : (a, b) ∈ neighbours as)
    (ha : keep a = true) (hb : keep b = true) : (a, b) ∈ neighbours (as.filter keep) := by
  obtain ⟨before, after, rfl⟩ := mem_neighbours_iff.1 h
  exact mem_neighbours_iff.2 ⟨before.filter keep, after.filter keep, by simp [ha, hb]⟩

/-- Where neighbours among the elements that are kept are not neighbours among all, elements stand
between them that are not kept. -/
theorem exists_between {keep : α → Bool} {as : List α} {a b : α} (h : (a, b) ∈ neighbours (as.filter keep))
    (hapart : (a, b) ∉ neighbours as) :
    ∃ before between after, as = before ++ a :: between ++ b :: after ∧ between ≠ [] ∧
      ∀ c ∈ between, keep c = false := by
  obtain ⟨before, after, h⟩ := mem_neighbours_iff.1 h
  obtain ⟨first, rest, rfl, -, h⟩ := List.filter_eq_append_iff.1 h
  obtain ⟨skipped, rest, rfl, -, -, h⟩ := List.filter_eq_cons_iff.1 h
  obtain ⟨between, after', rfl, hbetween, -, -⟩ := List.filter_eq_cons_iff.1 h
  refine ⟨first ++ skipped, between, after', by simp, ?_, fun c hc => by simpa using hbetween c hc⟩
  rintro rfl
  exact hapart (mem_neighbours_iff.2 ⟨first ++ skipped, after', by simp⟩)

variable [DecidableEq κ] {key : α → κ} {as : List α}

theorem firstKeys_filter (keep : κ → Bool) (ks : List κ) :
    firstKeys (ks.filter keep) = (firstKeys ks).filter keep := by
  induction ks with
  | nil => rfl
  | cons k ks ih =>
    cases hk : keep k with
    | true =>
      rw [List.filter_cons_of_pos hk, firstKeys, firstKeys, ih, List.filter_cons_of_pos hk, List.filter_filter,
        List.filter_filter]
      simp only [Bool.and_comm]
    | false =>
      have hnot : ¬ keep k = true := by simp [hk]
      rw [List.filter_cons_of_neg hnot, firstKeys, ih, List.filter_cons_of_neg hnot, List.filter_filter]
      refine List.filter_congr fun l _ => ?_
      by_cases hl : l = k <;> simp [hl, hk]

/-- A layout is made of the classes of its keys, one after the other. -/
theorem layout_eq (key : α → κ) (as : List α) :
    layout key as = (firstKeys (as.map key)).flatMap fun k => as.filter fun a => key a = k := by
  rw [layout, classes_eq, List.flatMap]

/-- Leaving out all elements of some keys leaves the layout of the others. -/
theorem filter_layout (keep : κ → Bool) (key : α → κ) (as : List α) :
    (layout key as).filter (fun a => keep (key a)) = layout key (as.filter fun a => keep (key a)) := by
  have hkeys : ((as.filter fun a => keep (key a)).map key) = (as.map key).filter keep := by
    rw [List.filter_map]
    rfl
  rw [layout_eq, layout_eq, hkeys, firstKeys_filter]
  generalize firstKeys (as.map key) = ks
  induction ks with
  | nil => rfl
  | cons k ks ih =>
    rw [List.flatMap_cons, List.filter_append, ih, List.filter_filter]
    cases hk : keep k with
    | true =>
      rw [List.filter_cons_of_pos hk, List.flatMap_cons, List.filter_filter]
      simp only [Bool.and_comm]
    | false =>
      have hnone : as.filter (fun a => keep (key a) && decide (key a = k)) = [] := by
        refine List.filter_eq_nil_iff.2 fun a _ => ?_
        by_cases ha : key a = k <;> simp [ha, hk]
      rw [List.filter_cons_of_neg (by simp [hk]), hnone, List.nil_append]

/-- Elements with the same keys fall into the same classes. -/
theorem classes_map {key' : β → κ} {f : α → β} (h : ∀ a ∈ as, key' (f a) = key a) :
    classes key' (as.map f) = (classes key as).map (List.map f) := by
  have hkeys : (as.map f).map key' = as.map key := by
    rw [List.map_map]
    exact List.map_congr_left h
  rw [classes_eq, classes_eq, hkeys, List.map_map]
  refine List.map_congr_left fun k _ => ?_
  rw [List.filter_map, Function.comp_apply]
  congr 1
  exact List.filter_congr fun a ha => by simp [h a ha]

/-- Elements with the same keys have the same layout. -/
theorem layout_map {key' : β → κ} {f : α → β} (h : ∀ a ∈ as, key' (f a) = key a) :
    layout key' (as.map f) = (layout key as).map f := by
  unfold layout
  rw [classes_map h, List.map_flatten]

/-- Elements of one key stay as they are. -/
theorem layout_eq_self (h : ∀ a ∈ as, ∀ b ∈ as, key a = key b) : layout key as = as := by
  cases as with
  | nil => rfl
  | cons first as =>
    have hkeys : firstKeys ((first :: as).map key) = [key first] := by
      rw [List.map_cons, firstKeys, List.filter_eq_nil_iff.2]
      intro k hk
      obtain ⟨a, ha, rfl⟩ := List.mem_map.1 (mem_firstKeys.1 hk)
      simp [h a (.tail _ ha) first (.head _)]
    rw [layout_eq, hkeys, List.flatMap_singleton, List.filter_eq_self]
    exact fun a ha => decide_eq_true (h a ha first (.head _))

/-- Where a key stands in the order of first appearance. -/
def keyRank (key : α → κ) (as : List α) (a : α) : Nat :=
  (firstKeys (as.map key)).idxOf (key a)

theorem keyRank_inj {a b : α} (ha : a ∈ as) : keyRank key as a = keyRank key as b ↔ key a = key b :=
  List.idxOf_inj (mem_firstKeys.2 (List.mem_map_of_mem ha))

/-- The keys of a layout come in the order of their first appearance. -/
theorem pairwise_layout (key : α → κ) (as : List α) :
    (layout key as).Pairwise fun a b => keyRank key as a ≤ keyRank key as b := by
  unfold keyRank
  rw [layout_eq, List.pairwise_flatMap]
  constructor
  · intro k _
    refine List.pairwise_of_forall_mem_list fun a ha b hb => ?_
    simp only [List.mem_filter, decide_eq_true_eq] at ha hb
    simp [ha.2, hb.2]
  · refine List.pairwise_iff_getElem.2 fun i j hi hj hij a ha b hb => ?_
    simp only [List.mem_filter, decide_eq_true_eq] at ha hb
    rw [ha.2, hb.2, (nodup_firstKeys _).idxOf_getElem, (nodup_firstKeys _).idxOf_getElem]
    exact Nat.le_of_lt hij

/-- What stands between two elements of other keys does so with all elements of its key. -/
theorem mem_between {before between after : List α} {a b c d : α}
    (h : layout key as = before ++ a :: between ++ b :: after) (hc : c ∈ between)
    (ha : key c ≠ key a) (hb : key c ≠ key b) (hd : d ∈ as) (hkey : key d = key c) : d ∈ between := by
  have hmem : ∀ {i}, i ∈ before ++ a :: between ++ b :: after ↔ i ∈ as := by
    intro i
    rw [← h, mem_layout]
  have hc' : c ∈ as := hmem.1 (by simp [hc])
  rw [Ne, ← keyRank_inj hc'] at ha hb
  rw [eq_comm, ← keyRank_inj hc'] at hkey
  have hsorted := pairwise_layout key as
  rw [h, List.append_assoc] at hsorted
  obtain ⟨-, hsorted, hbefore⟩ := List.pairwise_append.1 hsorted
  obtain ⟨hfirst, hsorted⟩ := List.pairwise_cons.1 hsorted
  obtain ⟨-, hsorted, hlast⟩ := List.pairwise_append.1 hsorted
  obtain ⟨hafter, -⟩ := List.pairwise_cons.1 hsorted
  have hac := hfirst c (by simp [hc])
  have hcb := hlast c hc b (.head _)
  rw [← hmem] at hd
  simp only [List.append_assoc, List.cons_append, List.mem_append, List.mem_cons] at hd
  obtain hd | rfl | hd | rfl | hd := hd
  · have hda := hbefore d hd a (.head _)
    omega
  · omega
  · exact hd
  · omega
  · have hbd := hafter d hd
    omega

/-- The rule for pairs does not depend on which field comes first. -/
theorem SelectedField.conflict?_comm (x y : SelectedField) : x.conflict? y = y.conflict? x := by
  have htogether : x.neverTogether y = y.neverTogether x := by
    unfold neverTogether
    cases x.objectParent? <;> cases y.objectParent? <;> simp [bne_comm]
  have hleaf : x.leafKindsDiffer y = y.leafKindsDiffer x := by
    unfold leafKindsDiffer
    cases x.type? <;> cases y.type? <;> simp [bne_comm, Bool.and_comm]
  have hnamed : x.namedTypesDiffer y = y.namedTypesDiffer x := by
    unfold namedTypesDiffer
    cases x.type? <;> cases y.type? <;> simp [bne_comm]
  unfold SelectedField.conflict?
  rw [htogether, hleaf, hnamed, bne_comm (a := x.field.name), bne_comm (a := x.call.arguments)]

/-- A field does not conflict with itself. -/
theorem SelectedField.conflict?_self (x : SelectedField) : x.conflict? x = none := by
  have hleaf : x.leafKindsDiffer x = false := by
    unfold leafKindsDiffer
    cases x.type? <;> simp
  have hnamed : x.namedTypesDiffer x = false := by
    unfold namedTypesDiffer
    cases x.type? <;> simp
  unfold conflict?
  simp [hleaf, hnamed]

namespace ResolvedGraph

variable {resolved : ResolvedGraph} {pass : Pass} {group : List FieldId} {a b : FieldId}

/-- The layout of a group whose neighbours a pass compares. -/
def arranged (resolved : ResolvedGraph) : Pass → List FieldId → List FieldId
  | .shapes, group => layout resolved.shape? group
  | .calls, group => layout resolved.call? group

theorem mem_arranged : a ∈ resolved.arranged pass group ↔ a ∈ group := by
  cases pass <;> exact mem_layout

/-- A pass compares neighbours, in the first pass only those of different known shapes. -/
theorem mem_pairs_iff : (a, b) ∈ resolved.pairs pass group ↔
    (a, b) ∈ neighbours (resolved.arranged pass group) ∧
      (pass = .shapes → ∃ s t, resolved.shape? a = some s ∧ resolved.shape? b = some t ∧ s ≠ t) := by
  cases pass with
  | shapes =>
    unfold pairs shapePairs arranged
    rw [List.mem_filter]
    cases hs : resolved.shape? a <;> cases ht : resolved.shape? b <;> simp [hs, ht]
  | calls => simp [pairs, callPairs, arranged]

/-- The pairs that a pass compares are of fields of the group. -/
theorem mem_of_pairs (h : (a, b) ∈ resolved.pairs pass group) : a ∈ group ∧ b ∈ group := by
  obtain ⟨ha, hb⟩ := mem_of_neighbours (mem_pairs_iff.1 h).1
  exact ⟨mem_arranged.1 ha, mem_arranged.1 hb⟩

theorem conflict?_comm (a b : FieldId) : resolved.conflict? a b = resolved.conflict? b a := by
  unfold conflict?
  cases resolved.field? a with
  | none => cases resolved.field? b <;> rfl
  | some x =>
    cases resolved.field? b with
    | none => rfl
    | some y => exact SelectedField.conflict?_comm x y

theorem conflict?_self (a : FieldId) : resolved.conflict? a a = none := by
  unfold conflict?
  cases resolved.field? a with
  | none => rfl
  | some x => exact x.conflict?_self

/-- In a quiet graph the pairs that a pass compares do not conflict. -/
theorem Quiet.conflict?_eq_none (h : resolved.Quiet) {root : ContainerId} (hroot : root ∈ resolved.graph.roots)
    (hgroup : resolved.ReachedGroup pass (resolved.fieldSet root) group)
    (hpair : (a, b) ∈ resolved.pairs pass group) : resolved.conflict? a b = none := by
  obtain hlt | rfl | hlt := Nat.lt_trichotomy a b
  · exact h pass root hroot group hgroup a b hlt (.inl hpair)
  · exact conflict?_self a
  · rw [conflict?_comm]
    exact h pass root hroot group hgroup b a hlt (.inr hpair)

end ResolvedGraph

end SelectionMerge
