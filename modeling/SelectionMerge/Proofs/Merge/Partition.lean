import SelectionMerge.Ordered
import SelectionMerge.Proofs.Merge.Groups
import Mathlib.Data.List.Nodup
import Mathlib.Data.List.Pairwise
import Mathlib.Data.List.Forall2

/-!
# Groups, apart from how they are made

Two ways to group an ascending list of fields, each said as a relation between the list and its groups:
`SplitBy` has one group for each value of a key, and `SharedBy` one for each object type that fields are
selected on, with those on none in all of them. Both say in which order the groups come, so a list has one
grouping of each kind, and that is what `classes` and `ResolvedGraph.parentGroups` come to
(`splitBy_iff`, `sharedBy_iff`).
-/

namespace SelectionMerge
set_option autoImplicit false

/-- The groups split an ascending list by a key: each has all fields of one value of the key, and the group
whose value appears first comes first. -/
structure SplitBy {κ : Type} (key : FieldId → κ) (fields : List FieldId) (groups : List (List FieldId)) : Prop where
  nonempty : ∀ group ∈ groups, group ≠ []
  sublist : ∀ group ∈ groups, group.Sublist fields
  covers : ∀ a ∈ fields, ∃ group ∈ groups, a ∈ group
  fibre : ∀ group ∈ groups, ∀ a ∈ group, ∀ b ∈ fields, b ∈ group ↔ key b = key a
  ordered : groups.Pairwise fun group later => ∃ a ∈ group, ∀ b ∈ later, a < b

/-- The values that fields of an ascending list have, in the order in which they first appear. -/
structure FirstSeen {κ : Type} (value? : FieldId → Option κ) (fields : List FieldId) (values : List κ) : Prop where
  mem_iff : ∀ v, v ∈ values ↔ ∃ a ∈ fields, value? a = some v
  ordered : values.Pairwise fun v later =>
    ∃ a ∈ fields, value? a = some v ∧ ∀ b ∈ fields, value? b = some later → a < b

/-- The groups are of fields that can stand in one object: for each object type, in the order of first
appearance, those selected on it and those on no object type. Where no field has an object type all of them
are one group. -/
inductive SharedBy {κ : Type} (parent? : FieldId → Option κ) (fields : List FieldId) : List (List FieldId) → Prop where
  | empty : fields = [] → SharedBy parent? fields []
  | whole : fields ≠ [] → (∀ a ∈ fields, parent? a = none) → SharedBy parent? fields [fields]
  | each {parents : List κ} {groups : List (List FieldId)} :
    parents ≠ [] → FirstSeen parent? fields parents →
      List.Forall₂ (fun parent group => group.Sublist fields ∧
        ∀ a ∈ fields, a ∈ group ↔ parent? a = none ∨ parent? a = some parent) parents groups →
      SharedBy parent? fields groups

section Keys

variable {κ : Type} [DecidableEq κ] {fields : List FieldId}

/-- The values that fields have, each once, are in the order of first appearance. -/
theorem firstSeen_firstKeys {value? : FieldId → Option κ} (hfields : fields.Pairwise (· < ·)) :
    FirstSeen value? fields (firstKeys (fields.filterMap value?)) := by
  refine ⟨fun v => by rw [mem_firstKeys, List.mem_filterMap], ?_⟩
  induction fields with
  | nil => exact .nil
  | cons first rest ih =>
    obtain ⟨hfirst, hrest⟩ := List.pairwise_cons.1 hfields
    -- The first field can only be the one that a value appears at, and comes before all others.
    have hlater : ∀ {v w}, value? first ≠ some w →
        (∃ a ∈ rest, value? a = some v ∧ ∀ b ∈ rest, value? b = some w → a < b) →
        ∃ a ∈ first :: rest, value? a = some v ∧ ∀ b ∈ first :: rest, value? b = some w → a < b := by
      rintro v w hne ⟨a, ha, hav, hbefore⟩
      refine ⟨a, .tail _ ha, hav, fun b hb hbw => ?_⟩
      obtain rfl | hb := List.mem_cons.1 hb
      · exact absurd hbw hne
      · exact hbefore b hb hbw
    cases hvalue : value? first with
    | none =>
      rw [List.filterMap_cons_none hvalue]
      exact (ih hrest).imp fun {v w} => hlater (by rw [hvalue]; exact (Option.some_ne_none w).symm)
    | some u =>
      rw [List.filterMap_cons_some hvalue, firstKeys]
      have hne : ∀ {w}, w ∈ (firstKeys (rest.filterMap value?)).filter (· ≠ u) → value? first ≠ some w := by
        intro w hw heq
        exact of_decide_eq_true (List.mem_filter.1 hw).2 (Option.some.inj (heq.symm.trans hvalue))
      refine List.pairwise_cons.2 ⟨fun w hw => ⟨first, .head _, hvalue, fun b hb hbw => ?_⟩, ?_⟩
      · obtain rfl | hb := List.mem_cons.1 hb
        · exact absurd hbw (hne hw)
        · exact hfirst b hb
      · exact ((ih hrest).filter _).imp_of_mem fun _ hw => hlater (hne hw)

/-- The classes of an ascending list split it by their key. -/
theorem splitBy_classes {key : FieldId → κ} (hfields : fields.Pairwise (· < ·)) :
    SplitBy key fields (classes key fields) where
  nonempty group hgroup := by
    obtain ⟨a, ha, rfl⟩ := mem_classes.1 hgroup
    exact List.ne_nil_of_mem (List.mem_filter.2 ⟨ha, decide_eq_true rfl⟩)
  sublist group hgroup := by
    obtain ⟨a, -, rfl⟩ := mem_classes.1 hgroup
    exact List.filter_sublist
  covers _ ha := mem_class_of_mem ha
  fibre group hgroup a ha b hb := by
    obtain ⟨first, -, rfl⟩ := mem_classes.1 hgroup
    have hkey : key a = key first := of_decide_eq_true (List.mem_filter.1 ha).2
    rw [List.mem_filter, decide_eq_true_eq, hkey]
    exact and_iff_right hb
  ordered := by
    have hseen : FirstSeen (fun a => some (key a)) fields (firstKeys (fields.filterMap fun a => some (key a))) :=
      firstSeen_firstKeys hfields
    have hordered := hseen.ordered
    rw [List.filterMap_eq_map'] at hordered
    rw [classes_eq]
    refine List.pairwise_map.2 (hordered.imp fun {k l} => ?_)
    rintro ⟨a, ha, hak, hbefore⟩
    refine ⟨a, List.mem_filter.2 ⟨ha, decide_eq_true (Option.some.inj hak)⟩, fun b hb => ?_⟩
    obtain ⟨hb, hbl⟩ := List.mem_filter.1 hb
    exact hbefore b hb (congrArg some (of_decide_eq_true hbl))

end Keys

/-- An order that goes one way only arranges the elements of a list in one way. -/
theorem eq_of_ordered {α : Type} {before : α → α → Prop} (hirrefl : ∀ a, ¬ before a a)
    (hasymm : ∀ a b, before a b → ¬ before b a) {as bs : List α} (has : as.Pairwise before)
    (hbs : bs.Pairwise before) (h : ∀ a, a ∈ as ↔ a ∈ bs) : as = bs := by
  have hnodup : ∀ {cs : List α}, cs.Pairwise before → cs.Nodup := by
    intro cs hcs
    refine List.Pairwise.imp ?_ hcs
    rintro a b hab rfl
    exact hirrefl a hab
  have hperm : as.Perm bs := (List.perm_ext_iff_of_nodup (hnodup has) (hnodup hbs)).2 h
  exact hperm.eq_of_pairwise (fun a b _ _ hab hba => absurd hba (hasymm a b hab)) has hbs

section Unique

variable {κ : Type} {fields : List FieldId} {groups others : List (List FieldId)}

theorem SplitBy.mem_iff {key : FieldId → κ} (h : SplitBy key fields groups) {group : List FieldId}
    (hgroup : group ∈ groups) {a : FieldId} (ha : a ∈ group) (b : FieldId) :
    b ∈ group ↔ b ∈ fields ∧ key b = key a := by
  constructor
  · intro hb
    have hmem := (h.sublist group hgroup).subset hb
    exact ⟨hmem, (h.fibre group hgroup a ha b hmem).1 hb⟩
  · rintro ⟨hb, hkey⟩
    exact (h.fibre group hgroup a ha b hb).2 hkey

/-- A group of one splitting is one of every other. -/
theorem SplitBy.subset {key : FieldId → κ} (hfields : fields.Pairwise (· < ·)) (h : SplitBy key fields groups)
    (hother : SplitBy key fields others) : groups ⊆ others := by
  intro group hgroup
  obtain ⟨a, ha⟩ := List.exists_mem_of_ne_nil group (h.nonempty group hgroup)
  obtain ⟨other, hmem, ha'⟩ := hother.covers a ((h.sublist group hgroup).subset ha)
  have heq : group = other := by
    apply Ascending.eq_of_mem_iff (hfields.sublist (h.sublist group hgroup))
      (hfields.sublist (hother.sublist other hmem))
    intro b
    rw [h.mem_iff hgroup ha, hother.mem_iff hmem ha']
  rw [heq]
  exact hmem

/-- An ascending list is split by a key in one way. -/
theorem SplitBy.eq {key : FieldId → κ} (hfields : fields.Pairwise (· < ·)) (h : SplitBy key fields groups)
    (hother : SplitBy key fields others) : groups = others := by
  apply eq_of_ordered _ _ h.ordered hother.ordered
  · exact fun group => ⟨fun hgroup => h.subset hfields hother hgroup, fun hgroup => hother.subset hfields h hgroup⟩
  · rintro group ⟨a, ha, hless⟩
    exact Nat.lt_irrefl a (hless a ha)
  · rintro group later ⟨a, ha, hless⟩ ⟨b, hb, hless'⟩
    exact Nat.lt_asymm (hless b hb) (hless' a ha)

/-- Values appear in one order. -/
theorem FirstSeen.eq {value? : FieldId → Option κ} {values values' : List κ} (h : FirstSeen value? fields values)
    (h' : FirstSeen value? fields values') : values = values' := by
  apply eq_of_ordered _ _ h.ordered h'.ordered
  · exact fun v => (h.mem_iff v).trans (h'.mem_iff v).symm
  · rintro v ⟨a, ha, hav, hless⟩
    exact Nat.lt_irrefl a (hless a ha hav)
  · rintro v w ⟨a, ha, hav, hless⟩ ⟨b, hb, hbw, hless'⟩
    exact Nat.lt_asymm (hless b hb hbw) (hless' a ha hav)

/-- Where there are values there is a field that has one. -/
theorem FirstSeen.exists_value {value? : FieldId → Option κ} {values : List κ} (h : FirstSeen value? fields values)
    (hvalues : values ≠ []) : ∃ a ∈ fields, value? a ≠ none := by
  obtain ⟨v, hv⟩ := List.exists_mem_of_ne_nil values hvalues
  obtain ⟨a, ha, hav⟩ := (h.mem_iff v).1 hv
  exact ⟨a, ha, by rw [hav]; exact Option.some_ne_none v⟩

/-- An ascending list has one grouping of fields that can stand in one object. -/
theorem SharedBy.eq {parent? : FieldId → Option κ} (hfields : fields.Pairwise (· < ·))
    (h : SharedBy parent? fields groups) (hother : SharedBy parent? fields others) : groups = others := by
  have hnone : ∀ {parents}, parents ≠ [] → FirstSeen parent? fields parents →
      ¬ ∀ a ∈ fields, parent? a = none := by
    intro parents hparents hseen hall
    obtain ⟨a, ha, hvalue⟩ := hseen.exists_value hparents
    exact hvalue (hall a ha)
  cases h with
  | empty hempty =>
    cases hother with
    | empty => rfl
    | whole hne => exact absurd hempty hne
    | each hparents hseen => exact absurd (by simp [hempty]) (hnone hparents hseen)
  | whole hne hall =>
    cases hother with
    | empty hempty => exact absurd hempty hne
    | whole => rfl
    | each hparents hseen => exact absurd hall (hnone hparents hseen)
  | each hparents hseen hgroups =>
    cases hother with
    | empty hempty => exact absurd (by simp [hempty]) (hnone hparents hseen)
    | whole _ hall => exact absurd hall (hnone hparents hseen)
    | each _ hseen' hgroups' =>
      obtain rfl := hseen.eq hseen'
      refine List.right_unique_forall₂' ?_ hgroups hgroups'
      rintro parent group other ⟨hsublist, hmem⟩ ⟨hsublist', hmem'⟩
      apply Ascending.eq_of_mem_iff (hfields.sublist hsublist) (hfields.sublist hsublist')
      intro a
      constructor
      · intro ha
        have ha' := hsublist.subset ha
        exact (hmem' a ha').2 ((hmem a ha').1 ha)
      · intro ha
        have ha' := hsublist'.subset ha
        exact (hmem a ha').2 ((hmem' a ha').1 ha)

end Unique

section Made

variable {fields : List FieldId} {groups : List (List FieldId)}

/-- The groups that split an ascending list are its classes. -/
theorem splitBy_iff {κ : Type} [DecidableEq κ] {key : FieldId → κ} (hfields : fields.Pairwise (· < ·)) :
    SplitBy key fields groups ↔ groups = classes key fields := by
  constructor
  · exact fun h => h.eq hfields (splitBy_classes hfields)
  · rintro rfl
    exact splitBy_classes hfields

namespace ResolvedGraph

variable {resolved : ResolvedGraph}

/-- The groups of parents have the fields that can stand in one object. -/
theorem sharedBy_parentGroups (hfields : fields.Pairwise (· < ·)) :
    SharedBy resolved.objectParent? fields (resolved.parentGroups fields) := by
  have hseen : FirstSeen resolved.objectParent? fields (resolved.parents fields) := firstSeen_firstKeys hfields
  by_cases hparents : resolved.parents fields = []
  · have hall : ∀ a ∈ fields, resolved.objectParent? a = none := by
      intro a ha
      rw [Option.eq_none_iff_forall_ne_some]
      intro p hp
      have hmem := mem_parents.2 ⟨a, ha, hp⟩
      rw [hparents] at hmem
      cases hmem
    unfold parentGroups
    rw [show firstKeys (fields.filterMap resolved.objectParent?) = [] from hparents]
    cases fields with
    | nil => exact .empty rfl
    | cons a fields => exact .whole (List.cons_ne_nil a fields) hall
  · have hgroups : resolved.parentGroups fields = (resolved.parents fields).map (resolved.onParent fields) := by
      unfold parentGroups
      split
      next hnone => exact absurd hnone hparents
      next => rfl
    rw [hgroups]
    refine .each hparents hseen (List.forall₂_map_right_iff.2 (List.forall₂_same.2 fun parent _ => ?_))
    refine ⟨List.filter_sublist, fun a ha => ?_⟩
    rw [mem_onParent, and_iff_right ha]
    cases resolved.objectParent? a <;> simp

theorem sharedBy_iff (hfields : fields.Pairwise (· < ·)) :
    SharedBy resolved.objectParent? fields groups ↔ groups = resolved.parentGroups fields := by
  constructor
  · exact fun h => h.eq hfields (sharedBy_parentGroups hfields)
  · rintro rfl
    exact sharedBy_parentGroups hfields

end ResolvedGraph

end Made

end SelectionMerge
