import SelectionMerge.Proofs.Check.Passes

/-!
# Which fields share a group

Two fields of a set are in one group of a pass if they have one response key and, in the second
pass, can stand in one object (`exists_group`), and fields of one group are so
(`mem_group`). Neighbours in a layout are enough to compare a group by what all
its members must have in common (`eq_of_neighbours`).
-/

namespace SelectionMerge
set_option autoImplicit false

section Layout

variable {α κ : Type}

theorem neighbours_cons (a b : α) (as : List α) :
    neighbours (a :: b :: as) = (a, b) :: neighbours (b :: as) := rfl

/-- What neighbours have in common all elements have in common. -/
theorem eq_of_neighbours {value : α → κ} {as : List α}
    (h : ∀ a b, (a, b) ∈ neighbours as → value a = value b) :
    ∀ a ∈ as, ∀ b ∈ as, value a = value b := by
  suffices hfirst : ∀ a ∈ as, as.head?.map value = some (value a) by
    intro a ha b hb
    exact Option.some.inj ((hfirst a ha).symm.trans (hfirst b hb))
  induction as with
  | nil => simp
  | cons first as ih =>
    intro a ha
    cases ha with
    | head => rfl
    | tail _ ha =>
      cases as with
      | nil => cases ha
      | cons second as =>
        rw [neighbours_cons] at h
        have hrest := ih (fun b c hbc => h b c (.tail _ hbc)) a ha
        have hstep : value first = value second := h first second (.head _)
        rw [List.head?_cons, Option.map_some] at hrest ⊢
        rw [hstep]
        exact hrest

/-- Neighbours are elements. -/
theorem mem_of_neighbours {a b : α} {as : List α} (h : (a, b) ∈ neighbours as) : a ∈ as ∧ b ∈ as := by
  obtain ⟨ha, hb⟩ := List.of_mem_zip h
  exact ⟨ha, List.mem_of_mem_tail hb⟩

end Layout

namespace ResolvedGraph

variable {resolved : ResolvedGraph} {pass : Pass} {set fields group : List FieldId} {a b : FieldId}

section Fields

variable {x : SelectedField}

theorem responseKey?_eq (h : resolved.field? a = some x) : resolved.responseKey? a = some x.responseKey := by
  simp [responseKey?, h]

theorem call?_eq (h : resolved.field? a = some x) : resolved.call? a = some x.call := by
  simp [call?, h]

theorem objectParent?_eq (h : resolved.field? a = some x) : resolved.objectParent? a = x.objectParent? := by
  simp [objectParent?, h]

end Fields

/-- The fields are not selected on two different object types. -/
def Together (resolved : ResolvedGraph) (a b : FieldId) : Prop :=
  ∀ p q, resolved.objectParent? a = some p → resolved.objectParent? b = some q → p = q

theorem Together.symm (h : resolved.Together a b) : resolved.Together b a :=
  fun p q hp hq => (h q p hq hp).symm

/-- The fields of a group of one response key. -/
theorem mem_keyGroup (h : fields ∈ resolved.keyGroups set) (ha : a ∈ fields) :
    a ∈ set ∧ ∀ b ∈ fields, resolved.responseKey? a = resolved.responseKey? b := by
  obtain ⟨first, -, rfl⟩ := mem_classes.1 h
  obtain ⟨hmem, hkey⟩ := List.mem_filter.1 ha
  refine ⟨hmem, fun b hb => ?_⟩
  have hkey' := (List.mem_filter.1 hb).2
  rw [decide_eq_true_eq] at hkey hkey'
  exact hkey.trans hkey'.symm

theorem exists_keyGroup (ha : a ∈ set) (hb : b ∈ set)
    (hkey : resolved.responseKey? a = resolved.responseKey? b) :
    ∃ fields ∈ resolved.keyGroups set, a ∈ fields ∧ b ∈ fields := by
  refine ⟨_, mem_classes.2 ⟨a, ha, rfl⟩, ?_, ?_⟩
  · exact List.mem_filter.2 ⟨ha, decide_eq_true rfl⟩
  · exact List.mem_filter.2 ⟨hb, decide_eq_true hkey.symm⟩

/-- The fields that can stand in objects of a type, and those of any object. -/
def onParent (resolved : ResolvedGraph) (fields : List FieldId) (parent : Name) : List FieldId :=
  fields.filter fun id => (resolved.objectParent? id).all (· = parent)

theorem mem_onParent {parent : Name} : a ∈ resolved.onParent fields parent ↔
    a ∈ fields ∧ ∀ p, resolved.objectParent? a = some p → p = parent := by
  unfold onParent
  rw [List.mem_filter]
  apply and_congr_right'
  cases hparent : resolved.objectParent? a with
  | none => simp
  | some p => simp

/-- The object types that fields are selected on. -/
def parents (resolved : ResolvedGraph) (fields : List FieldId) : List Name :=
  firstKeys (fields.filterMap resolved.objectParent?)

theorem mem_parents {parent : Name} : parent ∈ resolved.parents fields ↔
    ∃ a ∈ fields, resolved.objectParent? a = some parent := by
  unfold parents
  rw [mem_firstKeys, List.mem_filterMap]

/-- The groups of fields that can stand in one object: one for each object type, or all fields
where none is selected on an object type. -/
theorem mem_parentGroups : group ∈ resolved.parentGroups fields ↔
    (resolved.parents fields = [] ∧ fields ≠ [] ∧ group = fields) ∨
      ∃ parent ∈ resolved.parents fields, group = resolved.onParent fields parent := by
  unfold parentGroups parents
  split
  next hnone =>
    rw [hnone]
    cases fields with
    | nil => simp
    | cons first fields => simp
  next hsome =>
    rw [List.mem_map]
    constructor
    · rintro ⟨parent, hparent, rfl⟩
      exact .inr ⟨parent, hparent, rfl⟩
    · rintro (⟨hnone, -⟩ | ⟨parent, hparent, rfl⟩)
      · exact absurd hnone hsome
      · exact ⟨parent, hparent, rfl⟩

/-- The fields of a group that can stand in one object. -/
theorem mem_parentGroup (h : group ∈ resolved.parentGroups fields) (ha : a ∈ group) :
    a ∈ fields ∧ ∀ b ∈ group, resolved.Together a b := by
  obtain ⟨hnone, -, rfl⟩ | ⟨parent, -, rfl⟩ := mem_parentGroups.1 h
  · refine ⟨ha, fun b _ p q hp _ => ?_⟩
    have hmem := mem_parents.2 ⟨a, ha, hp⟩
    rw [hnone] at hmem
    simp at hmem
  · refine ⟨(mem_onParent.1 ha).1, fun b hb p q hp hq => ?_⟩
    exact ((mem_onParent.1 ha).2 p hp).trans ((mem_onParent.1 hb).2 q hq).symm

/-- Two fields that can stand in one object share a group. -/
theorem exists_parentGroup (ha : a ∈ fields) (hb : b ∈ fields) (htogether : resolved.Together a b) :
    ∃ group ∈ resolved.parentGroups fields, a ∈ group ∧ b ∈ group := by
  by_cases hnone : resolved.parents fields = []
  · exact ⟨fields, mem_parentGroups.2 (.inl ⟨hnone, List.ne_nil_of_mem ha, rfl⟩), ha, hb⟩
  · -- The object type of either field serves, and any other where both may apply to any object.
    obtain ⟨parent, hparent, hpa, hpb⟩ : ∃ parent ∈ resolved.parents fields,
        (∀ p, resolved.objectParent? a = some p → p = parent) ∧
        ∀ q, resolved.objectParent? b = some q → q = parent := by
      cases hpa : resolved.objectParent? a with
      | some p =>
        refine ⟨p, mem_parents.2 ⟨a, ha, hpa⟩, fun p' hp' => (Option.some.inj hp').symm, fun q hq => ?_⟩
        exact (htogether p q hpa hq).symm
      | none =>
        cases hpb : resolved.objectParent? b with
        | some q => exact ⟨q, mem_parents.2 ⟨b, hb, hpb⟩, nofun, fun q' hq' => (Option.some.inj hq').symm⟩
        | none =>
          obtain ⟨parent, hparent⟩ := List.exists_mem_of_ne_nil _ hnone
          exact ⟨parent, hparent, nofun, nofun⟩
    refine ⟨_, mem_parentGroups.2 (.inr ⟨parent, hparent, rfl⟩), ?_, ?_⟩
    · exact mem_onParent.2 ⟨ha, hpa⟩
    · exact mem_onParent.2 ⟨hb, hpb⟩

/-- The fields of a group of a pass are fields of the set, have one response key, and in the
second pass can stand in one object. -/
theorem mem_group (h : group ∈ resolved.groups pass set) (ha : a ∈ group) :
    a ∈ set ∧ ∀ b ∈ group, resolved.responseKey? a = resolved.responseKey? b ∧
      (pass = .calls → resolved.Together a b) := by
  obtain ⟨fields, hfields, hpart⟩ := mem_groups.1 h
  cases pass with
  | shapes =>
    obtain rfl := List.mem_singleton.1 hpart
    obtain ⟨hmem, hkey⟩ := mem_keyGroup hfields ha
    exact ⟨hmem, fun b hb => ⟨hkey b hb, nofun⟩⟩
  | calls =>
    obtain ⟨hpart', htogether⟩ := mem_parentGroup hpart ha
    obtain ⟨hmem, hkey⟩ := mem_keyGroup hfields hpart'
    exact ⟨hmem, fun b hb => ⟨hkey b (mem_parentGroup hpart hb).1, fun _ => htogether b hb⟩⟩

/-- The groups of one response key have fields. -/
theorem ne_nil_of_keyGroups (h : fields ∈ resolved.keyGroups set) : fields ≠ [] := by
  obtain ⟨a, ha, rfl⟩ := mem_classes.1 h
  exact List.ne_nil_of_mem (List.mem_filter.2 ⟨ha, decide_eq_true rfl⟩)

/-- The groups that can stand in one object have fields. -/
theorem ne_nil_of_parentGroups (h : group ∈ resolved.parentGroups fields) : group ≠ [] := by
  obtain ⟨-, hne, rfl⟩ | ⟨parent, hparent, rfl⟩ := mem_parentGroups.1 h
  · exact hne
  · obtain ⟨a, ha, hp⟩ := mem_parents.1 hparent
    exact List.ne_nil_of_mem (mem_onParent.2 ⟨ha, fun p hp' => Option.some.inj (hp'.symm.trans hp)⟩)

/-- The parts that a pass makes of a group have fields. -/
theorem ne_nil_of_parts (h : fields ≠ []) (hgroup : group ∈ resolved.parts pass fields) : group ≠ [] := by
  cases pass with
  | shapes =>
    obtain rfl := List.mem_singleton.1 hgroup
    exact h
  | calls => exact ne_nil_of_parentGroups hgroup

/-- The groups of one response key in an ascending set are ascending. -/
theorem pairwise_keyGroup (h : fields ∈ resolved.keyGroups set) (hset : set.Pairwise (· < ·)) :
    fields.Pairwise (· < ·) := by
  obtain ⟨first, -, rfl⟩ := mem_classes.1 h
  exact hset.filter _

/-- The groups of an ascending set that can stand in one object are ascending. -/
theorem pairwise_parentGroup (h : group ∈ resolved.parentGroups fields) (hfields : fields.Pairwise (· < ·)) :
    group.Pairwise (· < ·) := by
  obtain ⟨-, -, rfl⟩ | ⟨parent, -, rfl⟩ := mem_parentGroups.1 h
  · exact hfields
  · exact hfields.filter _

/-- The groups of an ascending set are ascending. -/
theorem pairwise_group (h : group ∈ resolved.groups pass set) (hset : set.Pairwise (· < ·)) :
    group.Pairwise (· < ·) := by
  obtain ⟨fields, hfields, hpart⟩ := mem_groups.1 h
  have hascending := pairwise_keyGroup hfields hset
  cases pass with
  | shapes =>
    obtain rfl := List.mem_singleton.1 hpart
    exact hascending
  | calls => exact pairwise_parentGroup hpart hascending

/-- Two fields of a set under one response key share a group of a pass if they can stand in one
object, in the first pass anyway. -/
theorem exists_group (pass : Pass) (ha : a ∈ set) (hb : b ∈ set)
    (hkey : resolved.responseKey? a = resolved.responseKey? b)
    (htogether : pass = .calls → resolved.Together a b) :
    ∃ group ∈ resolved.groups pass set, a ∈ group ∧ b ∈ group := by
  obtain ⟨fields, hfields, ha, hb⟩ := exists_keyGroup ha hb hkey
  cases pass with
  | shapes => exact ⟨fields, mem_groups.2 ⟨fields, hfields, .head _⟩, ha, hb⟩
  | calls =>
    obtain ⟨group, hgroup, ha, hb⟩ := exists_parentGroup ha hb (htogether rfl)
    exact ⟨group, mem_groups.2 ⟨fields, hfields, hgroup⟩, ha, hb⟩

end ResolvedGraph

end SelectionMerge
