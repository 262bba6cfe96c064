import SelectionMerge.Proofs.Expansion.Folding
import SelectionMerge.Proofs.Merge.Layout

/-!
# Groups with copies

Where a set takes up copies of its fields (`Copies`), a pass makes the same groups of it, with the copies
(`ResolvedGraph.CopiedIn.groups`). A run of fields that stands twice in a group stands twice in its layout,
and class by class this leaves the ends of the class and all neighbours (`Thickens`): the only neighbours that
it adds have one key (`thickens_layout`). So no pass loses a pair that it compares
(`ResolvedGraph.CopiedIn.exists_pair`), and the pass by shapes gets no other one
(`ResolvedGraph.CopiedIn.pair_origin`).
-/

namespace SelectionMerge
set_option autoImplicit false

section Lists

variable {α κ : Type}

/-- Neighbours of a list put together of two are so in one of them, or at the border. -/
theorem mem_neighbours_append {as bs : List α} {a b : α} : (a, b) ∈ neighbours (as ++ bs) ↔
    (a, b) ∈ neighbours as ∨ (as.getLast? = some a ∧ bs.head? = some b) ∨ (a, b) ∈ neighbours bs := by
  induction as with
  | nil => simp [neighbours]
  | cons first as ih =>
    cases as with
    | nil =>
      cases bs with
      | nil => simp [neighbours]
      | cons second bs =>
        simp only [List.singleton_append, neighbours_cons, List.mem_cons, Prod.mk.injEq, List.getLast?_singleton,
          List.head?_cons, Option.some_inj]
        simp [neighbours, eq_comm]
    | cons second as =>
      rw [List.cons_append, List.cons_append, neighbours_cons, List.mem_cons, ← List.cons_append, ih,
        neighbours_cons, List.mem_cons, List.getLast?_cons_cons, or_assoc]

/-- The second list has the ends and the neighbours of the first one. Its other neighbours have one key. -/
structure Thickens (key : α → κ) (as as' : List α) : Prop where
  head? : as'.head? = as.head?
  getLast? : as'.getLast? = as.getLast?
  forth : ∀ a b, (a, b) ∈ neighbours as → (a, b) ∈ neighbours as'
  back : ∀ a b, (a, b) ∈ neighbours as' → (a, b) ∈ neighbours as ∨ key a = key b

namespace Thickens

variable {key : α → κ} {as as' bs bs' : List α}

theorem refl (key : α → κ) (as : List α) : Thickens key as as :=
  ⟨rfl, rfl, fun _ _ h => h, fun _ _ h => .inl h⟩

/-- Elements of one key may be repeated. -/
theorem twice (h : ∀ a ∈ as, ∀ b ∈ as, key a = key b) : Thickens key as (as ++ as) where
  head? := by simp
  getLast? := by simp
  forth _ _ hab := mem_neighbours_append.2 (.inl hab)
  back a b hab := by
    obtain ⟨ha, hb⟩ := mem_of_neighbours hab
    rw [List.mem_append, or_self] at ha hb
    exact .inr (h a ha b hb)

theorem append (h : Thickens key as as') (h' : Thickens key bs bs') : Thickens key (as ++ bs) (as' ++ bs') where
  head? := by rw [List.head?_append, List.head?_append, h.head?, h'.head?]
  getLast? := by rw [List.getLast?_append, List.getLast?_append, h.getLast?, h'.getLast?]
  forth a b hab := by
    rw [mem_neighbours_append] at hab ⊢
    rw [h.getLast?, h'.head?]
    exact hab.imp (h.forth a b) (Or.imp_right (h'.forth a b))
  back a b hab := by
    rw [mem_neighbours_append] at hab ⊢
    rw [h.getLast?, h'.head?] at hab
    obtain hab | hborder | hab := hab
    · exact (h.back a b hab).imp_left .inl
    · exact .inl (.inr (.inl hborder))
    · exact (h'.back a b hab).imp_left fun hab => .inr (.inr hab)

theorem flatMap {ι : Type} {f g : ι → List α} (h : ∀ i, Thickens key (f i) (g i)) (items : List ι) :
    Thickens key (items.flatMap f) (items.flatMap g) := by
  induction items with
  | nil => exact refl key []
  | cons i items ih =>
    rw [List.flatMap_cons, List.flatMap_cons]
    exact (h i).append ih

end Thickens

variable [DecidableEq κ]

/-- Keys that are in the first list already do not come first in the second one. -/
theorem firstKeys_append (ks ls : List κ) :
    firstKeys (ks ++ ls) = firstKeys ks ++ (firstKeys ls).filter fun l => l ∉ ks := by
  induction ks with
  | nil => simp [firstKeys]
  | cons k ks ih =>
    rw [List.cons_append, firstKeys, firstKeys, ih, List.filter_append, List.filter_filter, List.cons_append]
    congr 2
    refine List.filter_congr fun l _ => ?_
    simp [not_or]

theorem firstKeys_twice (ks : List κ) : firstKeys (ks ++ ks) = firstKeys ks := by
  rw [firstKeys_append, List.filter_eq_nil_iff.2, List.append_nil]
  intro k hk
  simpa using mem_firstKeys.1 hk

/-- A run of elements that stands twice in a row makes each class have its part of the run twice. -/
theorem thickens_layout (key : α → κ) (before run after : List α) :
    Thickens key (layout key (before ++ run ++ after)) (layout key (before ++ (run ++ run) ++ after)) := by
  have hkeys : firstKeys ((before ++ (run ++ run) ++ after).map key) =
      firstKeys ((before ++ run ++ after).map key) := by
    simp only [List.map_append]
    rw [firstKeys_append, firstKeys_append (before.map key), firstKeys_twice, firstKeys_append,
      firstKeys_append (before.map key)]
    simp only [List.mem_append, or_self]
  rw [layout_eq, layout_eq, hkeys]
  refine .flatMap (fun k => ?_) _
  rw [List.filter_append, List.filter_append, List.filter_append, List.filter_append, List.filter_append]
  refine .append (.append (.refl key _) (.twice fun a ha b hb => ?_)) (.refl key _)
  have ha := of_decide_eq_true (List.mem_filter.1 ha).2
  have hb := of_decide_eq_true (List.mem_filter.1 hb).2
  exact ha.trans hb.symm

end Lists

/-- The second set has all copies of the fields of the first one, and no other fields. -/
def Copies (origin : Nat → Nat) (set set' : List FieldId) : Prop :=
  ∀ j, j ∈ set' ↔ origin j ∈ set

/-- Each of the first sets is copied in one of the second ones, which are copied from the first. -/
structure CopiesEach (origin : Nat → Nat) (sets sets' : List (List FieldId)) : Prop where
  forth : ∀ set ∈ sets, ∃ set' ∈ sets', Copies origin set set'
  back : ∀ set' ∈ sets', ∃ set ∈ sets, Copies origin set set'

/-- An ascending list has the elements below a bound in front of the others. -/
theorem filter_lt_append {set : List Nat} (hset : set.Pairwise (· < ·)) (bound : Nat) :
    (set.filter (· < bound)) ++ (set.filter (bound ≤ ·)) = set := by
  refine Ascending.eq_of_mem_iff (List.pairwise_append.2 ⟨hset.filter _, hset.filter _, ?_⟩) hset fun i => ?_
  · intro i hi j hj
    have hlt := of_decide_eq_true (List.mem_filter.1 hi).2
    have hle := of_decide_eq_true (List.mem_filter.1 hj).2
    exact Nat.lt_of_lt_of_le hlt hle
  · simp only [List.mem_append, List.mem_filter, decide_eq_true_eq, ← and_or_left]
    exact and_iff_left (Nat.lt_or_ge i bound)

/-- The fields before the end of the run keep their numbers, and those from its beginning on are there once
more, moved up. -/
theorem Copies.eq_append {start length : Nat} {set set' : List Nat}
    (h : Copies (original start length) set set') (hset : set.Pairwise (· < ·)) (hset' : set'.Pairwise (· < ·)) :
    set' = set.filter (· < start + length) ++ (set.filter (start ≤ ·)).map (· + length) := by
  have hmoved : ((set.filter (start ≤ ·)).map (· + length)).Pairwise (· < ·) :=
    (hset.filter _).map _ fun _ _ hlt => Nat.add_lt_add_right hlt length
  refine Ascending.eq_of_mem_iff hset' (List.pairwise_append.2 ⟨hset.filter _, hmoved, ?_⟩) fun j => ?_
  · intro i hi j hj
    obtain ⟨k, hk, rfl⟩ := List.mem_map.1 hj
    simp only [List.mem_filter, decide_eq_true_eq] at hi hk
    show i < k + length
    omega
  · simp only [h j, List.mem_append, List.mem_map, List.mem_filter, decide_eq_true_eq]
    by_cases hj : j < start + length
    · rw [original_of_lt hj]
      refine ⟨fun hmem => .inl ⟨hmem, hj⟩, ?_⟩
      rintro (⟨hmem, -⟩ | ⟨k, ⟨-, hle⟩, rfl⟩)
      · exact hmem
      · omega
    · have hback := original_add (Nat.le_of_not_lt hj)
      refine ⟨fun hmem => .inr ⟨_, ⟨hmem, by omega⟩, hback⟩, ?_⟩
      rintro (⟨-, hlt⟩ | ⟨k, ⟨hmem, -⟩, hkj⟩)
      · exact absurd hlt hj
      · obtain rfl : k = original start length j := Nat.add_right_cancel (hkj.trans hback.symm)
        exact hmem

/-- Ascending fields with a run that is copied come in the order of the run written twice. -/
theorem Copies.exists_run {start length : Nat} {set set' : List Nat}
    (h : Copies (original start length) set set') (hset : set.Pairwise (· < ·)) (hset' : set'.Pairwise (· < ·)) :
    ∃ before run after, set = before ++ run ++ after ∧
      set'.map (original start length) = before ++ (run ++ run) ++ after := by
  have hbefore := filter_lt_append (hset.filter (· < start + length)) start
  have hafter := filter_lt_append (hset.filter (start ≤ ·)) (start + length)
  have hwhole := filter_lt_append hset (start + length)
  have hrest : (set.filter (start ≤ ·)).filter (start + length ≤ ·) = set.filter (start + length ≤ ·) := by
    rw [List.filter_filter]
    refine List.filter_congr fun i _ => ?_
    rw [Bool.eq_iff_iff, Bool.and_eq_true, decide_eq_true_eq, decide_eq_true_eq]
    omega
  rw [List.filter_comm] at hafter
  refine ⟨(set.filter (· < start + length)).filter (· < start),
    (set.filter (· < start + length)).filter (start ≤ ·), set.filter (start + length ≤ ·), ?_, ?_⟩
  · rw [hbefore, hwhole]
  rw [← List.append_assoc, hbefore, List.append_assoc, ← hrest, hafter, h.eq_append hset hset', List.map_append,
    List.map_map]
  congr 1
  · refine (List.map_congr_left fun i hi => ?_).trans (List.map_id _)
    exact original_of_lt (of_decide_eq_true (List.mem_filter.1 hi).2)
  · refine (List.map_congr_left fun i hi => ?_).trans (List.map_id _)
    have hle : start ≤ i := of_decide_eq_true (List.mem_filter.1 hi).2
    have hback : original start length (i + length) + length = i + length := original_add (by omega)
    exact Nat.add_right_cancel hback

section Layouts

variable {κ : Type} [DecidableEq κ] {key key' : Nat → κ} {start length : Nat} {set set' : List Nat}
variable (h : Copies (original start length) set set') (hset : set.Pairwise (· < ·)) (hset' : set'.Pairwise (· < ·))
variable (hkey : ∀ j, key' j = key (original start length j))
include h hset hset' hkey

/-- Where copies have the key of the field that they come from, they thicken the layout. -/
theorem Copies.thickens : Thickens key (layout key set) ((layout key' set').map (original start length)) := by
  obtain ⟨before, run, after, hsplit, hmap⟩ := h.exists_run hset hset'
  have hlayout : layout key (set'.map (original start length)) = (layout key' set').map (original start length) :=
    layout_map fun j _ => (hkey j).symm
  rw [← hlayout, hmap, hsplit]
  exact thickens_layout key before run after

/-- Neighbours have copies that are neighbours. -/
theorem Copies.exists_neighbours {a b : Nat} (hab : (a, b) ∈ neighbours (layout key set)) :
    ∃ pair ∈ neighbours (layout key' set'), Prod.map (original start length) (original start length) pair = (a, b) := by
  have hthick := (h.thickens hset hset' hkey).forth a b hab
  rw [neighbours_map] at hthick
  exact List.mem_map.1 hthick

/-- Neighbours come from neighbours or from fields of one key. -/
theorem Copies.neighbours_origin {a b : Nat} (hab : (a, b) ∈ neighbours (layout key' set')) :
    (original start length a, original start length b) ∈ neighbours (layout key set) ∨ key' a = key' b := by
  rw [hkey, hkey]
  exact (h.thickens hset hset' hkey).back _ _ (mem_neighbours_map _ hab)

end Layouts

namespace ResolvedGraph

/-- The right graph has all copies of the fields of the left one: in its roots, and below all copies of fields
together what is below these fields. -/
structure CopiedIn (left right : ResolvedGraph) (origin : Nat → Nat) : Prop where
  onto : ∀ i, ∃ j, origin j = i
  alike : ∀ j, left.Alike right (origin j) j ∨ left.field? (origin j) = none ∧ right.field? j = none
  children : ∀ {set set' : List FieldId}, Copies origin set set' →
    Copies origin (left.children set) (right.children set')
  roots : CopiesEach origin (left.graph.roots.map left.fieldSet) (right.graph.roots.map right.fieldSet)

namespace CopiedIn

variable {left right : ResolvedGraph} {origin : Nat → Nat} {set set' fields fields' : List FieldId} {pass : Pass}
variable (h : left.CopiedIn right origin)
include h

section Fields

variable (j : FieldId)

theorem responseKey?_origin : right.responseKey? j = left.responseKey? (origin j) := by
  obtain halike | ⟨hi, hj⟩ := h.alike j
  · exact halike.responseKey?.symm
  · simp [responseKey?, hi, hj]

theorem call?_origin : right.call? j = left.call? (origin j) := by
  obtain halike | ⟨hi, hj⟩ := h.alike j
  · exact halike.call?.symm
  · simp [call?, hi, hj]

theorem objectParent?_origin : right.objectParent? j = left.objectParent? (origin j) := by
  obtain halike | ⟨hi, hj⟩ := h.alike j
  · exact halike.objectParent?.symm
  · simp [objectParent?, hi, hj]

theorem shape?_origin : right.shape? j = left.shape? (origin j) := by
  obtain halike | ⟨hi, hj⟩ := h.alike j
  · exact halike.shape?.symm
  · simp [shape?, shape, hi, hj]

theorem conflict?_origin (k : FieldId) : right.conflict? j k = left.conflict? (origin j) (origin k) := by
  obtain hj | ⟨hi, hj⟩ := h.alike j
  · obtain hk | ⟨hl, hk⟩ := h.alike k
    · exact (hj.conflict? hk).symm
    · simp [conflict?, hl, hk]
  · simp [conflict?, hi, hj]

end Fields

/-- The copies of the fields of one response key. -/
theorem keyGroups (hset : Copies origin set set') : CopiesEach origin (left.keyGroups set) (right.keyGroups set') := by
  have hclass : ∀ b, Copies origin (set.filter fun i => left.responseKey? i = left.responseKey? (origin b))
      (set'.filter fun j => right.responseKey? j = right.responseKey? b) := by
    intro b j
    rw [List.mem_filter, List.mem_filter, hset j, h.responseKey?_origin, h.responseKey?_origin]
  constructor
  · intro group hgroup
    obtain ⟨a, ha, rfl⟩ := mem_classes.1 hgroup
    obtain ⟨b, rfl⟩ := h.onto a
    exact ⟨_, mem_classes.2 ⟨b, (hset b).2 ha, rfl⟩, hclass b⟩
  · intro group' hgroup'
    obtain ⟨b, hb, rfl⟩ := mem_classes.1 hgroup'
    exact ⟨_, mem_classes.2 ⟨origin b, (hset b).1 hb, rfl⟩, hclass b⟩

/-- The copies of the fields that can stand in objects of a type. -/
theorem onParent (hfields : Copies origin fields fields') (parent : Name) :
    Copies origin (left.onParent fields parent) (right.onParent fields' parent) := by
  intro j
  rw [mem_onParent, mem_onParent, hfields j, h.objectParent?_origin]

theorem mem_parents_iff (hfields : Copies origin fields fields') (parent : Name) :
    parent ∈ right.parents fields' ↔ parent ∈ left.parents fields := by
  rw [mem_parents, mem_parents]
  constructor
  · rintro ⟨b, hb, hparent⟩
    exact ⟨origin b, (hfields b).1 hb, (h.objectParent?_origin b).symm.trans hparent⟩
  · rintro ⟨a, ha, hparent⟩
    obtain ⟨b, rfl⟩ := h.onto a
    exact ⟨b, (hfields b).2 ha, (h.objectParent?_origin b).trans hparent⟩

/-- The copies of the fields that can stand in one object. -/
theorem parentGroups (hfields : Copies origin fields fields') :
    CopiesEach origin (left.parentGroups fields) (right.parentGroups fields') := by
  have hparents : right.parents fields' = [] ↔ left.parents fields = [] := by
    simp only [List.eq_nil_iff_forall_not_mem, h.mem_parents_iff hfields]
  constructor
  · intro group hgroup
    obtain ⟨hnone, hne, rfl⟩ | ⟨parent, hparent, rfl⟩ := mem_parentGroups.1 hgroup
    · obtain ⟨a, ha⟩ := List.exists_mem_of_ne_nil _ hne
      obtain ⟨b, rfl⟩ := h.onto a
      have hne' : fields' ≠ [] := List.ne_nil_of_mem ((hfields b).2 ha)
      exact ⟨fields', mem_parentGroups.2 (.inl ⟨hparents.2 hnone, hne', rfl⟩), hfields⟩
    · have hparent' := (h.mem_parents_iff hfields parent).2 hparent
      exact ⟨_, mem_parentGroups.2 (.inr ⟨parent, hparent', rfl⟩), h.onParent hfields parent⟩
  · intro group' hgroup'
    obtain ⟨hnone, hne, rfl⟩ | ⟨parent, hparent, rfl⟩ := mem_parentGroups.1 hgroup'
    · obtain ⟨b, hb⟩ := List.exists_mem_of_ne_nil _ hne
      have hne' : fields ≠ [] := List.ne_nil_of_mem ((hfields b).1 hb)
      exact ⟨fields, mem_parentGroups.2 (.inl ⟨hparents.1 hnone, hne', rfl⟩), hfields⟩
    · have hparent' := (h.mem_parents_iff hfields parent).1 hparent
      exact ⟨_, mem_parentGroups.2 (.inr ⟨parent, hparent', rfl⟩), h.onParent hfields parent⟩

theorem parts (hfields : Copies origin fields fields') :
    CopiesEach origin (left.parts pass fields) (right.parts pass fields') := by
  cases pass with
  | shapes =>
    constructor
    · intro group hgroup
      obtain rfl := List.mem_singleton.1 hgroup
      exact ⟨fields', .head _, hfields⟩
    · intro group' hgroup'
      obtain rfl := List.mem_singleton.1 hgroup'
      exact ⟨fields, .head _, hfields⟩
  | calls => exact h.parentGroups hfields

/-- The groups of a set with copies are the groups of the set, with the copies. -/
theorem groups (hset : Copies origin set set') : CopiesEach origin (left.groups pass set) (right.groups pass set') := by
  have hkeys := h.keyGroups hset
  constructor
  · intro group hgroup
    obtain ⟨fields, hfields, hpart⟩ := mem_groups.1 hgroup
    obtain ⟨fields', hfields', hcopies⟩ := hkeys.forth fields hfields
    obtain ⟨group', hpart', hcopies'⟩ := (h.parts hcopies).forth group hpart
    exact ⟨group', mem_groups.2 ⟨fields', hfields', hpart'⟩, hcopies'⟩
  · intro group' hgroup'
    obtain ⟨fields', hfields', hpart'⟩ := mem_groups.1 hgroup'
    obtain ⟨fields, hfields, hcopies⟩ := hkeys.back fields' hfields'
    obtain ⟨group, hpart, hcopies'⟩ := (h.parts hcopies).back group' hpart'
    exact ⟨group, mem_groups.2 ⟨fields, hfields, hpart⟩, hcopies'⟩

/-- A set that a pass comes to has its copies in one that it comes to in the right graph. -/
theorem exists_reached {start start' : List FieldId} (hstart : Copies origin start start')
    (hset : left.Reached pass start set) : ∃ set', right.Reached pass start' set' ∧ Copies origin set set' := by
  induction hset with
  | start => exact ⟨start', .start, hstart⟩
  | children _ hgroup ih =>
    obtain ⟨set', hset', hcopies⟩ := ih
    obtain ⟨group', hgroup', hcopies'⟩ := (h.groups hcopies).forth _ hgroup
    exact ⟨_, hset'.children hgroup', h.children hcopies'⟩

/-- A set that a pass comes to in the right graph is copied from one that it comes to in the left one. -/
theorem exists_reached_origin {start start' : List FieldId} (hstart : Copies origin start start')
    (hset' : right.Reached pass start' set') : ∃ set, left.Reached pass start set ∧ Copies origin set set' := by
  induction hset' with
  | start => exact ⟨start, .start, hstart⟩
  | children _ hgroup' ih =>
    obtain ⟨set, hset, hcopies⟩ := ih
    obtain ⟨group, hgroup, hcopies'⟩ := (h.groups hcopies).back _ hgroup'
    exact ⟨_, hset.children hgroup, h.children hcopies'⟩

variable {group group' : List FieldId} {root root' : ContainerId}

theorem exists_group (hroot : root ∈ left.graph.roots) (hgroup : left.ReachedGroup pass (left.fieldSet root) group) :
    ∃ root' ∈ right.graph.roots, ∃ group', right.ReachedGroup pass (right.fieldSet root') group' ∧
      Copies origin group group' := by
  obtain ⟨set, hset, hmem⟩ := hgroup
  obtain ⟨_, hstart', hcopies⟩ := h.roots.forth _ (List.mem_map_of_mem hroot)
  obtain ⟨root', hroot', rfl⟩ := List.mem_map.1 hstart'
  obtain ⟨set', hset', hcopies⟩ := h.exists_reached hcopies hset
  obtain ⟨group', hmem', hcopies⟩ := (h.groups hcopies).forth group hmem
  exact ⟨root', hroot', group', ⟨set', hset', hmem'⟩, hcopies⟩

theorem exists_group_origin (hroot' : root' ∈ right.graph.roots)
    (hgroup' : right.ReachedGroup pass (right.fieldSet root') group') :
    ∃ root ∈ left.graph.roots, ∃ group, left.ReachedGroup pass (left.fieldSet root) group ∧
      Copies origin group group' := by
  obtain ⟨set', hset', hmem'⟩ := hgroup'
  obtain ⟨_, hstart, hcopies⟩ := h.roots.back _ (List.mem_map_of_mem hroot')
  obtain ⟨root, hroot, rfl⟩ := List.mem_map.1 hstart
  obtain ⟨set, hset, hcopies⟩ := h.exists_reached_origin hcopies hset'
  obtain ⟨group, hmem, hcopies⟩ := (h.groups hcopies).back group' hmem'
  exact ⟨root, hroot, group, ⟨set, hset, hmem⟩, hcopies⟩

end CopiedIn

section Pairs

variable {left right : ResolvedGraph} {start length : Nat} {pass : Pass} {group group' : List FieldId}
variable (h : left.CopiedIn right (original start length)) (hcopies : Copies (original start length) group group')
variable (hgroup : group.Pairwise (· < ·)) (hgroup' : group'.Pairwise (· < ·))
include h hcopies hgroup hgroup'

/-- A pair that a pass compares has copies that it compares. -/
theorem CopiedIn.exists_pair {a b : FieldId} (hpair : (a, b) ∈ left.pairs pass group) :
    ∃ pair ∈ right.pairs pass group', Prod.map (original start length) (original start length) pair = (a, b) := by
  obtain ⟨hneighbours, hshapes⟩ := mem_pairs_iff.1 hpair
  have hneighbours' : ∃ pair ∈ neighbours (right.arranged pass group'),
      Prod.map (original start length) (original start length) pair = (a, b) := by
    cases pass with
    | shapes => exact hcopies.exists_neighbours hgroup hgroup' h.shape?_origin hneighbours
    | calls => exact hcopies.exists_neighbours hgroup hgroup' h.call?_origin hneighbours
  obtain ⟨⟨a', b'⟩, hmem, heq⟩ := hneighbours'
  obtain ⟨rfl, rfl⟩ := Prod.mk.inj heq
  refine ⟨(a', b'), mem_pairs_iff.2 ⟨hmem, ?_⟩, rfl⟩
  rw [h.shape?_origin, h.shape?_origin]
  exact hshapes

/-- The pass by shapes compares no other pairs. -/
theorem CopiedIn.pair_origin {a b : FieldId} (hpair : (a, b) ∈ right.pairs .shapes group') :
    (original start length a, original start length b) ∈ left.pairs .shapes group := by
  obtain ⟨hneighbours, hshapes⟩ := mem_pairs_iff.1 hpair
  obtain ⟨s, t, hs, ht, hst⟩ := hshapes rfl
  have horigin := hcopies.neighbours_origin hgroup hgroup' h.shape?_origin hneighbours
  rw [hs, ht, Option.some_inj, or_iff_left hst] at horigin
  rw [h.shape?_origin] at hs ht
  exact mem_pairs_iff.2 ⟨horigin, fun _ => ⟨s, t, hs, ht, hst⟩⟩

end Pairs

end ResolvedGraph

end SelectionMerge
