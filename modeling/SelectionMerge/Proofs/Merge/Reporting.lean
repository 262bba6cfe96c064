import SelectionMerge.Proofs.Merge.Segments
import Mathlib.Data.List.Dedup

/-!
# What is reported of a group

The second pass compares the neighbours in the layout of a group by name and arguments. Where fields of the
group ask for different things, each border between two of these gives a conflict, whatever is known of
their types; and the conflict is reported, even if the pair was compared before, in another group, in the
first pass or under another root. So of a group that asks for `k` different things at least `k - 1`
conflicts are reported, and each of these things in one of them (`every_call_reported`).
-/

namespace SelectionMerge
set_option autoImplicit false

section Borders

variable {α κ : Type} [DecidableEq κ] {value : α → κ} {as : List α}

/-- Neighbours of different values. -/
def borders (value : α → κ) (as : List α) : List (α × α) :=
  (neighbours as).filter fun (a, b) => value a ≠ value b

theorem mem_borders {a b : α} : (a, b) ∈ borders value as ↔ (a, b) ∈ neighbours as ∧ value a ≠ value b := by
  unfold borders
  rw [List.mem_filter, decide_eq_true_eq]

/-- There are at most as many values as borders, and one more. -/
theorem length_firstKeys_le (value : α → κ) (as : List α) :
    (firstKeys (as.map value)).length ≤ (borders value as).length + 1 := by
  induction as with
  | nil => exact Nat.zero_le _
  | cons a as ih =>
    cases as with
    | nil => exact Nat.le_refl 1
    | cons b as =>
      rw [List.map_cons, firstKeys, List.length_cons]
      unfold borders at ih ⊢
      rw [neighbours_cons, List.filter_cons]
      by_cases heq : value a = value b
      · -- The value of the first two is counted once.
        have hsame : ((firstKeys ((b :: as).map value)).filter fun k => decide (k ≠ value a)).length + 1 =
            (firstKeys ((b :: as).map value)).length := by
          rw [heq, List.map_cons, firstKeys, List.filter_cons, if_neg (by simp), List.filter_filter, List.length_cons]
          simp
        rw [if_neg (by simpa using heq)]
        omega
      · have hfewer := List.length_filter_le (fun k => decide (k ≠ value a)) (firstKeys ((b :: as).map value))
        rw [if_pos (by simpa using heq), List.length_cons]
        omega

/-- Each value has a border if there is another one. -/
theorem exists_border {a b : α} (ha : a ∈ as) (hb : b ∈ as) (hne : value a ≠ value b) :
    ∃ c d, (c, d) ∈ borders value as ∧ (value c = value a ∨ value d = value a) := by
  by_contra hnone
  -- Otherwise neighbours have this value either both or neither, and so have all.
  have hsame : ∀ c d, (c, d) ∈ neighbours as → decide (value c = value a) = decide (value d = value a) := by
    intro c d hcd
    rw [decide_eq_decide]
    by_contra hdiffer
    refine hnone ⟨c, d, mem_borders.2 ⟨hcd, fun heq => hdiffer (by rw [heq])⟩, ?_⟩
    tauto
  have hall := eq_of_neighbours hsame a ha b hb
  simp [Ne.symm hne] at hall

/-- The neighbours in a list that has each number once are different pairs, in whatever order they are
taken. -/
theorem nodup_neighbours {as : List Nat} (h : as.Nodup) :
    ((neighbours as).map fun pair => (min pair.1 pair.2, max pair.1 pair.2)).Nodup := by
  induction as with
  | nil => exact .nil
  | cons a as ih =>
    cases as with
    | nil => exact .nil
    | cons b as =>
      obtain ⟨ha, hrest⟩ := List.nodup_cons.1 h
      rw [neighbours_cons, List.map_cons]
      refine List.nodup_cons.2 ⟨fun hmem => ?_, ih hrest⟩
      obtain ⟨⟨c, d⟩, hcd, heq⟩ := List.mem_map.1 hmem
      obtain ⟨hc, hd⟩ := mem_of_neighbours hcd
      have hca : c ≠ a := fun heq => ha (heq ▸ hc)
      have hda : d ≠ a := fun heq => ha (heq ▸ hd)
      obtain ⟨hmin, hmax⟩ := Prod.mk.inj heq
      simp only at hmin hmax
      omega

/-- A layout has no element twice if the list has none. -/
theorem nodup_layout {key : α → κ} (h : as.Nodup) : (layout key as).Nodup := by
  rw [layout_eq]
  refine List.nodup_flatMap.2 ⟨fun k _ => h.filter _, (nodup_firstKeys _).imp fun {k l} hne a hk hl => ?_⟩
  have hk := of_decide_eq_true (List.mem_filter.1 hk).2
  have hl := of_decide_eq_true (List.mem_filter.1 hl).2
  exact hne (hk.symm.trans hl)

end Borders

section Calls

variable {call? : FieldId → Option FieldCall} {group : List FieldId}

/-- The names and arguments that the fields of a group ask for, each once. -/
def callsOf (call? : FieldId → Option FieldCall) (group : List FieldId) : List FieldCall :=
  (group.filterMap call?).dedup

theorem mem_callsOf {call : FieldCall} : call ∈ callsOf call? group ↔ ∃ i ∈ group, call? i = some call := by
  unfold callsOf
  rw [List.mem_dedup, List.mem_filterMap]

theorem nodup_callsOf : (callsOf call? group).Nodup :=
  List.nodup_dedup _

/-- Of two calls one is another than the one given. -/
theorem exists_other_call (htwo : 2 ≤ (callsOf call? group).length) (call : FieldCall) :
    ∃ other ∈ callsOf call? group, other ≠ call := by
  by_contra! hnone
  have hsubset : callsOf call? group ⊆ [call] := fun other hother => List.mem_singleton.2 (hnone other hother)
  have hlength := (List.subperm_of_subset nodup_callsOf hsubset).length_le
  rw [List.length_singleton] at hlength
  omega

/-- The calls of a group are among those of its layout. -/
theorem length_callsOf_le (call? : FieldId → Option FieldCall) (group : List FieldId) :
    (callsOf call? group).length ≤ (firstKeys ((layout call? group).map call?)).length := by
  have hnodup : ((callsOf call? group).map some).Nodup := nodup_callsOf.map (Option.some_injective FieldCall)
  have hsubset : (callsOf call? group).map some ⊆ firstKeys ((layout call? group).map call?) := by
    intro _ hmem
    obtain ⟨call, hcall, rfl⟩ := List.mem_map.1 hmem
    obtain ⟨i, hi, hcall⟩ := mem_callsOf.1 hcall
    exact mem_firstKeys.2 (List.mem_map.2 ⟨i, mem_layout.2 hi, hcall⟩)
  have hlength := (List.subperm_of_subset hnodup hsubset).length_le
  rwa [List.length_map] at hlength

end Calls

section Within

variable {all : List Occurrence} {conflicts : List Conflict} {found : List Finding} {group : List FieldId}

/-- The findings between two fields of a group. -/
def findingsIn (found : List Finding) (group : List FieldId) : List Finding :=
  found.filter fun finding => finding.first ∈ group ∧ finding.second ∈ group

/-- The reported conflicts between two fields of a group, where `found` has the numbers of their fields. -/
def conflictsIn (conflicts : List Conflict) (found : List Finding) (group : List FieldId) : List Conflict :=
  ((conflicts.zip found).filter fun entry => entry.2.first ∈ group ∧ entry.2.second ∈ group).map Prod.fst

theorem mem_findingsIn {finding : Finding} :
    finding ∈ findingsIn found group ↔ finding ∈ found ∧ finding.first ∈ group ∧ finding.second ∈ group := by
  unfold findingsIn
  rw [List.mem_filter, decide_eq_true_eq]

theorem length_conflictsIn (h : conflicts.length = found.length) :
    (conflictsIn conflicts found group).length = (findingsIn found group).length := by
  have hfound : found = (conflicts.zip found).map Prod.snd := (List.map_snd_zip (Nat.le_of_eq h.symm)).symm
  conv => rhs; rw [hfound]
  unfold conflictsIn findingsIn
  rw [List.filter_map, List.length_map, List.length_map]
  rfl

/-- A finding between two fields of a group is reported by a conflict between them. -/
theorem exists_conflictsIn (h : List.Forall₂ (Conflict.Reports all) conflicts found) {finding : Finding}
    (hmem : finding ∈ findingsIn found group) :
    ∃ conflict ∈ conflictsIn conflicts found group, conflict.Reports all finding := by
  obtain ⟨hfound, hgroup⟩ := mem_findingsIn.1 hmem
  rw [← List.map_snd_zip (Nat.le_of_eq h.length_eq.symm)] at hfound
  obtain ⟨⟨conflict, finding⟩, hentry, rfl⟩ := List.mem_map.1 hfound
  refine ⟨conflict, List.mem_map.2 ⟨(conflict, finding), List.mem_filter.2 ⟨hentry, ?_⟩, rfl⟩, ?_⟩
  · exact decide_eq_true hgroup
  · exact List.forall₂_zip h hentry

end Within

/-- Fields that can stand in one object and ask for different things conflict, whether their types are
known or not. -/
theorem ResolvedGraph.conflict?_of_call?_ne {resolved : ResolvedGraph} {a b : FieldId} {x y : SelectedField}
    (ha : resolved.field? a = some x) (hb : resolved.field? b = some y) (htogether : resolved.Together a b)
    (hne : resolved.call? a ≠ resolved.call? b) : ∃ reason, resolved.conflict? a b = some reason := by
  refine Option.ne_none_iff_exists'.1 fun hnone => hne ?_
  rw [call?_eq ha, call?_eq hb, (agree_of_conflict? ha hb htogether hnone).1]

namespace SelectionGraph

variable {graph : SelectionGraph} {memo : Memo} {found : List Finding} {root : ContainerId}
variable {group : List FieldId}

/-- Each border of a group that the second pass comes to is found. -/
theorem WellFormed.exists_finding (h : graph.WellFormed) (hchecked : memo.Checked graph.resolved graph.roots found)
    (hroot : root ∈ graph.roots)
    (hgroup : graph.resolved.ReachedGroup .calls (graph.resolved.fieldSet root) group) {a b : FieldId}
    (hborder : (a, b) ∈ borders graph.resolved.call? (layout graph.resolved.call? group)) :
    ∃ finding ∈ findingsIn found group, finding.first = min a b ∧ finding.second = max a b := by
  obtain ⟨hneighbours, hne⟩ := mem_borders.1 hborder
  obtain ⟨ha, hb⟩ := mem_of_neighbours hneighbours
  rw [mem_layout] at ha hb
  obtain ⟨x, hx⟩ := h.exists_field_of_group hgroup ha
  obtain ⟨y, hy⟩ := h.exists_field_of_group hgroup hb
  obtain ⟨set, -, hmem⟩ := id hgroup
  have htogether := ((ResolvedGraph.mem_group hmem ha).2 b hb).2 rfl
  obtain ⟨reason, hreason⟩ := ResolvedGraph.conflict?_of_call?_ne hx hy htogether hne
  -- The pair is found with its smaller number first.
  obtain hlt | rfl | hlt := Nat.lt_trichotomy a b
  · refine ⟨⟨a, b, reason⟩, mem_findingsIn.2 ⟨(hchecked.mem_iff _).2 ⟨root, hroot, hlt, hreason, ?_⟩, ha, hb⟩,
      by simp [hlt.le], by simp [hlt.le]⟩
    exact ⟨.calls, group, hgroup, .inl hneighbours⟩
  · exact absurd rfl hne
  · rw [ResolvedGraph.conflict?_comm] at hreason
    refine ⟨⟨b, a, reason⟩, mem_findingsIn.2 ⟨(hchecked.mem_iff _).2 ⟨root, hroot, hlt, hreason, ?_⟩, hb, ha⟩,
      by simp [hlt.le], by simp [hlt.le]⟩
    exact ⟨.calls, group, hgroup, .inr hneighbours⟩

/-- There are at least as many findings in a group as borders. -/
theorem WellFormed.length_borders_le (h : graph.WellFormed)
    (hchecked : memo.Checked graph.resolved graph.roots found) (hroot : root ∈ graph.roots)
    (hgroup : graph.resolved.ReachedGroup .calls (graph.resolved.fieldSet root) group) :
    (borders graph.resolved.call? (layout graph.resolved.call? group)).length ≤
      (findingsIn found group).length := by
  let sorted (pair : FieldId × FieldId) : FieldId × FieldId := (min pair.1 pair.2, max pair.1 pair.2)
  have hlayout : (layout graph.resolved.call? group).Nodup := nodup_layout (hgroup.pairwise.imp Nat.ne_of_lt)
  have hnodup : ((borders graph.resolved.call? (layout graph.resolved.call? group)).map sorted).Nodup :=
    (nodup_neighbours hlayout).sublist (List.filter_sublist.map sorted)
  have hsubset : (borders graph.resolved.call? (layout graph.resolved.call? group)).map sorted ⊆
      (findingsIn found group).map fun finding => (finding.first, finding.second) := by
    intro pair hpair
    obtain ⟨⟨a, b⟩, hborder, rfl⟩ := List.mem_map.1 hpair
    obtain ⟨finding, hfinding, hfirst, hsecond⟩ := h.exists_finding hchecked hroot hgroup hborder
    exact List.mem_map.2 ⟨finding, hfinding, by rw [hfirst, hsecond]⟩
  have hlength := (List.subperm_of_subset hnodup hsubset).length_le
  rwa [List.length_map, List.length_map] at hlength

/-- Where a group has two calls, each is that of a field of a finding in the group. -/
theorem WellFormed.exists_finding_of_call (h : graph.WellFormed)
    (hchecked : memo.Checked graph.resolved graph.roots found) (hroot : root ∈ graph.roots)
    (hgroup : graph.resolved.ReachedGroup .calls (graph.resolved.fieldSet root) group) {call other : FieldCall}
    (hcall : call ∈ callsOf graph.resolved.call? group) (hother : other ∈ callsOf graph.resolved.call? group)
    (hne : other ≠ call) :
    ∃ finding ∈ findingsIn found group,
      graph.resolved.call? finding.first = some call ∨ graph.resolved.call? finding.second = some call := by
  obtain ⟨i, hi, hcall⟩ := mem_callsOf.1 hcall
  obtain ⟨j, hj, hother⟩ := mem_callsOf.1 hother
  have hdiffer : graph.resolved.call? i ≠ graph.resolved.call? j := by
    rw [hcall, hother]
    exact fun heq => hne (Option.some.inj heq).symm
  have hi : i ∈ layout graph.resolved.call? group := mem_layout.2 hi
  have hj : j ∈ layout graph.resolved.call? group := mem_layout.2 hj
  obtain ⟨a, b, hborder, hvalue⟩ := exists_border hi hj hdiffer
  obtain ⟨finding, hfinding, hfirst, hsecond⟩ := h.exists_finding hchecked hroot hgroup hborder
  refine ⟨finding, hfinding, ?_⟩
  rw [hfirst, hsecond, ← hcall]
  obtain hle | hle := Nat.le_total a b
  · rw [Nat.min_eq_left hle, Nat.max_eq_right hle]
    exact hvalue
  · rw [Nat.min_eq_right hle, Nat.max_eq_left hle]
    exact hvalue.symm

end SelectionGraph

/-- **No call goes unreported.** The conflicts that are reported show two field selections each, never the same
two. Of every group that the second pass comes to from a root, at least as many are between two of its fields as
it has different calls, less one; and if there are two or more, each is that of a field of such a conflict. -/
theorem every_call_reported {schema : Schema} {definitions : List Definition} {conflicts : List Conflict}
    (h : validate schema definitions = .ok conflicts) :
    ∃ found : List Finding,
      List.Forall₂ (Conflict.Reports (occurrences schema definitions)) conflicts found ∧
      (found.map Finding.pair).Nodup ∧
      ∀ content ∈ documentRoots definitions, ∀ group, content.ComesToGroup schema definitions .calls group →
        (callsOf (callAt (occurrences schema definitions)) group).length - 1 ≤
          (conflictsIn conflicts found group).length ∧
        (2 ≤ (callsOf (callAt (occurrences schema definitions)) group).length →
          ∀ call ∈ callsOf (callAt (occurrences schema definitions)) group,
            ∃ conflict ∈ conflictsIn conflicts found group,
              conflict.first.field.call = call ∨ conflict.second.field.call = call) := by
  obtain ⟨graph, found, memo, hgraph, hfound, hchecked, hreports⟩ := validate_attributed h
  have hexpanded := SelectionGraph.expanded_ofDocument hgraph
  have hgraph' := hexpanded.represents.wellFormed
  refine ⟨found.flatten, hreports, (ResolvedGraph.check_segments hfound).2, fun content hcontent group hgroup => ?_⟩
  obtain ⟨root, hroot, hexpands⟩ := exists_of_forall₂_left hexpanded.roots hcontent
  have hgroup := (hexpanded.comesToGroup_iff hexpands).1 hgroup
  rw [length_conflictsIn hreports.length_eq, hexpanded.represents.callAt_eq]
  constructor
  · have hborders := hgraph'.length_borders_le hchecked hroot hgroup
    have hcalls := length_callsOf_le graph.resolved.call? group
    have hvalues := length_firstKeys_le graph.resolved.call? (layout graph.resolved.call? group)
    omega
  · intro htwo call hcall
    obtain ⟨other, hother, hne⟩ := exists_other_call htwo call
    obtain ⟨finding, hfinding, hshown⟩ := hgraph'.exists_finding_of_call hchecked hroot hgroup hcall hother hne
    obtain ⟨conflict, hconflict, hreport⟩ := exists_conflictsIn hreports hfinding
    have hfirst := hreport.first.callAt
    have hsecond := hreport.second.callAt
    rw [hexpanded.represents.callAt_eq] at hfirst hsecond
    rw [hfirst, hsecond, Option.some_inj, Option.some_inj] at hshown
    exact ⟨conflict, hconflict, hshown⟩

/-- The query leads to three calls under one key. Two of them were compared before, under the fragment, and
both conflicts of the group are reported. -/
theorem shared_calls_reported : ∃ conflicts, ∃ found : List Finding,
    validate loopSchema sharedDocument = .ok conflicts ∧
    List.Forall₂ (Conflict.Reports (occurrences loopSchema sharedDocument)) conflicts found ∧
    ∃ content ∈ documentRoots sharedDocument,
      content.ComesToGroup loopSchema sharedDocument .calls [0, 1, 2] ∧
      (callsOf (callAt (occurrences loopSchema sharedDocument)) [0, 1, 2]).length = 3 ∧
      2 ≤ (conflictsIn conflicts found [0, 1, 2]).length ∧
      ∀ call ∈ callsOf (callAt (occurrences loopSchema sharedDocument)) [0, 1, 2],
        ∃ conflict ∈ conflictsIn conflicts found [0, 1, 2],
          conflict.first.field.call = call ∨ conflict.second.field.call = call := by
  have hlength : (validate loopSchema sharedDocument).toOption.map List.length = some 2 := by
    decide +kernel
  have hall : (SelectionGraph.ofDocument loopSchema sharedDocument).toOption.any (fun graph =>
      decide (∃ root ∈ graph.roots, [0, 1, 2] ∈ graph.resolved.groups .calls (graph.resolved.fieldSet root))) =
        true := by
    decide +kernel
  have hcalls : (callsOf (callAt (occurrences loopSchema sharedDocument)) [0, 1, 2]).length = 3 := by
    decide +kernel
  obtain ⟨conflicts, hvalidate, -⟩ := exists_validate_eq hlength
  obtain ⟨found, hreports, -, hreported⟩ := every_call_reported hvalidate
  obtain ⟨graph, hgraph, root, hroot, hmem⟩ := SelectionGraph.exists_ofDocument hall
  have hexpanded := SelectionGraph.expanded_ofDocument hgraph
  obtain ⟨content, hcontent, hexpands⟩ := exists_of_forall₂_right hexpanded.roots hroot
  have hgroup := (hexpanded.comesToGroup_iff hexpands).2 ⟨_, .start, hmem⟩
  obtain ⟨hcount, hkeys⟩ := hreported content hcontent [0, 1, 2] hgroup
  rw [hcalls] at hcount hkeys
  exact ⟨conflicts, found, hvalidate, hreports, content, hcontent, hgroup, hcalls, hcount, hkeys (by decide)⟩

end SelectionMerge
