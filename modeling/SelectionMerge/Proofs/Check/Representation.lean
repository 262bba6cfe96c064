import SelectionMerge.Proofs.Check.Moments
import SelectionMerge.Proofs.Check.Transparency
import SelectionMerge.Proofs.Merge.Partition

/-!
# What the memo stands for

A memo is canonical beside an index (`Memo.Canonical`) if every set has one entry, found by its ascending
list of fields, and the entry keeps what the set splits into and leads to, by the numbers of other entries.
The memo of a check is so at every moment, before and after each operation, whether the check is stopped or
not (`ResolvedGraph.every_moment_canonical`).
-/

namespace SelectionMerge
set_option autoImplicit false

/-- The numbers of sets that an entry keeps. -/
def Entry.answers (entry : Entry) : List SetId :=
  entry.keyGroups?.getD [] ++ entry.parentGroups?.getD [] ++ entry.children?.toList

namespace Memo

variable {memo : Memo} {resolved : ResolvedGraph} {index : SetIndex} {entry : Entry}

/-- The memo has one entry for each set, the index and the entries say the same, and each entry keeps what
its set splits into and leads to. -/
structure Canonical (resolved : ResolvedGraph) (index : SetIndex) (memo : Memo) : Prop where
  /-- The index and the entries are inverse to each other. -/
  inverse : ∀ key id, index.lookup key = some id ↔ ∃ entry, memo.entries[id]? = some entry ∧ entry.fields = key
  /-- What the memo finds among the entries is what the index has. -/
  finds : ∀ key, memo.find? key = index.lookup key
  distinct : ∀ (i j : SetId) (entry other : Entry), memo.entries[i]? = some entry →
    memo.entries[j]? = some other → entry.fields = other.fields → i = j
  ascending : ∀ entry ∈ memo.entries, entry.fields.Pairwise (· < ·)
  inRange : ∀ entry ∈ memo.entries, ∀ id ∈ entry.answers, id < memo.entries.size
  keyGroups : ∀ entry ∈ memo.entries, ∀ ids, entry.keyGroups? = some ids →
    ∃ groups, memo.Numbers groups ids ∧ SplitBy resolved.responseKey? entry.fields groups
  parentGroups : ∀ entry ∈ memo.entries, ∀ ids, entry.parentGroups? = some ids →
    ∃ groups, memo.Numbers groups ids ∧ SharedBy resolved.objectParent? entry.fields groups
  children : ∀ entry ∈ memo.entries, ∀ id, entry.children? = some id →
    memo.fields? id = some (resolved.children entry.fields)
  misses : memo.misses = memo.entries.size
  groups : memo.groups =
    memo.entries.toList.countP Entry.shapesCompared + memo.entries.toList.countP Entry.callsCompared

theorem lt_size_of_fields? {id : SetId} {set : List FieldId} (h : memo.fields? id = some set) :
    id < memo.entries.size := by
  obtain ⟨entry, hentry, -⟩ := fields?_eq_some.1 h
  exact (Array.getElem?_eq_some_iff.1 hentry).1

/-- What a right entry keeps are numbers of entries. -/
theorem Right.lt_size (h : memo.Right resolved entry) {id : SetId} (hid : id ∈ entry.answers) :
    id < memo.entries.size := by
  simp only [Entry.answers, List.mem_append, or_assoc] at hid
  rcases hid with hid | hid | hid
  · cases hids : entry.keyGroups? with
    | none => simp [hids] at hid
    | some ids =>
      rw [hids] at hid
      obtain ⟨set, -, hset⟩ := (h.keyGroups ids hids).exists_set hid
      exact lt_size_of_fields? hset
  · cases hids : entry.parentGroups? with
    | none => simp [hids] at hid
    | some ids =>
      rw [hids] at hid
      obtain ⟨set, -, hset⟩ := (h.parentGroups ids hids).exists_set hid
      exact lt_size_of_fields? hset
  · exact lt_size_of_fields? (h.children id (Option.mem_toList.1 hid))

/-- A memo in order is canonical. -/
theorem Regular.canonical (h : memo.Regular resolved index) : memo.Canonical resolved index := by
  have hentry : ∀ entry ∈ memo.entries, entry.fields.Pairwise (· < ·) ∧ memo.Right resolved entry := by
    intro entry hmem
    obtain ⟨id, hid⟩ := Array.mem_iff_getElem?.1 hmem
    exact ⟨h.ascending (fields?_eq_some.2 ⟨entry, hid, rfl⟩), h.sound id entry hid⟩
  refine ⟨fun key id => (h.inverse key id).trans fields?_eq_some, fun key => (h.lookup_eq key).symm, ?_,
    fun entry hmem => (hentry entry hmem).1, fun entry hmem id => (hentry entry hmem).2.lt_size, ?_, ?_,
    fun entry hmem => (hentry entry hmem).2.children, h.misses, h.groups⟩
  · intro i j entry other hi hj hsame
    have hi := (h.inverse _ i).2 (fields?_eq_some.2 ⟨entry, hi, hsame⟩)
    have hj := (h.inverse _ j).2 (fields?_eq_some.2 ⟨other, hj, rfl⟩)
    exact Option.some.inj (hi.symm.trans hj)
  · intro entry hmem ids hids
    obtain ⟨hascending, hright⟩ := hentry entry hmem
    exact ⟨_, hright.keyGroups ids hids, splitBy_classes hascending⟩
  · intro entry hmem ids hids
    obtain ⟨hascending, hright⟩ := hentry entry hmem
    exact ⟨_, hright.parentGroups ids hids, ResolvedGraph.sharedBy_parentGroups hascending⟩

end Memo

namespace ResolvedGraph

/-- The check that is watched comes to what the check comes to. At each of its moments, at the call and at
the end of every operation, the memo is canonical beside the index, and the operation is called on what it
is for; so the key of every look-up is ascending. -/
theorem every_moment_canonical (resolved : ResolvedGraph) :
    (((Watched.checkRoots resolved).runOn Memo.empty Watch.start).1,
      ((Watched.checkRoots resolved).runOn Memo.empty Watch.start).2.1) = resolved.check ∧
    ∀ moment ∈ resolved.moments,
      moment.memo.Canonical resolved moment.index ∧ moment.operation.Fits resolved moment.memo ∧
      ∀ key, moment.operation = .lookup key → key.Pairwise (· < ·) := by
  have htracks := resolved.tracks_check
  refine ⟨htracks.same, fun moment hmoment => ?_⟩
  obtain ⟨hregular, hfits⟩ := htracks.right.moments moment hmoment
  refine ⟨hregular.canonical, hfits, fun key hkey => ?_⟩
  rw [hkey] at hfits
  exact hfits

/-- A fragment that leads back to itself: when its second pass ends, each of its three groups counts twice.
On the way there the fields that it leads back to are looked up. -/
theorem loop_moments_canonical : ∃ graph, SelectionGraph.ofDocument loopSchema loopDocument = .ok graph ∧
    (∃ moment ∈ graph.resolved.moments, moment.operation = .follow .calls 0 ∧ moment.memo.entries.size = 6 ∧
      moment.memo.groups = 6 ∧ moment.memo.Canonical graph.resolved moment.index) ∧
    ∃ moment ∈ graph.resolved.moments, moment.operation = .lookup [1, 2] ∧ [1, 2].Pairwise (· < ·) := by
  have hall : (SelectionGraph.ofDocument loopSchema loopDocument).toOption.any (fun graph =>
      decide ((.follow .calls 0, 6, 6) ∈ graph.resolved.moments.map (fun moment =>
          (moment.operation, moment.memo.entries.size, moment.memo.groups)) ∧
        .lookup [1, 2] ∈ graph.resolved.moments.map Moment.operation)) = true := by
    decide +kernel
  obtain ⟨graph, hgraph, hfollow, hlookup⟩ := SelectionGraph.exists_ofDocument hall
  obtain ⟨-, hmoments⟩ := every_moment_canonical graph.resolved
  obtain ⟨last, hlast, hcounts⟩ := List.mem_map.1 hfollow
  obtain ⟨looked, hlooked, hkey⟩ := List.mem_map.1 hlookup
  simp only [Prod.mk.injEq] at hcounts
  obtain ⟨hoperation, hsize, hgroups⟩ := hcounts
  exact ⟨graph, hgraph, ⟨last, hlast, hoperation, hsize, hgroups, (hmoments last hlast).1⟩,
    looked, hlooked, hkey, (hmoments looked hlooked).2.2 [1, 2] hkey⟩

end ResolvedGraph

end SelectionMerge
