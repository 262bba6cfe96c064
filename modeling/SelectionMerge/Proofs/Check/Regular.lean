import SelectionMerge.Proofs.Check.Tidy
import SelectionMerge.Proofs.Check.Watch

/-!
# Memos in order

A memo is in order beside an index (`Memo.Regular`) if the two are inverse to each other, each entry stands
for an ascending set and keeps right answers, and the counts are those of the entries. Adding an entry keeps
it so (`Memo.Regular.push`), and so do keeping an answer and marking a set (`Memo.Regular.update`) and
marking and counting a group that is compared (`Memo.Regular.compare`).
-/

namespace SelectionMerge
set_option autoImplicit false

/-- Changing one element of a list changes the count by that element. -/
theorem countP_modify {α : Type} (p : α → Bool) (change : α → α) {as : List α} {i : Nat} {a : α}
    (h : as[i]? = some a) :
    (as.modify i change).countP p + (p a).toNat = as.countP p + (p (change a)).toNat := by
  induction as generalizing i with
  | nil => simp at h
  | cons b as ih =>
    cases i with
    | zero =>
      obtain rfl : b = a := by simpa using h
      rw [List.modify_zero_cons, List.countP_cons, List.countP_cons]
      cases p b <;> cases p (change b) <;> simp
    | succ i =>
      have hrest := ih (by simpa using h)
      rw [List.modify_succ_cons, List.countP_cons, List.countP_cons]
      omega

namespace Memo

variable {memo after : Memo} {resolved : ResolvedGraph} {index : SetIndex}

/-- How many groups count as compared by a pass. -/
def countCompared (memo : Memo) (pass : Pass) : Nat :=
  memo.entries.toList.countP fun entry => entry.compared pass

/-- The memo is in order, beside the index. -/
structure Regular (resolved : ResolvedGraph) (index : SetIndex) (memo : Memo) : Prop where
  sound : memo.Sound resolved
  inverse : ∀ set id, index.lookup set = some id ↔ memo.fields? id = some set
  ascending : ∀ {id set}, memo.fields? id = some set → set.Pairwise (· < ·)
  misses : memo.misses = memo.entries.size
  groups : memo.groups = memo.countCompared .shapes + memo.countCompared .calls

/-- A set that the memo finds has the number that comes back. -/
theorem fields?_of_find? {set : List FieldId} {id : SetId} (h : memo.find? set = some id) :
    memo.fields? id = some set := by
  obtain ⟨hlt, hfields, -⟩ := Array.findIdx?_eq_some_iff_getElem.1 h
  exact fields?_eq_some.2 ⟨memo.entries[id], Array.getElem?_eq_getElem hlt, by simpa using hfields⟩

/-- A set that the memo does not find has no number. -/
theorem fields?_ne_of_find? {set : List FieldId} (h : memo.find? set = none) (id : SetId) :
    memo.fields? id ≠ some set := by
  intro hset
  obtain ⟨entry, hentry, hfields⟩ := fields?_eq_some.1 hset
  have hunlike := Array.findIdx?_eq_none_iff.1 h entry (Array.mem_of_getElem? hentry)
  simp [hfields] at hunlike

namespace Regular

/-- The index has what the memo finds. -/
theorem lookup_eq (h : memo.Regular resolved index) (set : List FieldId) :
    index.lookup set = memo.find? set := by
  cases hfind : memo.find? set with
  | some id => exact (h.inverse set id).2 (fields?_of_find? hfind)
  | none =>
    rw [Option.eq_none_iff_forall_ne_some]
    intro id hid
    exact fields?_ne_of_find? hfind id ((h.inverse set id).1 hid)

/-- Only the entries and the two counts matter. -/
theorem congr (h : memo.Regular resolved index) (hentries : after.entries = memo.entries)
    (hmisses : after.misses = memo.misses) (hgroups : after.groups = memo.groups) :
    after.Regular resolved index where
  sound := h.sound.congr hentries
  inverse set id := by
    rw [fields?_congr hentries]
    exact h.inverse set id
  ascending hset := h.ascending ((fields?_congr hentries _).symm.trans hset)
  misses := by rw [hmisses, hentries, h.misses]
  groups := by
    unfold countCompared
    rw [hgroups, hentries]
    exact h.groups

/-- A new set gets the next number, in the index as well as among the entries. -/
theorem push (h : memo.Regular resolved index) {set : List FieldId} (hnew : memo.find? set = none)
    (hset : set.Pairwise (· < ·)) (hsound : after.Sound resolved)
    (hentries : after.entries = memo.entries.push (Entry.fresh set))
    (hmisses : after.misses = memo.misses + 1) (hgroups : after.groups = memo.groups) :
    after.Regular resolved ((set, memo.entries.size) :: index) := by
  have hfields : ∀ id, after.fields? id = if id = memo.entries.size then some set else memo.fields? id := by
    intro id
    unfold fields?
    rw [hentries, Array.getElem?_push]
    split <;> rfl
  have hcount : ∀ pass, after.countCompared pass = memo.countCompared pass := by
    intro pass
    unfold countCompared
    rw [hentries, Array.toList_push, List.countP_append]
    cases pass <;> rfl
  refine ⟨hsound, fun x id => ?_, fun {id x} hx => ?_, ?_, ?_⟩
  · rw [List.lookup_cons, hfields]
    cases hx : x == set with
    | true =>
      obtain rfl := eq_of_beq hx
      constructor
      · rintro ⟨⟩
        exact if_pos rfl
      · intro hid
        split at hid
        next heq => exact congrArg some heq.symm
        next => exact absurd hid (fields?_ne_of_find? hnew id)
    | false =>
      have hne : set ≠ x := fun heq => by simp [heq] at hx
      constructor
      · intro hid
        have hid := (h.inverse x id).1 hid
        rw [if_neg (fun heq => ?_)]
        · exact hid
        · rw [heq] at hid
          simp [fields?] at hid
      · intro hid
        split at hid
        · exact absurd (Option.some.inj hid) hne
        · exact (h.inverse x id).2 hid
  · rw [hfields] at hx
    split at hx
    · exact Option.some.inj hx ▸ hset
    · exact h.ascending hx
  · rw [hmisses, hentries, Array.size_push, h.misses]
  · rw [hgroups, hcount, hcount, h.groups]

section Update

variable {id : SetId} {change : Entry → Entry}

/-- A change of an entry changes the count of a pass by that entry. -/
theorem countCompared_update (memo : Memo) (pass : Pass) (change : Entry → Entry) {entry : Entry}
    (hentry : memo.entries[id]? = some entry) :
    (memo.update id change).countCompared pass + (entry.compared pass).toNat =
      memo.countCompared pass + ((change entry).compared pass).toNat := by
  unfold countCompared update
  rw [Array.toList_modify]
  exact countP_modify _ change (by rwa [Array.getElem?_toList])

/-- A change that keeps the fields of an entry and what it was compared for leaves the memo in order. -/
theorem update (h : memo.Regular resolved index) {set : List FieldId} (hset : memo.fields? id = some set)
    (hsound : (memo.update id change).Sound resolved)
    (hfields : ∀ entry, (change entry).fields = entry.fields)
    (hcompared : ∀ entry pass, (change entry).compared pass = entry.compared pass) :
    (memo.update id change).Regular resolved index := by
  obtain ⟨entry, hentry, -⟩ := fields?_eq_some.1 hset
  have hcount : ∀ pass, (memo.update id change).countCompared pass = memo.countCompared pass := by
    intro pass
    have hpass := countCompared_update memo pass change hentry
    rw [hcompared] at hpass
    exact Nat.add_right_cancel hpass
  refine ⟨hsound, fun x j => ?_, fun {j x} hx => ?_, ?_, ?_⟩
  · rw [fields?_update hfields]
    exact h.inverse x j
  · exact h.ascending ((fields?_update hfields j).symm.trans hx)
  · exact h.misses.trans Array.size_modify.symm
  · rw [hcount, hcount]
    exact h.groups

/-- A group that is compared for the first time is counted. -/
theorem compare (h : memo.Regular resolved index) {entry : Entry} (hentry : memo.entries[id]? = some entry)
    (pass : Pass) (hnew : entry.compared pass ≠ true) :
    ({ memo.update id (fun entry => entry.compare pass) with groups := memo.groups + 1 } : Memo).Regular
      resolved index := by
  have hcount : ∀ p, (memo.update id fun entry => entry.compare pass).countCompared p =
      memo.countCompared p + (decide (p = pass)).toNat := by
    intro p
    have hpass := countCompared_update memo p (fun entry => entry.compare pass) hentry
    rw [Entry.compared_compare] at hpass
    by_cases hp : p = pass
    · subst hp
      simpa [Bool.eq_false_iff.2 hnew] using hpass
    · simpa [hp] using hpass
  refine ⟨(h.sound.compare id pass).congr rfl, fun x j => ?_, fun {j x} hx => ?_, ?_, ?_⟩
  · exact (h.inverse x j).trans (iff_of_eq (congrArg (· = some x) (fields?_update (Entry.fields_compare pass) j).symm))
  · exact h.ascending ((fields?_update (Entry.fields_compare pass) j).symm.trans hx)
  · exact h.misses.trans Array.size_modify.symm
  · change memo.groups + 1 = countCompared (memo.update id _) .shapes + countCompared (memo.update id _) .calls
    rw [hcount, hcount, h.groups]
    cases pass <;> simp <;> omega

end Update

end Regular

/-- Before the first step the memo is in order. -/
theorem regular_empty (resolved : ResolvedGraph) : Memo.empty.Regular resolved [] := by
  refine ⟨fun id entry hentry => ?_, fun set id => ?_, fun h => ?_, rfl, rfl⟩
  · cases hentry
  · simp [fields?, Memo.empty]
  · simp [fields?, Memo.empty] at h

end Memo

end SelectionMerge
