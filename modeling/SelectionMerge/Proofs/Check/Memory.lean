import SelectionMerge.Proofs.Check.Passes
import SelectionMerge.Proofs.Check.Returns

/-!
# What a memo knows

A memo is read by the sets in it and not by their numbers: `Memo.Followed` and `Memo.Grouped`
say what was done with a set. `Memo.Widens` is what asking a memo comes to: sets may be added,
numbers keep their sets, and nothing counts as done that did not before. A memo is `Memo.Sound`
if what its entries keep is what it would be computed to now, and asking keeps it so, whether
the answer was kept or not (`keyGroups_returns`, `parts_returns`, `children_returns`).
-/

namespace SelectionMerge
set_option autoImplicit false

section Pairwise

variable {α β : Type} {R : α → β → Prop} {as : List α} {bs : List β}

theorem exists_of_forall₂_left (h : List.Forall₂ R as bs) {a : α} (ha : a ∈ as) : ∃ b ∈ bs, R a b := by
  induction h with
  | nil => cases ha
  | cons hab _ ih =>
    cases ha with
    | head => exact ⟨_, .head _, hab⟩
    | tail _ ha =>
      obtain ⟨b, hb, hab⟩ := ih ha
      exact ⟨b, .tail _ hb, hab⟩

theorem exists_of_forall₂_right (h : List.Forall₂ R as bs) {b : β} (hb : b ∈ bs) : ∃ a ∈ as, R a b :=
  exists_of_forall₂_left h.flip hb

end Pairwise

namespace Memo

/-- The set of that number. -/
def fields? (memo : Memo) (id : SetId) : Option (List FieldId) :=
  memo.entries[id]?.map Entry.fields

/-- The sets of those numbers, in order. -/
def Numbers (memo : Memo) (sets : List (List FieldId)) (ids : List SetId) : Prop :=
  List.Forall₂ (fun set id => memo.fields? id = some set) sets ids

/-- An entry of the set has the flag. -/
def Marked (memo : Memo) (flag : Entry → Bool) (set : List FieldId) : Prop :=
  ∃ (id : SetId) (entry : Entry),
    memo.entries[id]? = some entry ∧ entry.fields = set ∧ flag entry = true

/-- The pass goes on from the set, or did so. -/
def Followed (memo : Memo) (pass : Pass) (set : List FieldId) : Prop :=
  memo.Marked (fun entry => entry.followed pass) set

/-- The pass compares the fields of the group, or did so. -/
def Grouped (memo : Memo) (pass : Pass) (group : List FieldId) : Prop :=
  memo.Marked (fun entry => entry.compared pass) group

variable {memo memo' middle after : Memo} {resolved : ResolvedGraph}

theorem fields?_eq_some {id : SetId} {set : List FieldId} :
    memo.fields? id = some set ↔ ∃ entry, memo.entries[id]? = some entry ∧ entry.fields = set := by
  unfold fields?
  exact Option.map_eq_some_iff

theorem entry_eq {id : SetId} {entry : Entry} (h : memo.entries[id]? = some entry) :
    memo.entry id = entry := by
  unfold Memo.entry
  rw [h]
  rfl

theorem fields_entry {id : SetId} {set : List FieldId} (h : memo.fields? id = some set) :
    (memo.entry id).fields = set := by
  obtain ⟨entry, hentry, rfl⟩ := fields?_eq_some.1 h
  rw [entry_eq hentry]

theorem Numbers.exists_set {sets : List (List FieldId)} {ids : List SetId} (h : memo.Numbers sets ids)
    {id : SetId} (hid : id ∈ ids) : ∃ set ∈ sets, memo.fields? id = some set :=
  exists_of_forall₂_right h hid

theorem Numbers.exists_id {sets : List (List FieldId)} {ids : List SetId} (h : memo.Numbers sets ids)
    {set : List FieldId} (hset : set ∈ sets) : ∃ id ∈ ids, memo.fields? id = some set :=
  exists_of_forall₂_left h hset

/-- Corresponding sets have corresponding numbers. -/
theorem Numbers.forall₂ {sets : List (List FieldId)} {ids ids' : List SetId} {f : List FieldId → List FieldId}
    (h : memo.Numbers sets ids) (h' : memo'.Numbers (sets.map f) ids') :
    List.Forall₂ (fun id id' => ∃ set ∈ sets, memo.fields? id = some set ∧ memo'.fields? id' = some (f set))
      ids ids' := by
  induction h generalizing ids' with
  | nil =>
    cases h'
    exact .nil
  | cons hset _ ih =>
    cases h' with
    | cons hset' hrest =>
      refine .cons ⟨_, .head _, hset, hset'⟩ ((ih hrest).imp fun id id' => ?_)
      rintro ⟨set, hmem, hid⟩
      exact ⟨set, .tail _ hmem, hid⟩

/-- Sets are added, and nothing is done with them. -/
structure Widens (memo after : Memo) : Prop where
  fields : ∀ {id set}, memo.fields? id = some set → after.fields? id = some set
  followed : ∀ pass set, after.Followed pass set ↔ memo.Followed pass set
  grouped : ∀ pass group, after.Grouped pass group ↔ memo.Grouped pass group
  partners : after.partners = memo.partners
  findings : after.findings = memo.findings

theorem Widens.refl (memo : Memo) : memo.Widens memo :=
  ⟨id, fun _ _ => .rfl, fun _ _ => .rfl, rfl, rfl⟩

theorem Widens.trans (h : memo.Widens middle) (h' : middle.Widens after) : memo.Widens after where
  fields hset := h'.fields (h.fields hset)
  followed pass set := (h'.followed pass set).trans (h.followed pass set)
  grouped pass group := (h'.grouped pass group).trans (h.grouped pass group)
  partners := h'.partners.trans h.partners
  findings := h'.findings.trans h.findings

theorem Numbers.mono (hfields : ∀ {id set}, memo.fields? id = some set → after.fields? id = some set)
    {sets : List (List FieldId)} {ids : List SetId} (h : memo.Numbers sets ids) :
    after.Numbers sets ids :=
  h.imp fun _ _ => hfields

/-- What an entry keeps is what it would be computed to. -/
structure Right (memo : Memo) (resolved : ResolvedGraph) (entry : Entry) : Prop where
  keyGroups : ∀ ids, entry.keyGroups? = some ids → memo.Numbers (resolved.keyGroups entry.fields) ids
  parentGroups : ∀ ids, entry.parentGroups? = some ids →
    memo.Numbers (resolved.parentGroups entry.fields) ids
  children : ∀ id, entry.children? = some id → memo.fields? id = some (resolved.children entry.fields)

theorem Right.mono {entry : Entry} (h : memo.Right resolved entry)
    (hfields : ∀ {id set}, memo.fields? id = some set → after.fields? id = some set) :
    after.Right resolved entry where
  keyGroups ids hids := (h.keyGroups ids hids).mono hfields
  parentGroups ids hids := (h.parentGroups ids hids).mono hfields
  children id hid := hfields (h.children id hid)

/-- What the entries keep is right. -/
def Sound (memo : Memo) (resolved : ResolvedGraph) : Prop :=
  ∀ (id : SetId) (entry : Entry), memo.entries[id]? = some entry → memo.Right resolved entry

/-- What is known of sets is kept in the entries. -/
theorem fields?_congr (hentries : after.entries = memo.entries) (id : SetId) :
    after.fields? id = memo.fields? id := by
  unfold fields?
  rw [hentries]

theorem marked_congr {flag : Entry → Bool} (hentries : after.entries = memo.entries)
    (set : List FieldId) : after.Marked flag set ↔ memo.Marked flag set := by
  unfold Marked
  rw [hentries]

/-- Which pairs were compared is kept with the fields. -/
theorem compared_congr (hpartners : after.partners = memo.partners) (a b : FieldId) :
    after.compared a b = memo.compared a b := by
  unfold compared partnersOf
  rw [hpartners]

theorem Sound.congr (h : memo.Sound resolved) (hentries : after.entries = memo.entries) :
    after.Sound resolved := by
  intro id entry hentry
  rw [hentries] at hentry
  apply (h id entry hentry).mono
  intro id set hset
  exact (fields?_congr hentries id).trans hset

section Update

variable {id : SetId} {change : Entry → Entry}

theorem getElem?_update (memo : Memo) (id : SetId) (change : Entry → Entry) (j : SetId) :
    (memo.update id change).entries[j]? =
      if id = j then memo.entries[j]?.map change else memo.entries[j]? :=
  Array.getElem?_modify

/-- Numbers keep their sets if a change keeps the fields of an entry. -/
theorem fields?_update (hfields : ∀ entry, (change entry).fields = entry.fields) (j : SetId) :
    (memo.update id change).fields? j = memo.fields? j := by
  unfold fields?
  rw [getElem?_update]
  split
  · cases memo.entries[j]? with
    | none => rfl
    | some entry => exact congrArg some (hfields entry)
  · rfl

/-- A change that gives an entry a flag marks its set, besides the sets that were marked. -/
theorem marked_update {flag : Entry → Bool} {gives : Bool}
    (hfields : ∀ entry, (change entry).fields = entry.fields)
    (hflag : ∀ entry, flag (change entry) = (flag entry || gives)) (set : List FieldId) :
    (memo.update id change).Marked flag set ↔
      memo.Marked flag set ∨ gives = true ∧ memo.fields? id = some set := by
  constructor
  · rintro ⟨j, entry, hentry, hset, hmark⟩
    rw [getElem?_update] at hentry
    split at hentry
    · next heq =>
      subst heq
      obtain ⟨before, hbefore, rfl⟩ := Option.map_eq_some_iff.1 hentry
      rw [hflag, Bool.or_eq_true] at hmark
      rw [hfields] at hset
      cases hmark with
      | inl hmark => exact .inl ⟨id, before, hbefore, hset, hmark⟩
      | inr hmark => exact .inr ⟨hmark, fields?_eq_some.2 ⟨before, hbefore, hset⟩⟩
    · exact .inl ⟨j, entry, hentry, hset, hmark⟩
  · rintro (⟨j, entry, hentry, hset, hmark⟩ | ⟨hgives, hset⟩)
    · refine ⟨j, if id = j then change entry else entry, ?_, ?_, ?_⟩
      · rw [getElem?_update, hentry]
        split <;> rfl
      · split
        · exact (hfields entry).trans hset
        · exact hset
      · split
        · rw [hflag, hmark, Bool.true_or]
        · exact hmark
    · obtain ⟨entry, hentry, hset⟩ := fields?_eq_some.1 hset
      refine ⟨id, change entry, ?_, (hfields entry).trans hset, ?_⟩
      · rw [getElem?_update, hentry, if_pos rfl]
        rfl
      · rw [hflag, hgives, Bool.or_true]

theorem marked_update_of_eq {flag : Entry → Bool} (hfields : ∀ entry, (change entry).fields = entry.fields)
    (hflag : ∀ entry, flag (change entry) = flag entry) (set : List FieldId) :
    (memo.update id change).Marked flag set ↔ memo.Marked flag set := by
  have hiff := @marked_update memo id change flag false hfields
    (fun entry => (hflag entry).trans (Bool.or_false _).symm) set
  exact hiff.trans (or_iff_left fun h => Bool.noConfusion h.1)

/-- A change keeps a memo sound if what the changed entry keeps is right. -/
theorem Sound.update (h : memo.Sound resolved) (hfields : ∀ entry, (change entry).fields = entry.fields)
    (hchange : ∀ entry, memo.entries[id]? = some entry → memo.Right resolved (change entry)) :
    (memo.update id change).Sound resolved := by
  intro j entry hentry
  rw [getElem?_update] at hentry
  have hright : memo.Right resolved entry := by
    split at hentry
    · next heq =>
      subst heq
      obtain ⟨before, hbefore, rfl⟩ := Option.map_eq_some_iff.1 hentry
      exact hchange before hbefore
    · exact h j entry hentry
  exact hright.mono fun {j set} hset => (fields?_update hfields j).trans hset

end Update

section Marks

variable {id : SetId} {set : List FieldId}

/-- Marking a set as followed marks nothing else. -/
theorem followed_follow (hset : memo.fields? id = some set) (pass p : Pass) (x : List FieldId) :
    (memo.update id fun entry => entry.follow pass).Followed p x ↔
      memo.Followed p x ∨ p = pass ∧ x = set := by
  apply (marked_update (Entry.fields_follow pass) (Entry.followed_follow p pass) x).trans
  rw [decide_eq_true_eq, hset, Option.some.injEq, eq_comm (a := set)]
  rfl

theorem grouped_follow (memo : Memo) (id : SetId) (pass p : Pass) (x : List FieldId) :
    (memo.update id fun entry => entry.follow pass).Grouped p x ↔ memo.Grouped p x :=
  marked_update_of_eq (Entry.fields_follow pass) (Entry.compared_follow p pass) x

/-- Marking a group as compared marks nothing else. -/
theorem grouped_compare (hset : memo.fields? id = some set) (pass p : Pass) (x : List FieldId) :
    (memo.update id fun entry => entry.compare pass).Grouped p x ↔
      memo.Grouped p x ∨ p = pass ∧ x = set := by
  apply (marked_update (Entry.fields_compare pass) (Entry.compared_compare p pass) x).trans
  rw [decide_eq_true_eq, hset, Option.some.injEq, eq_comm (a := set)]
  rfl

theorem followed_compare (memo : Memo) (id : SetId) (pass p : Pass) (x : List FieldId) :
    (memo.update id fun entry => entry.compare pass).Followed p x ↔ memo.Followed p x :=
  marked_update_of_eq (Entry.fields_compare pass) (Entry.followed_compare p pass) x

/-- Marks leave a memo sound. -/
theorem Sound.follow (h : memo.Sound resolved) (id : SetId) (pass : Pass) :
    (memo.update id fun entry => entry.follow pass).Sound resolved := by
  apply h.update (Entry.fields_follow pass)
  intro entry hentry
  have hright := h id entry hentry
  cases pass <;> exact ⟨hright.keyGroups, hright.parentGroups, hright.children⟩

theorem Sound.compare (h : memo.Sound resolved) (id : SetId) (pass : Pass) :
    (memo.update id fun entry => entry.compare pass).Sound resolved := by
  apply h.update (Entry.fields_compare pass)
  intro entry hentry
  have hright := h id entry hentry
  cases pass <;> exact ⟨hright.keyGroups, hright.parentGroups, hright.children⟩

end Marks

end Memo

end SelectionMerge
