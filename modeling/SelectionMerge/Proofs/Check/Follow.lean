import SelectionMerge.Proofs.Check.Compare

/-!
# What a pass comes to

A pass marks a set before it follows its groups, so on the way back to a set that it comes from
nothing is done. `Memo.Advances` says what is true all the same whenever a call of the pass
returns: every set that was marked meanwhile is finished, that is, all its groups are compared
and their merged sub-selections marked. Sets marked before the call are left to the callers.
Marks are set on nothing but the sets that the pass comes to, and so the pass from a set comes
to all of them and to no others (`follow_returns`).
-/

namespace SelectionMerge
set_option autoImplicit false

namespace Memo

/-- The groups of a set are compared, and the pass goes on from their sub-selections. -/
def Finished (memo : Memo) (resolved : ResolvedGraph) (pass : Pass) (set : List FieldId) : Prop :=
  ∀ group ∈ resolved.groups pass set,
    memo.Grouped pass group ∧ memo.Followed pass (resolved.children group)

/-- What a pass adds to a memo while it only comes to sets in `scope`. -/
structure Advances (resolved : ResolvedGraph) (pass : Pass) (scope : List FieldId → Prop)
    (memo after : Memo) : Prop where
  fields : ∀ {id set}, memo.fields? id = some set → after.fields? id = some set
  followed : ∀ {set}, memo.Followed pass set → after.Followed pass set
  grouped : ∀ {group}, memo.Grouped pass group → after.Grouped pass group
  finished : ∀ {set}, after.Followed pass set →
    memo.Followed pass set ∨ after.Finished resolved pass set
  followed_scope : ∀ {set}, after.Followed pass set → memo.Followed pass set ∨ scope set
  grouped_scope : ∀ {group}, after.Grouped pass group →
    memo.Grouped pass group ∨ ∃ set, scope set ∧ group ∈ resolved.groups pass set
  followed_other : ∀ {p}, p ≠ pass → ∀ set, after.Followed p set ↔ memo.Followed p set
  grouped_other : ∀ {p}, p ≠ pass → ∀ group, after.Grouped p group ↔ memo.Grouped p group

variable {resolved : ResolvedGraph} {pass : Pass} {scope : List FieldId → Prop}
variable {memo middle after : Memo} {found : List Finding}

theorem Finished.mono {set : List FieldId} (h : memo.Finished resolved pass set)
    (hadvances : memo.Advances resolved pass scope after) : after.Finished resolved pass set := by
  intro group hgroup
  obtain ⟨hgrouped, hfollowed⟩ := h group hgroup
  exact ⟨hadvances.grouped hgrouped, hadvances.followed hfollowed⟩

namespace Advances

theorem refl (resolved : ResolvedGraph) (pass : Pass) (scope : List FieldId → Prop) (memo : Memo) :
    memo.Advances resolved pass scope memo :=
  ⟨id, id, id, .inl, .inl, .inl, fun _ _ => .rfl, fun _ _ => .rfl⟩

theorem trans (h : memo.Advances resolved pass scope middle)
    (h' : middle.Advances resolved pass scope after) : memo.Advances resolved pass scope after where
  fields hset := h'.fields (h.fields hset)
  followed hset := h'.followed (h.followed hset)
  grouped hgroup := h'.grouped (h.grouped hgroup)
  finished hset := by
    obtain hset | hfinished := h'.finished hset
    · exact (h.finished hset).imp_right fun hfinished => hfinished.mono h'
    · exact .inr hfinished
  followed_scope hset := by
    obtain hset | hscope := h'.followed_scope hset
    · exact h.followed_scope hset
    · exact .inr hscope
  grouped_scope hgroup := by
    obtain hgroup | hscope := h'.grouped_scope hgroup
    · exact h.grouped_scope hgroup
    · exact .inr hscope
  followed_other hp set := (h'.followed_other hp set).trans (h.followed_other hp set)
  grouped_other hp group := (h'.grouped_other hp group).trans (h.grouped_other hp group)

/-- A pass in a smaller scope is one in a larger scope. -/
theorem mono {wider : List FieldId → Prop} (h : memo.Advances resolved pass scope after)
    (hscope : ∀ set, scope set → wider set) : memo.Advances resolved pass wider after where
  fields := h.fields
  followed := h.followed
  grouped := h.grouped
  finished := h.finished
  followed_scope hset := (h.followed_scope hset).imp_right (hscope _)
  grouped_scope hgroup := by
    apply (h.grouped_scope hgroup).imp_right
    rintro ⟨set, hset, hmem⟩
    exact ⟨set, hscope set hset, hmem⟩
  followed_other := h.followed_other
  grouped_other := h.grouped_other

end Advances

/-- Asking a memo does nothing with its sets. -/
theorem Widens.advances (h : memo.Widens after) (resolved : ResolvedGraph) (pass : Pass)
    (scope : List FieldId → Prop) : memo.Advances resolved pass scope after where
  fields := h.fields
  followed hset := (h.followed _ _).2 hset
  grouped hgroup := (h.grouped _ _).2 hgroup
  finished hset := .inl ((h.followed _ _).1 hset)
  followed_scope hset := .inl ((h.followed _ _).1 hset)
  grouped_scope hgroup := .inl ((h.grouped _ _).1 hgroup)
  followed_other _ set := h.followed _ set
  grouped_other _ group := h.grouped _ group

/-- Asking a memo keeps it exact. -/
theorem Exact.widens (h : memo.Exact resolved found) (hwidens : memo.Widens after)
    (hsound : after.Sound resolved) : after.Exact resolved found where
  sound := hsound
  compared_iff a b := by
    rw [compared_congr hwidens.partners, h.compared_iff a b]
    simp only [hwidens.grouped]
  finds a b reason := by
    rw [compared_congr hwidens.partners, hwidens.findings]
    exact h.finds a b reason

/-- Marking a set as followed keeps a memo exact. -/
theorem Exact.follow (h : memo.Exact resolved found) (id : SetId) :
    (memo.update id fun entry => entry.follow pass).Exact resolved found := by
  refine ⟨h.sound.follow id pass, fun a b => ?_, h.finds⟩
  simp only [grouped_follow]
  exact h.compared_iff a b

/-- What is added after a set is marked is an advance once that set is finished. -/
theorem Advances.of_follow {id : SetId} {set : List FieldId} (hset : memo.fields? id = some set)
    (h : (memo.update id fun entry => entry.follow pass).Advances resolved pass scope after)
    (hscope : scope set) (hfinished : after.Finished resolved pass set) :
    memo.Advances resolved pass scope after := by
  have hfollowed := followed_follow hset pass
  have hgrouped := grouped_follow memo id pass
  constructor
  case fields =>
    intro j x hx
    exact h.fields ((fields?_update (Entry.fields_follow pass) _).trans hx)
  case followed =>
    intro x hx
    exact h.followed ((hfollowed _ _).2 (.inl hx))
  case grouped =>
    intro x hx
    exact h.grouped ((hgrouped _ _).2 hx)
  case finished =>
    intro x hx
    obtain hx | hx := h.finished hx
    · apply ((hfollowed _ _).1 hx).imp_right
      rintro ⟨-, rfl⟩
      exact hfinished
    · exact .inr hx
  case followed_scope =>
    intro x hx
    obtain hx | hx := h.followed_scope hx
    · apply ((hfollowed _ _).1 hx).imp_right
      rintro ⟨-, rfl⟩
      exact hscope
    · exact .inr hx
  case grouped_scope =>
    intro x hx
    exact (h.grouped_scope hx).imp_left (hgrouped _ _).1
  case followed_other =>
    intro p hp x
    apply (h.followed_other hp x).trans
    apply (hfollowed _ _).trans
    exact or_iff_left fun heq => hp heq.1
  case grouped_other =>
    intro p hp x
    exact (h.grouped_other hp x).trans (hgrouped _ _)

end Memo

namespace Check

variable {resolved : ResolvedGraph} {pass : Pass} {memo after : Memo} {found : List Finding}

/-- What the pass does from a set in `depth` turns, if it returns. -/
def Follows (resolved : ResolvedGraph) (found : List Finding) (pass : Pass) (depth : Nat) : Prop :=
  ∀ {id : SetId} {set : List FieldId} {memo after : Memo}, memo.Exact resolved found →
    memo.fields? id = some set → Returns (follow resolved pass depth id) memo () after →
    after.Exact resolved found ∧ memo.Advances resolved pass (resolved.Reached pass set) after ∧
      after.Followed pass set

/-- A group of a set is compared, and its sub-selections are followed. -/
theorem followGroup_returns {depth : Nat} (hfollows : Follows resolved found pass depth) {id : SetId}
    {set group : List FieldId} (hmem : group ∈ resolved.groups pass set)
    (hexact : memo.Exact resolved found) (hgroup : memo.fields? id = some group)
    (h : Returns (do
      compareGroup resolved pass id
      follow resolved pass depth (← children resolved id)) memo () after) :
    after.Exact resolved found ∧ memo.Advances resolved pass (resolved.Reached pass set) after ∧
      after.Grouped pass group ∧ after.Followed pass (resolved.children group) := by
  obtain ⟨⟨⟩, compared, hcompare, h⟩ := returns_bind.1 h
  obtain ⟨child, asked, hchild, h⟩ := returns_bind.1 h
  obtain ⟨hexact', hfields, hfollowed, hgrouped⟩ := compareGroup_returns hexact hgroup hcompare
  obtain ⟨hsound, hwidens, hchild⟩ := children_returns hexact'.sound (hfields hgroup) hchild
  obtain ⟨hlast, hadvances, hdone⟩ := hfollows (hexact'.widens hwidens hsound) hchild h
  have hcompared : memo.Advances resolved pass (resolved.Reached pass set) compared :=
    { fields := hfields
      followed := fun hset => (hfollowed _ _).2 hset
      grouped := fun hset => (hgrouped _ _).2 (.inl hset)
      finished := fun hset => .inl ((hfollowed _ _).1 hset)
      followed_scope := fun hset => .inl ((hfollowed _ _).1 hset)
      grouped_scope := fun hset => by
        apply ((hgrouped _ _).1 hset).imp_right
        rintro ⟨-, rfl⟩
        exact ⟨set, .start, hmem⟩
      followed_other := fun _ set => hfollowed _ set
      grouped_other := fun hp group => (hgrouped _ group).trans (or_iff_left fun h => hp h.1) }
  have hasked := hwidens.advances resolved pass (resolved.Reached pass set)
  have hbelow : asked.Advances resolved pass (resolved.Reached pass set) after := by
    apply hadvances.mono
    intro below hbelow
    exact (ResolvedGraph.Reached.children .start hmem).trans hbelow
  refine ⟨hlast, (hcompared.trans hasked).trans hbelow, ?_, hdone⟩
  apply hbelow.grouped
  apply hasked.grouped
  exact (hgrouped pass group).2 (.inr ⟨rfl, rfl⟩)

/-- The parts that the pass takes of one response key are compared and followed. -/
theorem followParts_returns {depth : Nat} (hfollows : Follows resolved found pass depth) {id : SetId}
    {set fields : List FieldId} (hmem : fields ∈ resolved.keyGroups set)
    (hexact : memo.Exact resolved found) (hfields : memo.fields? id = some fields)
    (h : Returns (do
      (← parts resolved pass id).forM fun group => do
        compareGroup resolved pass group
        follow resolved pass depth (← children resolved group)) memo () after) :
    after.Exact resolved found ∧ memo.Advances resolved pass (resolved.Reached pass set) after ∧
      ∀ group ∈ resolved.parts pass fields,
        after.Grouped pass group ∧ after.Followed pass (resolved.children group) := by
  obtain ⟨ids, asked, hparts, h⟩ := returns_bind.1 h
  obtain ⟨hsound, hwidens, hnumbers⟩ := parts_returns hexact.sound hfields hparts
  obtain ⟨hlast, hadvances, hdone⟩ := forM_returns (fun memo => memo.Exact resolved found)
    (fun memo after => memo.Advances resolved pass (resolved.Reached pass set) after)
    (fun id memo => ∀ group, asked.fields? id = some group →
      memo.Grouped pass group ∧ memo.Followed pass (resolved.children group))
    (Memo.Advances.refl _ _ _) Memo.Advances.trans
    (fun hdone hmore group hgroup => ⟨hmore.grouped (hdone group hgroup).1,
      hmore.followed (hdone group hgroup).2⟩)
    (fun id hid start finish hfrom hstart hturn => by
      obtain ⟨group, hgroup, hid⟩ := hnumbers.exists_set hid
      have hmem' : group ∈ resolved.groups pass set :=
        ResolvedGraph.mem_groups.2 ⟨fields, hmem, hgroup⟩
      obtain ⟨hexact', hmore, hdone⟩ :=
        followGroup_returns hfollows hmem' hstart (hfrom.fields hid) hturn
      refine ⟨hexact', hmore, fun group' hgroup' => ?_⟩
      obtain rfl := Option.some.inj (hid.symm.trans hgroup')
      exact hdone)
    (hexact.widens hwidens hsound) h
  refine ⟨hlast, (hwidens.advances _ _ _).trans hadvances, fun group hgroup => ?_⟩
  obtain ⟨id, hid, hset⟩ := hnumbers.exists_id hgroup
  exact hdone id hid group hset

/-- The pass from a set comes to all sets that it leads to, and finishes every one of them that
was not marked before. -/
theorem follow_returns (resolved : ResolvedGraph) (found : List Finding) (pass : Pass) (depth : Nat) :
    Follows resolved found pass depth := by
  induction depth with
  | zero =>
    intro id set memo after _ _ h
    exact absurd h not_returns_throw
  | succ depth ih =>
    intro id set memo after hexact hset h
    obtain ⟨entry, hentry, rfl⟩ := Memo.fields?_eq_some.1 hset
    unfold follow at h
    obtain ⟨read, _, hread, h⟩ := returns_bind.1 h
    obtain ⟨heq, rfl⟩ := returns_entry.1 hread
    obtain rfl : entry = read := (Memo.entry_eq hentry).symm.trans heq
    split at h
    next hdone =>
      obtain ⟨-, rfl⟩ := returns_pure.1 h
      exact ⟨hexact, .refl _ _ _ _, ⟨id, entry, hentry, rfl, hdone⟩⟩
    next hnew =>
      obtain ⟨⟨⟩, _, hupdate, h⟩ := returns_bind.1 h
      obtain rfl := returns_modify.1 hupdate
      obtain ⟨ids, asked, hasked, h⟩ := returns_bind.1 h
      have hexact' : (memo.update id fun entry => entry.follow pass).Exact resolved found :=
        hexact.follow id
      have hset' : (memo.update id fun entry => entry.follow pass).fields? id = some entry.fields :=
        (Memo.fields?_update (Entry.fields_follow pass) id).trans hset
      obtain ⟨hsound, hwidens, hnumbers⟩ := keyGroups_returns hexact'.sound hset' hasked
      obtain ⟨hlast, hadvances, hdone⟩ := forM_returns (fun memo => memo.Exact resolved found)
        (fun memo after => memo.Advances resolved pass (resolved.Reached pass entry.fields) after)
        (fun id memo => ∀ fields, asked.fields? id = some fields → ∀ group ∈ resolved.parts pass fields,
          memo.Grouped pass group ∧ memo.Followed pass (resolved.children group))
        (Memo.Advances.refl _ _ _) Memo.Advances.trans
        (fun hdone hmore fields hfields group hgroup =>
          ⟨hmore.grouped (hdone fields hfields group hgroup).1,
            hmore.followed (hdone fields hfields group hgroup).2⟩)
        (fun id hid start finish hfrom hstart hturn => by
          obtain ⟨fields, hmem, hid⟩ := hnumbers.exists_set hid
          obtain ⟨hexact'', hmore, hdone⟩ :=
            followParts_returns ih hmem hstart (hfrom.fields hid) hturn
          refine ⟨hexact'', hmore, fun fields' hfields' => ?_⟩
          obtain rfl := Option.some.inj (hid.symm.trans hfields')
          exact hdone)
        (hexact'.widens hwidens hsound) h
      have hlater := (hwidens.advances resolved pass (resolved.Reached pass entry.fields)).trans hadvances
      have hfinished : after.Finished resolved pass entry.fields := by
        intro group hgroup
        obtain ⟨fields, hmem, hgroup⟩ := ResolvedGraph.mem_groups.1 hgroup
        obtain ⟨id', hid', hfields⟩ := hnumbers.exists_id hmem
        exact hdone id' hid' fields hfields group hgroup
      refine ⟨hlast, hlater.of_follow hset .start hfinished, ?_⟩
      apply hlater.followed
      apply (Memo.marked_update (Entry.fields_follow pass) (Entry.followed_follow pass pass) _).2
      exact .inr ⟨decide_eq_true rfl, hset⟩

end Check

end SelectionMerge
