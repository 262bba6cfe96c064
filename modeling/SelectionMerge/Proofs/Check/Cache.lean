import SelectionMerge.Proofs.Check.Memory

/-!
# Answers that are kept

A check asks which groups a set splits into and which set its sub-selections make up, and keeps
each answer in the entry of the set. The three questions are asked in one way (`Check.cached`):
an answer that was kept is given again, any other is made and kept. On a sound memo either way
gives the same sets.
-/

namespace SelectionMerge
set_option autoImplicit false

namespace Check

variable {resolved : ResolvedGraph} {memo after : Memo}

/-- A set that is looked up has the number that comes back. -/
theorem lookup_returns {set : List FieldId} {id : SetId} (hsound : memo.Sound resolved)
    (h : Returns (lookup set) memo id after) :
    after.Sound resolved ∧ memo.Widens after ∧ after.fields? id = some set := by
  unfold Returns at h
  rw [runOn_lookup] at h
  cases hfind : memo.find? set with
  | some found =>
    rw [hfind] at h
    obtain ⟨hid, rfl⟩ := Prod.mk.inj h
    obtain rfl := Except.ok.inj hid
    refine ⟨hsound.congr rfl, ⟨fun h => h, fun _ _ => .rfl, fun _ _ => .rfl, rfl, rfl⟩, ?_⟩
    obtain ⟨hlt, hfields, -⟩ := Array.findIdx?_eq_some_iff_getElem.1 hfind
    apply Memo.fields?_eq_some.2
    exact ⟨memo.entries[found], Array.getElem?_eq_getElem hlt, by simpa using hfields⟩
  | none =>
    rw [hfind] at h
    obtain ⟨hid, rfl⟩ := Prod.mk.inj h
    obtain rfl := Except.ok.inj hid
    generalize hafter : ({ memo with
      entries := memo.entries.push (Entry.fresh set), misses := memo.misses + 1 } : Memo) = after
    have hget : ∀ j : SetId, after.entries[j]? =
        if j = memo.entries.size then some (Entry.fresh set) else memo.entries[j]? := by
      intro j
      rw [← hafter]
      exact Array.getElem?_push
    have hkept : ∀ {j : SetId} {entry : Entry}, memo.entries[j]? = some entry →
        after.entries[j]? = some entry := by
      intro j entry hentry
      have hlt : j < memo.entries.size := (Array.getElem?_eq_some_iff.1 hentry).1
      rw [hget, if_neg (Nat.ne_of_lt hlt)]
      exact hentry
    have hfields : ∀ {j : SetId} {set : List FieldId}, memo.fields? j = some set →
        after.fields? j = some set := by
      intro j set hset
      obtain ⟨entry, hentry, hset⟩ := Memo.fields?_eq_some.1 hset
      exact Memo.fields?_eq_some.2 ⟨entry, hkept hentry, hset⟩
    -- The new entry has no flag, so the flags are those of the entries before it.
    have hmarked : ∀ {flag : Entry → Bool}, flag (Entry.fresh set) = false → ∀ x,
        after.Marked flag x ↔ memo.Marked flag x := by
      intro flag hfresh x
      constructor
      · rintro ⟨j, entry, hentry, hx, hmark⟩
        rw [hget] at hentry
        split at hentry
        · obtain rfl := Option.some.inj hentry
          rw [hfresh] at hmark
          cases hmark
        · exact ⟨j, entry, hentry, hx, hmark⟩
      · rintro ⟨j, entry, hentry, hx, hmark⟩
        exact ⟨j, entry, hkept hentry, hx, hmark⟩
    refine ⟨?_, ⟨hfields, fun pass => hmarked ?_, fun pass => hmarked ?_, ?_, ?_⟩, ?_⟩
    · intro j entry hentry
      rw [hget] at hentry
      split at hentry
      · obtain rfl := Option.some.inj hentry
        refine ⟨?_, ?_, ?_⟩ <;> intro _ hkeeps <;> cases hkeeps
      · exact (hsound j entry hentry).mono hfields
    · cases pass <;> rfl
    · cases pass <;> rfl
    · rw [← hafter]
    · rw [← hafter]
    · apply Memo.fields?_eq_some.2
      exact ⟨Entry.fresh set, (hget _).trans (if_pos rfl), rfl⟩

/-- Sets that are looked up one after the other have the numbers that come back. -/
theorem lookups_returns {sets : List (List FieldId)} {ids : List SetId} (hsound : memo.Sound resolved)
    (h : Returns (sets.mapM lookup) memo ids after) :
    after.Sound resolved ∧ memo.Widens after ∧ after.Numbers sets ids := by
  apply mapM_returns (fun memo => memo.Sound resolved) Memo.Widens
    (fun memo set id => memo.fields? id = some set) Memo.Widens.refl Memo.Widens.trans
    (fun hset hwidens => hwidens.fields hset) ?_ hsound h
  intro set start finish id hstart hlookup
  exact lookup_returns hstart hlookup

/-- An answer for a set: the one that its entry keeps, or one that is made and kept. -/
def cached {β : Type} (kept? : Entry → Option β) (keep : β → Entry → Entry)
    (make : List FieldId → Check β) (id : SetId) : Check β := do
  let entry ← entry id
  match kept? entry with
  | some answer => return answer
  | none =>
    let answer ← make entry.fields
    update id (keep answer)
    return answer

theorem keyGroups_eq (resolved : ResolvedGraph) : keyGroups resolved =
    cached Entry.keyGroups? (fun ids entry => { entry with keyGroups? := some ids })
      fun set => (resolved.keyGroups set).mapM lookup := by
  funext id
  refine congrArg _ (funext fun entry => ?_)
  cases entry.keyGroups? <;> rfl

theorem parentGroups_eq (resolved : ResolvedGraph) : parentGroups resolved =
    cached Entry.parentGroups? (fun ids entry => { entry with parentGroups? := some ids })
      fun set => (resolved.parentGroups set).mapM lookup := by
  funext id
  refine congrArg _ (funext fun entry => ?_)
  cases entry.parentGroups? <;> rfl

theorem children_eq (resolved : ResolvedGraph) : children resolved =
    cached Entry.children? (fun child entry => { entry with children? := some child })
      fun set => lookup (resolved.children set) := by
  funext id
  refine congrArg _ (funext fun entry => ?_)
  cases entry.children? <;> rfl

/-- What is kept in an entry besides what was done with its set. -/
structure Keeps {β : Type} (resolved : ResolvedGraph) (kept? : Entry → Option β)
    (keep : β → Entry → Entry) (fits : Memo → List FieldId → β → Prop) : Prop where
  fields : ∀ answer entry, (keep answer entry).fields = entry.fields
  followed : ∀ answer entry pass, (keep answer entry).followed pass = entry.followed pass
  compared : ∀ answer entry pass, (keep answer entry).compared pass = entry.compared pass
  kept : ∀ {memo entry answer}, Memo.Right memo resolved entry → kept? entry = some answer →
    fits memo entry.fields answer
  right : ∀ {memo entry answer}, Memo.Right memo resolved entry → fits memo entry.fields answer →
    Memo.Right memo resolved (keep answer entry)
  mono : ∀ {memo after set answer}, fits memo set answer → Memo.Widens memo after →
    fits after set answer

/-- Keeping an answer that fits leaves a memo sound. -/
theorem Keeps.update {β : Type} {kept? : Entry → Option β} {keep : β → Entry → Entry}
    {fits : Memo → List FieldId → β → Prop} (hkeeps : Keeps resolved kept? keep fits)
    {set : List FieldId} {id : SetId} {answer : β} (hsound : memo.Sound resolved)
    (hset : memo.fields? id = some set) (hfits : fits memo set answer) :
    (memo.update id (keep answer)).Sound resolved ∧ memo.Widens (memo.update id (keep answer)) := by
  refine ⟨hsound.update (hkeeps.fields answer) fun entry hentry => ?_, ?_⟩
  · obtain ⟨_, hentry', rfl⟩ := Memo.fields?_eq_some.1 hset
    obtain rfl := Option.some.inj (hentry.symm.trans hentry')
    exact hkeeps.right (hsound id entry hentry) hfits
  · refine ⟨fun {j x} hx => ?_, fun pass x => ?_, fun pass x => ?_, rfl, rfl⟩
    · exact (Memo.fields?_update (hkeeps.fields answer) j).trans hx
    · exact Memo.marked_update_of_eq (hkeeps.fields answer) (fun entry => hkeeps.followed answer entry pass) x
    · exact Memo.marked_update_of_eq (hkeeps.fields answer) (fun entry => hkeeps.compared answer entry pass) x

/-- The answer fits, whether it was kept or is made. -/
theorem cached_returns {β : Type} {kept? : Entry → Option β} {keep : β → Entry → Entry}
    {make : List FieldId → Check β} {fits : Memo → List FieldId → β → Prop}
    (hkeeps : Keeps resolved kept? keep fits)
    (hmake : ∀ {start set answer finish}, Memo.Sound start resolved →
      Returns (make set) start answer finish →
      finish.Sound resolved ∧ start.Widens finish ∧ fits finish set answer)
    {id : SetId} {set : List FieldId} {answer : β} (hsound : memo.Sound resolved)
    (hset : memo.fields? id = some set) (h : Returns (cached kept? keep make id) memo answer after) :
    after.Sound resolved ∧ memo.Widens after ∧ fits after set answer := by
  obtain ⟨entry, hentry, rfl⟩ := Memo.fields?_eq_some.1 hset
  unfold cached at h
  obtain ⟨read, _, hread, h⟩ := returns_bind.1 h
  obtain ⟨heq, rfl⟩ := returns_entry.1 hread
  obtain rfl : entry = read := (Memo.entry_eq hentry).symm.trans heq
  cases hkept : kept? entry with
  | some kept =>
    simp only [hkept] at h
    obtain ⟨rfl, rfl⟩ := returns_pure.1 h
    exact ⟨hsound, .refl memo, hkeeps.kept (hsound id entry hentry) hkept⟩
  | none =>
    simp only [hkept] at h
    obtain ⟨made, middle, hmade, h⟩ := returns_bind.1 h
    obtain ⟨⟨⟩, _, hupdate, h⟩ := returns_bind.1 h
    obtain ⟨rfl, rfl⟩ := returns_pure.1 h
    obtain rfl := returns_modify.1 hupdate
    obtain ⟨hmiddle, hwidens, hfits⟩ := hmake hsound hmade
    obtain ⟨hsound', hwidens'⟩ := hkeeps.update hmiddle (hwidens.fields hset) hfits
    exact ⟨hsound', hwidens.trans hwidens', hkeeps.mono hfits hwidens'⟩

section Questions

variable {id : SetId} {set : List FieldId}

/-- An entry keeps the groups of one response key. -/
theorem keeps_keyGroups (resolved : ResolvedGraph) :
    Keeps resolved Entry.keyGroups? (fun ids entry => { entry with keyGroups? := some ids })
      fun memo set ids => memo.Numbers (resolved.keyGroups set) ids where
  fields _ _ := rfl
  followed _ _ pass := by cases pass <;> rfl
  compared _ _ pass := by cases pass <;> rfl
  kept hright := hright.keyGroups _
  right hright hfits :=
    ⟨fun ids hids => Option.some.inj hids ▸ hfits, hright.parentGroups, hright.children⟩
  mono hfits hwidens := hfits.mono hwidens.fields

/-- An entry keeps the groups of fields that can stand in one object. -/
theorem keeps_parentGroups (resolved : ResolvedGraph) :
    Keeps resolved Entry.parentGroups? (fun ids entry => { entry with parentGroups? := some ids })
      fun memo set ids => memo.Numbers (resolved.parentGroups set) ids where
  fields _ _ := rfl
  followed _ _ pass := by cases pass <;> rfl
  compared _ _ pass := by cases pass <;> rfl
  kept hright := hright.parentGroups _
  right hright hfits :=
    ⟨hright.keyGroups, fun ids hids => Option.some.inj hids ▸ hfits, hright.children⟩
  mono hfits hwidens := hfits.mono hwidens.fields

/-- An entry keeps the merged sub-selections of its fields. -/
theorem keeps_children (resolved : ResolvedGraph) :
    Keeps resolved Entry.children? (fun child entry => { entry with children? := some child })
      fun memo set child => memo.fields? child = some (resolved.children set) where
  fields _ _ := rfl
  followed _ _ pass := by cases pass <;> rfl
  compared _ _ pass := by cases pass <;> rfl
  kept hright := hright.children _
  right hright hfits :=
    ⟨hright.keyGroups, hright.parentGroups, fun child hchild => Option.some.inj hchild ▸ hfits⟩
  mono hfits hwidens := hwidens.fields hfits

/-- A set is split into its groups of one response key. -/
theorem keyGroups_returns {ids : List SetId} (hsound : memo.Sound resolved)
    (hset : memo.fields? id = some set) (h : Returns (keyGroups resolved id) memo ids after) :
    after.Sound resolved ∧ memo.Widens after ∧ after.Numbers (resolved.keyGroups set) ids := by
  rw [keyGroups_eq] at h
  exact cached_returns (keeps_keyGroups resolved) lookups_returns hsound hset h

/-- A set is split into its groups of fields that can stand in one object. -/
theorem parentGroups_returns {ids : List SetId} (hsound : memo.Sound resolved)
    (hset : memo.fields? id = some set) (h : Returns (parentGroups resolved id) memo ids after) :
    after.Sound resolved ∧ memo.Widens after ∧ after.Numbers (resolved.parentGroups set) ids := by
  rw [parentGroups_eq] at h
  exact cached_returns (keeps_parentGroups resolved) lookups_returns hsound hset h

/-- A set leads to the merged sub-selections of its fields. -/
theorem children_returns {child : SetId} (hsound : memo.Sound resolved)
    (hset : memo.fields? id = some set) (h : Returns (children resolved id) memo child after) :
    after.Sound resolved ∧ memo.Widens after ∧ after.fields? child = some (resolved.children set) := by
  rw [children_eq] at h
  exact cached_returns (keeps_children resolved) lookup_returns hsound hset h

/-- A group of one response key is split into the parts that the pass takes. -/
theorem parts_returns {pass : Pass} {ids : List SetId} (hsound : memo.Sound resolved)
    (hset : memo.fields? id = some set) (h : Returns (parts resolved pass id) memo ids after) :
    after.Sound resolved ∧ memo.Widens after ∧ after.Numbers (resolved.parts pass set) ids := by
  cases pass with
  | shapes =>
    obtain ⟨rfl, rfl⟩ := returns_pure.1 h
    exact ⟨hsound, .refl memo, .cons hset .nil⟩
  | calls => exact parentGroups_returns hsound hset h

end Questions

end Check

end SelectionMerge
