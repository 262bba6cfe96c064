import SelectionMerge.Proofs.Check.Cache

/-!
# What every step keeps

A property of memos that the small steps of a check keep is kept by the large ones: by a step and
what follows it, by a loop, by an answer that is kept in an entry, and so by a whole pass
(`preserves_follow`). Only what the small steps do has to be looked at for each property.
-/

namespace SelectionMerge
set_option autoImplicit false

namespace Check

/-- The property is kept by the step when it returns. -/
def Preserves {α : Type} (keeps : Memo → Prop) (step : Check α) : Prop :=
  ∀ memo a after, keeps memo → Returns step memo a after → keeps after

variable {α β γ : Type} {keeps : Memo → Prop}

theorem preserves_pure (a : α) : Preserves keeps (pure a) := by
  intro memo result after hmemo h
  obtain ⟨-, rfl⟩ := returns_pure.1 h
  exact hmemo

theorem preserves_throw (defect : Defect) : Preserves keeps (throw defect : Check α) :=
  fun _ _ _ _ h => absurd h not_returns_throw

theorem preserves_get : Preserves keeps (get : Check Memo) := by
  intro memo result after hmemo h
  obtain ⟨-, rfl⟩ := returns_get.1 h
  exact hmemo

theorem preserves_entry (id : SetId) : Preserves keeps (entry id) := by
  intro memo result after hmemo h
  obtain ⟨-, rfl⟩ := returns_entry.1 h
  exact hmemo

theorem preserves_modify {change : Memo → Memo} (h : ∀ memo, keeps memo → keeps (change memo)) :
    Preserves keeps (modify change : Check PUnit) := by
  intro memo _ after hmemo hreturns
  obtain rfl := returns_modify.1 hreturns
  exact h memo hmemo

theorem Preserves.bind {step : Check α} {next : α → Check β} (h : Preserves keeps step)
    (hnext : ∀ a, Preserves keeps (next a)) : Preserves keeps (step >>= next) := by
  intro memo result after hmemo hreturns
  obtain ⟨a, middle, hfirst, hrest⟩ := returns_bind.1 hreturns
  exact hnext a middle result after (h memo a middle hmemo hfirst) hrest

theorem Preserves.forM {step : γ → Check PUnit} (h : ∀ c, Preserves keeps (step c)) (items : List γ) :
    Preserves keeps (items.forM step) := by
  induction items with
  | nil => exact preserves_pure ()
  | cons c items ih => exact (h c).bind fun _ => ih

theorem Preserves.mapM {step : γ → Check α} (h : ∀ c, Preserves keeps (step c)) (items : List γ) :
    Preserves keeps (items.mapM step) := by
  induction items with
  | nil =>
    rw [List.mapM_nil]
    exact preserves_pure []
  | cons c items ih =>
    rw [List.mapM_cons]
    exact (h c).bind fun a => ih.bind fun rest => preserves_pure _

section Questions

variable {resolved : ResolvedGraph}

/-- A look-up counts a hit, or it adds an entry. -/
theorem preserves_lookup {set : List FieldId}
    (hhit : ∀ memo : Memo, keeps memo → keeps { memo with hits := memo.hits + 1 })
    (hmiss : ∀ memo : Memo, memo.find? set = none → keeps memo → keeps { memo with
      entries := memo.entries.push (Entry.fresh set), misses := memo.misses + 1 }) :
    Preserves keeps (lookup set) := by
  intro memo id after hmemo h
  unfold Returns at h
  rw [runOn_lookup] at h
  cases hfind : memo.find? set with
  | some found =>
    rw [hfind] at h
    obtain ⟨-, rfl⟩ := Prod.mk.inj h
    exact hhit memo hmemo
  | none =>
    rw [hfind] at h
    obtain ⟨-, rfl⟩ := Prod.mk.inj h
    exact hmiss memo hfind hmemo

theorem preserves_cached {kept? : Entry → Option β} {keep : β → Entry → Entry}
    {make : List FieldId → Check β} (hkeep : ∀ id answer, Preserves keeps (update id (keep answer)))
    (hmake : ∀ set, Preserves keeps (make set)) (id : SetId) :
    Preserves keeps (cached kept? keep make id) := by
  unfold cached
  refine (preserves_entry id).bind fun entry => ?_
  cases kept? entry with
  | some answer => exact preserves_pure answer
  | none =>
    refine (hmake entry.fields).bind fun answer => ?_
    exact (hkeep id answer).bind fun _ => preserves_pure answer

/-- The property is kept by a look-up and by a change of an entry that leaves alone what the entry
stands for and what was done with it. -/
structure AskingPreserves (keeps : Memo → Prop) : Prop where
  lookup : ∀ set, Preserves keeps (lookup set)
  update : ∀ id change, (∀ entry : Entry, (change entry).fields = entry.fields) →
    (∀ pass entry, (change entry).followed pass = entry.followed pass) →
    (∀ pass entry, (change entry).compared pass = entry.compared pass) →
    Preserves keeps (update id change)

namespace AskingPreserves

theorem keyGroups (h : AskingPreserves keeps) (id : SetId) : Preserves keeps (keyGroups resolved id) := by
  rw [keyGroups_eq]
  refine preserves_cached (fun id ids => h.update id _ ?_ ?_ ?_) (fun _ => Preserves.mapM h.lookup _) id
  · exact fun _ => rfl
  · exact fun pass _ => by cases pass <;> rfl
  · exact fun pass _ => by cases pass <;> rfl

theorem parts (h : AskingPreserves keeps) (pass : Pass) (id : SetId) :
    Preserves keeps (parts resolved pass id) := by
  cases pass with
  | shapes => exact preserves_pure [id]
  | calls =>
    change Preserves keeps (parentGroups resolved id)
    rw [parentGroups_eq]
    refine preserves_cached (fun id ids => h.update id _ ?_ ?_ ?_) (fun _ => Preserves.mapM h.lookup _) id
    · exact fun _ => rfl
    · exact fun pass _ => by cases pass <;> rfl
    · exact fun pass _ => by cases pass <;> rfl

theorem children (h : AskingPreserves keeps) (id : SetId) : Preserves keeps (children resolved id) := by
  rw [children_eq]
  refine preserves_cached (fun id child => h.update id _ ?_ ?_ ?_) (fun _ => h.lookup _) id
  · exact fun _ => rfl
  · exact fun pass _ => by cases pass <;> rfl
  · exact fun pass _ => by cases pass <;> rfl

end AskingPreserves

/-- A pass keeps what is kept by asking the memo, by marking a set and by comparing a group. -/
theorem preserves_follow {pass : Pass} (hask : AskingPreserves keeps)
    (hmark : ∀ id, Preserves keeps (update id fun entry => entry.follow pass))
    (hcompare : ∀ id, Preserves keeps (compareGroup resolved pass id)) (depth : Nat) (id : SetId) :
    Preserves keeps (follow resolved pass depth id) := by
  induction depth generalizing id with
  | zero => exact preserves_throw _
  | succ depth ih =>
    unfold follow
    refine (preserves_entry id).bind fun entry => ?_
    split
    · exact preserves_pure ()
    refine (hmark id).bind fun _ => (hask.keyGroups id).bind fun ids => Preserves.forM (fun fields => ?_) ids
    refine (hask.parts pass fields).bind fun groups => Preserves.forM (fun group => ?_) groups
    exact (hcompare group).bind fun _ => (hask.children group).bind ih

end Questions

end Check

end SelectionMerge
