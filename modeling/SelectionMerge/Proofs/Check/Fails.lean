import SelectionMerge.Proofs.Check.Follow

/-!
# Steps that fail

`Check.Fails` says with which defect a step stops on a memo. A step made of others fails where one
of these does (`fails_bind`), and a loop in one of its turns (`exists_fails_of_forM`). Asking a memo and
comparing a pair never fail, and reading a group only fails on the shape of one of its fields
(`exists_shape_of_readGroup_fails`).
-/

namespace SelectionMerge
set_option autoImplicit false

namespace Check

section Fails

variable {α β γ : Type}

/-- A defect stops the step on `memo`. -/
def Fails (step : Check α) (memo : Memo) (defect : Defect) : Prop :=
  (runOn step memo).1 = .error defect

/-- No defect stops the step on any memo. -/
def Total (step : Check α) : Prop :=
  ∀ memo defect, ¬ Fails step memo defect

variable {memo : Memo} {defect : Defect}

theorem fails_throw {thrown : Defect} : Fails (throw thrown : Check α) memo defect ↔ thrown = defect := by
  unfold Fails
  rw [runOn_throw, Except.error.injEq]

/-- A step and what follows it fail where the step does, or what follows it once it returns. -/
theorem fails_bind {step : Check α} {next : α → Check β} :
    Fails (step >>= next) memo defect ↔
      Fails step memo defect ∨ ∃ a middle, Returns step memo a middle ∧ Fails (next a) middle defect := by
  unfold Fails Returns
  rw [runOn_bind]
  rcases runOn step memo with ⟨found | a, middle⟩
  · simp
  · simp

/-- What follows a total step fails. -/
theorem Total.fails_bind {step : Check α} {next : α → Check β} (h : Total step)
    (hfails : Fails (step >>= next) memo defect) :
    ∃ a middle, Returns step memo a middle ∧ Fails (next a) middle defect :=
  (Check.fails_bind.1 hfails).resolve_left (h memo defect)

/-- A step that is never stopped returns. -/
theorem Total.exists_returns {step : Check α} (h : Total step) (memo : Memo) :
    ∃ a after, Returns step memo a after := by
  cases hrun : runOn step memo with
  | mk result after =>
    cases result with
    | ok a => exact ⟨a, after, hrun⟩
    | error defect => exact absurd (congrArg Prod.fst hrun) (h memo defect)

theorem total_pure (a : α) : Total (pure a) := by
  intro memo defect h
  unfold Fails at h
  rw [runOn_pure] at h
  cases h

theorem total_get : Total get := by
  intro memo defect h
  unfold Fails at h
  rw [runOn_get] at h
  cases h

theorem total_set (after : Memo) : Total (set after : Check PUnit) := by
  intro memo defect h
  unfold Fails at h
  rw [runOn_set] at h
  cases h

theorem total_modify (change : Memo → Memo) : Total (modify change : Check PUnit) := by
  intro memo defect h
  unfold Fails at h
  rw [runOn_modify] at h
  cases h

theorem total_entry (id : SetId) : Total (entry id) := by
  intro memo defect h
  unfold Fails at h
  rw [runOn_entry] at h
  cases h

theorem Total.bind {step : Check α} {next : α → Check β} (h : Total step) (hnext : ∀ a, Total (next a)) :
    Total (step >>= next) := by
  intro memo defect hfails
  obtain ⟨a, middle, -, hfails⟩ := h.fails_bind hfails
  exact hnext a middle defect hfails

theorem Total.mapM {step : γ → Check α} (h : ∀ c, Total (step c)) (items : List γ) :
    Total (items.mapM step) := by
  induction items with
  | nil =>
    rw [List.mapM_nil]
    exact total_pure []
  | cons c items ih =>
    rw [List.mapM_cons]
    exact (h c).bind fun a => ih.bind fun rest => total_pure _

/-- A loop that fails does so in the turn of an item, from a memo that has what each turn keeps. -/
theorem exists_fails_of_forM {step : γ → Check PUnit} (keeps : Memo → Prop) {items : List γ}
    (hturn : ∀ c ∈ items, ∀ start finish, keeps start → Returns (step c) start () finish → keeps finish)
    (hmemo : keeps memo) (h : Fails (items.forM step) memo defect) :
    ∃ c ∈ items, ∃ start, keeps start ∧ Fails (step c) start defect := by
  induction items generalizing memo with
  | nil => exact absurd h (total_pure _ memo defect)
  | cons c items ih =>
    obtain hfirst | ⟨⟨⟩, middle, hfirst, hrest⟩ := fails_bind.1 h
    · exact ⟨c, .head _, memo, hmemo, hfirst⟩
    · have hmiddle := hturn c (.head _) memo middle hmemo hfirst
      obtain ⟨c', hc', hfails⟩ := ih (fun c hc => hturn c (.tail _ hc)) hmiddle hrest
      exact ⟨c', .tail _ hc', hfails⟩

theorem Total.forM {step : γ → Check PUnit} (h : ∀ c, Total (step c)) (items : List γ) :
    Total (items.forM step) := by
  intro memo defect hfails
  obtain ⟨c, -, start, -, hfails⟩ :=
    exists_fails_of_forM (fun _ => True) (fun _ _ _ _ _ _ => trivial) trivial hfails
  exact h c start defect hfails

end Fails

variable {resolved : ResolvedGraph} {memo : Memo} {defect : Defect}

theorem total_lookup (fields : List FieldId) : Total (lookup fields) := by
  unfold lookup
  refine total_get.bind fun memo => ?_
  cases memo.find? fields with
  | some id => exact (total_set _).bind fun _ => total_pure id
  | none => exact (total_set _).bind fun _ => total_pure _

theorem total_cached {β : Type} {kept? : Entry → Option β} {keep : β → Entry → Entry}
    {make : List FieldId → Check β} (hmake : ∀ set, Total (make set)) (id : SetId) :
    Total (cached kept? keep make id) := by
  unfold cached
  refine (total_entry id).bind fun entry => ?_
  cases kept? entry with
  | some answer => exact total_pure answer
  | none => exact (hmake entry.fields).bind fun answer => (total_modify _).bind fun _ => total_pure answer

theorem total_keyGroups (resolved : ResolvedGraph) (id : SetId) : Total (keyGroups resolved id) := by
  rw [keyGroups_eq]
  exact total_cached (fun _ => Total.mapM total_lookup _) id

theorem total_parts (resolved : ResolvedGraph) (pass : Pass) (id : SetId) : Total (parts resolved pass id) := by
  cases pass with
  | shapes => exact total_pure [id]
  | calls =>
    change Total (parentGroups resolved id)
    rw [parentGroups_eq]
    exact total_cached (fun _ => Total.mapM total_lookup _) id

theorem total_children (resolved : ResolvedGraph) (id : SetId) : Total (children resolved id) := by
  rw [children_eq]
  exact total_cached (fun _ => total_lookup _) id

theorem total_comparePair (resolved : ResolvedGraph) (a b : FieldId) : Total (comparePair resolved a b) := by
  unfold comparePair
  refine total_get.bind fun memo => ?_
  split
  · exact total_pure _
  · refine (total_set _).bind fun _ => ?_
    split
    · split
      · exact total_modify _
      · exact total_pure _
    · exact total_pure _

/-- Reading a group fails on the shape of one of its fields. -/
theorem exists_shape_of_readGroup_fails {pass : Pass} {fields : List FieldId}
    (h : Fails (readGroup resolved pass fields) memo defect) :
    ∃ i ∈ fields, resolved.shape i = .error defect := by
  cases pass with
  | calls => exact absurd h (total_pure _ memo defect)
  | shapes =>
    obtain ⟨i, hi, start, -, hfails⟩ :=
      exists_fails_of_forM (fun _ => True) (fun _ _ _ _ _ _ => trivial) trivial h
    refine ⟨i, hi, ?_⟩
    cases hshape : resolved.shape i with
    | error found =>
      rw [hshape] at hfails
      obtain hfails | ⟨_, _, hreturns, -⟩ := fails_bind.1 hfails
      · rw [fails_throw.1 hfails]
      · exact absurd hreturns not_returns_throw
    | ok shape =>
      rw [hshape] at hfails
      exact absurd hfails (((total_pure shape).bind fun _ => total_pure _) start defect)

end Check

end SelectionMerge
