import SelectionMerge.Proofs.Check.Fails
import SelectionMerge.Proofs.Check.Preserves

/-!
# Steps side by side

`Check.Lockstep` compares two steps on two memos: where the left one returns so does the right one, and
results and memos go together; where a defect stops the left one, the same defect stops the right one. A
left step that uses up its depth says nothing of the right one, which may have more of it. Steps made of
others are compared part by part (`Lockstep.bind`) and loops turn by turn (`Lockstep.forM`,
`Lockstep.mapM`).
-/

namespace SelectionMerge
set_option autoImplicit false

namespace Check

variable {α β γ δ : Type}

/-- The right step does what the left one does. -/
structure Lockstep (together : α → Memo → β → Memo → Prop) (step : Check α) (memo : Memo)
    (step' : Check β) (memo' : Memo) : Prop where
  returns : ∀ {a after}, Returns step memo a after →
    ∃ a' after', Returns step' memo' a' after' ∧ together a after a' after'
  fails : ∀ {defect}, Fails step memo defect → defect ≠ .depthExhausted → Fails step' memo' defect

namespace Lockstep

variable {memo memo' : Memo} {step : Check α} {step' : Check β}
variable {together : α → Memo → β → Memo → Prop}

theorem mono {wider : α → Memo → β → Memo → Prop} (h : Lockstep together step memo step' memo')
    (hwider : ∀ {a after a' after'}, together a after a' after' → wider a after a' after') :
    Lockstep wider step memo step' memo' where
  returns hstep := by
    obtain ⟨a', after', hstep', htogether⟩ := h.returns hstep
    exact ⟨a', after', hstep', hwider htogether⟩
  fails := h.fails

theorem pure {a : α} {a' : β} (h : together a memo a' memo') :
    Lockstep together (pure a) memo (pure a') memo' where
  returns hstep := by
    obtain ⟨rfl, rfl⟩ := returns_pure.1 hstep
    exact ⟨a', memo', returns_pure.2 ⟨rfl, rfl⟩, h⟩
  fails hfails _ := absurd hfails (total_pure a memo _)

theorem bind {after : γ → Memo → δ → Memo → Prop} {next : α → Check γ} {next' : β → Check δ}
    (h : Lockstep together step memo step' memo')
    (hnext : ∀ {a middle a' middle'}, together a middle a' middle' →
      Lockstep after (next a) middle (next' a') middle') :
    Lockstep after (step >>= next) memo (step' >>= next') memo' where
  returns hboth := by
    obtain ⟨a, middle, hstep, hrest⟩ := returns_bind.1 hboth
    obtain ⟨a', middle', hstep', htogether⟩ := h.returns hstep
    obtain ⟨c', last', hrest', hlast⟩ := (hnext htogether).returns hrest
    exact ⟨c', last', returns_bind.2 ⟨a', middle', hstep', hrest'⟩, hlast⟩
  fails hboth hdefect := by
    obtain hstep | ⟨a, middle, hstep, hrest⟩ := fails_bind.1 hboth
    · exact fails_bind.2 (.inl (h.fails hstep hdefect))
    · obtain ⟨a', middle', hstep', htogether⟩ := h.returns hstep
      exact fails_bind.2 (.inr ⟨a', middle', hstep', (hnext htogether).fails hrest hdefect⟩)

/-- Steps that are never stopped. -/
theorem of_total (hleft : Total step) (hright : Total step')
    (h : ∀ {a after a' after'}, Returns step memo a after → Returns step' memo' a' after' →
      together a after a' after') : Lockstep together step memo step' memo' where
  returns hstep := by
    obtain ⟨a', after', hstep'⟩ := hright.exists_returns memo'
    exact ⟨a', after', hstep', h hstep hstep'⟩
  fails hfails _ := absurd hfails (hleft memo _)

/-- Steps that are known to return. -/
theorem of_returns {a : α} {after after' : Memo} {a' : β} (hleft : Returns step memo a after)
    (hright : Returns step' memo' a' after') (h : together a after a' after') :
    Lockstep together step memo step' memo' where
  returns hstep := by
    obtain ⟨hresult, rfl⟩ := Prod.mk.inj (hleft.symm.trans hstep)
    obtain rfl := Except.ok.inj hresult
    exact ⟨a', after', hright, h⟩
  fails hfails _ := by
    have hresult := (congrArg Prod.fst hleft).symm.trans hfails
    cases hresult

/-- Changes of the memos, and what follows them. -/
theorem modify_bind {change change' : Memo → Memo} {next : PUnit → Check α} {next' : PUnit → Check β}
    (h : Lockstep together (next ()) (change memo) (next' ()) (change' memo')) :
    Lockstep together (modify change >>= next) memo (modify change' >>= next') memo' := by
  have hchange : Lockstep (fun _ after _ after' => after = change memo ∧ after' = change' memo')
      (modify change : Check PUnit) memo (modify change' : Check PUnit) memo' :=
    of_returns (returns_modify.2 rfl) (returns_modify.2 rfl) ⟨rfl, rfl⟩
  refine hchange.bind fun heq => ?_
  obtain ⟨rfl, rfl⟩ := heq
  exact h

/-- Entries that are read, and what follows. -/
theorem entry_bind {id id' : SetId} {next : Entry → Check α} {next' : Entry → Check β}
    (h : Lockstep together (next (memo.entry id)) memo (next' (memo'.entry id')) memo') :
    Lockstep together (entry id >>= next) memo (entry id' >>= next') memo' := by
  have hread : Lockstep (fun read after read' after' =>
      (read = memo.entry id ∧ after = memo) ∧ read' = memo'.entry id' ∧ after' = memo')
      (entry id) memo (entry id') memo' :=
    of_returns (returns_entry.2 ⟨rfl, rfl⟩) (returns_entry.2 ⟨rfl, rfl⟩) ⟨⟨rfl, rfl⟩, rfl, rfl⟩
  refine hread.bind fun heq => ?_
  obtain ⟨⟨rfl, rfl⟩, rfl, rfl⟩ := heq
  exact h

/-- What a step keeps anyway holds of its memo as well. -/
theorem and_preserved {keeps keeps' : Memo → Prop} (h : Lockstep together step memo step' memo')
    (hleft : Preserves keeps step) (hright : Preserves keeps' step') (hmemo : keeps memo) (hmemo' : keeps' memo') :
    Lockstep (fun a after a' after' => together a after a' after' ∧ keeps after ∧ keeps' after')
      step memo step' memo' where
  returns hstep := by
    obtain ⟨a', after', hstep', htogether⟩ := h.returns hstep
    exact ⟨a', after', hstep', htogether, hleft _ _ _ hmemo hstep, hright _ _ _ hmemo' hstep'⟩
  fails := h.fails

/-- A step that does not use up its depth has the result of the right step, up to what goes together. -/
theorem result_eq {f : α → β} (h : Lockstep together step memo step' memo')
    (hf : ∀ {a after a' after'}, together a after a' after' → a' = f a)
    (hdepth : ¬ Fails step memo .depthExhausted) :
    (runOn step' memo').1 = (runOn step memo).1.map f := by
  cases hrun : runOn step memo with
  | mk result after =>
    cases result with
    | ok a =>
      obtain ⟨a', after', hstep', htogether⟩ := h.returns hrun
      rw [hf htogether] at hstep'
      exact congrArg Prod.fst hstep'
    | error defect =>
      have hfails : Fails step memo defect := congrArg Prod.fst hrun
      exact h.fails hfails fun hdefect => hdepth (hdefect ▸ hfails)

variable {R : γ → δ → Prop} {holds : Memo → Memo → Prop} {items : List γ} {items' : List δ}

/-- Loops over corresponding items, if each turn keeps what holds of the two memos. -/
theorem forM {turn : γ → Check PUnit} {turn' : δ → Check PUnit} (hitems : List.Forall₂ R items items')
    (hturn : ∀ {c c' start start'}, R c c' → holds start start' →
      Lockstep (fun _ finish _ finish' => holds finish finish') (turn c) start (turn' c') start')
    (hmemo : holds memo memo') :
    Lockstep (fun _ after _ after' => holds after after') (items.forM turn) memo (items'.forM turn') memo' := by
  induction hitems generalizing memo memo' with
  | nil => exact .pure hmemo
  | cons hitem _ ih => exact (hturn hitem hmemo).bind fun hmiddle => ih hmiddle

/-- Loops over corresponding items, with results that go together one by one. -/
theorem mapM {fits : α → β → Prop} {turn : γ → Check α} {turn' : δ → Check β}
    (hitems : List.Forall₂ R items items')
    (hturn : ∀ {c c' start start'}, R c c' → holds start start' →
      Lockstep (fun a finish a' finish' => holds finish finish' ∧ fits a a') (turn c) start (turn' c') start')
    (hmemo : holds memo memo') :
    Lockstep (fun results after results' after' => holds after after' ∧ List.Forall₂ fits results results')
      (items.mapM turn) memo (items'.mapM turn') memo' := by
  induction hitems generalizing memo memo' with
  | nil =>
    rw [List.mapM_nil, List.mapM_nil]
    exact .pure ⟨hmemo, .nil⟩
  | cons hitem _ ih =>
    rw [List.mapM_cons, List.mapM_cons]
    refine (hturn hitem hmemo).bind fun hfirst => (ih hfirst.1).bind fun hrest => .pure ?_
    exact ⟨hrest.1, .cons hfirst.2 hrest.2⟩

end Lockstep

end Check

end SelectionMerge
