import SelectionMerge.Proofs.Check.Ledger

/-!
# How deep a pass goes

A pass counts its depth down and fails when it is used up. Where that does not happen, the pass does the
same with any greater depth (`follow_deepens`), so the count takes no part in what it does. With more depth
than there are sets to come to it never happens, whichever memo the pass begins with
(`follow_ne_depthExhausted`), so each pass comes to one result at every such depth (`exists_follow_eq`).
-/

namespace SelectionMerge
set_option autoImplicit false

namespace Check

variable {α β γ : Type}

/-- The deeper step does the same, unless the other one runs out of depth. -/
def Deepens (step deeper : Check α) : Prop :=
  ∀ memo, (step.runOn memo).1 ≠ .error .depthExhausted → deeper.runOn memo = step.runOn memo

theorem Deepens.refl (step : Check α) : Deepens step step :=
  fun _ _ => rfl

theorem Deepens.trans {step deeper deepest : Check α} (h : Deepens step deeper) (h' : Deepens deeper deepest) :
    Deepens step deepest := by
  intro memo hne
  have heq := h memo hne
  rw [h' memo (heq ▸ hne), heq]

theorem Deepens.bind {step deeper : Check α} {next next' : α → Check β} (h : Deepens step deeper)
    (hnext : ∀ a, Deepens (next a) (next' a)) : Deepens (step >>= next) (deeper >>= next') := by
  intro memo hne
  rw [runOn_bind] at hne
  rw [runOn_bind, runOn_bind]
  have hstep := h memo
  rcases hrun : step.runOn memo with ⟨result, after⟩
  rw [hrun] at hne hstep
  cases result with
  | error defect =>
    have hstep := hstep fun h => hne (congrArg Except.error (Except.error.inj h))
    rw [hstep]
  | ok a =>
    have hstep := hstep fun h => by cases h
    rw [hstep]
    exact hnext a after hne

theorem Deepens.forM {step deeper : γ → Check PUnit} (h : ∀ c, Deepens (step c) (deeper c)) (items : List γ) :
    Deepens (items.forM step) (items.forM deeper) := by
  induction items with
  | nil => exact .refl _
  | cons c items ih => exact (h c).bind fun _ => ih

variable {resolved : ResolvedGraph}

/-- One more turn of depth makes no difference where none is missing. -/
theorem follow_deepens_succ (pass : Pass) (depth : Nat) (id : SetId) :
    Deepens (follow resolved pass depth id) (follow resolved pass (depth + 1) id) := by
  induction depth generalizing id with
  | zero => exact fun memo hne => absurd rfl hne
  | succ depth ih =>
    rw [follow, follow]
    refine (Deepens.refl _).bind fun entry => ?_
    split
    · exact .refl _
    refine (Deepens.refl _).bind fun _ => (Deepens.refl _).bind fun keys => Deepens.forM (fun fields => ?_) keys
    refine (Deepens.refl _).bind fun parts => Deepens.forM (fun group => ?_) parts
    exact (Deepens.refl _).bind fun _ => (Deepens.refl _).bind ih

/-- More depth makes no difference where none is missing. -/
theorem follow_deepens (pass : Pass) {depth deeper : Nat} (hle : depth ≤ deeper) (id : SetId) :
    Deepens (follow resolved pass depth id) (follow resolved pass deeper id) := by
  induction hle with
  | refl => exact .refl _
  | step _ ih => exact ih.trans (follow_deepens_succ pass _ id)

variable {memo : Memo} {id : SetId} {set : List FieldId} {depth : Nat}

/-- A pass does not use up more depth than there are sets to come to. -/
theorem follow_ne_depthExhausted (hgraph : resolved.graph.WellFormed)
    (hshape : ∀ i, resolved.shape i ≠ .error .depthExhausted) (harises : memo.Arises resolved)
    (hset : memo.fields? id = some set) (pass : Pass)
    (hdepth : (resolved.reachedSets pass set).ncard < depth) :
    ((follow resolved pass depth id).runOn memo).1 ≠ .error .depthExhausted := by
  intro hfails
  obtain ⟨i, hi⟩ := (follow_stops harises hset hfails).exists_shape hgraph hdepth
  exact hshape i hi

/-- From every memo that arises a pass comes to a result, which is the same at all depths that are greater
than the number of all sets of fields. -/
theorem exists_follow_eq (hgraph : resolved.graph.WellFormed)
    (hshape : ∀ i, resolved.shape i ≠ .error .depthExhausted) (harises : memo.Arises resolved)
    (hset : memo.fields? id = some set) (pass : Pass) :
    ∃ result, result.1 ≠ .error .depthExhausted ∧
      ∀ depth, 2 ^ resolved.graph.fields.size + 2 ≤ depth → (follow resolved pass depth id).runOn memo = result := by
  have hne := follow_ne_depthExhausted hgraph hshape harises hset pass
    (Nat.lt_succ_of_le (ResolvedGraph.ncard_reachedSets_le_succ hgraph pass set))
  exact ⟨_, hne, fun depth hdepth => follow_deepens pass hdepth id memo hne⟩

end Check

end SelectionMerge
