import SelectionMerge.Proofs.Check.Passes

/-!
# A check with a journal

The steps of a check do not say how often they did something. `Journaled.checkRoots` is the check with a
journal beside the memo: every call of a pass is entered with the memo that it finds, every set whose
groups it goes on to follow, and every group that it compares. The journal is only written to, so without
it the check is the one that runs (`Journaled.checkRoots_follows`).
-/

namespace SelectionMerge
set_option autoImplicit false

/-- What the passes of a check did. -/
structure Journal where
  /-- The numbers of the sets from which a pass was called, with the memo at that time. -/
  calls : List (SetId × Memo)
  /-- The sets whose groups a pass went on to follow. -/
  expanded : List (Pass × List FieldId)
  /-- The groups that a pass compared. -/
  compared : List (Pass × List FieldId)

/-- The journal before the first step. -/
def Journal.empty : Journal :=
  ⟨[], [], []⟩

/-- A step of a check that may write to the journal. -/
abbrev Journaled := ExceptT Defect (StateM (Memo × Journal))

namespace Journaled

variable {α β γ : Type}

/-- What a step comes to: its result, and the memo and the journal after it. -/
def runOn (step : Journaled α) (memo : Memo) (journal : Journal) : Except Defect α × Memo × Journal :=
  StateT.run (m := Id) (ExceptT.run step) (memo, journal)

/-- A step of the check, which writes nothing. -/
def does (step : Check α) : Journaled α :=
  ExceptT.mk fun state => ((step.runOn state.1).1, (step.runOn state.1).2, state.2)

/-- An entry in the journal. -/
def write (entry : Memo → Journal → Journal) : Journaled Unit :=
  ExceptT.mk fun state => (.ok (), state.1, entry state.1 state.2)

section Steps

variable (resolved : ResolvedGraph)

/-- The comparison of a group that a pass makes, once. -/
def compareGroup (pass : Pass) (group : SetId) : Journaled Unit := do
  let entry ← does (Check.entry group)
  if entry.compared pass then return
  does (Check.update group fun entry => entry.compare pass)
  write fun _ journal => { journal with compared := journal.compared ++ [(pass, entry.fields)] }
  does (modify fun memo => { memo with groups := memo.groups + 1 })
  does (Check.readGroup resolved pass entry.fields)
  does ((resolved.pairs pass entry.fields).forM fun (a, b) => Check.comparePair resolved a b)

/-- A pass, from a set that is looked up. -/
def follow (pass : Pass) : Nat → SetId → Journaled Unit
  | 0, id => do
    write fun memo journal => { journal with calls := journal.calls ++ [(id, memo)] }
    throw .depthExhausted
  | depth + 1, id => do
    write fun memo journal => { journal with calls := journal.calls ++ [(id, memo)] }
    let entry ← does (Check.entry id)
    if entry.followed pass then return
    does (Check.update id fun entry => entry.follow pass)
    write fun _ journal => { journal with expanded := journal.expanded ++ [(pass, entry.fields)] }
    (← does (Check.keyGroups resolved id)).forM fun fields => do
      (← does (Check.parts resolved pass fields)).forM fun group => do
        compareGroup resolved pass group
        follow pass depth (← does (Check.children resolved group))

/-- The check of one root. -/
def checkRoot (root : ContainerId) : Journaled (List Finding) := do
  does (modify fun memo => { memo.note (.checking root) with findings := [] })
  let id ← does (Check.lookup (resolved.fieldSet root))
  follow resolved .shapes (Check.depth resolved) id
  follow resolved .calls (Check.depth resolved) id
  return sortBy Finding.before (← does get).findings

/-- The check of all roots. -/
def checkRoots : Journaled (List (List Finding)) := do
  let graph := resolved.graph
  does (modify fun memo =>
    memo.note (.built graph.roots.length graph.containers.size graph.fields.size))
  let found ← graph.roots.mapM (checkRoot resolved)
  does (modify fun memo => memo.note memo.usage)
  return found

end Steps

section Runs

theorem runOn_write (entry : Memo → Journal → Journal) (memo : Memo) (journal : Journal) :
    runOn (write entry) memo journal = (.ok (), memo, entry memo journal) := rfl

/-- A step and what follows it run one after the other, unless the step fails. -/
theorem runOn_bind (step : Journaled α) (next : α → Journaled β) (memo : Memo) (journal : Journal) :
    runOn (step >>= next) memo journal = match runOn step memo journal with
      | (.ok a, after, later) => runOn (next a) after later
      | (.error defect, after, later) => (.error defect, after, later) := by
  simp only [runOn, ExceptT.run_bind, StateT.run_bind]
  show (match StateT.run (m := Id) (ExceptT.run step) (memo, journal) with | (a, s) => _) = _
  rcases StateT.run (m := Id) (ExceptT.run step) (memo, journal) with ⟨result, after, later⟩
  cases result <;> rfl

end Runs

section Erasure

/-- Without the journal the step is the one of the check. -/
def Follows (step : Journaled α) (plain : Check α) : Prop :=
  ∀ memo journal, ((runOn step memo journal).1, (runOn step memo journal).2.1) = plain.runOn memo

theorem follows_does (plain : Check α) : Follows (does plain) plain :=
  fun _ _ => rfl

theorem follows_pure (a : α) : Follows (pure a) (pure a) :=
  fun _ _ => rfl

theorem follows_throw (defect : Defect) : Follows (throw defect : Journaled α) (throw defect) :=
  fun _ _ => rfl

theorem Follows.bind {step : Journaled α} {plain : Check α} {next : α → Journaled β} {next' : α → Check β}
    (h : Follows step plain) (hnext : ∀ a, Follows (next a) (next' a)) :
    Follows (step >>= next) (plain >>= next') := by
  intro memo journal
  rw [runOn_bind, Check.runOn_bind, ← h memo journal]
  rcases runOn step memo journal with ⟨result, after, later⟩
  cases result with
  | error defect => rfl
  | ok a => exact hnext a after later

/-- An entry in the journal is nothing that the check does. -/
theorem Follows.write {entry : Memo → Journal → Journal} {step : Journaled α} {plain : Check α}
    (h : Follows step plain) : Follows (do write entry; step) plain := by
  intro memo journal
  rw [runOn_bind, runOn_write]
  exact h memo (entry memo journal)

theorem Follows.forM {step : γ → Journaled PUnit} {plain : γ → Check PUnit}
    (h : ∀ c, Follows (step c) (plain c)) (items : List γ) : Follows (items.forM step) (items.forM plain) := by
  induction items with
  | nil => exact follows_pure ()
  | cons c items ih => exact (h c).bind fun _ => ih

theorem Follows.mapM {step : γ → Journaled α} {plain : γ → Check α} (h : ∀ c, Follows (step c) (plain c))
    (items : List γ) : Follows (items.mapM step) (items.mapM plain) := by
  induction items with
  | nil =>
    rw [List.mapM_nil, List.mapM_nil]
    exact follows_pure []
  | cons c items ih =>
    rw [List.mapM_cons, List.mapM_cons]
    exact (h c).bind fun a => ih.bind fun rest => follows_pure _

variable {resolved : ResolvedGraph}

theorem compareGroup_follows (pass : Pass) (group : SetId) :
    Follows (compareGroup resolved pass group) (Check.compareGroup resolved pass group) := by
  unfold compareGroup Check.compareGroup
  refine (follows_does _).bind fun entry => ?_
  split
  · exact follows_pure ()
  refine (follows_does _).bind fun _ => .write ?_
  exact (follows_does _).bind fun _ => (follows_does _).bind fun _ => follows_does _

theorem follow_follows (pass : Pass) (depth : Nat) (id : SetId) :
    Follows (follow resolved pass depth id) (Check.follow resolved pass depth id) := by
  induction depth generalizing id with
  | zero => exact .write (follows_throw _)
  | succ depth ih =>
    unfold follow Check.follow
    refine .write ((follows_does _).bind fun entry => ?_)
    split
    · exact follows_pure ()
    refine (follows_does _).bind fun _ => .write ((follows_does _).bind fun keys => Follows.forM (fun fields => ?_) keys)
    refine (follows_does _).bind fun parts => Follows.forM (fun group => ?_) parts
    exact (compareGroup_follows pass group).bind fun _ => (follows_does _).bind ih

theorem checkRoot_follows (root : ContainerId) :
    Follows (checkRoot resolved root) (Check.checkRoot resolved root) := by
  unfold checkRoot Check.checkRoot
  rw [Check.follow_shapes, Check.follow_calls]
  refine (follows_does _).bind fun _ => (follows_does _).bind fun id => ?_
  refine (follow_follows .shapes _ id).bind fun _ => (follow_follows .calls _ id).bind fun _ => ?_
  exact (follows_does _).bind fun _ => follows_pure _

/-- Without the journal it is the check that runs. -/
theorem checkRoots_follows (resolved : ResolvedGraph) :
    Follows (checkRoots resolved) (Check.checkRoots resolved) := by
  unfold checkRoots Check.checkRoots
  refine (follows_does _).bind fun _ => (Follows.mapM checkRoot_follows _).bind fun found => ?_
  exact (follows_does _).bind fun _ => follows_pure _

end Erasure

end Journaled

end SelectionMerge
