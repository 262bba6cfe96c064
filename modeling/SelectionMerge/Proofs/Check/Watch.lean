import SelectionMerge.Proofs.Check.Cache

/-!
# A check that is watched

The memo finds a set among its entries. `Watched.checkRoots` is the check with an index of its own: sets are
looked up in a table that only look-ups write to, and the entries are a sequence beside it. It also keeps the
moments of the check, one at the call of each operation and one at its end, each with the index and the memo
at that time. All other steps are those of the check (`Watched.does`).
-/

namespace SelectionMerge
set_option autoImplicit false

/-- The numbers of sets by their fields. -/
abbrev SetIndex := List (List FieldId × SetId)

/-- An operation of a check, with what it is called on. -/
inductive Check.Operation where
  | lookup (fields : List FieldId)
  | keyGroups (id : SetId)
  | parentGroups (id : SetId)
  | children (id : SetId)
  | comparePair (pass : Pass) (a b : FieldId)
  | compareGroup (pass : Pass) (group : SetId)
  | follow (pass : Pass) (id : SetId)
  | checkRoot (root : ContainerId)
  | usage
  deriving DecidableEq

/-- An operation is called or has come to its end, whether it returns or fails. -/
structure Moment where
  operation : Check.Operation
  index : SetIndex
  memo : Memo

/-- What is kept beside the memo: the index, and the moments so far. -/
structure Watch where
  index : SetIndex
  moments : List Moment

/-- The watch before the first step. -/
def Watch.start : Watch :=
  ⟨[], []⟩

/-- A step of a check that is watched. -/
abbrev Watched := ExceptT Defect (StateM (Memo × Watch))

namespace Watched

variable {α β : Type}

/-- What a step comes to: its result, and the memo and the watch after it. -/
def runOn (step : Watched α) (memo : Memo) (watch : Watch) : Except Defect α × Memo × Watch :=
  StateT.run (m := Id) (ExceptT.run step) (memo, watch)

/-- A step of the check. -/
def does (step : Check α) : Watched α :=
  ExceptT.mk fun state => ((step.runOn state.1).1, (step.runOn state.1).2, state.2)

/-- Keeps the moment at which the operation is called or at its end. -/
def observe (operation : Check.Operation) (memo : Memo) (watch : Watch) : Watch :=
  { watch with moments := watch.moments ++ [⟨operation, watch.index, memo⟩] }

/-- An operation, with the moments of its call and its end. -/
def during (operation : Check.Operation) (step : Watched α) : Watched α :=
  ExceptT.mk fun state =>
    let (result, after, later) := runOn step state.1 (observe operation state.1 state.2)
    (result, after, observe operation after later)

/-- The number of the set with these fields, as the index has it. A set that it does not have gets an entry,
and the index the number of that entry. -/
def lookup (fields : List FieldId) : Watched SetId :=
  during (.lookup fields) <| ExceptT.mk fun state =>
    match state.2.index.lookup fields with
    | some id => (.ok id, { state.1 with hits := state.1.hits + 1 }, state.2)
    | none =>
      let id := state.1.entries.size
      (.ok id,
        { state.1 with
          entries := state.1.entries.push (Entry.fresh fields)
          misses := state.1.misses + 1 },
        { state.2 with index := (fields, id) :: state.2.index })

/-- An answer for a set: the one that its entry keeps, or one that is made and kept. -/
def cached (kept? : Entry → Option β) (keep : β → Entry → Entry) (make : List FieldId → Watched β)
    (id : SetId) : Watched β := do
  let entry ← does (Check.entry id)
  match kept? entry with
  | some answer => return answer
  | none =>
    let answer ← make entry.fields
    does (Check.update id (keep answer))
    return answer

variable (resolved : ResolvedGraph)

/-- The groups of one response key in a set. -/
def keyGroups (id : SetId) : Watched (List SetId) :=
  during (.keyGroups id) <|
    cached Entry.keyGroups? (fun ids entry => { entry with keyGroups? := some ids })
      (fun set => (resolved.keyGroups set).mapM lookup) id

/-- The groups of fields in a set that can stand in one object. -/
def parentGroups (id : SetId) : Watched (List SetId) :=
  during (.parentGroups id) <|
    cached Entry.parentGroups? (fun ids entry => { entry with parentGroups? := some ids })
      (fun set => (resolved.parentGroups set).mapM lookup) id

/-- The merged sub-selections of the fields in a set. -/
def children (id : SetId) : Watched SetId :=
  during (.children id) <|
    cached Entry.children? (fun child entry => { entry with children? := some child })
      (fun set => lookup (resolved.children set)) id

/-- The parts that a pass makes of a group of one response key. -/
def parts : Pass → SetId → Watched (List SetId)
  | .shapes, group => pure [group]
  | .calls, group => parentGroups resolved group

/-- The comparison of two fields in a pass. -/
def comparePair (pass : Pass) (a b : FieldId) : Watched Unit :=
  during (.comparePair pass a b) (does (Check.comparePair resolved a b))

/-- Marks a group as compared and counts it. -/
def markCompared (pass : Pass) (group : SetId) : Check Unit := do
  Check.update group fun entry => entry.compare pass
  modify fun memo => { memo with groups := memo.groups + 1 }

/-- The comparison of a group that a pass makes, once. -/
def compareGroup (pass : Pass) (group : SetId) : Watched Unit :=
  during (.compareGroup pass group) do
    let entry ← does (Check.entry group)
    if entry.compared pass then return
    does (markCompared pass group)
    does (Check.readGroup resolved pass entry.fields)
    (resolved.pairs pass entry.fields).forM fun (a, b) => comparePair resolved pass a b

/-- A pass, from a set that is looked up. -/
def follow (pass : Pass) : Nat → SetId → Watched Unit
  | 0, id => during (.follow pass id) (throw .depthExhausted)
  | depth + 1, id => during (.follow pass id) do
    let entry ← does (Check.entry id)
    if entry.followed pass then return
    does (Check.update id fun entry => entry.follow pass)
    (← keyGroups resolved id).forM fun fields => do
      (← parts resolved pass fields).forM fun group => do
        compareGroup resolved pass group
        follow pass depth (← children resolved group)

/-- The check of one root. -/
def checkRoot (root : ContainerId) : Watched (List Finding) :=
  during (.checkRoot root) do
    does (modify fun memo => { memo.note (.checking root) with findings := [] })
    let id ← lookup (resolved.fieldSet root)
    follow resolved .shapes (Check.depth resolved) id
    follow resolved .calls (Check.depth resolved) id
    return sortBy Finding.before (← does get).findings

/-- The check of all roots. -/
def checkRoots : Watched (List (List Finding)) := do
  let graph := resolved.graph
  does (modify fun memo =>
    memo.note (.built graph.roots.length graph.containers.size graph.fields.size))
  let found ← graph.roots.mapM (checkRoot resolved)
  during .usage (does (modify fun memo => memo.note memo.usage))
  return found

/-- A step and what follows it run one after the other, unless the step fails. -/
theorem runOn_bind (step : Watched α) (next : α → Watched β) (memo : Memo) (watch : Watch) :
    runOn (step >>= next) memo watch = match runOn step memo watch with
      | (.ok a, after, later) => runOn (next a) after later
      | (.error defect, after, later) => (.error defect, after, later) := by
  simp only [runOn, ExceptT.run_bind, StateT.run_bind]
  show (match StateT.run (m := Id) (ExceptT.run step) (memo, watch) with | (a, s) => _) = _
  rcases StateT.run (m := Id) (ExceptT.run step) (memo, watch) with ⟨result, after, later⟩
  cases result <;> rfl

end Watched

namespace ResolvedGraph

/-- The moments of the check of a resolved graph. -/
def moments (resolved : ResolvedGraph) : List Moment :=
  ((Watched.checkRoots resolved).runOn Memo.empty Watch.start).2.2.moments

end ResolvedGraph

end SelectionMerge
