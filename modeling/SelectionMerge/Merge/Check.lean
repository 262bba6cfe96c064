import SelectionMerge.Merge.Steps
import SelectionMerge.Selection.Builder

/-!
# The check of a selection graph

A root is checked in two passes over its field set and the sets that lead on from there. The
first pass compares the shapes of all fields under one response key, whether or not they can
stand in one object, and goes on to their merged sub-selections. The second compares names
and arguments of those that can stand in one object, and goes on to their merged
sub-selections. A set is marked before its groups are followed, so a set that leads back to
itself ends the way. Neighbours in a layout are compared and not all pairs.

Each pass counts down a depth. It starts with the number of all sets of fields, and each
turn on the way marks another one, so it is never used up.
-/

namespace SelectionMerge
set_option autoImplicit false

namespace Check

variable (resolved : ResolvedGraph)

/-- Compares the fields of a group by shape, once. -/
def compareShapes (group : SetId) : Check Unit := do
  let entry ← entry group
  if entry.shapesCompared then return
  update group fun entry => { entry with shapesCompared := true }
  modify fun memo => { memo with groups := memo.groups + 1 }
  entry.fields.forM fun id => do
    let _ ← (resolved.shape id : Except Defect (Option Shape))
  (resolved.shapePairs entry.fields).forM fun (a, b) => comparePair resolved a b

/-- Compares the fields of a group by name and arguments, once. -/
def compareCalls (group : SetId) : Check Unit := do
  let entry ← entry group
  if entry.callsCompared then return
  update group fun entry => { entry with callsCompared := true }
  modify fun memo => { memo with groups := memo.groups + 1 }
  (resolved.callPairs entry.fields).forM fun (a, b) => comparePair resolved a b

/-- The first pass: shapes of the fields under one response key. -/
def followShapes : Nat → SetId → Check Unit
  | 0, _ => throw .depthExhausted
  | depth + 1, id => do
    if (← entry id).shapesFollowed then return
    update id fun entry => { entry with shapesFollowed := true }
    (← keyGroups resolved id).forM fun group => do
      compareShapes resolved group
      followShapes depth (← children resolved group)

/-- The second pass: names and arguments of the fields that can stand in one object. -/
def followCalls : Nat → SetId → Check Unit
  | 0, _ => throw .depthExhausted
  | depth + 1, id => do
    if (← entry id).callsFollowed then return
    update id fun entry => { entry with callsFollowed := true }
    (← keyGroups resolved id).forM fun group => do
      (← parentGroups resolved group).forM fun common => do
        compareCalls resolved common
        followCalls depth (← children resolved common)

/-- A depth that no pass uses up: there are no more sets of fields than this. -/
def depth : Nat :=
  Nat.pow 2 resolved.graph.fields.size + 1

/-- Checks one root: what it finds, in the order of the document. -/
def checkRoot (root : ContainerId) : Check (List Finding) := do
  modify fun memo => { memo.note (.checking root) with findings := [] }
  let id ← lookup (resolved.fieldSet root)
  followShapes resolved (depth resolved) id
  followCalls resolved (depth resolved) id
  return sortBy Finding.before (← get).findings

/-- Checks all roots: what is found under each. -/
def checkRoots : Check (List (List Finding)) := do
  let graph := resolved.graph
  modify fun memo =>
    memo.note (.built graph.roots.length graph.containers.size graph.fields.size)
  let found ← graph.roots.mapM (checkRoot resolved)
  modify fun memo => memo.note memo.usage
  return found

end Check

/-- What a check comes to: its log, and the conflicts unless a defect stopped it. -/
structure Outcome where
  log : List LogEntry
  conflicts : Except Defect (List Conflict)

/-- What is found under each root of a resolved graph, with the memo in the end. -/
def ResolvedGraph.check (resolved : ResolvedGraph) : Except Defect (List (List Finding)) × Memo :=
  (Check.checkRoots resolved).runOn Memo.empty

/-- Checks the operations and fragment definitions of a document. -/
def check (schema : Schema) (definitions : List Definition) : Outcome :=
  match SelectionGraph.ofDocument schema definitions with
  | .error defect => ⟨[], .error defect⟩
  | .ok graph =>
    let (found, memo) := graph.resolved.check
    ⟨memo.log, found.map fun found => found.flatten.filterMap (Finding.conflict? graph.fields)⟩

/-- The conflicts of a document: roots in the order of the document, and under one root in
the order of their fields. -/
def validate (schema : Schema) (definitions : List Definition) : Except Defect (List Conflict) :=
  (check schema definitions).conflicts

end SelectionMerge
