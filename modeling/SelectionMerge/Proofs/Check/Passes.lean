import SelectionMerge.Merge.Check

/-!
# What the passes of a check are for

The two passes of a check differ in the groups that they take and in the pairs that they compare
in a group. `ResolvedGraph.Reached` has the sets of fields that a pass comes to from a set,
without memo and marks: the set itself, and the merged sub-selections of every group of a set
that it comes to. The passes themselves are one function of the pass (`Check.follow_shapes`,
`Check.follow_calls`), so that what they do is proved once.
-/

namespace SelectionMerge
set_option autoImplicit false

/-- The passes of a check. -/
inductive Pass where
  /-- Shapes of all fields under one response key. -/
  | shapes
  /-- Names and arguments of those that can stand in one object. -/
  | calls
  deriving DecidableEq

namespace ResolvedGraph

variable (resolved : ResolvedGraph)

/-- What a pass makes of the fields of one response key: one group, or one for each object type. -/
def parts : Pass → List FieldId → List (List FieldId)
  | .shapes, fields => [fields]
  | .calls, fields => resolved.parentGroups fields

/-- The groups of a set that a pass compares and goes on from. -/
def groups (pass : Pass) (set : List FieldId) : List (List FieldId) :=
  (resolved.keyGroups set).flatMap (resolved.parts pass)

/-- The pairs of a group that a pass compares. -/
def pairs : Pass → List FieldId → List (FieldId × FieldId)
  | .shapes, group => resolved.shapePairs group
  | .calls, group => resolved.callPairs group

/-- The reason for which two fields conflict, by their numbers. -/
def conflict? (a b : FieldId) : Option ConflictReason := do
  let first ← resolved.field? a
  let second ← resolved.field? b
  first.conflict? second

/-- The sets that a pass comes to from a set. -/
inductive Reached (pass : Pass) (start : List FieldId) : List FieldId → Prop where
  | start : Reached pass start start
  | children {set group : List FieldId} :
    Reached pass start set → group ∈ resolved.groups pass set →
      Reached pass start (resolved.children group)

/-- The groups of the sets that a pass comes to from a set. -/
def ReachedGroup (pass : Pass) (start group : List FieldId) : Prop :=
  ∃ set, resolved.Reached pass start set ∧ group ∈ resolved.groups pass set

variable {resolved} {pass : Pass} {start set group : List FieldId}

theorem conflict?_eq {a b : FieldId} {x y : SelectedField} (ha : resolved.field? a = some x)
    (hb : resolved.field? b = some y) : resolved.conflict? a b = x.conflict? y := by
  simp [conflict?, ha, hb]

theorem mem_groups : group ∈ resolved.groups pass set ↔
    ∃ fields ∈ resolved.keyGroups set, group ∈ resolved.parts pass fields :=
  List.mem_flatMap

/-- A pass comes to the sets that it comes to from a set on its way. -/
theorem Reached.trans {after : List FieldId} (h : resolved.Reached pass start set)
    (hafter : resolved.Reached pass set after) : resolved.Reached pass start after := by
  induction hafter with
  | start => exact h
  | children _ hgroup ih => exact ih.children hgroup

end ResolvedGraph

namespace Entry

/-- Whether the groups of the set are followed by a pass. -/
def followed (entry : Entry) : Pass → Bool
  | .shapes => entry.shapesFollowed
  | .calls => entry.callsFollowed

/-- Whether the fields of the set were compared by a pass. -/
def compared (entry : Entry) : Pass → Bool
  | .shapes => entry.shapesCompared
  | .calls => entry.callsCompared

/-- The entry with its groups marked as followed. -/
def follow (entry : Entry) : Pass → Entry
  | .shapes => { entry with shapesFollowed := true }
  | .calls => { entry with callsFollowed := true }

/-- The entry with its fields marked as compared. -/
def compare (entry : Entry) : Pass → Entry
  | .shapes => { entry with shapesCompared := true }
  | .calls => { entry with callsCompared := true }

theorem fields_follow (pass : Pass) (entry : Entry) : (entry.follow pass).fields = entry.fields := by
  cases pass <;> rfl

theorem fields_compare (pass : Pass) (entry : Entry) : (entry.compare pass).fields = entry.fields := by
  cases pass <;> rfl

theorem followed_follow (p pass : Pass) (entry : Entry) :
    (entry.follow pass).followed p = (entry.followed p || decide (p = pass)) := by
  cases p <;> cases pass <;> simp [follow, followed]

theorem compared_compare (p pass : Pass) (entry : Entry) :
    (entry.compare pass).compared p = (entry.compared p || decide (p = pass)) := by
  cases p <;> cases pass <;> simp [compare, compared]

theorem compared_follow (p pass : Pass) (entry : Entry) :
    (entry.follow pass).compared p = entry.compared p := by
  cases p <;> cases pass <;> rfl

theorem followed_compare (p pass : Pass) (entry : Entry) :
    (entry.compare pass).followed p = entry.followed p := by
  cases p <;> cases pass <;> rfl

end Entry

namespace Check

variable (resolved : ResolvedGraph)

/-- The parts that a pass makes of a group of one response key. -/
def parts : Pass → SetId → Check (List SetId)
  | .shapes, group => pure [group]
  | .calls, group => parentGroups resolved group

/-- What a pass reads of the fields of a group before it compares them. -/
def readGroup : Pass → List FieldId → Check Unit
  | .shapes, fields => fields.forM fun id => do
    let _ ← (resolved.shape id : Except Defect (Option Shape))
  | .calls, _ => pure ()

/-- The comparison of a group that a pass makes, once. -/
def compareGroup (pass : Pass) (group : SetId) : Check Unit := do
  let entry ← entry group
  if entry.compared pass then return
  update group fun entry => entry.compare pass
  modify fun memo => { memo with groups := memo.groups + 1 }
  readGroup resolved pass entry.fields
  (resolved.pairs pass entry.fields).forM fun (a, b) => comparePair resolved a b

theorem compareGroup_shapes : compareGroup resolved .shapes = compareShapes resolved := rfl

theorem compareGroup_calls : compareGroup resolved .calls = compareCalls resolved := by
  funext group
  simp only [compareGroup, readGroup, pure_bind]
  rfl

/-- A pass, from a set that is looked up. -/
def follow (pass : Pass) : Nat → SetId → Check Unit
  | 0, _ => throw .depthExhausted
  | depth + 1, id => do
    if (← entry id).followed pass then return
    update id fun entry => entry.follow pass
    (← keyGroups resolved id).forM fun fields => do
      (← parts resolved pass fields).forM fun group => do
        compareGroup resolved pass group
        follow pass depth (← children resolved group)

/-- The first pass is the one for shapes. -/
theorem follow_shapes : followShapes resolved = follow resolved .shapes := by
  funext depth
  induction depth with
  | zero => rfl
  | succ depth ih =>
    funext id
    simp only [followShapes, follow, ih, parts, compareGroup_shapes, pure_bind, List.forM_eq_forM,
      List.forM_cons, List.forM_nil, bind_pure_unit]
    rfl

/-- The second pass is the one for names and arguments. -/
theorem follow_calls : followCalls resolved = follow resolved .calls := by
  funext depth
  induction depth with
  | zero => rfl
  | succ depth ih =>
    funext id
    simp only [followCalls, follow, ih, compareGroup_calls]
    rfl

/-- What the check runs for a pass. -/
def followPass : Pass → Nat → SetId → Check Unit
  | .shapes => followShapes resolved
  | .calls => followCalls resolved

theorem followPass_eq (pass : Pass) : followPass resolved pass = follow resolved pass := by
  cases pass
  · exact follow_shapes resolved
  · exact follow_calls resolved

end Check

end SelectionMerge
