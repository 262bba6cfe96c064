import SelectionMerge.Merge.Memo

/-!
# Steps of a check

A step of a check works on the memo: it looks sets up, asks for the sets that one splits into
or leads to, and compares pairs of fields. Where a defect stops a step, the memo keeps what
was done before. `runOn` gives what a step comes to on a memo; each step has an equation for
it.
-/

namespace SelectionMerge
set_option autoImplicit false

/-- A step of a check: it changes the memo, also where a defect stops it. -/
abbrev Check := ExceptT Defect (StateM Memo)

namespace Check

section Runs

variable {α β : Type}

/-- What a step comes to on a memo: its result and the memo after it. -/
def runOn (step : Check α) (memo : Memo) : Except Defect α × Memo :=
  StateT.run (ExceptT.run step) memo

theorem runOn_pure (a : α) (memo : Memo) : runOn (pure a) memo = (.ok a, memo) := rfl

theorem runOn_throw (defect : Defect) (memo : Memo) :
    runOn (throw defect : Check α) memo = (.error defect, memo) := rfl

theorem runOn_get (memo : Memo) : runOn (get : Check Memo) memo = (.ok memo, memo) := rfl

theorem runOn_set (after memo : Memo) :
    runOn (set after : Check PUnit) memo = (.ok (), after) := rfl

theorem runOn_modify (change : Memo → Memo) (memo : Memo) :
    runOn (modify change : Check PUnit) memo = (.ok (), change memo) := rfl

/-- A step and what follows it run one after the other, unless the step fails. -/
theorem runOn_bind (step : Check α) (next : α → Check β) (memo : Memo) :
    runOn (step >>= next) memo = match runOn step memo with
      | (.ok a, after) => runOn (next a) after
      | (.error defect, after) => (.error defect, after) := by
  simp only [runOn, ExceptT.run_bind, StateT.run_bind]
  show (match StateT.run (ExceptT.run step) memo with | (a, m) => _) = _
  rcases StateT.run (ExceptT.run step) memo with ⟨r, m⟩
  cases r <;> rfl

end Runs

/-- The entry of that number. -/
def entry (id : SetId) : Check Entry :=
  return (← get).entry id

/-- Changes an entry. -/
def update (id : SetId) (change : Entry → Entry) : Check Unit :=
  modify fun memo => memo.update id change

theorem runOn_entry (id : SetId) (memo : Memo) :
    runOn (entry id) memo = (.ok (memo.entry id), memo) := rfl

/-- The number of the set with these fields, which are ascending. It gets an entry on the
first look-up. -/
def lookup (fields : List FieldId) : Check SetId := do
  let memo ← get
  match memo.find? fields with
  | some id =>
    set { memo with hits := memo.hits + 1 }
    return id
  | none =>
    set { memo with
      entries := memo.entries.push (Entry.fresh fields)
      misses := memo.misses + 1 }
    return memo.entries.size

/-- A look-up finds the entry or adds it. -/
theorem runOn_lookup (fields : List FieldId) (memo : Memo) :
    runOn (lookup fields) memo = match memo.find? fields with
      | some id => (.ok id, { memo with hits := memo.hits + 1 })
      | none => (.ok memo.entries.size, { memo with
          entries := memo.entries.push (Entry.fresh fields)
          misses := memo.misses + 1 }) := by
  unfold lookup
  simp only [runOn_bind, runOn_get]
  cases memo.find? fields <;> rfl

variable (resolved : ResolvedGraph)

/-- The groups of one response key in a set. -/
def keyGroups (id : SetId) : Check (List SetId) := do
  let entry ← entry id
  match entry.keyGroups? with
  | some groups => return groups
  | none =>
    let groups ← (resolved.keyGroups entry.fields).mapM lookup
    update id fun entry => { entry with keyGroups? := some groups }
    return groups

/-- The groups of fields in a set that can stand in one object. -/
def parentGroups (id : SetId) : Check (List SetId) := do
  let entry ← entry id
  match entry.parentGroups? with
  | some groups => return groups
  | none =>
    let groups ← (resolved.parentGroups entry.fields).mapM lookup
    update id fun entry => { entry with parentGroups? := some groups }
    return groups

/-- The merged sub-selections of the fields in a set. -/
def children (id : SetId) : Check SetId := do
  let entry ← entry id
  match entry.children? with
  | some children => return children
  | none =>
    let children ← lookup (resolved.children entry.fields)
    update id fun entry => { entry with children? := some children }
    return children

/-- Compares two fields under one response key, unless they are one field or were compared
before. -/
def comparePair (a b : FieldId) : Check Unit := do
  let former := min a b
  let latter := max a b
  let memo ← get
  if a = b ∨ memo.compared former latter then return
  set (memo.remember former latter)
  match resolved.field? former, resolved.field? latter with
  | some first, some second =>
    match first.conflict? second with
    | some reason =>
      modify fun memo =>
        { memo.note (.conflict first.responseKey reason former latter) with
          findings := memo.findings ++ [⟨former, latter, reason⟩] }
    | none => return
  | _, _ => return

end Check

end SelectionMerge
