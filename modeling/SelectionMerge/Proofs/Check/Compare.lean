import SelectionMerge.Proofs.Check.Cache

/-!
# What comparing a group finds

Comparing a group compares its pairs, each at most once in a whole check. `Memo.Exact` says what
a memo stands for between two comparisons: the pairs that count as compared are those of the
groups that were compared, and the findings so far are the conflicts among them. Comparing one
more group keeps it so (`compareGroup_returns`).
-/

namespace SelectionMerge
set_option autoImplicit false

/-- The findings are the conflicts among the pairs that were compared. -/
def Memo.Finds (memo : Memo) (resolved : ResolvedGraph) (findings : List Finding) : Prop :=
  ∀ a b reason, ⟨a, b, reason⟩ ∈ findings ↔
    memo.compared a b = true ∧ resolved.conflict? a b = some reason

/-- One of the two orders of a pair is in the list. -/
def ListedPair (pairs : List (FieldId × FieldId)) (a b : FieldId) : Prop :=
  (a, b) ∈ pairs ∨ (b, a) ∈ pairs

/-- A memo between two comparisons, after `found` was found under the roots before. -/
structure Memo.Exact (resolved : ResolvedGraph) (found : List Finding) (memo : Memo) : Prop where
  sound : memo.Sound resolved
  compared_iff : ∀ a b, memo.compared a b = true ↔
    a < b ∧ ∃ pass group, memo.Grouped pass group ∧ ListedPair (resolved.pairs pass group) a b
  finds : memo.Finds resolved (found ++ memo.findings)

/-- What comparing two fields finds. -/
def ResolvedGraph.findings (resolved : ResolvedGraph) (a b : FieldId) : List Finding :=
  ((resolved.conflict? a b).map fun reason => ⟨a, b, reason⟩).toList

theorem ResolvedGraph.mem_findings {resolved : ResolvedGraph} {a b : FieldId} {finding : Finding} :
    finding ∈ resolved.findings a b ↔
      resolved.conflict? a b = some finding.reason ∧ finding.first = a ∧ finding.second = b := by
  unfold findings
  rw [Option.mem_toList, Option.map_eq_some_iff]
  constructor
  · rintro ⟨reason, hreason, rfl⟩
    exact ⟨hreason, rfl, rfl⟩
  · rintro ⟨hreason, rfl, rfl⟩
    exact ⟨finding.reason, hreason, rfl⟩

namespace Check

variable {resolved : ResolvedGraph} {memo after : Memo} {found : List Finding}

/-- A pair that is one field or was compared before changes nothing. Any other is remembered, and
its conflict is found. -/
theorem comparePair_cases {a b : FieldId} (h : Returns (comparePair resolved a b) memo () after) :
    (after = memo ∧ (a = b ∨ memo.compared (min a b) (max a b) = true)) ∨
    (a ≠ b ∧ memo.compared (min a b) (max a b) ≠ true ∧
      ∃ log, after = { memo.remember (min a b) (max a b) with
        log := log
        findings := memo.findings ++ resolved.findings (min a b) (max a b) }) := by
  unfold comparePair at h
  obtain ⟨_, _, hread, h⟩ := returns_bind.1 h
  obtain ⟨rfl, rfl⟩ := returns_get.1 hread
  split at h
  next hdone =>
    obtain ⟨-, rfl⟩ := returns_pure.1 h
    exact .inl ⟨rfl, hdone⟩
  next hnew =>
    obtain ⟨hne, hnew⟩ := not_or.1 hnew
    refine .inr ⟨hne, hnew, ?_⟩
    obtain ⟨⟨⟩, _, hremember, h⟩ := returns_bind.1 h
    obtain rfl := returns_set.1 hremember
    generalize min a b = former at h
    generalize max a b = latter at h
    -- A field that does not exist, or a pair without conflict, leaves the findings as they are.
    have hnone : resolved.conflict? former latter = none → after = memo.remember former latter →
        ∃ log, after = { memo.remember former latter with
          log := log
          findings := memo.findings ++ resolved.findings former latter } := by
      intro hconflict hafter
      refine ⟨memo.log, ?_⟩
      unfold ResolvedGraph.findings
      rw [hafter, hconflict, Option.map_none, Option.toList_none, List.append_nil]
      rfl
    split at h
    next first second hfirst hsecond =>
      have hconflict := ResolvedGraph.conflict?_eq hfirst hsecond
      split at h
      next reason hreason =>
        obtain rfl := returns_modify.1 h
        refine ⟨memo.log ++ [.conflict first.responseKey reason former latter], ?_⟩
        unfold ResolvedGraph.findings
        rw [hconflict, hreason]
        rfl
      next hreason => exact hnone (hconflict.trans hreason) (returns_pure.1 h).2.symm
    next hunknown =>
      refine hnone ?_ (returns_pure.1 h).2.symm
      unfold ResolvedGraph.conflict?
      cases hfirst : resolved.field? former with
      | none => rfl
      | some first =>
        cases hsecond : resolved.field? latter with
        | none => rfl
        | some second => exact absurd hsecond (hunknown first second hfirst)

theorem min_max_eq_iff {a b c d : Nat} (hne : a ≠ b) :
    min a b = c ∧ max a b = d ↔ c < d ∧ ((c = a ∧ d = b) ∨ (d = a ∧ c = b)) := by
  omega

/-- A pair is remembered with its smaller number first. -/
theorem compared_remember_iff (memo : Memo) {a b : FieldId} (hne : a ≠ b) (c d : FieldId) :
    (memo.remember (min a b) (max a b)).compared c d = true ↔
      memo.compared c d = true ∨ c < d ∧ ((c, d) = (a, b) ∨ (d, c) = (a, b)) := by
  rw [Memo.compared_remember, Bool.or_eq_true, Bool.and_eq_true, beq_iff_eq, beq_iff_eq, or_comm,
    Prod.mk.injEq, Prod.mk.injEq, ← min_max_eq_iff hne, eq_comm (a := d)]

/-- Remembering a pair and finding its conflict keeps the findings exact. -/
theorem finds_remember {former latter : FieldId} (h : memo.Finds resolved found)
    (hnew : memo.compared former latter ≠ true) :
    (memo.remember former latter).Finds resolved (found ++ resolved.findings former latter) := by
  intro a b reason
  rw [List.mem_append, h a b reason, ResolvedGraph.mem_findings, Memo.compared_remember,
    Bool.or_eq_true, Bool.and_eq_true, beq_iff_eq, beq_iff_eq]
  constructor
  · rintro (⟨hdone, hconflict⟩ | ⟨hconflict, rfl, rfl⟩)
    · exact ⟨.inr hdone, hconflict⟩
    · exact ⟨.inl ⟨rfl, rfl⟩, hconflict⟩
  · rintro ⟨⟨rfl, rfl⟩ | hdone, hconflict⟩
    · exact .inr ⟨hconflict, rfl, rfl⟩
    · exact .inl ⟨hdone, hconflict⟩

/-- Comparing a pair makes it one of the pairs that were compared, and keeps the findings exact. -/
theorem comparePair_returns {a b : FieldId} (h : Returns (comparePair resolved a b) memo () after) :
    after.entries = memo.entries ∧
    (∀ c d, after.compared c d = true ↔
      memo.compared c d = true ∨ c < d ∧ ((c, d) = (a, b) ∨ (d, c) = (a, b))) ∧
    (memo.Finds resolved (found ++ memo.findings) → after.Finds resolved (found ++ after.findings)) := by
  obtain ⟨rfl, hdone⟩ | ⟨hne, hnew, log, rfl⟩ := comparePair_cases h
  · refine ⟨rfl, fun c d => ⟨.inl, ?_⟩, id⟩
    rintro (hcd | ⟨hlt, hcd⟩)
    · exact hcd
    · rw [Prod.mk.injEq, Prod.mk.injEq] at hcd
      have hne : a ≠ b := by
        rintro rfl
        rcases hcd with ⟨rfl, rfl⟩ | ⟨rfl, rfl⟩ <;> exact Nat.lt_irrefl _ hlt
      obtain ⟨rfl, rfl⟩ := (min_max_eq_iff hne).2 ⟨hlt, hcd⟩
      exact hdone.resolve_left hne
  · refine ⟨rfl, compared_remember_iff memo hne, fun hfinds => ?_⟩
    have hmore := finds_remember hfinds hnew
    rw [List.append_assoc] at hmore
    exact hmore

/-- Comparing pairs one after the other makes them all pairs that were compared. -/
theorem comparePairs_returns {pairs : List (FieldId × FieldId)}
    (h : Returns (pairs.forM fun (a, b) => comparePair resolved a b) memo () after) :
    after.entries = memo.entries ∧
    (∀ c d, after.compared c d = true ↔ memo.compared c d = true ∨ c < d ∧ ListedPair pairs c d) ∧
    (memo.Finds resolved (found ++ memo.findings) → after.Finds resolved (found ++ after.findings)) := by
  unfold ListedPair
  induction pairs generalizing memo with
  | nil =>
    obtain ⟨-, rfl⟩ := returns_pure.1 h
    refine ⟨rfl, fun c d => ⟨.inl, ?_⟩, id⟩
    rintro (hcd | ⟨-, hcd | hcd⟩)
    · exact hcd
    · simp at hcd
    · simp at hcd
  | cons pair pairs ih =>
    obtain ⟨⟨⟩, middle, hfirst, hrest⟩ := returns_bind.1 h
    obtain ⟨hentries, hcompared, hfinds⟩ := comparePair_returns hfirst
    obtain ⟨hentries', hcompared', hfinds'⟩ := ih hrest
    refine ⟨hentries'.trans hentries, fun c d => ?_, fun hmemo => hfinds' (hfinds hmemo)⟩
    rw [hcompared', hcompared, or_assoc, List.mem_cons, List.mem_cons]
    apply or_congr_right
    rw [← and_or_left]
    apply and_congr_right'
    exact or_or_or_comm

theorem readGroup_cons (resolved : ResolvedGraph) (i : FieldId) (fields : List FieldId) :
    readGroup resolved .shapes (i :: fields) = (do
      let _ ← (resolved.shape i : Except Defect (Option Shape))
      readGroup resolved .shapes fields) := by
  show ((liftM (resolved.shape i) >>= fun _ => pure ()) >>= fun _ => readGroup resolved .shapes fields) = _
  rw [bind_assoc]
  simp only [pure_bind]

/-- What reading a group comes to does not depend on the memo. -/
theorem exists_runOn_readGroup (resolved : ResolvedGraph) (pass : Pass) (fields : List FieldId) :
    ∃ result, ∀ memo, runOn (readGroup resolved pass fields) memo = (result, memo) := by
  cases pass with
  | calls => exact ⟨.ok (), fun _ => rfl⟩
  | shapes =>
    induction fields with
    | nil => exact ⟨.ok (), fun _ => rfl⟩
    | cons i fields ih =>
      obtain ⟨rest, hrest⟩ := ih
      rw [readGroup_cons]
      cases resolved.shape i with
      | error defect => exact ⟨.error defect, fun memo => by rw [runOn_bind]; rfl⟩
      | ok shape => exact ⟨rest, fun memo => by rw [runOn_bind]; exact hrest memo⟩

/-- Reading a group changes nothing. -/
theorem readGroup_returns {pass : Pass} {fields : List FieldId}
    (h : Returns (readGroup resolved pass fields) memo () after) : after = memo := by
  obtain ⟨result, hrun⟩ := exists_runOn_readGroup resolved pass fields
  exact (congrArg Prod.snd ((hrun memo).symm.trans h)).symm

/-- Comparing a group makes it a group that was compared and changes nothing else that is known of
sets. -/
theorem compareGroup_returns {pass : Pass} {id : SetId} {group : List FieldId}
    (hexact : memo.Exact resolved found) (hgroup : memo.fields? id = some group)
    (h : Returns (compareGroup resolved pass id) memo () after) :
    after.Exact resolved found ∧
    (∀ {j set}, memo.fields? j = some set → after.fields? j = some set) ∧
    (∀ p set, after.Followed p set ↔ memo.Followed p set) ∧
    ∀ p set, after.Grouped p set ↔ memo.Grouped p set ∨ p = pass ∧ set = group := by
  obtain ⟨entry, hentry, rfl⟩ := Memo.fields?_eq_some.1 hgroup
  unfold compareGroup at h
  obtain ⟨read, _, hread, h⟩ := returns_bind.1 h
  obtain ⟨heq, rfl⟩ := returns_entry.1 hread
  obtain rfl : entry = read := (Memo.entry_eq hentry).symm.trans heq
  split at h
  next hdone =>
    obtain ⟨-, rfl⟩ := returns_pure.1 h
    refine ⟨hexact, fun hset => hset, fun _ _ => .rfl, fun p set => ⟨.inl, ?_⟩⟩
    rintro (hset | ⟨rfl, rfl⟩)
    · exact hset
    · exact ⟨_, entry, hentry, rfl, hdone⟩
  next hnew =>
    obtain ⟨⟨⟩, _, hupdate, h⟩ := returns_bind.1 h
    obtain rfl := returns_modify.1 hupdate
    obtain ⟨⟨⟩, _, hcount, h⟩ := returns_bind.1 h
    obtain rfl := returns_modify.1 hcount
    obtain ⟨⟨⟩, _, hread, h⟩ := returns_bind.1 h
    obtain rfl := readGroup_returns hread
    obtain ⟨hentries, hcompared, hfinds⟩ := comparePairs_returns h
    have hfields : ∀ j, after.fields? j = memo.fields? j := by
      intro j
      apply (Memo.fields?_congr hentries j).trans
      exact Memo.fields?_update (Entry.fields_compare pass) j
    have hfollowed : ∀ p set, after.Followed p set ↔ memo.Followed p set := fun p set =>
      (Memo.marked_congr hentries set).trans (Memo.followed_compare memo id pass p set)
    have hgrouped : ∀ p set, after.Grouped p set ↔ memo.Grouped p set ∨ p = pass ∧ set = entry.fields :=
      fun p set => (Memo.marked_congr hentries set).trans (Memo.grouped_compare hgroup pass p set)
    refine ⟨⟨?_, fun a b => ?_, hfinds hexact.finds⟩, fun hset => (hfields _).trans hset, hfollowed, hgrouped⟩
    · exact (hexact.sound.compare id pass).congr hentries
    · -- The pairs compared are those from before and those of the group.
      have hbefore := hexact.compared_iff a b
      rw [hcompared a b]
      constructor
      · rintro (hdone | ⟨hlt, hpair⟩)
        · obtain ⟨hlt, p, set, hset, hpair⟩ := hbefore.1 hdone
          exact ⟨hlt, p, set, (hgrouped p set).2 (.inl hset), hpair⟩
        · exact ⟨hlt, pass, entry.fields, (hgrouped _ _).2 (.inr ⟨rfl, rfl⟩), hpair⟩
      · rintro ⟨hlt, p, set, hset, hpair⟩
        obtain hset | ⟨rfl, rfl⟩ := (hgrouped p set).1 hset
        · exact .inl (hbefore.2 ⟨hlt, p, set, hset, hpair⟩)
        · exact .inr ⟨hlt, hpair⟩

end Check

end SelectionMerge
