import SelectionMerge.Proofs.Check.Arising
import SelectionMerge.Proofs.Check.Depth
import SelectionMerge.Proofs.Check.Fails
import SelectionMerge.Proofs.Check.Journal

/-!
# What the journal says

The journal of a check is in order (`Journal.Right`) if every call of a pass found a memo that arises, and
if no set is expanded and no group compared twice by one pass, all of them being marked in the memo. Every
step keeps it so, whether it returns or fails. `Journaled.Safe` says this of a step together with what it
returns and with what it fails; it is proved for one step after the other and by induction on the depth for
a pass (`Journaled.safe_follow`): what stops a pass is the shape of a field, or it has used up its depth on
a chain of sets that are all different.
-/

namespace SelectionMerge
set_option autoImplicit false

/-- The journal is in order beside the memo. -/
structure Journal.Right (resolved : ResolvedGraph) (memo : Memo) (journal : Journal) : Prop where
  arises : memo.Arises resolved
  calls : ∀ call ∈ journal.calls, call.2.Arises resolved ∧ ∃ set, call.2.fields? call.1 = some set
  expanded : journal.expanded.Nodup
  followed : ∀ entry ∈ journal.expanded, memo.Followed entry.1 entry.2
  compared : journal.compared.Nodup
  grouped : ∀ entry ∈ journal.compared, memo.Grouped entry.1 entry.2

/-- The journal stays in order when the memo grows. -/
theorem Journal.Right.mono {resolved : ResolvedGraph} {memo after : Memo} {journal : Journal}
    (h : journal.Right resolved memo) (harises : after.Arises resolved) (hgrows : memo.Grows after) :
    journal.Right resolved after where
  arises := harises
  calls := h.calls
  expanded := h.expanded
  followed entry hentry := hgrows.followed _ _ (h.followed entry hentry)
  compared := h.compared
  grouped entry hentry := hgrows.grouped _ _ (h.grouped entry hentry)

namespace Journaled

variable {α β γ : Type} {resolved : ResolvedGraph} {memo : Memo} {journal : Journal}

/-- The step keeps the journal in order. Its results and its defects are as stated. -/
structure Safe (resolved : ResolvedGraph) (step : Journaled α) (memo : Memo) (journal : Journal)
    (returns : α → Memo → Prop) (fails : Defect → Prop) : Prop where
  right : (runOn step memo journal).2.2.Right resolved (runOn step memo journal).2.1
  grows : memo.Grows (runOn step memo journal).2.1
  returns : ∀ a, (runOn step memo journal).1 = .ok a → returns a (runOn step memo journal).2.1
  fails : ∀ defect, (runOn step memo journal).1 = .error defect → fails defect

/-- A step that gives nothing. -/
abbrev Done : PUnit → Memo → Prop := fun _ _ => True

section Rules

variable {returns : α → Memo → Prop} {returns' : β → Memo → Prop} {fails fails' : Defect → Prop}

theorem Safe.mono {step : Journaled α} (h : Safe resolved step memo journal returns fails)
    (hfails : ∀ defect, fails defect → fails' defect) : Safe resolved step memo journal returns fails' where
  right := h.right
  grows := h.grows
  returns := h.returns
  fails defect hdefect := hfails defect (h.fails defect hdefect)

theorem safe_pure {a : α} (h : journal.Right resolved memo) (ha : returns a memo) :
    Safe resolved (pure a) memo journal returns fails where
  right := h
  grows := .refl memo
  returns b hb := by
    obtain rfl := Except.ok.inj hb
    exact ha
  fails defect hdefect := by cases hdefect

/-- A step of the check is safe if the memo after it arises and has grown. -/
theorem safe_does {step : Check α} (h : journal.Right resolved memo)
    (harises : (step.runOn memo).2.Arises resolved) (hgrows : memo.Grows (step.runOn memo).2)
    (hreturns : ∀ a, (step.runOn memo).1 = .ok a → returns a (step.runOn memo).2)
    (hfails : ∀ defect, (step.runOn memo).1 = .error defect → fails defect) :
    Safe resolved (does step) memo journal returns fails where
  right := h.mono harises hgrows
  grows := hgrows
  returns := hreturns
  fails := hfails

/-- A step of the check that never fails is safe if what it returns is. -/
theorem safe_does_total {step : Check α} (h : journal.Right resolved memo) (htotal : Check.Total step)
    (hstep : ∀ a after, Check.Returns step memo a after →
      after.Arises resolved ∧ memo.Grows after ∧ returns a after) :
    Safe resolved (does step) memo journal returns fails := by
  obtain ⟨a, after, hrun⟩ := htotal.exists_returns memo
  obtain ⟨harises, hgrows, hreturns⟩ := hstep a after hrun
  apply safe_does h <;> rw [show step.runOn memo = (.ok a, after) from hrun]
  · exact harises
  · exact hgrows
  · intro b hb
    obtain rfl := Except.ok.inj hb
    exact hreturns
  · intro defect hdefect
    cases hdefect

theorem safe_throw {defect : Defect} (h : journal.Right resolved memo) (hdefect : fails defect) :
    Safe resolved (throw defect) memo journal returns fails where
  right := h
  grows := .refl memo
  returns a ha := by cases ha
  fails found hfound := by
    obtain rfl := Except.error.inj hfound
    exact hdefect

/-- A step and what follows it are safe one after the other. -/
theorem Safe.bind {step : Journaled α} {next : α → Journaled β}
    (h : Safe resolved step memo journal returns fails)
    (hnext : ∀ a after later, later.Right resolved after → memo.Grows after → returns a after →
      Safe resolved (next a) after later returns' fails) :
    Safe resolved (step >>= next) memo journal returns' fails := by
  obtain ⟨hright, hgrows, hreturns, hfails⟩ := h
  have hbind := runOn_bind step next memo journal
  generalize runOn step memo journal = state at hright hgrows hreturns hfails hbind
  obtain ⟨result, after, later⟩ := state
  cases result with
  | error defect =>
    refine ⟨by rw [hbind]; exact hright, by rw [hbind]; exact hgrows, fun b hb => ?_, fun d hd => ?_⟩
    · rw [hbind] at hb
      cases hb
    · rw [hbind] at hd
      change (Except.error defect : Except Defect β) = Except.error d at hd
      obtain rfl := Except.error.inj hd
      exact hfails defect rfl
  | ok a =>
    have hrest := hnext a after later hright hgrows (hreturns a rfl)
    exact ⟨by rw [hbind]; exact hrest.right, by rw [hbind]; exact hgrows.trans hrest.grows,
      by rw [hbind]; exact hrest.returns, by rw [hbind]; exact hrest.fails⟩

/-- A set is marked and entered in the journal, and then the rest runs. -/
theorem safe_mark {id : SetId} {change : Entry → Entry} {entry : Memo → Journal → Journal}
    {rest : Journaled α} (hgrows : memo.Grows (memo.update id change))
    (h : Safe resolved rest (memo.update id change) (entry (memo.update id change) journal) returns fails) :
    Safe resolved (do does (Check.update id change); write entry; rest) memo journal returns fails where
  right := h.right
  grows := hgrows.trans h.grows
  returns := h.returns
  fails := h.fails

theorem safe_write {entry : Memo → Journal → Journal} {rest : Journaled α}
    (h : Safe resolved rest memo (entry memo journal) returns fails) :
    Safe resolved (do write entry; rest) memo journal returns fails where
  right := h.right
  grows := h.grows
  returns := h.returns
  fails := h.fails

/-- A loop is safe if its turns are, from every memo that has grown from the first. -/
theorem safe_forM {step : γ → Journaled PUnit} {items : List γ}
    (hturn : ∀ c ∈ items, ∀ after later, later.Right resolved after → memo.Grows after →
      Safe resolved (step c) after later Done fails)
    (h : journal.Right resolved memo) : Safe resolved (items.forM step) memo journal Done fails := by
  suffices hloop : ∀ start now, now.Right resolved start → memo.Grows start →
      Safe resolved (items.forM step) start now Done fails from hloop memo journal h (.refl memo)
  clear h
  induction items with
  | nil => exact fun start now hstart _ => safe_pure hstart trivial
  | cons c items ih =>
    intro start now hstart hgrows
    refine (hturn c (.head _) start now hstart hgrows).bind fun _ after later hafter hmore _ => ?_
    exact ih (fun c hc => hturn c (.tail _ hc)) after later hafter (hgrows.trans hmore)

theorem safe_mapM {step : γ → Journaled α} {items : List γ}
    (hturn : ∀ c after later, later.Right resolved after →
      Safe resolved (step c) after later (fun _ _ => True) fails)
    (h : journal.Right resolved memo) :
    Safe resolved (items.mapM step) memo journal (fun _ _ => True) fails := by
  induction items generalizing memo journal with
  | nil =>
    rw [List.mapM_nil]
    exact safe_pure h trivial
  | cons c items ih =>
    rw [List.mapM_cons]
    refine (hturn c memo journal h).bind fun a after later hafter _ _ => ?_
    exact (ih hafter).bind fun rest final last hlast _ _ => safe_pure hlast trivial

end Rules

section Questions

variable {id : SetId} {set : List FieldId} {fails : Defect → Prop}

theorem safe_entry (h : journal.Right resolved memo) (id : SetId) :
    Safe resolved (does (Check.entry id)) memo journal
      (fun entry after => entry = memo.entry id ∧ after = memo) fails := by
  refine safe_does_total h (Check.total_entry id) fun entry after hreturns => ?_
  obtain ⟨rfl, rfl⟩ := Check.returns_entry.1 hreturns
  exact ⟨h.arises, .refl _, rfl, rfl⟩

/-- What changes no entry is safe. -/
theorem safe_modify (h : journal.Right resolved memo) {change : Memo → Memo}
    (hchange : (change memo).entries = memo.entries) :
    Safe resolved (does (modify change)) memo journal Done fails := by
  refine safe_does_total h (Check.total_modify change) fun _ after hreturns => ?_
  obtain rfl := Check.returns_modify.1 hreturns
  exact ⟨h.arises.other hchange, .of_entries hchange, trivial⟩

theorem safe_lookup (h : journal.Right resolved memo) (set : List FieldId) :
    Safe resolved (does (Check.lookup set)) memo journal
      (fun id after => after.fields? id = some set) fails := by
  refine safe_does_total h (Check.total_lookup set) fun id after hreturns => ?_
  obtain ⟨-, hwidens, hset⟩ := Check.lookup_returns h.arises.sound hreturns
  exact ⟨h.arises.lookup hreturns, hwidens.grows, hset⟩

theorem safe_keyGroups (h : journal.Right resolved memo) (hset : memo.fields? id = some set) :
    Safe resolved (does (Check.keyGroups resolved id)) memo journal
      (fun ids after => after.Numbers (resolved.keyGroups set) ids) fails := by
  refine safe_does_total h (Check.total_keyGroups resolved id) fun ids after hreturns => ?_
  obtain ⟨-, hwidens, hnumbers⟩ := Check.keyGroups_returns h.arises.sound hset hreturns
  exact ⟨h.arises.keyGroups hset hreturns, hwidens.grows, hnumbers⟩

theorem safe_parts (h : journal.Right resolved memo) (pass : Pass) (hset : memo.fields? id = some set) :
    Safe resolved (does (Check.parts resolved pass id)) memo journal
      (fun ids after => after.Numbers (resolved.parts pass set) ids) fails := by
  refine safe_does_total h (Check.total_parts resolved pass id) fun ids after hreturns => ?_
  obtain ⟨-, hwidens, hnumbers⟩ := Check.parts_returns h.arises.sound hset hreturns
  exact ⟨h.arises.parts pass hset hreturns, hwidens.grows, hnumbers⟩

theorem safe_children (h : journal.Right resolved memo) (hset : memo.fields? id = some set) :
    Safe resolved (does (Check.children resolved id)) memo journal
      (fun child after => after.fields? child = some (resolved.children set)) fails := by
  refine safe_does_total h (Check.total_children resolved id) fun child after hreturns => ?_
  obtain ⟨-, hwidens, hchild⟩ := Check.children_returns h.arises.sound hset hreturns
  exact ⟨h.arises.children hset hreturns, hwidens.grows, hchild⟩

end Questions

section Passes

variable {pass : Pass} {id : SetId} {set group : List FieldId} {depth : Nat} {start : Memo} {defect : Defect}

/-- A group that is marked as compared is entered for the first time. -/
theorem right_compare (h : journal.Right resolved memo) (hset : memo.fields? id = some set)
    (hnew : (memo.entry id).compared pass ≠ true) :
    ({ journal with compared := journal.compared ++ [(pass, set)] } : Journal).Right resolved
      (memo.update id fun entry => entry.compare pass) := by
  have hkept := h.mono (h.arises.compare pass id) (.compare memo pass id)
  refine { hkept with compared := ?_, grouped := fun entry hentry => ?_ }
  · refine List.nodup_append'.2 ⟨h.compared, List.nodup_singleton _, List.disjoint_singleton.2 fun hmem => ?_⟩
    exact hnew ((h.arises.distinct.marked_iff hset).1 (h.grouped _ hmem))
  · rcases List.mem_append.1 hentry with hentry | hentry
    · exact hkept.grouped entry hentry
    · obtain rfl := List.mem_singleton.1 hentry
      exact (Memo.grouped_compare hset pass pass set).2 (.inr ⟨rfl, rfl⟩)

/-- A set that is marked as followed is entered for the first time. -/
theorem right_follow (h : journal.Right resolved memo) (hset : memo.fields? id = some set)
    (hnew : (memo.entry id).followed pass ≠ true) :
    ({ journal with expanded := journal.expanded ++ [(pass, set)] } : Journal).Right resolved
      (memo.update id fun entry => entry.follow pass) := by
  have hkept := h.mono (h.arises.follow pass id) (.follow memo pass id)
  refine { hkept with expanded := ?_, followed := fun entry hentry => ?_ }
  · refine List.nodup_append'.2 ⟨h.expanded, List.nodup_singleton _, List.disjoint_singleton.2 fun hmem => ?_⟩
    exact hnew ((h.arises.distinct.marked_iff hset).1 (h.followed _ hmem))
  · rcases List.mem_append.1 hentry with hentry | hentry
    · exact hkept.followed entry hentry
    · obtain rfl := List.mem_singleton.1 hentry
      exact (Memo.followed_follow hset pass pass set).2 (.inr ⟨rfl, rfl⟩)

/-- A call is entered with its memo. -/
theorem right_call (h : journal.Right resolved memo) (hset : memo.fields? id = some set) :
    ({ journal with calls := journal.calls ++ [(id, memo)] } : Journal).Right resolved memo := by
  refine { h with calls := fun call hcall => ?_ }
  rcases List.mem_append.1 hcall with hcall | hcall
  · exact h.calls call hcall
  · obtain rfl := List.mem_singleton.1 hcall
    exact ⟨h.arises, set, hset⟩

/-- Reading a group changes nothing and fails on the shape of a field. -/
theorem safe_readGroup (h : journal.Right resolved memo) (pass : Pass) (fields : List FieldId) :
    Safe resolved (does (Check.readGroup resolved pass fields)) memo journal Done
      fun defect => ∃ i, resolved.shape i = .error defect := by
  obtain ⟨result, hrun⟩ := Check.exists_runOn_readGroup resolved pass fields
  refine safe_does h ?_ ?_ (fun _ _ => trivial) fun defect hfails => ?_
  · rw [hrun]
    exact h.arises
  · rw [hrun]
    exact .refl memo
  · obtain ⟨i, -, hshape⟩ := Check.exists_shape_of_readGroup_fails hfails
    exact ⟨i, hshape⟩

/-- Comparing pairs leaves the entries alone. -/
theorem safe_comparePairs {fails : Defect → Prop} (h : journal.Right resolved memo)
    (pairs : List (FieldId × FieldId)) :
    Safe resolved (does (pairs.forM fun (a, b) => Check.comparePair resolved a b)) memo journal Done fails := by
  refine safe_does_total h (Check.Total.forM (fun _ => Check.total_comparePair resolved _ _) pairs)
    fun _ after hreturns => ?_
  have hentries := (@Check.comparePairs_returns resolved _ after [] _ hreturns).1
  exact ⟨h.arises.other hentries, .of_entries hentries, trivial⟩

/-- A group is compared once, and fails on the shape of a field. -/
theorem safe_compareGroup (h : journal.Right resolved memo) (pass : Pass) (hset : memo.fields? id = some set) :
    Safe resolved (compareGroup resolved pass id) memo journal Done
      fun defect => ∃ i, resolved.shape i = .error defect := by
  unfold compareGroup
  refine (safe_entry h id).bind fun entry after later hright _ hread => ?_
  obtain ⟨rfl, rfl⟩ := hread
  split
  next => exact safe_pure hright trivial
  next hnew =>
    rw [Memo.fields_entry hset]
    apply safe_mark (.compare after pass id)
    refine (safe_modify (right_compare hright hset hnew) (by rfl)).bind fun _ counted later hright _ _ => ?_
    refine (safe_readGroup hright pass set).bind fun _ read later hright _ _ => ?_
    exact safe_comparePairs hright _

/-- What stops the pass from a set: the shape of a field, or the depth is used up in calls on sets that
are all different and not marked in the memo, but for the last. -/
def StopsFrom (resolved : ResolvedGraph) (pass : Pass) (depth : Nat) (memo : Memo) (set : List FieldId)
    (defect : Defect) : Prop :=
  (∃ i, resolved.shape i = .error defect) ∨ defect = .depthExhausted ∧
    ∃ rest, (set :: rest).length = depth + 1 ∧ (set :: rest).IsChain (resolved.LeadsOn pass) ∧
      (set :: rest).dropLast.Nodup ∧ ∀ x ∈ (set :: rest).dropLast, ¬ memo.Followed pass x

/-- What stops the call on the sub-selections of a group stops the pass from the set, which was marked
before the call. -/
theorem StopsFrom.call (hgroup : group ∈ resolved.groups pass set) (hgrows : memo.Grows start)
    (hnew : ¬ memo.Followed pass set) (hmarked : start.Followed pass set)
    (h : StopsFrom resolved pass depth start (resolved.children group) defect) :
    StopsFrom resolved pass (depth + 1) memo set defect := by
  refine h.imp_right ?_
  rintro ⟨hdefect, rest, hlength, hchain, hnodup, hunmarked⟩
  refine ⟨hdefect, resolved.children group :: rest, ?_, ?_, ?_, ?_⟩
  · rw [List.length_cons, hlength]
  · exact List.isChain_cons_cons.2 ⟨⟨group, hgroup, rfl⟩, hchain⟩
  · rw [List.dropLast_cons_cons]
    exact List.nodup_cons.2 ⟨fun hmem => hunmarked set hmem hmarked, hnodup⟩
  · rw [List.dropLast_cons_cons]
    intro x hx hold
    rcases List.mem_cons.1 hx with rfl | hx
    · exact hnew hold
    · exact hunmarked x hx (hgrows.followed pass x hold)

/-- A pass is safe from every set. -/
theorem safe_follow (h : journal.Right resolved memo) (pass : Pass) (depth : Nat)
    (hset : memo.fields? id = some set) :
    Safe resolved (follow resolved pass depth id) memo journal Done (StopsFrom resolved pass depth memo set) := by
  induction depth generalizing memo journal id set with
  | zero =>
    refine safe_write (safe_throw (right_call h hset) (.inr ⟨rfl, [], rfl, List.isChain_singleton _, .nil, ?_⟩))
    simp
  | succ depth ih =>
    unfold follow
    refine safe_write ?_
    refine (safe_entry (right_call h hset) id).bind fun entry after later hright _ hread => ?_
    obtain ⟨rfl, rfl⟩ := hread
    split
    next => exact safe_pure hright trivial
    next hnew =>
      rw [Memo.fields_entry hset]
      have hunmarked : ¬ after.Followed pass set := fun hold =>
        hnew ((h.arises.distinct.marked_iff hset).1 hold)
      have hmarked : (after.update id fun entry => entry.follow pass).Followed pass set :=
        (Memo.followed_follow hset pass pass set).2 (.inr ⟨rfl, rfl⟩)
      have hgrown := Memo.Grows.follow after pass id
      apply safe_mark hgrown
      refine (safe_keyGroups (right_follow hright hset hnew) (hgrown.fields _ _ hset)).bind
        fun keys asked later hasked hgrown' hkeys => ?_
      refine safe_forM (fun key hkey start now hstart hgrows => ?_) hasked
      obtain ⟨fields, hfields, hkey⟩ := hkeys.exists_set hkey
      refine (safe_parts hstart pass (hgrows.fields _ _ hkey)).bind fun parts asked' later hasked' hgrows' hparts => ?_
      refine safe_forM (fun part hpart start' now' hstart' hgrows'' => ?_) hasked'
      obtain ⟨group, hgroup, hpart⟩ := hparts.exists_set hpart
      have hpart' := hgrows''.fields _ _ hpart
      refine ((safe_compareGroup hstart' pass hpart').mono fun _ => .inl).bind
        fun _ compared later hcompared hgrows₁ _ => ?_
      refine (safe_children hcompared (hgrows₁.fields _ _ hpart')).bind fun child start later hstart hgrows₂ hchild => ?_
      -- On the way to the call the memo only grew, and the set was marked at its beginning.
      have hway := ((((hgrown'.trans hgrows).trans hgrows').trans hgrows'').trans hgrows₁).trans hgrows₂
      refine (ih hstart hchild).mono fun defect hstops => ?_
      exact hstops.call (ResolvedGraph.mem_groups.2 ⟨fields, hfields, hgroup⟩) (hgrown.trans hway) hunmarked
        (hway.followed pass set hmarked)

/-- With more depth than there are sets to come to, a pass is stopped by nothing but the shape of a
field. -/
theorem StopsFrom.exists_shape (h : StopsFrom resolved pass depth memo set defect)
    (hgraph : resolved.graph.WellFormed) (hdepth : (resolved.reachedSets pass set).ncard < depth) :
    ∃ i, resolved.shape i = .error defect := by
  obtain hshape | ⟨-, rest, hlength, hchain, hnodup, -⟩ := h
  · exact hshape
  · have hle := ResolvedGraph.length_le_ncard hgraph hnodup fun x hx =>
      ResolvedGraph.reached_of_chain hchain x (List.mem_of_mem_dropLast hx)
    rw [List.length_dropLast, hlength] at hle
    omega

/-- The passes from a root are stopped by nothing but the shape of a field. -/
theorem safe_followRoot (hgraph : resolved.graph.WellFormed) (h : journal.Right resolved memo) (pass : Pass)
    {root : ContainerId} (hset : memo.fields? id = some (resolved.fieldSet root)) :
    Safe resolved (follow resolved pass (Check.depth resolved) id) memo journal Done
      fun defect => ∃ i, resolved.shape i = .error defect := by
  have hmem : resolved.fieldSet root ∈ resolved.fieldSets := ResolvedGraph.fieldsOf_mem_fieldSets hgraph _
  have hdepth := Nat.lt_succ_of_le (ResolvedGraph.ncard_reachedSets_le hgraph pass hmem)
  exact (safe_follow h pass (Check.depth resolved) hset).mono fun defect hstops => hstops.exists_shape hgraph hdepth

theorem safe_checkRoot (hgraph : resolved.graph.WellFormed) (h : journal.Right resolved memo)
    (root : ContainerId) :
    Safe resolved (checkRoot resolved root) memo journal (fun _ _ => True)
      fun defect => ∃ i, resolved.shape i = .error defect := by
  unfold checkRoot
  refine (safe_modify h (by rfl)).bind fun _ start later hstart _ _ => ?_
  refine (safe_lookup hstart (resolved.fieldSet root)).bind fun id looked later hlooked _ hset => ?_
  refine (safe_followRoot hgraph hlooked .shapes hset).bind fun _ middle later hmiddle hgrows _ => ?_
  refine (safe_followRoot hgraph hmiddle .calls (hgrows.fields _ _ hset)).bind fun _ final later hfinal _ _ => ?_
  have hget : Safe resolved (does get) final later (fun _ _ => True)
      fun defect => ∃ i, resolved.shape i = .error defect :=
    safe_does_total hfinal Check.total_get fun _ _ hreturns => by
      obtain ⟨-, rfl⟩ := Check.returns_get.1 hreturns
      exact ⟨hfinal.arises, .refl _, trivial⟩
  exact hget.bind fun _ last later hlast _ _ => safe_pure hlast trivial

/-- A check keeps its journal in order and is stopped by nothing but the shape of a field. -/
theorem safe_checkRoots (hgraph : resolved.graph.WellFormed) (h : journal.Right resolved memo) :
    Safe resolved (checkRoots resolved) memo journal (fun _ _ => True)
      fun defect => ∃ i, resolved.shape i = .error defect := by
  unfold checkRoots
  refine (safe_modify h (by rfl)).bind fun _ start later hstart _ _ => ?_
  refine (safe_mapM (fun root _ _ hright => safe_checkRoot hgraph hright root) hstart).bind
    fun found after later hafter _ _ => ?_
  exact (safe_modify hafter (by rfl)).bind fun _ last later hlast _ _ => safe_pure hlast trivial

end Passes

end Journaled

/-- A journal can be begun at any memo that arises. -/
theorem Journal.right_empty {resolved : ResolvedGraph} {memo : Memo} (h : memo.Arises resolved) :
    Journal.empty.Right resolved memo := by
  refine ⟨h, ?_, .nil, ?_, .nil, ?_⟩ <;> simp [Journal.empty]

/-- What stops a pass from a memo that arises. -/
theorem Check.follow_stops {resolved : ResolvedGraph} {memo : Memo} {id : SetId} {set : List FieldId}
    {depth : Nat} {defect : Defect} (harises : memo.Arises resolved) (hset : memo.fields? id = some set)
    {pass : Pass} (h : ((Check.follow resolved pass depth id).runOn memo).1 = .error defect) :
    Journaled.StopsFrom resolved pass depth memo set defect := by
  apply (Journaled.safe_follow (Journal.right_empty harises) pass depth hset).fails
  rw [← h, ← Journaled.follow_follows pass depth id memo Journal.empty]

/-- A check is stopped by nothing but the shape of a field. -/
theorem ResolvedGraph.exists_shape_of_check_fails {resolved : ResolvedGraph}
    (hgraph : resolved.graph.WellFormed) {defect : Defect} (h : resolved.check.1 = .error defect) :
    ∃ i, resolved.shape i = .error defect := by
  have hfollows := Journaled.checkRoots_follows resolved Memo.empty Journal.empty
  apply (Journaled.safe_checkRoots hgraph (Journal.right_empty .empty)).fails
  exact (congrArg Prod.fst hfollows).trans h

end SelectionMerge
