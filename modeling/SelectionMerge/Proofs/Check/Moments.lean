import SelectionMerge.Proofs.Check.Arising
import SelectionMerge.Proofs.Check.Fails
import SelectionMerge.Proofs.Check.Regular
import SelectionMerge.Proofs.Expansion.FieldSets

/-!
# The memo at every moment

`Watched.Tracks` says of a step that is watched that it is the step of the check, and that the memo is in
order at each of its moments and the operation called on what it is for. It is proved for one step after the
other and by induction on the depth for a pass (`Watched.tracks_follow`), and so for a whole check
(`Watched.tracks_checkRoots`).
-/

namespace SelectionMerge
set_option autoImplicit false

variable {resolved : ResolvedGraph}

/-- What an operation is called on: keys of look-ups are ascending, numbers are those of entries, groups are
groups of a set, and pairs are those that the pass compares in a group. -/
def Check.Operation.Fits (resolved : ResolvedGraph) (memo : Memo) : Check.Operation → Prop
  | .lookup fields => fields.Pairwise (· < ·)
  | .keyGroups id | .parentGroups id | .children id | .follow _ id => ∃ set, memo.fields? id = some set
  | .compareGroup pass id => ∃ set, ∃ group ∈ resolved.groups pass set, memo.fields? id = some group
  | .comparePair pass a b => ∃ set, ∃ group ∈ resolved.groups pass set, (a, b) ∈ resolved.pairs pass group
  | .checkRoot _ | .usage => True

/-- What an operation is called on stays what it is for. -/
theorem Check.Operation.Fits.mono {memo after : Memo} {operation : Check.Operation}
    (h : operation.Fits resolved memo) (hgrows : memo.Grows after) : operation.Fits resolved after := by
  cases operation with
  | lookup fields => exact h
  | keyGroups id | parentGroups id | children id | follow pass id =>
    obtain ⟨set, hset⟩ := h
    exact ⟨set, hgrows.fields _ _ hset⟩
  | compareGroup pass id =>
    obtain ⟨set, group, hgroup, hid⟩ := h
    exact ⟨set, group, hgroup, hgrows.fields _ _ hid⟩
  | comparePair pass a b => exact h
  | checkRoot root => exact h
  | usage => exact h

/-- All is in order at the moment. -/
structure Moment.Right (resolved : ResolvedGraph) (moment : Moment) : Prop where
  regular : moment.memo.Regular resolved moment.index
  fits : moment.operation.Fits resolved moment.memo

/-- All is in order now and was at every moment so far. -/
structure Watch.Right (resolved : ResolvedGraph) (memo : Memo) (watch : Watch) : Prop where
  regular : memo.Regular resolved watch.index
  moments : ∀ moment ∈ watch.moments, moment.Right resolved

namespace Watched

variable {α β γ : Type} {memo : Memo} {watch : Watch}

/-- The step is that of the check, keeps all in order and the memo growing, and returns as stated. -/
structure Tracks (resolved : ResolvedGraph) (step : Watched α) (plain : Check α) (memo : Memo) (watch : Watch)
    (returns : α → Memo → Prop) : Prop where
  same : ((runOn step memo watch).1, (runOn step memo watch).2.1) = plain.runOn memo
  right : (runOn step memo watch).2.2.Right resolved (runOn step memo watch).2.1
  grows : memo.Grows (runOn step memo watch).2.1
  returns : ∀ a, (runOn step memo watch).1 = .ok a → returns a (runOn step memo watch).2.1

/-- A step that gives nothing. -/
abbrev Done : PUnit → Memo → Prop := fun _ _ => True

section Rules

variable {returns : α → Memo → Prop} {returns' : β → Memo → Prop}

theorem tracks_pure {a : α} (h : watch.Right resolved memo) (ha : returns a memo) :
    Tracks resolved (pure a) (pure a) memo watch returns where
  same := rfl
  right := h
  grows := .refl memo
  returns b hb := by
    obtain rfl := Except.ok.inj hb
    exact ha

theorem tracks_throw {defect : Defect} (h : watch.Right resolved memo) :
    Tracks resolved (throw defect) (throw defect) memo watch returns where
  same := rfl
  right := h
  grows := .refl memo
  returns a ha := by cases ha

/-- A step of the check that leaves the memo in order and the index to the entries. -/
theorem tracks_does {plain : Check α} (h : watch.Right resolved memo)
    (hregular : (plain.runOn memo).2.Regular resolved watch.index) (hgrows : memo.Grows (plain.runOn memo).2)
    (hreturns : ∀ a, (plain.runOn memo).1 = .ok a → returns a (plain.runOn memo).2) :
    Tracks resolved (does plain) plain memo watch returns where
  same := rfl
  right := ⟨hregular, h.moments⟩
  grows := hgrows
  returns := hreturns

/-- The moments of an operation are added to those of its step. -/
theorem tracks_during {operation : Check.Operation} {step : Watched α} {plain : Check α}
    (hfits : operation.Fits resolved memo) (h : watch.Right resolved memo)
    (hstep : ∀ later : Watch, later.Right resolved memo → later.index = watch.index →
      Tracks resolved step plain memo later returns) :
    Tracks resolved (during operation step) plain memo watch returns := by
  have hcall : (observe operation memo watch).Right resolved memo := by
    refine ⟨h.regular, fun moment hmoment => ?_⟩
    rcases List.mem_append.1 hmoment with hmoment | hmoment
    · exact h.moments moment hmoment
    · obtain rfl := List.mem_singleton.1 hmoment
      exact ⟨h.regular, hfits⟩
  have hbody := hstep _ hcall rfl
  refine ⟨hbody.same, ⟨hbody.right.regular, fun moment hmoment => ?_⟩, hbody.grows, hbody.returns⟩
  rcases List.mem_append.1 hmoment with hmoment | hmoment
  · exact hbody.right.moments moment hmoment
  · obtain rfl := List.mem_singleton.1 hmoment
    exact ⟨hbody.right.regular, hfits.mono hbody.grows⟩

/-- A step and what follows it, one after the other. -/
theorem Tracks.bind {step : Watched α} {plain : Check α} {next : α → Watched β} {next' : α → Check β}
    (h : Tracks resolved step plain memo watch returns)
    (hnext : ∀ a after later, later.Right resolved after → memo.Grows after → returns a after →
      Tracks resolved (next a) (next' a) after later returns') :
    Tracks resolved (step >>= next) (plain >>= next') memo watch returns' := by
  obtain ⟨hsame, hright, hgrows, hreturns⟩ := h
  have hbind := runOn_bind step next memo watch
  have hplain := Check.runOn_bind plain next' memo
  rw [← hsame] at hplain
  generalize runOn step memo watch = state at hright hgrows hreturns hbind hplain
  obtain ⟨result, after, later⟩ := state
  cases result with
  | error defect =>
    refine ⟨by rw [hbind, hplain], by rw [hbind]; exact hright, by rw [hbind]; exact hgrows, fun b hb => ?_⟩
    rw [hbind] at hb
    cases hb
  | ok a =>
    have hrest := hnext a after later hright hgrows (hreturns a rfl)
    refine ⟨?_, by rw [hbind]; exact hrest.right, by rw [hbind]; exact hgrows.trans hrest.grows,
      by rw [hbind]; exact hrest.returns⟩
    rw [hbind, hplain]
    exact hrest.same

/-- A loop, if its turns do so from every memo that has grown from the first. -/
theorem tracks_forM {step : γ → Watched PUnit} {plain : γ → Check PUnit} {items : List γ}
    (hturn : ∀ c ∈ items, ∀ after later, later.Right resolved after → memo.Grows after →
      Tracks resolved (step c) (plain c) after later Done)
    (h : watch.Right resolved memo) : Tracks resolved (items.forM step) (items.forM plain) memo watch Done := by
  suffices hloop : ∀ start now, now.Right resolved start → memo.Grows start →
      Tracks resolved (items.forM step) (items.forM plain) start now Done from hloop memo watch h (.refl memo)
  clear h
  induction items with
  | nil => exact fun start now hstart _ => tracks_pure hstart trivial
  | cons c items ih =>
    intro start now hstart hgrows
    refine (hturn c (.head _) start now hstart hgrows).bind fun _ after later hafter hmore _ => ?_
    exact ih (fun c hc => hturn c (.tail _ hc)) after later hafter (hgrows.trans hmore)

/-- A loop with results that go with the items one by one, and stay so when the memo grows. -/
theorem tracks_mapM {step : γ → Watched α} {plain : γ → Check α} {fits : Memo → γ → α → Prop} {items : List γ}
    (hstays : ∀ {start finish c a}, fits start c a → start.Grows finish → fits finish c a)
    (hturn : ∀ c ∈ items, ∀ after later, later.Right resolved after →
      Tracks resolved (step c) (plain c) after later (fun a finish => fits finish c a))
    (h : watch.Right resolved memo) :
    Tracks resolved (items.mapM step) (items.mapM plain) memo watch
      (fun results after => List.Forall₂ (fits after) items results) := by
  induction items generalizing memo watch with
  | nil =>
    rw [List.mapM_nil, List.mapM_nil]
    exact tracks_pure h .nil
  | cons c items ih =>
    rw [List.mapM_cons, List.mapM_cons]
    refine (hturn c (.head _) memo watch h).bind fun a after later hafter _ ha => ?_
    refine (ih (fun c hc => hturn c (.tail _ hc)) hafter).bind fun rest final last hlast hgrows hrest => ?_
    exact tracks_pure hlast (.cons (hstays ha hgrows) hrest)

end Rules

section Questions

variable {id : SetId} {set : List FieldId}

/-- An entry that is read. -/
theorem tracks_entry (h : watch.Right resolved memo) (id : SetId) :
    Tracks resolved (does (Check.entry id)) (Check.entry id) memo watch
      (fun entry after => entry = memo.entry id ∧ after = memo) := by
  refine tracks_does h h.regular (.refl memo) fun entry hentry => ?_
  exact ⟨(Except.ok.inj hentry).symm, rfl⟩

/-- A change of what is neither an entry nor counted. -/
theorem tracks_modify (h : watch.Right resolved memo) {change : Memo → Memo}
    (hentries : (change memo).entries = memo.entries) (hmisses : (change memo).misses = memo.misses)
    (hgroups : (change memo).groups = memo.groups) :
    Tracks resolved (does (modify change)) (modify change) memo watch Done :=
  tracks_does h (h.regular.congr hentries hmisses hgroups) (.of_entries hentries) fun _ _ => trivial

/-- A set that is looked up. Index and entries find the same. -/
theorem tracks_lookup (h : watch.Right resolved memo) (hset : set.Pairwise (· < ·)) :
    Tracks resolved (lookup set) (Check.lookup set) memo watch (fun id after => after.fields? id = some set) := by
  refine tracks_during hset h fun later hlater hindex => ?_
  have hlookup := h.regular.lookup_eq set
  have hplain := Check.runOn_lookup set memo
  have hreturns : ∀ id after, (Check.lookup set).runOn memo = (.ok id, after) →
      after.Sound resolved ∧ memo.Widens after ∧ after.fields? id = some set :=
    fun id after hrun => Check.lookup_returns h.regular.sound hrun
  rw [← hindex] at hlookup
  cases hfind : memo.find? set with
  | some id =>
    rw [hfind] at hlookup hplain
    obtain ⟨-, hwidens, hid⟩ := hreturns _ _ hplain
    refine ⟨?_, ?_, ?_, ?_⟩ <;> simp only [runOn, ExceptT.run_mk, StateT.run] <;> rw [hlookup]
    · exact hplain.symm
    · exact ⟨hlater.regular.congr rfl rfl rfl, hlater.moments⟩
    · exact hwidens.grows
    · rintro _ ⟨⟩
      exact hid
  | none =>
    rw [hfind] at hlookup hplain
    obtain ⟨hsound, hwidens, hid⟩ := hreturns _ _ hplain
    refine ⟨?_, ?_, ?_, ?_⟩ <;> simp only [runOn, ExceptT.run_mk, StateT.run] <;> rw [hlookup]
    · exact hplain.symm
    · exact ⟨hlater.regular.push hfind hset hsound rfl rfl rfl, hlater.moments⟩
    · exact hwidens.grows
    · rintro _ ⟨⟩
      exact hid

/-- Ascending sets that are looked up one after the other. -/
theorem tracks_lookups (h : watch.Right resolved memo) {sets : List (List FieldId)}
    (hsets : ∀ set ∈ sets, set.Pairwise (· < ·)) :
    Tracks resolved (sets.mapM lookup) (sets.mapM Check.lookup) memo watch
      (fun ids after => after.Numbers sets ids) :=
  tracks_mapM (fun hset hgrows => hgrows.fields _ _ hset)
    (fun set hset _ _ hright => tracks_lookup hright (hsets set hset)) h

/-- An answer that is kept, or made and kept. -/
theorem tracks_cached {kept? : Entry → Option β} {keep : β → Entry → Entry} {make : List FieldId → Watched β}
    {plain : List FieldId → Check β} {fits : Memo → List FieldId → β → Prop}
    (hkeeps : Check.Keeps resolved kept? keep fits) (h : watch.Right resolved memo)
    (hset : memo.fields? id = some set)
    (hmake : ∀ later : Watch, later.Right resolved memo →
      Tracks resolved (make set) (plain set) memo later (fun answer after => fits after set answer)) :
    Tracks resolved (cached kept? keep make id) (Check.cached kept? keep plain id) memo watch
      (fun answer after => fits after set answer) := by
  obtain ⟨entry, hentry, rfl⟩ := Memo.fields?_eq_some.1 hset
  unfold cached Check.cached
  refine (tracks_entry h id).bind fun read after later hright _ hread => ?_
  obtain ⟨rfl, rfl⟩ := hread
  rw [Memo.entry_eq hentry]
  cases hkept : kept? entry with
  | some answer => exact tracks_pure hright (hkeeps.kept (h.regular.sound id entry hentry) hkept)
  | none =>
    refine (hmake later hright).bind fun answer made last hmade hgrows hfits => ?_
    have hset' := hgrows.fields _ _ hset
    obtain ⟨hsound, hwidens⟩ := hkeeps.update hmade.regular.sound hset' hfits
    have hregular := hmade.regular.update hset' hsound (hkeeps.fields answer) (hkeeps.compared answer)
    have hupdate : Tracks resolved (does (Check.update id (keep answer))) (Check.update id (keep answer)) made last
        (fun _ final => fits final entry.fields answer) :=
      tracks_does hmade hregular hwidens.grows fun _ _ => hkeeps.mono hfits hwidens
    exact hupdate.bind fun _ final last hfinal _ hfits => tracks_pure hfinal hfits

/-- The groups of one response key are looked up by ascending sets. -/
theorem tracks_keyGroups (h : watch.Right resolved memo) (hset : memo.fields? id = some set) :
    Tracks resolved (keyGroups resolved id) (Check.keyGroups resolved id) memo watch
      (fun ids after => after.Numbers (resolved.keyGroups set) ids) := by
  rw [Check.keyGroups_eq]
  refine tracks_during ⟨set, hset⟩ h fun later hlater _ => ?_
  refine tracks_cached (Check.keeps_keyGroups resolved) hlater hset fun now hnow => ?_
  refine tracks_lookups hnow fun group hgroup => ?_
  exact ResolvedGraph.pairwise_keyGroup hgroup (hlater.regular.ascending hset)

/-- The groups of fields that can stand in one object are looked up by ascending sets. -/
theorem tracks_parentGroups (h : watch.Right resolved memo) (hset : memo.fields? id = some set) :
    Tracks resolved (parentGroups resolved id) (Check.parentGroups resolved id) memo watch
      (fun ids after => after.Numbers (resolved.parentGroups set) ids) := by
  rw [Check.parentGroups_eq]
  refine tracks_during ⟨set, hset⟩ h fun later hlater _ => ?_
  refine tracks_cached (Check.keeps_parentGroups resolved) hlater hset fun now hnow => ?_
  refine tracks_lookups hnow fun group hgroup => ?_
  exact ResolvedGraph.pairwise_parentGroup hgroup (hlater.regular.ascending hset)

/-- The merged sub-selections are looked up by an ascending set. -/
theorem tracks_children (h : watch.Right resolved memo) (hset : memo.fields? id = some set) :
    Tracks resolved (children resolved id) (Check.children resolved id) memo watch
      (fun child after => after.fields? child = some (resolved.children set)) := by
  rw [Check.children_eq]
  refine tracks_during ⟨set, hset⟩ h fun later hlater _ => ?_
  exact tracks_cached (Check.keeps_children resolved) hlater hset fun now hnow =>
    tracks_lookup hnow (ResolvedGraph.pairwise_fieldsOf _ _)

/-- The parts of a group of one response key. -/
theorem tracks_parts (h : watch.Right resolved memo) (pass : Pass) (hset : memo.fields? id = some set) :
    Tracks resolved (parts resolved pass id) (Check.parts resolved pass id) memo watch
      (fun ids after => after.Numbers (resolved.parts pass set) ids) := by
  cases pass with
  | shapes => exact tracks_pure h (.cons hset .nil)
  | calls => exact tracks_parentGroups h hset

end Questions

section Passes

variable {id : SetId} {set : List FieldId} {pass : Pass}

/-- A pair of a group is compared. -/
theorem tracks_comparePair (h : watch.Right resolved memo) {a b : FieldId} {group : List FieldId}
    (hgroup : group ∈ resolved.groups pass set) (hpair : (a, b) ∈ resolved.pairs pass group) :
    Tracks resolved (comparePair resolved pass a b) (Check.comparePair resolved a b) memo watch Done := by
  refine tracks_during ⟨set, group, hgroup, hpair⟩ h fun later hlater _ => ?_
  obtain ⟨⟨⟩, after, hrun⟩ := (Check.total_comparePair resolved a b).exists_returns memo
  have hkept : after.entries = memo.entries ∧ after.misses = memo.misses ∧ after.groups = memo.groups := by
    obtain ⟨rfl, -⟩ | ⟨-, -, log, rfl⟩ := Check.comparePair_cases hrun
    · exact ⟨rfl, rfl, rfl⟩
    · exact ⟨rfl, rfl, rfl⟩
  obtain ⟨hentries, hmisses, hgroups⟩ := hkept
  refine tracks_does hlater ?_ ?_ fun _ _ => trivial
  · rw [hrun]
    exact hlater.regular.congr hentries hmisses hgroups
  · rw [hrun]
    exact .of_entries hentries

/-- A group that was not compared before is marked and counted. -/
theorem tracks_markCompared (h : watch.Right resolved memo) (hset : memo.fields? id = some set)
    (hnew : (memo.entry id).compared pass ≠ true) :
    Tracks resolved (does (markCompared pass id)) (markCompared pass id) memo watch Done := by
  obtain ⟨entry, hentry, -⟩ := Memo.fields?_eq_some.1 hset
  rw [Memo.entry_eq hentry] at hnew
  refine tracks_does h (h.regular.compare hentry pass hnew) ?_ fun _ _ => trivial
  exact (Memo.Grows.compare memo pass id).trans (.of_entries rfl)

/-- A group is read. -/
theorem tracks_readGroup (h : watch.Right resolved memo) (pass : Pass) (fields : List FieldId) :
    Tracks resolved (does (Check.readGroup resolved pass fields)) (Check.readGroup resolved pass fields)
      memo watch Done := by
  obtain ⟨result, hrun⟩ := Check.exists_runOn_readGroup resolved pass fields
  refine tracks_does h ?_ ?_ fun _ _ => trivial
  · rw [hrun]
    exact h.regular
  · rw [hrun]
    exact .refl memo

theorem compareGroup_eq (resolved : ResolvedGraph) (pass : Pass) (group : SetId) :
    Check.compareGroup resolved pass group = (do
      let entry ← Check.entry group
      if entry.compared pass then return
      markCompared pass group
      Check.readGroup resolved pass entry.fields
      (resolved.pairs pass entry.fields).forM fun (a, b) => Check.comparePair resolved a b) := by
  unfold Check.compareGroup markCompared
  simp only [bind_assoc]

/-- A group of a set is compared, once. -/
theorem tracks_compareGroup (h : watch.Right resolved memo) {group : List FieldId}
    (hgroup : group ∈ resolved.groups pass set) (hid : memo.fields? id = some group) :
    Tracks resolved (compareGroup resolved pass id) (Check.compareGroup resolved pass id) memo watch Done := by
  rw [compareGroup_eq]
  refine tracks_during ⟨set, group, hgroup, hid⟩ h fun later hlater _ => ?_
  refine (tracks_entry hlater id).bind fun entry after last hright _ hread => ?_
  obtain ⟨rfl, rfl⟩ := hread
  by_cases hdone : (after.entry id).compared pass = true
  · rw [if_pos hdone, if_pos hdone]
    exact tracks_pure hright trivial
  · rw [if_neg hdone, if_neg hdone, Memo.fields_entry hid]
    refine (tracks_markCompared hright hid hdone).bind fun _ marked last hmarked _ _ => ?_
    refine (tracks_readGroup hmarked pass group).bind fun _ read last hread _ _ => ?_
    exact tracks_forM (fun pair hpair _ _ hright _ => tracks_comparePair hright hgroup hpair) hread

/-- A set is marked as followed. -/
theorem tracks_markFollowed (h : watch.Right resolved memo) (pass : Pass) (hset : memo.fields? id = some set) :
    Tracks resolved (does (Check.update id fun entry => entry.follow pass))
      (Check.update id fun entry => entry.follow pass) memo watch Done := by
  refine tracks_does h ?_ (Memo.Grows.follow memo pass id) fun _ _ => trivial
  exact h.regular.update hset (h.regular.sound.follow id pass) (Entry.fields_follow pass)
    fun entry p => Entry.compared_follow p pass entry

/-- A pass that goes on from a set. By induction on the depth. -/
theorem tracks_follow (h : watch.Right resolved memo) (pass : Pass) (depth : Nat) (hset : memo.fields? id = some set) :
    Tracks resolved (follow resolved pass depth id) (Check.follow resolved pass depth id) memo watch Done := by
  induction depth generalizing memo watch id set with
  | zero => exact tracks_during ⟨set, hset⟩ h fun later hlater _ => tracks_throw hlater
  | succ depth ih =>
    refine tracks_during ⟨set, hset⟩ h fun later hlater _ => ?_
    refine (tracks_entry hlater id).bind fun entry after last hright _ hread => ?_
    obtain ⟨rfl, rfl⟩ := hread
    by_cases hdone : (after.entry id).followed pass = true
    · rw [if_pos hdone, if_pos hdone]
      exact tracks_pure hright trivial
    · rw [if_neg hdone, if_neg hdone]
      refine (tracks_markFollowed hright pass hset).bind fun _ marked last hmarked hgrows _ => ?_
      refine (tracks_keyGroups hmarked (hgrows.fields _ _ hset)).bind fun keys asked last hasked _ hkeys => ?_
      refine tracks_forM (fun key hkey start now hstart hgrows => ?_) hasked
      obtain ⟨fields, hfields, hkey⟩ := hkeys.exists_set hkey
      refine (tracks_parts hstart pass (hgrows.fields _ _ hkey)).bind fun parts split last hsplit _ hparts => ?_
      refine tracks_forM (fun part hpart start now hstart hgrows => ?_) hsplit
      obtain ⟨group, hgroup, hpart⟩ := hparts.exists_set hpart
      have hpart := hgrows.fields _ _ hpart
      have hmem := ResolvedGraph.mem_groups.2 ⟨fields, hfields, hgroup⟩
      refine (tracks_compareGroup hstart hmem hpart).bind fun _ compared last hcompared hgrows _ => ?_
      exact (tracks_children hcompared (hgrows.fields _ _ hpart)).bind fun child start last hstart _ hchild =>
        ih hstart hchild

/-- The check of one root. -/
theorem tracks_checkRoot (h : watch.Right resolved memo) (root : ContainerId) :
    Tracks resolved (checkRoot resolved root) (Check.checkRoot resolved root) memo watch (fun _ _ => True) := by
  unfold Check.checkRoot
  rw [Check.follow_shapes, Check.follow_calls]
  refine tracks_during trivial h fun later hlater _ => ?_
  refine (tracks_modify hlater (by rfl) (by rfl) (by rfl)).bind fun _ start last hstart _ _ => ?_
  refine (tracks_lookup hstart (ResolvedGraph.pairwise_fieldsOf _ _)).bind fun id looked last hlooked _ hset => ?_
  refine (tracks_follow hlooked .shapes (Check.depth resolved) hset).bind fun _ middle last hmiddle hgrows _ => ?_
  refine (tracks_follow hmiddle .calls (Check.depth resolved) (hgrows.fields _ _ hset)).bind
    fun _ final last hfinal _ _ => ?_
  have hget : Tracks resolved (does get) get final last (fun _ _ => True) :=
    tracks_does hfinal hfinal.regular (.refl final) fun _ _ => trivial
  exact hget.bind fun _ read last hread _ _ => tracks_pure hread trivial

/-- The check of all roots. -/
theorem tracks_checkRoots (h : watch.Right resolved memo) :
    Tracks resolved (checkRoots resolved) (Check.checkRoots resolved) memo watch (fun _ _ => True) := by
  unfold checkRoots Check.checkRoots
  refine (tracks_modify h (by rfl) (by rfl) (by rfl)).bind fun _ start last hstart _ _ => ?_
  refine (tracks_mapM (fun _ _ => trivial) (fun root _ _ _ hright => tracks_checkRoot hright root) hstart).bind
    fun found after last hafter _ _ => ?_
  refine Tracks.bind (tracks_during trivial hafter fun later hlater _ =>
    tracks_modify hlater (by rfl) (by rfl) (by rfl)) fun _ noted last hnoted _ _ => tracks_pure hnoted trivial

end Passes

end Watched

namespace ResolvedGraph

/-- A check that is watched comes to what the check comes to, and all is in order at every moment. -/
theorem tracks_check (resolved : ResolvedGraph) :
    Watched.Tracks resolved (Watched.checkRoots resolved) (Check.checkRoots resolved) Memo.empty Watch.start
      (fun _ _ => True) :=
  Watched.tracks_checkRoots ⟨Memo.regular_empty resolved, fun _ hmoment => by cases hmoment⟩

end ResolvedGraph

end SelectionMerge
