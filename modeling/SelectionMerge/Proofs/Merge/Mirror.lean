import SelectionMerge.Proofs.Check.Lockstep
import SelectionMerge.Proofs.Merge.Embedding

/-!
# Checks of graphs within graphs

Where a graph is part of a larger one, its check and that part of the other check go hand in hand. What
the two memos know of the fields of the smaller graph is the same but for the numbers
(`Memo.Mirrors`), and every step keeps it so: comparing a pair, comparing a group, a pass
(`Check.follow_lockstep`), a root and a list of roots (`Check.mapM_checkRoot_lockstep`).

The empty set is the only one that the larger graph may come to from its other fields as well. A pass
has nothing to do there, so its marks do not matter.
-/

namespace SelectionMerge
set_option autoImplicit false

namespace Memo

/-- Numbers keep their sets. -/
def Extends (memo after : Memo) : Prop :=
  ∀ {id set}, memo.fields? id = some set → after.fields? id = some set

/-- Nothing is done with any set but the empty one. -/
structure Idles (memo after : Memo) : Prop where
  fields : memo.Extends after
  followed : ∀ pass {set}, set ≠ [] → (after.Followed pass set ↔ memo.Followed pass set)
  grouped : ∀ pass {group}, group ≠ [] → (after.Grouped pass group ↔ memo.Grouped pass group)
  partners : after.partners = memo.partners
  findings : after.findings = memo.findings

/-- The memos know the same of the fields of the left graph, which the right one has under new numbers. -/
structure Mirrors (left right : ResolvedGraph) (rename : FieldId → FieldId) (memo memo' : Memo) : Prop where
  sound : memo.Sound left
  sound' : memo'.Sound right
  followed : ∀ pass {set}, left.Within set → set ≠ [] →
    (memo'.Followed pass (set.map rename) ↔ memo.Followed pass set)
  grouped : ∀ pass {group}, left.Within group → group ≠ [] →
    (memo'.Grouped pass (group.map rename) ↔ memo.Grouped pass group)
  compared : ∀ {a b}, a < left.graph.fields.size → b < left.graph.fields.size →
    memo'.compared (rename a) (rename b) = memo.compared a b
  findings : memo'.findings = memo.findings.map (Finding.rename rename)

/-- The memos mirror each other between two steps, where both are tidy. -/
structure Abreast (left right : ResolvedGraph) (rename : FieldId → FieldId) (memo memo' : Memo) : Prop where
  mirrors : Mirrors left right rename memo memo'
  tidy : memo.Tidy left
  tidy' : memo'.Tidy right

/-- The memo with nothing found under a root yet. -/
def reset (memo : Memo) : Memo :=
  { memo with findings := [] }

/-- Both memos go on, and stay abreast of each other. -/
structure KeepPace (left right : ResolvedGraph) (rename : FieldId → FieldId)
    (memo memo' after after' : Memo) : Prop where
  abreast : Abreast left right rename after after'
  fields : memo.Extends after
  fields' : memo'.Extends after'

variable {left right : ResolvedGraph} {rename : FieldId → FieldId}
variable {memo memo' middle middle' after after' : Memo}

theorem Widens.idles (h : memo.Widens after) : memo.Idles after where
  fields := h.fields
  followed pass {set} _ := h.followed pass set
  grouped pass {group} _ := h.grouped pass group
  partners := h.partners
  findings := h.findings

theorem Mirrors.idles (h : Mirrors left right rename memo memo') (hleft : memo.Idles after)
    (hright : memo'.Idles after') (hsound : after.Sound left) (hsound' : after'.Sound right) :
    Mirrors left right rename after after' where
  sound := hsound
  sound' := hsound'
  followed pass {set} hset hne := by
    have hne' : set.map rename ≠ [] := by simpa using hne
    rw [hleft.followed pass hne, hright.followed pass hne']
    exact h.followed pass hset hne
  grouped pass {group} hgroup hne := by
    have hne' : group.map rename ≠ [] := by simpa using hne
    rw [hleft.grouped pass hne, hright.grouped pass hne']
    exact h.grouped pass hgroup hne
  compared {a b} ha hb := by
    rw [compared_congr hleft.partners, compared_congr hright.partners]
    exact h.compared ha hb
  findings := by
    rw [hleft.findings, hright.findings]
    exact h.findings

/-- Besides its entries, what a memo knows are the pairs and the findings. -/
theorem Mirrors.congr (h : Mirrors left right rename memo memo') (hentries : after.entries = memo.entries)
    (hentries' : after'.entries = memo'.entries)
    (hcompared : ∀ {a b}, a < left.graph.fields.size → b < left.graph.fields.size →
      after'.compared (rename a) (rename b) = after.compared a b)
    (hfindings : after'.findings = after.findings.map (Finding.rename rename)) :
    Mirrors left right rename after after' where
  sound := h.sound.congr hentries
  sound' := h.sound'.congr hentries'
  followed pass {_} hset hne := by
    refine (marked_congr hentries' _).trans ?_
    exact (h.followed pass hset hne).trans (marked_congr hentries _).symm
  grouped pass {_} hgroup hne := by
    refine (marked_congr hentries' _).trans ?_
    exact (h.grouped pass hgroup hne).trans (marked_congr hentries _).symm
  compared := hcompared
  findings := hfindings

section Marks

variable {id id' : SetId} {set : List FieldId}

/-- The same set is marked on both sides. -/
theorem Mirrors.follow (h : Mirrors left right rename memo memo') (hinjective : rename.Injective)
    (hset : memo.fields? id = some set) (hset' : memo'.fields? id' = some (set.map rename)) (pass : Pass) :
    Mirrors left right rename (memo.update id fun entry => entry.follow pass)
      (memo'.update id' fun entry => entry.follow pass) where
  sound := h.sound.follow id pass
  sound' := h.sound'.follow id' pass
  followed p {x} hx hne := by
    rw [followed_follow hset, followed_follow hset', h.followed p hx hne, (List.map_injective_iff.2 hinjective).eq_iff]
  grouped p {x} hx hne := by
    rw [grouped_follow, grouped_follow]
    exact h.grouped p hx hne
  compared := h.compared
  findings := h.findings

/-- The same group is marked on both sides. -/
theorem Mirrors.compare (h : Mirrors left right rename memo memo') (hinjective : rename.Injective)
    (hset : memo.fields? id = some set) (hset' : memo'.fields? id' = some (set.map rename)) (pass : Pass) :
    Mirrors left right rename (memo.update id fun entry => entry.compare pass)
      (memo'.update id' fun entry => entry.compare pass) where
  sound := h.sound.compare id pass
  sound' := h.sound'.compare id' pass
  followed p {x} hx hne := by
    rw [followed_compare, followed_compare]
    exact h.followed p hx hne
  grouped p {x} hx hne := by
    rw [grouped_compare hset, grouped_compare hset', h.grouped p hx hne, (List.map_injective_iff.2 hinjective).eq_iff]
  compared := h.compared
  findings := h.findings

end Marks

theorem Abreast.reset (h : Abreast left right rename memo memo') :
    Abreast left right rename memo.reset memo'.reset where
  mirrors := h.mirrors.congr rfl rfl h.mirrors.compared rfl
  tidy := h.tidy.congr rfl
  tidy' := h.tidy'.congr rfl

namespace KeepPace

theorem refl (h : Abreast left right rename memo memo') : KeepPace left right rename memo memo' memo memo' :=
  ⟨h, id, id⟩

theorem trans (h : KeepPace left right rename memo memo' middle middle')
    (h' : KeepPace left right rename middle middle' after after') :
    KeepPace left right rename memo memo' after after' :=
  ⟨h'.abreast, fun hset => h'.fields (h.fields hset), fun hset => h'.fields' (h.fields' hset)⟩

end KeepPace

end Memo

namespace Check

open Memo

variable {left right resolved : ResolvedGraph} {rename : FieldId → FieldId} {pass : Pass}
variable {memo memo' after : Memo} {id id' : SetId} {set group : List FieldId}

/-- From the empty set a pass comes to an end at once. -/
theorem follow_nil_returns (hsound : memo.Sound resolved) (hset : memo.fields? id = some []) (pass : Pass)
    (depth : Nat) :
    ∃ after, Returns (follow resolved pass (depth + 1) id) memo () after ∧
      after.Sound resolved ∧ memo.Idles after := by
  unfold follow
  by_cases hdone : (memo.entry id).followed pass = true
  · refine ⟨memo, returns_bind.2 ⟨_, _, returns_entry.2 ⟨rfl, rfl⟩, ?_⟩, hsound, (Widens.refl memo).idles⟩
    rw [if_pos hdone]
    exact returns_pure.2 ⟨rfl, rfl⟩
  · have hsound' := hsound.follow id pass
    have hset' : (memo.update id fun entry => entry.follow pass).fields? id = some [] :=
      (fields?_update (Entry.fields_follow pass) id).trans hset
    obtain ⟨ids, after, hkeys⟩ := (total_keyGroups resolved id).exists_returns
      (memo.update id fun entry => entry.follow pass)
    obtain ⟨hafter, hwidens, hnumbers⟩ := keyGroups_returns hsound' hset' hkeys
    cases hnumbers
    refine ⟨after, returns_bind.2 ⟨_, _, returns_entry.2 ⟨rfl, rfl⟩, ?_⟩, hafter, ?_⟩
    · rw [if_neg hdone]
      exact returns_bind.2 ⟨(), _, returns_modify.2 rfl, returns_bind.2 ⟨_, _, hkeys, returns_pure.2 ⟨rfl, rfl⟩⟩⟩
    · constructor
      case fields => exact fun h => hwidens.fields ((fields?_update (Entry.fields_follow pass) _).trans h)
      case followed =>
        intro p x hne
        rw [hwidens.followed, followed_follow hset]
        exact or_iff_left fun h => hne h.2
      case grouped =>
        intro p x _
        rw [hwidens.grouped, grouped_follow]
      case partners => exact hwidens.partners
      case findings => exact hwidens.findings

section Asking

variable {α : Type} {step step' : Check α} {fits fits' : Memo → α → Prop}

/-- Asking both memos keeps them abreast. -/
theorem ask_lockstep (hmemo : Abreast left right rename memo memo') (hleft : Total step) (hright : Total step')
    (hasks : ∀ {a after}, Returns step memo a after → after.Sound left ∧ memo.Widens after ∧ fits after a)
    (hasks' : ∀ {a after}, Returns step' memo' a after → after.Sound right ∧ memo'.Widens after ∧ fits' after a)
    (htidy : Upholds left step) (htidy' : Upholds right step') :
    Lockstep (fun a after a' after' =>
        KeepPace left right rename memo memo' after after' ∧ fits after a ∧ fits' after' a')
      step memo step' memo' := by
  refine .of_total hleft hright fun {a after a' after'} hstep hstep' => ?_
  obtain ⟨hsound, hwidens, hfits⟩ := hasks hstep
  obtain ⟨hsound', hwidens', hfits'⟩ := hasks' hstep'
  refine ⟨⟨⟨?_, ?_, ?_⟩, hwidens.fields, hwidens'.fields⟩, hfits, hfits'⟩
  · exact hmemo.mirrors.idles hwidens.idles hwidens'.idles hsound hsound'
  · exact htidy _ _ _ hmemo.tidy hstep
  · exact htidy' _ _ _ hmemo.tidy' hstep'

end Asking

section Steps

variable (h : left.Embeds right rename)
include h

/-- A pair is compared on both sides or on neither. -/
theorem comparePair_lockstep (hmemo : Mirrors left right rename memo memo') {a b : FieldId}
    (ha : a < left.graph.fields.size) (hb : b < left.graph.fields.size) :
    Lockstep (fun _ after _ after' => Mirrors left right rename after after' ∧
        after.entries = memo.entries ∧ after'.entries = memo'.entries)
      (comparePair left a b) memo (comparePair right (rename a) (rename b)) memo' := by
  refine .of_total (total_comparePair _ _ _) (total_comparePair _ _ _) fun {_ after _ after'} hstep hstep' => ?_
  have hmin : min a b < left.graph.fields.size := lt_of_le_of_lt (min_le_left a b) ha
  have hmax : max a b < left.graph.fields.size := max_lt ha hb
  have hsame : (rename a = rename b ∨ memo'.compared (rename (min a b)) (rename (max a b)) = true) ↔
      (a = b ∨ memo.compared (min a b) (max a b) = true) := by
    rw [h.mono.injective.eq_iff, hmemo.compared hmin hmax]
  have hcases := comparePair_cases hstep
  have hcases' := comparePair_cases hstep'
  rw [← h.mono.monotone.map_min, ← h.mono.monotone.map_max] at hcases'
  obtain ⟨rfl, hdone⟩ | ⟨hne, hnew, log, rfl⟩ := hcases
  · obtain ⟨rfl, -⟩ | ⟨hne', hnew', -⟩ := hcases'
    · exact ⟨hmemo, rfl, rfl⟩
    · exact absurd (hsame.2 hdone) (not_or.2 ⟨hne', hnew'⟩)
  · obtain ⟨rfl, hdone'⟩ | ⟨-, -, log', rfl⟩ := hcases'
    · exact absurd (hsame.1 hdone') (not_or.2 ⟨hne, hnew⟩)
    · refine ⟨hmemo.congr rfl rfl (fun {c d} hc hd => ?_) ?_, rfl, rfl⟩
      · change (memo'.remember (rename (min a b)) (rename (max a b))).compared (rename c) (rename d) =
          (memo.remember (min a b) (max a b)).compared c d
        have hbeq : ∀ i j, (rename i == rename j) = (i == j) := fun i j => by
          rw [Bool.eq_iff_iff, beq_iff_eq, beq_iff_eq, h.mono.injective.eq_iff]
        rw [compared_remember, compared_remember, hmemo.compared hc hd, hbeq, hbeq]
      · change memo'.findings ++ right.findings (rename (min a b)) (rename (max a b)) = _
        rw [hmemo.findings, h.findings hmin hmax, ← List.map_append]

/-- The pairs of a group are compared on both sides. -/
theorem comparePairs_lockstep (hmemo : Mirrors left right rename memo memo') (hgroup : left.Within group) :
    Lockstep (fun _ after _ after' => Mirrors left right rename after after' ∧
        after.entries = memo.entries ∧ after'.entries = memo'.entries)
      ((left.pairs pass group).forM fun (a, b) => comparePair left a b) memo
      ((right.pairs pass (group.map rename)).forM fun (a, b) => comparePair right a b) memo' := by
  rw [h.pairs hgroup]
  have hpairs : List.Forall₂ (fun pair pair' => pair ∈ left.pairs pass group ∧ pair' = Prod.map rename rename pair)
      (left.pairs pass group) ((left.pairs pass group).map (Prod.map rename rename)) := by
    rw [List.forall₂_map_right_iff, List.forall₂_same]
    exact fun pair hpair => ⟨hpair, rfl⟩
  refine .forM hpairs ?_ ⟨hmemo, rfl, rfl⟩
  rintro ⟨a, b⟩ _ start start' ⟨hmem, rfl⟩ ⟨hstart, hentries, hentries'⟩
  obtain ⟨ha, hb⟩ := ResolvedGraph.mem_of_pairs hmem
  refine (comparePair_lockstep h hstart (hgroup a ha) (hgroup b hb)).mono ?_
  rintro _ finish _ finish' ⟨hfinish, hmore, hmore'⟩
  exact ⟨hfinish, hmore.trans hentries, hmore'.trans hentries'⟩

/-- Reading corresponding groups comes to the same. -/
theorem readGroup_map (hgroup : left.Within group) :
    readGroup right pass (group.map rename) = readGroup left pass group := by
  cases pass with
  | calls => rfl
  | shapes =>
    induction group with
    | nil => rfl
    | cons i group ih =>
      rw [List.map_cons, readGroup_cons, readGroup_cons, h.shape (hgroup i (.head _)),
        ih fun j hj => hgroup j (.tail _ hj)]

/-- Reading corresponding groups leaves the memos as they are, or the same defect stops it. -/
theorem readGroup_lockstep (hgroup : left.Within group) :
    Lockstep (fun _ after _ after' => after = memo ∧ after' = memo')
      (readGroup left pass group) memo (readGroup right pass (group.map rename)) memo' := by
  rw [readGroup_map h hgroup]
  obtain ⟨result, hrun⟩ := exists_runOn_readGroup left pass group
  constructor
  case returns =>
    intro _ after hstep
    obtain ⟨rfl, rfl⟩ := Prod.mk.inj ((hrun memo).symm.trans hstep)
    exact ⟨(), memo', hrun memo', rfl, rfl⟩
  case fails =>
    intro defect hfails _
    unfold Fails at hfails ⊢
    rw [hrun] at hfails ⊢
    exact hfails

/-- A group is compared on both sides or on neither. -/
theorem compareGroup_lockstep (hmemo : Abreast left right rename memo memo') (hgroup : left.Within group)
    (hne : group ≠ []) (hid : memo.fields? id = some group) (hid' : memo'.fields? id' = some (group.map rename)) :
    Lockstep (fun _ after _ after' => KeepPace left right rename memo memo' after after')
      (compareGroup left pass id) memo (compareGroup right pass id') memo' := by
  have hdone : (memo'.entry id').compared pass = true ↔ (memo.entry id).compared pass = true := by
    have hmarked := hmemo.mirrors.grouped pass hgroup hne
    unfold Grouped at hmarked
    rw [hmemo.tidy.distinct.marked_iff hid, hmemo.tidy'.distinct.marked_iff hid'] at hmarked
    exact hmarked
  have hcore : Lockstep (fun _ after _ after' => Mirrors left right rename after after' ∧
      memo.Extends after ∧ memo'.Extends after')
      (compareGroup left pass id) memo (compareGroup right pass id') memo' := by
    unfold compareGroup
    refine .entry_bind ?_
    by_cases hcompared : (memo.entry id).compared pass = true
    · rw [if_pos hcompared, if_pos (hdone.2 hcompared)]
      exact .pure ⟨hmemo.mirrors, fun hx => hx, fun hx => hx⟩
    · rw [if_neg hcompared, if_neg fun hcompared' => hcompared (hdone.1 hcompared')]
      have hmarked := hmemo.mirrors.compare h.mono.injective hid hid' pass
      refine .modify_bind (.modify_bind ?_)
      rw [fields_entry hid, fields_entry hid']
      refine (readGroup_lockstep h hgroup).bind ?_
      rintro _ _ _ _ ⟨rfl, rfl⟩
      refine Lockstep.mono (comparePairs_lockstep h ?_ hgroup) ?_
      · exact hmarked.congr rfl rfl hmarked.compared hmarked.findings
      rintro _ after _ after' ⟨hafter, hentries, hentries'⟩
      refine ⟨hafter, fun {j x} hx => ?_, fun {j x} hx => ?_⟩
      · refine (fields?_congr hentries j).trans ?_
        exact (fields?_update (Entry.fields_compare pass) j).trans hx
      · refine (fields?_congr hentries' j).trans ?_
        exact (fields?_update (Entry.fields_compare pass) j).trans hx
  refine (hcore.and_preserved (upholds_compareGroup pass id) (upholds_compareGroup pass id')
    hmemo.tidy hmemo.tidy').mono ?_
  rintro _ after _ after' ⟨⟨hafter, hfields, hfields'⟩, htidy, htidy'⟩
  exact ⟨⟨hafter, htidy, htidy'⟩, hfields, hfields'⟩

/-- A pass from corresponding sets, in no more turns on the left than on the right. -/
def FollowsAbreast (left right : ResolvedGraph) (rename : FieldId → FieldId) (pass : Pass) (depth depth' : Nat) :
    Prop :=
  ∀ {memo memo' : Memo} {id id' : SetId} {set : List FieldId}, Abreast left right rename memo memo' →
    left.Within set → memo.fields? id = some set → memo'.fields? id' = some (set.map rename) →
    Lockstep (fun _ after _ after' => KeepPace left right rename memo memo' after after')
      (follow left pass depth id) memo (follow right pass depth' id') memo'

section Follow

variable {depth depth' : Nat} (hfollow : FollowsAbreast left right rename pass depth depth')
include hfollow

/-- A group is compared, and its sub-selections are followed. -/
theorem followGroup_lockstep (hmemo : Abreast left right rename memo memo') (hgroup : left.Within group)
    (hne : group ≠ []) (hid : memo.fields? id = some group) (hid' : memo'.fields? id' = some (group.map rename)) :
    Lockstep (fun _ after _ after' => KeepPace left right rename memo memo' after after')
      (do
        compareGroup left pass id
        follow left pass depth (← children left id)) memo
      (do
        compareGroup right pass id'
        follow right pass depth' (← children right id')) memo' := by
  refine (compareGroup_lockstep h hmemo hgroup hne hid hid').bind fun {_ compared _ compared'} hcompared => ?_
  have hasks := ask_lockstep hcompared.abreast (total_children left id) (total_children right id')
    (children_returns hcompared.abreast.mirrors.sound (hcompared.fields hid))
    (children_returns hcompared.abreast.mirrors.sound' (hcompared.fields' hid'))
    (upholds_children id) (upholds_children id')
  refine hasks.bind fun {child asked child' asked'} hasked => ?_
  obtain ⟨hasked, hchild, hchild'⟩ := hasked
  rw [h.children group hgroup] at hchild'
  exact (hfollow hasked.abreast (h.within group) hchild hchild').mono fun hafter =>
    (hcompared.trans hasked).trans hafter

/-- The parts of one response key are compared and followed. -/
theorem followParts_lockstep (hmemo : Abreast left right rename memo memo') (hset : left.Within set)
    (hne : set ≠ []) (hid : memo.fields? id = some set) (hid' : memo'.fields? id' = some (set.map rename)) :
    Lockstep (fun _ after _ after' => KeepPace left right rename memo memo' after after')
      (do
        (← parts left pass id).forM fun group => do
          compareGroup left pass group
          follow left pass depth (← children left group)) memo
      (do
        (← parts right pass id').forM fun group => do
          compareGroup right pass group
          follow right pass depth' (← children right group)) memo' := by
  have hasks := ask_lockstep hmemo (total_parts left pass id) (total_parts right pass id')
    (parts_returns hmemo.mirrors.sound hid) (parts_returns hmemo.mirrors.sound' hid')
    (upholds_parts pass id) (upholds_parts pass id')
  refine hasks.bind fun {ids asked ids' asked'} hasked => ?_
  obtain ⟨hasked, hnumbers, hnumbers'⟩ := hasked
  rw [h.parts hset] at hnumbers'
  refine (Lockstep.forM (hnumbers.forall₂ hnumbers') ?_ (KeepPace.refl hasked.abreast)).mono fun hloop =>
    hasked.trans hloop
  rintro id id' start start' ⟨group, hgroup, hid, hid'⟩ hstart
  exact (followGroup_lockstep h hfollow hstart.abreast (hset.of_parts hgroup)
    (ResolvedGraph.ne_nil_of_parts hne hgroup) (hstart.fields hid) (hstart.fields' hid')).mono hstart.trans

end Follow

/-- **Passes side by side.** A pass of the left graph is the pass of the right one over its fields. -/
theorem follow_lockstep (pass : Pass) {depth depth' : Nat} (hle : depth ≤ depth') :
    FollowsAbreast left right rename pass depth depth' := by
  induction depth generalizing depth' with
  | zero =>
    intro memo memo' id id' set _ _ _ _
    exact ⟨fun hstep => absurd hstep not_returns_throw,
      fun hfails hdefect => absurd (fails_throw.1 hfails).symm hdefect⟩
  | succ depth ih =>
    intro memo memo' id id' set hmemo hset hid hid'
    cases depth' with
    | zero => exact absurd hle (Nat.not_succ_le_zero depth)
    | succ depth' =>
    by_cases hne : set = []
    · subst hne
      obtain ⟨after, hstep, hsound, hidles⟩ := follow_nil_returns hmemo.mirrors.sound hid pass depth
      obtain ⟨after', hstep', hsound', hidles'⟩ := follow_nil_returns hmemo.mirrors.sound' hid' pass depth'
      refine .of_returns hstep hstep' ⟨⟨?_, ?_, ?_⟩, hidles.fields, hidles'.fields⟩
      · exact hmemo.mirrors.idles hidles hidles' hsound hsound'
      · exact upholds_follow _ _ _ _ _ _ hmemo.tidy hstep
      · exact upholds_follow _ _ _ _ _ _ hmemo.tidy' hstep'
    have hdone : (memo'.entry id').followed pass = true ↔ (memo.entry id).followed pass = true := by
      have hmarked := hmemo.mirrors.followed pass hset hne
      unfold Followed at hmarked
      rw [hmemo.tidy.distinct.marked_iff hid, hmemo.tidy'.distinct.marked_iff hid'] at hmarked
      exact hmarked
    unfold follow
    refine .entry_bind ?_
    by_cases hfollowed : (memo.entry id).followed pass = true
    · rw [if_pos hfollowed, if_pos (hdone.2 hfollowed)]
      exact .pure (KeepPace.refl hmemo)
    rw [if_neg hfollowed, if_neg fun hfollowed' => hfollowed (hdone.1 hfollowed')]
    refine .modify_bind ?_
    have hmarked : KeepPace left right rename memo memo' (memo.update id fun entry => entry.follow pass)
        (memo'.update id' fun entry => entry.follow pass) := by
      refine ⟨⟨hmemo.mirrors.follow h.mono.injective hid hid' pass, ?_, ?_⟩, ?_, ?_⟩
      · exact hmemo.tidy.follow id pass
      · exact hmemo.tidy'.follow id' pass
      · exact fun hx => (fields?_update (Entry.fields_follow pass) _).trans hx
      · exact fun hx => (fields?_update (Entry.fields_follow pass) _).trans hx
    have hasks := ask_lockstep hmarked.abreast (total_keyGroups left id) (total_keyGroups right id')
      (keyGroups_returns hmarked.abreast.mirrors.sound (hmarked.fields hid))
      (keyGroups_returns hmarked.abreast.mirrors.sound' (hmarked.fields' hid'))
      (upholds_keyGroups id) (upholds_keyGroups id')
    refine hasks.bind fun {ids asked ids' asked'} hasked => ?_
    obtain ⟨hasked, hnumbers, hnumbers'⟩ := hasked
    rw [h.keyGroups hset] at hnumbers'
    refine (Lockstep.forM (hnumbers.forall₂ hnumbers') ?_ (KeepPace.refl hasked.abreast)).mono fun hloop =>
      (hmarked.trans hasked).trans hloop
    rintro id id' start start' ⟨fields, hfields, hid, hid'⟩ hstart
    exact (followParts_lockstep h (ih (Nat.le_of_succ_le_succ hle)) hstart.abreast (hset.of_keyGroups hfields)
      (ResolvedGraph.ne_nil_of_keyGroups hfields) (hstart.fields hid) (hstart.fields' hid')).mono hstart.trans

section Roots

variable {root root' : ContainerId}

/-- A root is checked on both sides, whatever was found under the roots before. -/
theorem checkRoot_lockstep (hwithin : left.Within (left.fieldSet root))
    (hroot : right.fieldSet root' = (left.fieldSet root).map rename)
    (hmemo : Abreast left right rename memo.reset memo'.reset) :
    Lockstep (fun new after new' after' =>
        Abreast left right rename after.reset after'.reset ∧ new' = new.map (Finding.rename rename))
      (checkRoot left root) memo (checkRoot right root') memo' := by
  unfold checkRoot
  rw [follow_shapes, follow_shapes, follow_calls, follow_calls]
  refine .modify_bind ?_
  have hstart : Abreast left right rename { memo.note (.checking root) with findings := [] }
      { memo'.note (.checking root') with findings := [] } :=
    ⟨hmemo.mirrors.congr rfl rfl hmemo.mirrors.compared rfl, hmemo.tidy.congr rfl, hmemo.tidy'.congr rfl⟩
  have hdepth : depth left ≤ depth right :=
    Nat.succ_le_succ (Nat.pow_le_pow_right (by omega) h.size_le)
  have hasks := ask_lockstep hstart (total_lookup (left.fieldSet root)) (total_lookup (right.fieldSet root'))
    (lookup_returns hstart.mirrors.sound) (lookup_returns hstart.mirrors.sound')
    (upholds_lookup _) (upholds_lookup _)
  refine hasks.bind fun {id looked id' looked'} hlooked => ?_
  obtain ⟨hlooked, hid, hid'⟩ := hlooked
  rw [hroot] at hid'
  refine (follow_lockstep h .shapes hdepth hlooked.abreast hwithin hid hid').bind fun {_ _ _ _} hshapes => ?_
  refine (follow_lockstep h .calls hdepth hshapes.abreast hwithin (hshapes.fields hid) (hshapes.fields' hid')).bind
    fun {_ last _ last'} hcalls => ?_
  refine .of_returns (returns_bind.2 ⟨_, _, returns_get.2 ⟨rfl, rfl⟩, returns_pure.2 ⟨rfl, rfl⟩⟩)
    (returns_bind.2 ⟨_, _, returns_get.2 ⟨rfl, rfl⟩, returns_pure.2 ⟨rfl, rfl⟩⟩) ⟨hcalls.abreast.reset, ?_⟩
  rw [hcalls.abreast.mirrors.findings, sortBy_map (Finding.before_rename h.mono)]

/-- **Checks side by side.** The check of roots of the left graph is the check of the roots of the right
one that correspond to them: it finds the same, or the same defect stops it. -/
theorem mapM_checkRoot_lockstep {roots roots' : List ContainerId}
    (hroots : List.Forall₂ (fun root root' => left.Within (left.fieldSet root) ∧
      right.fieldSet root' = (left.fieldSet root).map rename) roots roots')
    (hmemo : Abreast left right rename memo.reset memo'.reset) :
    Lockstep (fun results after results' after' => Abreast left right rename after.reset after'.reset ∧
        results' = results.map (List.map (Finding.rename rename)))
      (roots.mapM (checkRoot left)) memo (roots'.mapM (checkRoot right)) memo' := by
  have hloop : Lockstep (fun results after results' after' => Abreast left right rename after.reset after'.reset ∧
      List.Forall₂ (fun new new' => new' = new.map (Finding.rename rename)) results results')
      (roots.mapM (checkRoot left)) memo (roots'.mapM (checkRoot right)) memo' :=
    .mapM hroots (fun hroot hstart => checkRoot_lockstep h hroot.1 hroot.2 hstart) hmemo
  refine hloop.mono fun {results _ results' _} hresults => ⟨hresults.1, ?_⟩
  have heq := hresults.2
  clear hresults
  induction heq with
  | nil => rfl
  | cons hfirst _ ih => rw [List.map_cons, hfirst, ih]

end Roots

end Steps

end Check

end SelectionMerge
