import SelectionMerge.Proofs.Check.Follow

/-!
# What a check reports

The memo is shared by all roots and by both passes, and yet it does not show: what a check finds
is what the two passes would find without it. `Memo.Checked` says so of the roots checked so far,
from one root to the next (`checkRoot_returns`), and `validate_checked` of a document.
-/

namespace SelectionMerge
set_option autoImplicit false

namespace Memo

variable {resolved : ResolvedGraph} {pass : Pass} {memo after : Memo} {found : List Finding}

/-- All sets that a pass comes to are finished. -/
def Closed (memo : Memo) (resolved : ResolvedGraph) : Prop :=
  ∀ pass set, memo.Followed pass set → memo.Finished resolved pass set

/-- A closed memo that has a set has what a pass comes to from it. -/
theorem Closed.followed {start set : List FieldId} (h : memo.Closed resolved)
    (hstart : memo.Followed pass start) (hset : resolved.Reached pass start set) :
    memo.Followed pass set := by
  induction hset with
  | start => exact hstart
  | children _ hgroup ih => exact (h _ _ ih _ hgroup).2

theorem Closed.grouped {start group : List FieldId} (h : memo.Closed resolved)
    (hstart : memo.Followed pass start) (hgroup : resolved.ReachedGroup pass start group) :
    memo.Grouped pass group := by
  obtain ⟨set, hset, hmem⟩ := hgroup
  exact (h _ _ (h.followed hstart hset) _ hmem).1

/-- What is closed stays closed when a pass advances. -/
theorem Closed.advances {scope : List FieldId → Prop} (h : memo.Closed resolved)
    (hadvances : memo.Advances resolved pass scope after) : after.Closed resolved := by
  intro p set hset
  by_cases hp : p = pass
  · subst hp
    obtain hset | hfinished := hadvances.finished hset
    · exact (h p set hset).mono hadvances
    · exact hfinished
  · intro group hgroup
    have hset' := (hadvances.followed_other hp set).1 hset
    obtain ⟨hgrouped, hfollowed⟩ := h p set hset' group hgroup
    exact ⟨(hadvances.grouped_other hp _).2 hgrouped, (hadvances.followed_other hp _).2 hfollowed⟩

/-- The memo after `roots` are checked: what is marked is what the passes come to from there, and
what was found are the conflicts among the pairs of the groups. -/
structure Checked (resolved : ResolvedGraph) (roots : List ContainerId) (found : List Finding)
    (memo : Memo) : Prop where
  sound : memo.Sound resolved
  compared_iff : ∀ a b, memo.compared a b = true ↔
    a < b ∧ ∃ pass group, memo.Grouped pass group ∧ ListedPair (resolved.pairs pass group) a b
  finds : memo.Finds resolved found
  followed_iff : ∀ pass set, memo.Followed pass set ↔
    ∃ root ∈ roots, resolved.Reached pass (resolved.fieldSet root) set
  grouped_iff : ∀ pass group, memo.Grouped pass group ↔
    ∃ root ∈ roots, resolved.ReachedGroup pass (resolved.fieldSet root) group

theorem Checked.closed {roots : List ContainerId} (h : memo.Checked resolved roots found) :
    memo.Closed resolved := by
  intro pass set hset group hgroup
  obtain ⟨root, hroot, hreached⟩ := (h.followed_iff pass set).1 hset
  constructor
  · exact (h.grouped_iff pass group).2 ⟨root, hroot, set, hreached, hgroup⟩
  · exact (h.followed_iff pass _).2 ⟨root, hroot, hreached.children hgroup⟩

/-- What is counted and logged makes no difference. -/
theorem Checked.congr {roots : List ContainerId} (h : memo.Checked resolved roots found)
    (hentries : after.entries = memo.entries) (hpartners : after.partners = memo.partners) :
    after.Checked resolved roots found := by
  have hcompared := compared_congr hpartners
  have hgrouped : ∀ pass group, after.Grouped pass group ↔ memo.Grouped pass group :=
    fun pass group => marked_congr hentries group
  refine ⟨h.sound.congr hentries, fun a b => ?_, fun a b reason => ?_, fun pass set => ?_, fun pass group => ?_⟩
  · simp only [hcompared, hgrouped]
    exact h.compared_iff a b
  · rw [hcompared]
    exact h.finds a b reason
  · exact (marked_congr hentries set).trans (h.followed_iff pass set)
  · exact (hgrouped pass group).trans (h.grouped_iff pass group)

/-- Between two roots a memo is exact, with no findings of its own. -/
theorem Checked.exact {roots : List ContainerId} (h : memo.Checked resolved roots found)
    (hnone : memo.findings = []) : memo.Exact resolved found := by
  refine ⟨h.sound, h.compared_iff, ?_⟩
  rw [hnone, List.append_nil]
  exact h.finds

/-- Before the first root nothing is known. -/
theorem checked_empty (resolved : ResolvedGraph) : Memo.empty.Checked resolved [] [] := by
  have hmarked : ∀ flag set, ¬ Memo.empty.Marked flag set := by
    rintro flag set ⟨id, entry, hentry, -⟩
    cases hentry
  refine ⟨fun id entry hentry => ?_, fun a b => ?_, fun a b reason => ?_, fun pass set => ?_,
    fun pass set => ?_⟩
  · cases hentry
  · apply iff_of_false Bool.false_ne_true
    rintro ⟨-, pass, group, hgroup, -⟩
    exact hmarked _ _ hgroup
  · exact iff_of_false List.not_mem_nil fun h => Bool.false_ne_true h.1
  · apply iff_of_false (hmarked _ _)
    rintro ⟨root, hroot, -⟩
    exact List.not_mem_nil hroot
  · apply iff_of_false (hmarked _ _)
    rintro ⟨root, hroot, -⟩
    exact List.not_mem_nil hroot

end Memo

namespace Check

variable {resolved : ResolvedGraph} {memo after : Memo} {found : List Finding}

/-- From a closed memo a pass adds the sets it comes to and their groups, and nothing else. -/
theorem follow_reaches {pass : Pass} {depth : Nat} {id : SetId} {start : List FieldId}
    (hexact : memo.Exact resolved found) (hclosed : memo.Closed resolved)
    (hstart : memo.fields? id = some start) (h : Returns (follow resolved pass depth id) memo () after) :
    after.Exact resolved found ∧ after.Closed resolved ∧
    (∀ {j set}, memo.fields? j = some set → after.fields? j = some set) ∧
    (∀ p set, after.Followed p set ↔
      memo.Followed p set ∨ p = pass ∧ resolved.Reached p start set) ∧
    ∀ p group, after.Grouped p group ↔
      memo.Grouped p group ∨ p = pass ∧ resolved.ReachedGroup p start group := by
  obtain ⟨hexact', hadvances, hfollowed⟩ := follow_returns resolved found pass depth hexact hstart h
  have hclosed' := hclosed.advances hadvances
  refine ⟨hexact', hclosed', hadvances.fields, fun p set => ?_, fun p group => ?_⟩
  · by_cases hp : p = pass
    · subst hp
      constructor
      · intro hset
        exact (hadvances.followed_scope hset).imp_right fun hreached => ⟨rfl, hreached⟩
      · rintro (hset | ⟨-, hreached⟩)
        · exact hadvances.followed hset
        · exact hclosed'.followed hfollowed hreached
    · exact (hadvances.followed_other hp set).trans (or_iff_left fun h => hp h.1).symm
  · by_cases hp : p = pass
    · subst hp
      constructor
      · intro hgroup
        exact (hadvances.grouped_scope hgroup).imp_right fun hreached => ⟨rfl, hreached⟩
      · rintro (hgroup | ⟨-, hreached⟩)
        · exact hadvances.grouped hgroup
        · exact hclosed'.grouped hfollowed hreached
    · exact (hadvances.grouped_other hp group).trans (or_iff_left fun h => hp h.1).symm

/-- One of two passes comes to something, each by itself. -/
theorem or_passes {P Q : Prop} {pass : Pass} :
    (P ∨ pass = .shapes ∧ Q) ∨ pass = .calls ∧ Q ↔ P ∨ Q := by
  cases pass <;> simp

/-- Something holds under one more root. -/
theorem exists_root_append {P : ContainerId → Prop} {roots : List ContainerId} {root : ContainerId} :
    (∃ r ∈ roots ++ [root], P r) ↔ (∃ r ∈ roots, P r) ∨ P root := by
  simp only [List.mem_append, List.mem_singleton, or_and_right, exists_or, exists_eq_left]

/-- A root is checked by both passes, the findings of earlier roots put aside. -/
theorem checkRoot_cases {root : ContainerId} {new : List Finding}
    (h : Returns (checkRoot resolved root) memo new after) :
    ∃ id looked middle,
      Returns (lookup (resolved.fieldSet root)) { memo.note (.checking root) with findings := [] } id looked ∧
      Returns (follow resolved .shapes (depth resolved) id) looked () middle ∧
      Returns (follow resolved .calls (depth resolved) id) middle () after ∧
      new = sortBy Finding.before after.findings := by
  unfold checkRoot at h
  rw [follow_shapes, follow_calls] at h
  obtain ⟨⟨⟩, start, hbegin, h⟩ := returns_bind.1 h
  obtain rfl := returns_modify.1 hbegin
  obtain ⟨id, looked, hlookup, h⟩ := returns_bind.1 h
  obtain ⟨⟨⟩, middle, hshapes, h⟩ := returns_bind.1 h
  obtain ⟨⟨⟩, final, hcalls, h⟩ := returns_bind.1 h
  obtain ⟨_, _, hread, h⟩ := returns_bind.1 h
  obtain ⟨rfl, rfl⟩ := returns_get.1 hread
  obtain ⟨rfl, rfl⟩ := returns_pure.1 h
  exact ⟨id, looked, middle, hlookup, hshapes, hcalls, rfl⟩

/-- Checking a root adds what both passes come to from it. -/
theorem checkRoot_returns {roots : List ContainerId} {root : ContainerId} {new : List Finding}
    (hmemo : memo.Checked resolved roots found) (h : Returns (checkRoot resolved root) memo new after) :
    after.Checked resolved (roots ++ [root]) (found ++ new) := by
  obtain ⟨id, looked, middle, hlookup, hshapes, hcalls, rfl⟩ := checkRoot_cases h
  have hstart : Memo.Checked resolved roots found { memo.note (.checking root) with findings := [] } :=
    hmemo.congr rfl rfl
  have hexact := hstart.exact rfl
  obtain ⟨hsound, hwidens, hset⟩ := lookup_returns hexact.sound hlookup
  have hlooked : looked.Closed resolved :=
    hstart.closed.advances (hwidens.advances resolved .shapes fun _ => False)
  obtain ⟨hexact', hmiddle, hfields, hfollowed, hgrouped⟩ :=
    follow_reaches (hexact.widens hwidens hsound) hlooked hset hshapes
  obtain ⟨hexact'', -, -, hfollowed', hgrouped'⟩ :=
    follow_reaches hexact' hmiddle (hfields hset) hcalls
  refine ⟨hexact''.sound, hexact''.compared_iff, fun a b reason => ?_, fun p set => ?_, fun p group => ?_⟩
  · rw [← hexact''.finds a b reason, List.mem_append, List.mem_append, mem_sortBy]
  · rw [hfollowed', hfollowed, or_passes, hwidens.followed, exists_root_append]
    exact or_congr_left (hstart.followed_iff p set)
  · rw [hgrouped', hgrouped, or_passes, hwidens.grouped, exists_root_append]
    exact or_congr_left (hstart.grouped_iff p group)

/-- Checking roots one after the other adds what both passes come to from each. -/
theorem mapM_checkRoot_returns {checked roots : List ContainerId} {results : List (List Finding)}
    (hmemo : memo.Checked resolved checked found)
    (h : Returns (roots.mapM (checkRoot resolved)) memo results after) :
    after.Checked resolved (checked ++ roots) (found ++ results.flatten) := by
  induction roots generalizing memo checked found results with
  | nil =>
    rw [List.mapM_nil] at h
    obtain ⟨rfl, rfl⟩ := returns_pure.1 h
    rw [List.append_nil, List.flatten_nil, List.append_nil]
    exact hmemo
  | cons root roots ih =>
    rw [List.mapM_cons] at h
    obtain ⟨new, middle, hfirst, h⟩ := returns_bind.1 h
    obtain ⟨rest, final, hrest, h⟩ := returns_bind.1 h
    obtain ⟨rfl, rfl⟩ := returns_pure.1 h
    have hlast := ih (checkRoot_returns hmemo hfirst) hrest
    rw [List.append_assoc, List.append_assoc] at hlast
    exact hlast

end Check

namespace ResolvedGraph

variable {resolved : ResolvedGraph} {found : List (List Finding)}

/-- The memo that the first root is checked with. -/
def opening (resolved : ResolvedGraph) : Memo :=
  Memo.empty.note
    (.built resolved.graph.roots.length resolved.graph.containers.size resolved.graph.fields.size)

/-- A check comes to what its roots come to one after the other. -/
theorem check_eq (resolved : ResolvedGraph) : resolved.check.1 =
    (Check.runOn (resolved.graph.roots.mapM (Check.checkRoot resolved)) resolved.opening).1 := by
  unfold check Check.checkRoots opening
  simp only [Check.runOn_bind, Check.runOn_modify]
  cases Check.runOn (resolved.graph.roots.mapM (Check.checkRoot resolved)) _ with
  | mk result after => cases result <;> rfl

theorem exists_returns_of_check (h : resolved.check.1 = .ok found) :
    ∃ after, Check.Returns (resolved.graph.roots.mapM (Check.checkRoot resolved)) resolved.opening found after := by
  rw [check_eq] at h
  exact ⟨_, Prod.ext h rfl⟩

theorem checked_opening (resolved : ResolvedGraph) : resolved.opening.Checked resolved [] [] :=
  (Memo.checked_empty resolved).congr rfl rfl

/-- What a check that no defect stops comes to. -/
theorem check_returns (h : resolved.check.1 = .ok found) :
    ∃ memo : Memo, memo.Checked resolved resolved.graph.roots found.flatten := by
  obtain ⟨after, hroots⟩ := exists_returns_of_check h
  exact ⟨after, Check.mapM_checkRoot_returns resolved.checked_opening hroots⟩

end ResolvedGraph

/-- A filter that keeps everything is a map. -/
theorem map_some_filterMap {α β : Type} {f : α → Option β} {as : List α} (h : ∀ a ∈ as, ∃ b, f a = some b) :
    (as.filterMap f).map some = as.map f := by
  induction as with
  | nil => rfl
  | cons a as ih =>
    obtain ⟨b, hb⟩ := h a (.head _)
    rw [List.filterMap_cons_some hb, List.map_cons, List.map_cons, hb, ih fun a ha => h a (.tail _ ha)]

/-- The fields of a finding exist, so each finding stands for a conflict. -/
theorem exists_conflict {graph : SelectionGraph} {finding : Finding}
    (h : graph.resolved.conflict? finding.first finding.second = some finding.reason) :
    ∃ conflict, Finding.conflict? graph.fields finding = some conflict := by
  obtain ⟨first, hfirst, h⟩ := Option.bind_eq_some_iff.1 h
  obtain ⟨second, hsecond, -⟩ := Option.bind_eq_some_iff.1 h
  refine ⟨⟨first.responseKey, finding.reason, first.conflicting, second.conflicting⟩, ?_⟩
  have hfirst : graph.fields[finding.first]? = some first := hfirst
  have hsecond : graph.fields[finding.second]? = some second := hsecond
  unfold Finding.conflict?
  rw [hfirst, hsecond]
  rfl

/-- The conflicts of a document are those that its check finds, one for each finding. -/
theorem validate_checked {schema : Schema} {definitions : List Definition} {conflicts : List Conflict}
    (h : validate schema definitions = .ok conflicts) :
    ∃ graph found, ∃ memo : Memo, SelectionGraph.ofDocument schema definitions = .ok graph ∧
      graph.resolved.check.1 = .ok found ∧
      memo.Checked graph.resolved graph.roots found.flatten ∧
      conflicts.map some = found.flatten.map (Finding.conflict? graph.fields) := by
  unfold validate check at h
  split at h
  next defect hgraph => cases h
  next graph hgraph =>
    cases hfound : graph.resolved.check.1 with
    | error defect =>
      simp only [hfound] at h
      cases h
    | ok found =>
      simp only [hfound] at h
      obtain rfl := Except.ok.inj h
      obtain ⟨memo, hchecked⟩ := ResolvedGraph.check_returns hfound
      refine ⟨graph, found, memo, hgraph, hfound, hchecked, ?_⟩
      apply map_some_filterMap
      intro finding hfinding
      exact exists_conflict ((hchecked.finds _ _ _).1 hfinding).2

/-- No pair that a pass has to compare is in conflict. -/
def ResolvedGraph.Quiet (resolved : ResolvedGraph) : Prop :=
  ∀ pass, ∀ root ∈ resolved.graph.roots, ∀ group,
    resolved.ReachedGroup pass (resolved.fieldSet root) group →
      ∀ a b, a < b → ListedPair (resolved.pairs pass group) a b → resolved.conflict? a b = none

/-- A document without conflicts is quiet. -/
theorem quiet_of_validate {schema : Schema} {definitions : List Definition}
    (h : validate schema definitions = .ok []) :
    ∃ graph, SelectionGraph.ofDocument schema definitions = .ok graph ∧ graph.resolved.Quiet := by
  obtain ⟨graph, found, memo, hgraph, -, hchecked, hconflicts⟩ := validate_checked h
  refine ⟨graph, hgraph, fun pass root hroot group hgroup a b hlt hpair => ?_⟩
  cases hconflict : graph.resolved.conflict? a b with
  | none => rfl
  | some reason =>
    have hcompared := (hchecked.compared_iff a b).2
      ⟨hlt, pass, group, (hchecked.grouped_iff pass group).2 ⟨root, hroot, hgroup⟩, hpair⟩
    have hfinding := (hchecked.finds a b reason).2 ⟨hcompared, hconflict⟩
    rw [List.map_eq_nil_iff.1 hconflicts.symm] at hfinding
    simp at hfinding

/-- What is reported can be counted. -/
theorem exists_validate_eq {schema : Schema} {definitions : List Definition} {count : Nat}
    (h : (validate schema definitions).toOption.map List.length = some count) :
    ∃ conflicts, validate schema definitions = .ok conflicts ∧ conflicts.length = count := by
  cases hvalidate : validate schema definitions with
  | error defect =>
    rw [hvalidate] at h
    cases h
  | ok conflicts =>
    rw [hvalidate] at h
    exact ⟨conflicts, rfl, Option.some.inj h⟩

/-- That nothing is reported can be told by counting. -/
theorem validate_eq_nil {schema : Schema} {definitions : List Definition}
    (h : (validate schema definitions).toOption.map List.length = some 0) :
    validate schema definitions = .ok [] := by
  obtain ⟨conflicts, hvalidate, hlength⟩ := exists_validate_eq h
  rw [hvalidate, List.eq_nil_of_length_eq_zero hlength]

/-- What can be decided of a graph can be evaluated on the graph of a document. -/
theorem SelectionGraph.exists_ofDocument {schema : Schema} {definitions : List Definition}
    {property : SelectionGraph → Prop} [DecidablePred property]
    (h : (ofDocument schema definitions).toOption.any (fun graph => decide (property graph)) = true) :
    ∃ graph, ofDocument schema definitions = .ok graph ∧ property graph := by
  cases hgraph : ofDocument schema definitions with
  | error defect =>
    rw [hgraph] at h
    cases h
  | ok graph =>
    rw [hgraph] at h
    exact ⟨graph, rfl, of_decide_eq_true h⟩

/-- A schema whose queries lead to further queries. -/
def loopSchema : Schema where
  types := [
    ⟨⟨"Query", Eq.refl true⟩, .object []
      [⟨⟨"next", Eq.refl true⟩, .named ⟨"Query", Eq.refl true⟩ false⟩,
       ⟨⟨"a", Eq.refl true⟩, .named ⟨"Int", Eq.refl true⟩ false⟩,
       ⟨⟨"b", Eq.refl true⟩, .named ⟨"Int", Eq.refl true⟩ false⟩]⟩,
    ⟨⟨"Int", Eq.refl true⟩, .scalar⟩]
  roots := [(.query, ⟨"Query", Eq.refl true⟩)]

/-- A fragment that spreads itself below a field and selects `a` as `x` there, and `b` as `x`
beside it. -/
def loopDocument : List Definition :=
  [.fragment ⟨⟨"F", Eq.refl true⟩, ⟨"Query", Eq.refl true⟩,
    [.field ⟨none, ⟨"next", Eq.refl true⟩, [], none⟩
      [.spread ⟨"F", Eq.refl true⟩, .field ⟨some ⟨"x", Eq.refl true⟩, ⟨"a", Eq.refl true⟩, [], none⟩ []],
     .field ⟨some ⟨"x", Eq.refl true⟩, ⟨"b", Eq.refl true⟩, [], none⟩ []]⟩]

end SelectionMerge
