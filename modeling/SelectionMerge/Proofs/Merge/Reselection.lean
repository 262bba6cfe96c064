import SelectionMerge.Proofs.Merge.Copies
import SelectionMerge.Proofs.Merge.Unknown

/-!
# Identical re-selection

A document with a run of selections written twice has its fields with copies (`FoldsOnto.copiedIn`), so the
passes come to the same groups with copies and compare all pairs that they did, or copies of them. What they
compare besides are fields of one group of the second pass: two that were neighbours there already or two that
ask for the same. These agree in a document without conflicts whose types are all known
(`SelectionGraph.Shares.agree`), so the run may stand there twice as well as once:
`reselection_keeps_verdict`.
-/

namespace SelectionMerge
set_option autoImplicit false

section Folds

variable {schema : Schema} {origin : Nat → Nat} {definitions definitions' : List Definition}
variable {graph graph' : SelectionGraph}

/-- The graph of the document has all copies of the fields of the one that it folds onto. -/
theorem FoldsOnto.copiedIn (h : FoldsOnto schema origin definitions' definitions)
    (hleft : SelectionGraph.Expanded schema definitions graph)
    (hright : SelectionGraph.Expanded schema definitions' graph') :
    graph.resolved.CopiedIn graph'.resolved origin where
  onto := h.onto
  alike j := by
    by_cases hlt : j < (occurrences schema definitions').length
    · have hy := List.getElem?_eq_getElem hlt
      obtain ⟨x, hx, hxy, -⟩ := h.occurrence hy
      exact .inl (hleft.represents.alike hright.represents hx hy hxy)
    · have hlt' := mt (h.lt_iff_lt j).2 hlt
      rw [← hleft.represents.size_eq] at hlt'
      rw [← hright.represents.size_eq] at hlt
      exact .inr ⟨Array.getElem?_eq_none (Nat.le_of_not_lt hlt'), Array.getElem?_eq_none (Nat.le_of_not_lt hlt)⟩
  children hcopies j := by
    rw [hright.children, hleft.children]
    constructor
    · rintro ⟨above', habove', hj⟩
      exact ⟨origin above', (hcopies above').1 habove', h.expandsBelow_iff.2 ⟨above', rfl, hj⟩⟩
    · rintro ⟨above, habove, hi⟩
      obtain ⟨above', rfl, hj⟩ := h.expandsBelow_iff.1 hi
      exact ⟨above', (hcopies above').2 habove, hj⟩
  roots := by
    constructor
    · intro set hset
      obtain ⟨root, hroot, rfl⟩ := List.mem_map.1 hset
      obtain ⟨content, hcontent, hfields⟩ := exists_of_forall₂_right hleft.roots hroot
      obtain ⟨content', hcontent', hexpands⟩ := h.exists_content hcontent
      obtain ⟨root', hroot', hfields'⟩ := exists_of_forall₂_left hright.roots hcontent'
      refine ⟨_, List.mem_map_of_mem hroot', fun j => ?_⟩
      rw [hfields', hexpands, hfields]
    · intro set' hset'
      obtain ⟨root', hroot', rfl⟩ := List.mem_map.1 hset'
      obtain ⟨content', hcontent', hfields'⟩ := exists_of_forall₂_right hright.roots hroot'
      obtain ⟨content, hcontent, hexpands⟩ := h.exists_origin_content hcontent'
      obtain ⟨root, hroot, hfields⟩ := exists_of_forall₂_left hleft.roots hcontent
      refine ⟨_, List.mem_map_of_mem hroot, fun j => ?_⟩
      rw [hfields', hexpands, hfields]

/-- A field selection that returns an input object is one in both documents. -/
theorem FoldsOnto.exists_input_iff (h : FoldsOnto schema origin definitions' definitions) :
    (∃ x ∈ occurrences schema definitions, ∃ name, x.ReturnsInput schema name) ↔
      ∃ y ∈ occurrences schema definitions', ∃ name, y.ReturnsInput schema name := by
  unfold Occurrence.ReturnsInput
  constructor
  · rintro ⟨x, hx, name, hinput⟩
    obtain ⟨i, hi⟩ := List.getElem?_of_mem hx
    obtain ⟨j, rfl⟩ := h.onto i
    have hlt := (h.lt_iff_lt j).2 (List.getElem?_eq_some_iff.1 hi).1
    obtain ⟨x', hx', hxy, -⟩ := h.occurrence (List.getElem?_eq_getElem hlt)
    obtain rfl := Option.some.inj (hi.symm.trans hx')
    rw [hxy.type?] at hinput
    exact ⟨_, List.getElem_mem hlt, name, hinput⟩
  · rintro ⟨y, hy, name, hinput⟩
    obtain ⟨j, hj⟩ := List.getElem?_of_mem hy
    obtain ⟨x, hx, hxy, -⟩ := h.occurrence hj
    rw [← hxy.type?] at hinput
    exact ⟨x, List.mem_of_getElem? hx, name, hinput⟩

end Folds

section Verdict

variable {start length : Nat}

/-- A graph is quiet if no pass compares fields that conflict, in either order. -/
theorem ResolvedGraph.quiet_of_pairs {resolved : ResolvedGraph}
    (h : ∀ pass, ∀ root ∈ resolved.graph.roots, ∀ group, resolved.ReachedGroup pass (resolved.fieldSet root) group →
      ∀ a b, (a, b) ∈ resolved.pairs pass group → resolved.conflict? a b = none) : resolved.Quiet := by
  intro pass root hroot group hgroup a b _ hpair
  obtain hpair | hpair := hpair
  · exact h pass root hroot group hgroup a b hpair
  · rw [conflict?_comm]
    exact h pass root hroot group hgroup b a hpair

/-- Without the copies, no pair is compared that was not. -/
theorem ResolvedGraph.CopiedIn.quiet_origin {left right : ResolvedGraph}
    (h : left.CopiedIn right (original start length)) (hquiet : right.Quiet) : left.Quiet := by
  refine quiet_of_pairs fun pass root hroot group hgroup a b hpair => ?_
  obtain ⟨root', hroot', group', hgroup', hcopies⟩ := h.exists_group hroot hgroup
  obtain ⟨⟨a', b'⟩, hpair', heq⟩ := h.exists_pair hcopies hgroup.pairwise hgroup'.pairwise hpair
  obtain ⟨rfl, rfl⟩ := Prod.mk.inj heq
  rw [← h.conflict?_origin]
  exact hquiet.conflict?_eq_none hroot' hgroup' hpair'

/-- With the copies, the pass by shapes compares no new pairs, and the second pass only pairs that agree. -/
theorem SelectionGraph.Represents.quiet_copies {schema : Schema} {definitions : List Definition}
    {graph graph' : SelectionGraph} (hleft : Represents schema definitions graph)
    (hknown : ∀ occurrence ∈ occurrences schema definitions, occurrence.type? ≠ none)
    (h : graph.resolved.CopiedIn graph'.resolved (original start length)) (hquiet : graph.resolved.Quiet) :
    graph'.resolved.Quiet := by
  refine ResolvedGraph.quiet_of_pairs fun pass root' hroot' group' hgroup' a b hpair => ?_
  obtain ⟨root, hroot, group, hgroup, hcopies⟩ := h.exists_group_origin hroot' hgroup'
  rw [h.conflict?_origin]
  cases pass with
  | shapes =>
    have hpair' := h.pair_origin hcopies hgroup.pairwise hgroup'.pairwise hpair
    exact hquiet.conflict?_eq_none hroot hgroup hpair'
  | calls =>
    obtain ⟨ha, hb⟩ := ResolvedGraph.mem_of_pairs hpair
    rw [hcopies] at ha hb
    have hshares : graph.Shares (original start length a) (original start length b) :=
      ⟨root, hroot, group, hgroup, ha, hb⟩
    obtain ⟨first, hfirst⟩ := hleft.wellFormed.exists_field_of_group hgroup ha
    obtain ⟨second, hsecond⟩ := hleft.wellFormed.exists_field_of_group hgroup hb
    rw [hleft.conflict?_eq_none_iff hknown hfirst hsecond]
    exact fun _ => hshares.agree hleft hquiet hknown

end Verdict

/-- **Re-selection.** A document whose types are all known keeps its verdict where a run of selections
is written twice in a row, in any selection set and with all that is nested in it: it is without conflicts
before exactly if it is afterwards, and its check fails before exactly if it does afterwards. -/
theorem reselection_keeps_verdict {schema : Schema} {definitions definitions' : List Definition}
    (hdoubles : DoublesInto definitions definitions')
    (hknown : ∀ occurrence ∈ occurrences schema definitions, occurrence.type? ≠ none) :
    (validate schema definitions = .ok [] ↔ validate schema definitions' = .ok []) ∧
    ((∃ defect, validate schema definitions = .error defect) ↔
      ∃ defect, validate schema definitions' = .error defect) := by
  obtain ⟨start, length, hfolds⟩ := hdoubles.foldsOnto schema
  have hgraph := SelectionGraph.ofDocument_eq schema definitions
  have hgraph' := SelectionGraph.ofDocument_eq schema definitions'
  have hleft := SelectionGraph.expanded_ofDocument hgraph
  have hcopied := hfolds.copiedIn hleft (SelectionGraph.expanded_ofDocument hgraph')
  have hinput := hfolds.exists_input_iff
  constructor
  · have hnone := not_congr hinput
    simp only [not_exists, not_and] at hnone
    rw [validate_eq_nil_iff hgraph, validate_eq_nil_iff hgraph', hnone]
    exact and_congr_right' ⟨hleft.represents.quiet_copies hknown hcopied, hcopied.quiet_origin⟩
  · rw [(validate_fails_iff schema definitions).1, (validate_fails_iff schema definitions').1]
    exact hinput

/-- A fragment with selections below `next`, and a query that spreads it beside `a` as `x`. -/
def coilDocument (below : List Selection) : List Definition :=
  [.fragment ⟨⟨"F", Eq.refl true⟩, ⟨"Query", Eq.refl true⟩, [.field ⟨none, ⟨"next", Eq.refl true⟩, [], none⟩ below]⟩,
   .operation ⟨.query, none,
    [.spread ⟨"F", Eq.refl true⟩, .field ⟨some ⟨"x", Eq.refl true⟩, ⟨"a", Eq.refl true⟩, [], none⟩ []]⟩]

/-- The field `b` as `x`, and the fragment, which then spreads itself. -/
def coilRun : List Selection :=
  [.field ⟨some ⟨"x", Eq.refl true⟩, ⟨"b", Eq.refl true⟩, [], none⟩ [], .spread ⟨"F", Eq.refl true⟩]

theorem coilDocument_doubles : DoublesInto (coilDocument coilRun) (coilDocument (coilRun ++ coilRun)) := by
  have hrun : SameSelections coilRun coilRun := .field (.refl _) .nil (.spread .nil)
  refine .intro .nil (.fragment rfl rfl) ?_ (.cons ⟨.operation rfl rfl, ?_⟩ .nil)
  · exact .field .nil (.refl _) (.whole hrun) .nil
  · exact .spread (.field (.refl _) .nil .nil)

/-- A run below `next` that spreads the fragment that it stands in may stand there twice. -/
theorem coil_reselected :
    DoublesInto (coilDocument coilRun) (coilDocument (coilRun ++ coilRun)) ∧
    (∀ occurrence ∈ occurrences loopSchema (coilDocument coilRun), occurrence.type? ≠ none) ∧
    validate loopSchema (coilDocument coilRun) = .ok [] ∧
    validate loopSchema (coilDocument (coilRun ++ coilRun)) = .ok [] ∧
    ¬ ∃ defect, validate loopSchema (coilDocument (coilRun ++ coilRun)) = .error defect := by
  have hknown : ∀ occurrence ∈ occurrences loopSchema (coilDocument coilRun), occurrence.type? ≠ none := by
    decide +kernel
  have hquiet : validate loopSchema (coilDocument coilRun) = .ok [] := by
    apply validate_eq_nil
    decide +kernel
  obtain ⟨hverdict, hfails⟩ := reselection_keeps_verdict coilDocument_doubles hknown
  refine ⟨coilDocument_doubles, hknown, hquiet, hverdict.1 hquiet, fun hfail => ?_⟩
  obtain ⟨defect, h⟩ := hfails.2 hfail
  rw [hquiet] at h
  cases h

/-- Types must be known: where the `x` of a type that is missing stands between the conflicting `x` of two others,
these are neighbours once all three are written twice. -/
theorem unknown_reselection_reported : ∃ definitions', DoublesInto (nodeDocument true) definitions' ∧
    validate nodeSchema (nodeDocument true) = .ok [] ∧ validate nodeSchema definitions' ≠ .ok [] := by
  let nodes := [selectX ⟨"I", Eq.refl true⟩, selectX ⟨"Nope", Eq.refl true⟩, selectX ⟨"J", Eq.refl true⟩]
  have hx : SameSelections [.field ⟨none, ⟨"x", Eq.refl true⟩, [], none⟩ []] _ := .field (.refl _) .nil .nil
  have hnodes : SameSelections nodes nodes := .inline hx (.inline hx (.inline hx .nil))
  refine ⟨[.operation ⟨.query, none, [.field ⟨none, ⟨"node", Eq.refl true⟩, [], none⟩ (nodes ++ nodes)]⟩], ?_, ?_, ?_⟩
  · exact .intro .nil (.operation rfl rfl) (.field .nil (.refl _) (.whole hnodes) .nil) .nil
  · exact nodeDocument_quiet
  · intro h
    have hcount := congrArg (fun result => result.toOption.map List.length) h
    revert hcount
    decide +kernel

end SelectionMerge
