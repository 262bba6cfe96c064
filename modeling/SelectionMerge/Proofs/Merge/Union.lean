import SelectionMerge.Proofs.Expansion.Parts
import SelectionMerge.Proofs.Merge.Renumbering

/-!
# Checking documents together

Documents that share no fragment can be checked one by one. In the document made of both, the roots of
the first are checked first, as if it stood alone; they never come to a field of the second, so the check
of its roots begins like that of the second document by itself. All that the two have in common are the
empty set and the counters. So the whole fails with the defect of the first document that fails, or reports
the conflicts of the first and then those of the second (`validate_append`).
-/

namespace SelectionMerge
set_option autoImplicit false

namespace PartOf

variable {part whole : List Definition} {offset : Nat} (h : PartOf part offset whole)
include h

/-- The fields of a part are fields of the document, behind those that stand before the part. -/
theorem renumbered (schema : Schema) : Renumbered schema part whole (offset + ·) where
  mono _ _ hlt := Nat.add_lt_add_left hlt offset
  alike {i x} hx := by
    have hlt := (List.getElem?_eq_some_iff.1 hx).1
    exact ⟨x, (h.getElem?_occurrences hlt).trans hx, .refl x⟩
  below hi j := h.expandsBelow_iff hi j

/-- A root of the part has the same fields in the document. -/
theorem renumbered_content {content : Content} (hcontent : content ∈ documentRoots part) :
    Content.Renumbered part whole (offset + ·) content (content.shift offset) := by
  obtain ⟨⟨start, definition⟩, hmem, hcontent⟩ := mem_documentRoots.1 hcontent
  have hdefinition := mem_of_numbered hmem
  intro j
  cases definition with
  | operation operation =>
    obtain rfl := Option.some.inj hcontent
    exact h.expands_iff (fun name hname => List.mem_flatMap.2 ⟨_, hdefinition, hname⟩) j
  | fragment fragment =>
    obtain rfl := Option.some.inj hcontent
    exact h.expandsFragment_iff (mem_definedNames.2 ⟨fragment, hdefinition, rfl⟩) j
  | typeSystem definition => cases hcontent

/-- The fields of the part stand in the graph of the document. -/
theorem bare_getElem? {schema : Schema} {graph graph' : SelectionGraph}
    (hleft : SelectionGraph.Represents schema part graph) (hright : SelectionGraph.Represents schema whole graph')
    {i : FieldId} (hi : i < graph.fields.size) :
    graph'.fields[offset + i]?.map SelectedField.bare = graph.fields[i]?.map SelectedField.bare := by
  rw [hleft.size_eq] at hi
  rw [hleft.bare_field, hright.bare_field, h.getElem?_occurrences hi]

end PartOf

/-- A finding stands for the same conflict where its fields have other numbers. -/
theorem Finding.conflict?_rename {fields fields' : Array SelectedField} {rename : FieldId → FieldId}
    {finding : Finding}
    (hfirst : fields'[rename finding.first]?.map SelectedField.bare = fields[finding.first]?.map SelectedField.bare)
    (hsecond : fields'[rename finding.second]?.map SelectedField.bare =
      fields[finding.second]?.map SelectedField.bare) :
    (finding.rename rename).conflict? fields' = finding.conflict? fields := by
  have hconflict : ∀ (fields : Array SelectedField) (finding : Finding), finding.conflict? fields = do
      let first ← fields[finding.first]?.map SelectedField.bare
      let second ← fields[finding.second]?.map SelectedField.bare
      return ⟨first.responseKey, finding.reason, first.conflicting, second.conflicting⟩ := by
    intro fields finding
    unfold conflict?
    cases fields[finding.first]? with
    | none => rfl
    | some first => cases fields[finding.second]? <;> rfl
  rw [hconflict, hconflict, Finding.rename, hfirst, hsecond]

/-- A loop over two lists is a loop over the one and then over the other. -/
theorem Check.runOn_mapM_append {α β : Type} (turn : α → Check β) (first second : List α) (memo : Memo) :
    (runOn ((first ++ second).mapM turn) memo).1 = match runOn (first.mapM turn) memo with
      | (.ok results, after) => (runOn (second.mapM turn) after).1.map (results ++ ·)
      | (.error defect, _) => .error defect := by
  rw [List.mapM_append, runOn_bind]
  cases runOn (first.mapM turn) memo with
  | mk result after =>
    cases result with
    | error defect => rfl
    | ok results =>
      simp only [runOn_bind]
      cases runOn (second.mapM turn) after with
      | mk result' last => cases result' <;> rfl

section Union

variable {schema : Schema} {first second : List Definition} {graph₁ graph₂ graph : SelectionGraph}

/-- The roots of the whole are those of the two documents. -/
theorem Independent.roots (h : Independent first second)
    (hfirst : SelectionGraph.Expanded schema first graph₁) (hsecond : SelectionGraph.Expanded schema second graph₂)
    (hwhole : SelectionGraph.Expanded schema (first ++ second) graph) :
    ∃ roots roots', graph.roots = roots ++ roots' ∧
      List.Forall₂ (fun root root' => graph₁.resolved.Within (graph₁.resolved.fieldSet root) ∧
        graph.resolved.fieldSet root' = (graph₁.resolved.fieldSet root).map (0 + ·)) graph₁.roots roots ∧
      List.Forall₂ (fun root root' => graph₂.resolved.Within (graph₂.resolved.fieldSet root) ∧
        graph.resolved.fieldSet root' = (graph₂.resolved.fieldSet root).map (documentFieldCount first + ·))
        graph₂.roots roots' := by
  have hroots := hwhole.roots
  rw [h.documentRoots_append] at hroots
  have htake := (List.forall₂_take_append _ _ _ hroots.flip).flip
  have hdrop := (List.forall₂_drop_append _ _ _ hroots.flip).flip
  refine ⟨_, _, (List.take_append_drop (documentRoots first).length graph.roots).symm, ?_, ?_⟩
  · refine forall₂_fieldSets (h.partOf_first.renumbered schema).mono hfirst ?_ htake
    refine List.forall₂_same.2 fun content hcontent => ?_
    have hsame := h.partOf_first.renumbered_content hcontent
    rwa [Content.shift_zero] at hsame
  · refine forall₂_fieldSets (h.partOf_second.renumbered schema).mono hsecond ?_ hdrop
    rw [List.forall₂_map_right_iff, List.forall₂_same]
    exact fun content hcontent => h.partOf_second.renumbered_content hcontent

/-- The roots of the first document come to its own fields only, so the check of the second one begins as
if it stood alone. -/
theorem Independent.abreast_second (h : Independent first second)
    (hfirst : SelectionGraph.Expanded schema first graph₁)
    (hwhole : SelectionGraph.Expanded schema (first ++ second) graph) {roots : List ContainerId}
    (hsame : List.Forall₂ (fun root root' => graph₁.resolved.Within (graph₁.resolved.fieldSet root) ∧
      graph.resolved.fieldSet root' = (graph₁.resolved.fieldSet root).map (0 + ·)) graph₁.roots roots)
    {found : List (List Finding)} {after : Memo}
    (hrun : Check.Returns (roots.mapM (Check.checkRoot graph.resolved)) graph.resolved.opening found after) :
    Memo.Abreast graph₂.resolved graph.resolved (documentFieldCount first + ·) graph₂.resolved.opening.reset
      after.reset := by
  have hembeds := (h.partOf_first.renumbered schema).embeds hfirst hwhole
  have hchecked := Check.mapM_checkRoot_returns graph.resolved.checked_opening hrun
  have htidy := Check.Upholds.mapM Check.upholds_checkRoot _ _ _ _ graph.resolved.tidy_opening hrun
  refine abreast_opening hchecked htidy fun root hroot pass set hreached i hi => ?_
  obtain ⟨root₁, -, hwithin, hset⟩ := exists_of_forall₂_right hsame hroot
  rw [hset] at hreached
  obtain ⟨reached, hfields, rfl⟩ := hembeds.exists_of_reached hwithin hreached
  obtain ⟨k, hk, hki⟩ := List.mem_map.1 hi
  have hlt := hfields k hk
  change k < graph₁.fields.size at hlt
  rw [hfirst.represents.size_eq, length_occurrences] at hlt
  have hle : documentFieldCount first ≤ 0 + k := hki ▸ Nat.le_add_right _ i
  exact absurd hlt (Nat.not_lt.2 (Nat.zero_add k ▸ hle))

/-- The check of the whole is the check of the first document and then that of the second. -/
theorem Independent.check_eq (h : Independent first second)
    (hfirst : SelectionGraph.Expanded schema first graph₁) (hsecond : SelectionGraph.Expanded schema second graph₂)
    (hwhole : SelectionGraph.Expanded schema (first ++ second) graph) :
    graph.resolved.check.1 = (do
      let found ← graph₁.resolved.check.1
      let found' ← graph₂.resolved.check.1
      return found ++ found'.map (List.map (Finding.rename (documentFieldCount first + ·)))) := by
  obtain ⟨roots, roots', hroots, hsame, hsame'⟩ := h.roots hfirst hsecond hwhole
  have hresult := ((h.partOf_first.renumbered schema).embeds hfirst hwhole).runOn_eq hsame (abreast_begin _ _ _)
    hfirst.represents.check_ne_depthExhausted
  have hzero : (fun i => 0 + i) = (id : Nat → Nat) := funext Nat.zero_add
  rw [hzero, map_rename_id] at hresult
  rw [ResolvedGraph.check_eq, ← hresult]
  change (Check.runOn (graph.roots.mapM _) _).1 = _
  rw [hroots, Check.runOn_mapM_append]
  cases hrun : Check.runOn (roots.mapM (Check.checkRoot graph.resolved)) graph.resolved.opening with
  | mk result after =>
    cases result with
    | error defect => rfl
    | ok found =>
      have hresult' := ((h.partOf_second.renumbered schema).embeds hsecond hwhole).runOn_eq hsame'
        (h.abreast_second hfirst hwhole hsame hrun) hsecond.represents.check_ne_depthExhausted
      show (Check.runOn (roots'.mapM _) after).1.map _ = _
      rw [hresult']
      cases graph₂.resolved.check.1 <;> rfl

end Union

section Findings

variable {schema : Schema} {definitions : List Definition} {found : List Finding}

/-- What is found are conflicts between fields of the document. -/
theorem lt_of_mem_findings {graph : SelectionGraph} (hgraph : SelectionGraph.ofDocument schema definitions = .ok graph)
    (hfound : findings schema definitions = .ok found) {finding : Finding} (hmem : finding ∈ found) :
    finding.first < graph.fields.size ∧ finding.second < graph.fields.size := by
  rw [findings_eq hgraph] at hfound
  cases hcheck : graph.resolved.check.1 with
  | error defect =>
    rw [hcheck] at hfound
    cases hfound
  | ok results =>
    rw [hcheck] at hfound
    obtain rfl := Except.ok.inj hfound
    obtain ⟨memo, hchecked⟩ := ResolvedGraph.check_returns hcheck
    have hconflict := ((hchecked.finds _ _ _).1 hmem).2
    obtain ⟨x, hx, hconflict⟩ := Option.bind_eq_some_iff.1 hconflict
    obtain ⟨y, hy, -⟩ := Option.bind_eq_some_iff.1 hconflict
    have hx : graph.fields[finding.first]? = some x := hx
    have hy : graph.fields[finding.second]? = some y := hy
    exact ⟨(Array.getElem?_eq_some_iff.1 hx).1, (Array.getElem?_eq_some_iff.1 hy).1⟩

/-- What is found in a part stands for the same conflicts in the document. -/
theorem PartOf.filterMap_conflict? {part whole : List Definition} {offset : Nat} (h : PartOf part offset whole)
    {graph graph' : SelectionGraph} (hgraph : SelectionGraph.ofDocument schema part = .ok graph)
    (hgraph' : SelectionGraph.ofDocument schema whole = .ok graph') (hfound : findings schema part = .ok found) :
    (found.map (Finding.rename (offset + ·))).filterMap (Finding.conflict? graph'.fields) =
      found.filterMap (Finding.conflict? graph.fields) := by
  have hleft := SelectionGraph.represents_ofDocument hgraph
  have hright := SelectionGraph.represents_ofDocument hgraph'
  rw [List.filterMap_map]
  refine List.filterMap_congr fun finding hmem => ?_
  obtain ⟨hfirst, hsecond⟩ := lt_of_mem_findings hgraph hfound hmem
  exact Finding.conflict?_rename (h.bare_getElem? hleft hright hfirst) (h.bare_getElem? hleft hright hsecond)

/-- What is found in the document made of both. -/
theorem Independent.findings_append {first second : List Definition} (h : Independent first second) :
    findings schema (first ++ second) = (do
      let found ← findings schema first
      let found' ← findings schema second
      return found ++ found'.map (Finding.rename (documentFieldCount first + ·))) := by
  have hfirst := SelectionGraph.ofDocument_eq schema first
  have hsecond := SelectionGraph.ofDocument_eq schema second
  have hwhole := SelectionGraph.ofDocument_eq schema (first ++ second)
  rw [findings_eq hfirst, findings_eq hsecond, findings_eq hwhole,
    h.check_eq (SelectionGraph.expanded_ofDocument hfirst) (SelectionGraph.expanded_ofDocument hsecond)
      (SelectionGraph.expanded_ofDocument hwhole)]
  cases (SelectionGraph.resolved _).check.1 with
  | error defect => rfl
  | ok found =>
    cases (SelectionGraph.resolved _).check.1 with
    | error defect => rfl
    | ok found' =>
      show Except.ok _ = Except.ok _
      rw [List.flatten_append, List.map_flatten]

end Findings

/-- **Documents together.** Where no fragment that one of two documents defines is defined or spread in
the other, the document made of both fails with the defect of the first, or else of the second. If
neither fails, it is reported to have the conflicts of the first document and then those of the second,
between the fields that correspond to theirs. -/
theorem validate_append {schema : Schema} {first second : List Definition} (h : Independent first second) :
    findings schema (first ++ second) = (do
      let found ← findings schema first
      let found' ← findings schema second
      return found ++ found'.map (Finding.rename (documentFieldCount first + ·))) ∧
    validate schema (first ++ second) = (do
      let conflicts ← validate schema first
      let conflicts' ← validate schema second
      return conflicts ++ conflicts') := by
  refine ⟨h.findings_append, ?_⟩
  have hfirst := SelectionGraph.ofDocument_eq schema first
  have hsecond := SelectionGraph.ofDocument_eq schema second
  have hwhole := SelectionGraph.ofDocument_eq schema (first ++ second)
  rw [validate_eq_findings hfirst, validate_eq_findings hsecond, validate_eq_findings hwhole, h.findings_append]
  cases hfound : findings schema first with
  | error defect => rfl
  | ok found =>
    cases hfound' : findings schema second with
    | error defect => rfl
    | ok found' =>
      have hkept := h.partOf_first.filterMap_conflict? hfirst hwhole hfound
      have hmoved := h.partOf_second.filterMap_conflict? hsecond hwhole hfound'
      have hzero : Finding.rename (0 + ·) = id := by
        funext finding
        simp [Finding.rename]
      rw [hzero, List.map_id] at hkept
      exact congrArg Except.ok (List.filterMap_append.trans (congrArg₂ (· ++ ·) hkept hmoved))

/-- A query with a conflict that spreads a fragment `U`, which is not defined. -/
def queryDocument : List Definition :=
  [.operation ⟨.query, none,
    [.field ⟨some ⟨"x", Eq.refl true⟩, ⟨"a", Eq.refl true⟩, [], none⟩ [],
     .field ⟨some ⟨"x", Eq.refl true⟩, ⟨"b", Eq.refl true⟩, [], none⟩ [],
     .spread ⟨"U", Eq.refl true⟩]⟩]

/-- A fragment with a conflict that spreads itself and `U`. -/
def fragmentDocument : List Definition :=
  [.fragment ⟨⟨"F", Eq.refl true⟩, ⟨"Query", Eq.refl true⟩,
    [.field ⟨none, ⟨"next", Eq.refl true⟩, [], none⟩
      [.spread ⟨"F", Eq.refl true⟩, .field ⟨some ⟨"x", Eq.refl true⟩, ⟨"a", Eq.refl true⟩, [], none⟩ []],
     .field ⟨some ⟨"x", Eq.refl true⟩, ⟨"next", Eq.refl true⟩, [], none⟩ [.spread ⟨"U", Eq.refl true⟩]]⟩]

/-- Both have their say in one document, though both spread `U`. -/
theorem query_and_fragment_reported : ∃ conflicts conflicts',
    validate loopSchema queryDocument = .ok conflicts ∧ conflicts.length = 1 ∧
    validate loopSchema fragmentDocument = .ok conflicts' ∧ conflicts'.length = 1 ∧
    Independent queryDocument fragmentDocument ∧
    validate loopSchema (queryDocument ++ fragmentDocument) = .ok (conflicts ++ conflicts') := by
  have hquery : (validate loopSchema queryDocument).toOption.map List.length = some 1 := by
    decide +kernel
  have hfragment : (validate loopSchema fragmentDocument).toOption.map List.length = some 1 := by
    decide +kernel
  obtain ⟨conflicts, hvalidate, hlength⟩ := exists_validate_eq hquery
  obtain ⟨conflicts', hvalidate', hlength'⟩ := exists_validate_eq hfragment
  have hindependent : Independent queryDocument fragmentDocument := ⟨by decide, by decide⟩
  refine ⟨conflicts, conflicts', hvalidate, hlength, hvalidate', hlength', hindependent, ?_⟩
  rw [(validate_append hindependent).2, hvalidate, hvalidate']
  rfl

end SelectionMerge
