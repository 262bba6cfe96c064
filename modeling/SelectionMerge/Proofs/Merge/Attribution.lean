import SelectionMerge.Proofs.Merge.Comparisons

/-!
# Which field selections are reported

A reported conflict shows two field selections of the document, with their output types, the response key
that both have and a reason: `Conflict.Reports` ties it to the numbers of the two. The conflicts of a
document report what its check finds, one by one (`validate_attributed`), and so exactly the pairs that a
pass has to compare and that conflict (`validate_reports_exactly`). Which pairs these are is said of the
document itself, without memo and marks.
-/

namespace SelectionMerge
set_option autoImplicit false

/-- What a conflict shows as one of its fields is the field selection of that number, with its output
type. -/
def ConflictingField.Shows (all : List Occurrence) (shown : ConflictingField) (i : FieldId) : Prop :=
  ∃ occurrence, all[i]? = some occurrence ∧ shown.field = occurrence.field ∧
    shown.type? = occurrence.type?.map FieldType.type

/-- The conflict reports the two field selections of a finding, in this order, and its reason; both have the
response key that it names. -/
structure Conflict.Reports (all : List Occurrence) (conflict : Conflict) (finding : Finding) : Prop where
  first : conflict.first.Shows all finding.first
  second : conflict.second.Shows all finding.second
  firstKey : conflict.first.field.responseKey = conflict.responseKey
  secondKey : conflict.second.field.responseKey = conflict.responseKey
  reason : conflict.reason = finding.reason

namespace ConflictingField.Shows

variable {all : List Occurrence} {shown : ConflictingField} {i : FieldId}

theorem responseKeyAt (h : shown.Shows all i) :
    SelectionMerge.responseKeyAt all i = some shown.field.responseKey := by
  obtain ⟨occurrence, hi, hfield, -⟩ := h
  unfold SelectionMerge.responseKeyAt
  rw [hi, hfield]
  rfl

theorem callAt (h : shown.Shows all i) : SelectionMerge.callAt all i = some shown.field.call := by
  obtain ⟨occurrence, hi, hfield, -⟩ := h
  unfold SelectionMerge.callAt
  rw [hi, hfield]
  rfl

end ConflictingField.Shows

/-- Fields that are compared stand under one response key. -/
theorem ResolvedGraph.Compares.responseKey? {resolved : ResolvedGraph} {start : List FieldId} {a b : FieldId}
    (h : resolved.Compares start a b) : resolved.responseKey? a = resolved.responseKey? b := by
  obtain ⟨pass, group, ⟨set, -, hgroup⟩, hpair⟩ := h
  have hmem : a ∈ group ∧ b ∈ group := by
    obtain hpair | hpair := hpair
    · exact mem_of_pairs hpair
    · exact (mem_of_pairs hpair).symm
  exact ((mem_group hgroup hmem.1).2 b hmem.2).1

/-- What was found under the roots so far. -/
theorem Memo.Checked.mem_iff {resolved : ResolvedGraph} {memo : Memo} {roots : List ContainerId}
    {found : List Finding} (h : memo.Checked resolved roots found) (finding : Finding) :
    finding ∈ found ↔ ∃ root ∈ roots, resolved.Finds root finding := by
  rw [h.finds finding.first finding.second finding.reason, h.compared_iff finding.first finding.second]
  constructor
  · rintro ⟨⟨hlt, pass, group, hgroup, hpair⟩, hconflict⟩
    obtain ⟨root, hroot, hgroup⟩ := (h.grouped_iff pass group).1 hgroup
    exact ⟨root, hroot, hlt, hconflict, pass, group, hgroup, hpair⟩
  · rintro ⟨root, hroot, hlt, hconflict, pass, group, hgroup, hpair⟩
    exact ⟨⟨hlt, pass, group, (h.grouped_iff pass group).2 ⟨root, hroot, hgroup⟩, hpair⟩, hconflict⟩

section Attribution

variable {schema : Schema} {definitions : List Definition} {conflicts : List Conflict}

/-- A field of the graph is shown as the field selection that it is. -/
theorem SelectionGraph.Represents.shows {graph : SelectionGraph}
    (h : SelectionGraph.Represents schema definitions graph) {i : FieldId} {selected : SelectedField}
    (hi : graph.fields[i]? = some selected) : selected.conflicting.Shows (occurrences schema definitions) i := by
  obtain ⟨occurrence, hoccurrence, hbare⟩ := h.field? hi
  refine ⟨occurrence, hoccurrence, congrArg SelectedField.field hbare, ?_⟩
  exact congrArg (fun selected : SelectedField => selected.type?.map FieldType.type) hbare

/-- The conflict that a finding stands for reports it. -/
theorem SelectionGraph.Represents.reports {graph : SelectionGraph}
    (h : SelectionGraph.Represents schema definitions graph) {finding : Finding} {conflict : Conflict}
    (hkeys : graph.resolved.responseKey? finding.first = graph.resolved.responseKey? finding.second)
    (hconflict : finding.conflict? graph.fields = some conflict) :
    conflict.Reports (occurrences schema definitions) finding := by
  obtain ⟨x, hx, hconflict⟩ := Option.bind_eq_some_iff.1 hconflict
  obtain ⟨y, hy, hconflict⟩ := Option.bind_eq_some_iff.1 hconflict
  obtain rfl := Option.some.inj hconflict
  have hx' : graph.resolved.field? finding.first = some x := hx
  have hy' : graph.resolved.field? finding.second = some y := hy
  rw [ResolvedGraph.responseKey?_eq hx', ResolvedGraph.responseKey?_eq hy'] at hkeys
  exact ⟨h.shows hx, h.shows hy, rfl, (Option.some.inj hkeys).symm, rfl⟩

/-- The conflicts of a document report what its check finds, one for each finding and in this order. -/
theorem validate_attributed (h : validate schema definitions = .ok conflicts) :
    ∃ graph found, ∃ memo : Memo, SelectionGraph.ofDocument schema definitions = .ok graph ∧
      graph.resolved.check.1 = .ok found ∧
      memo.Checked graph.resolved graph.roots found.flatten ∧
      List.Forall₂ (Conflict.Reports (occurrences schema definitions)) conflicts found.flatten := by
  obtain ⟨graph, found, memo, hgraph, hfound, hchecked, hconflicts⟩ := validate_checked h
  have hrepresents := SelectionGraph.represents_ofDocument hgraph
  refine ⟨graph, found, memo, hgraph, hfound, hchecked, ?_⟩
  have hkeys : ∀ finding ∈ found.flatten,
      graph.resolved.responseKey? finding.first = graph.resolved.responseKey? finding.second := by
    intro finding hfinding
    obtain ⟨root, -, hfinds⟩ := (hchecked.mem_iff finding).1 hfinding
    exact hfinds.compared.responseKey?
  have hstands : List.Forall₂ (fun finding conflict => Finding.conflict? graph.fields finding = some conflict)
      found.flatten conflicts := by
    rw [← List.forall₂_map_left_iff (R := fun conflict? conflict => conflict? = some conflict),
      ← List.forall₂_map_right_iff (R := fun conflict? conflict => conflict? = conflict), hconflicts]
    exact List.forall₂_same.2 fun _ _ => rfl
  refine ((List.forall₂_and_left _ _).2 ⟨hkeys, hstands⟩).flip.imp ?_
  rintro conflict finding ⟨hkey, hconflict⟩
  exact hrepresents.reports hkey hconflict

/-- **Transparency.** What a check reports are the conflicts between fields `a` and `b`, `a` the first in the
document, that a pass has to compare in a group that it comes to from a root: the reported conflicts show
these two field selections of the document, each pair that there is and no other. -/
theorem validate_reports_exactly (h : validate schema definitions = .ok conflicts) :
    ∃ found : List Finding,
      List.Forall₂ (Conflict.Reports (occurrences schema definitions)) conflicts found ∧
      ∀ finding, finding ∈ found ↔ ∃ content ∈ documentRoots definitions, content.Finds schema definitions finding := by
  obtain ⟨graph, found, memo, hgraph, -, hchecked, hreports⟩ := validate_attributed h
  have hfinds := (SelectionGraph.expanded_ofDocument hgraph).forall₂_finds
  refine ⟨found.flatten, hreports, fun finding => ?_⟩
  rw [hchecked.mem_iff]
  exact (exists_mem_iff_of_forall₂ (hfinds.imp fun _ _ hsame => hsame finding)).symm

end Attribution

/-- The two fields under `x` are in the set that the fragment leads back to. They are compared there, and
reported once. -/
theorem loop_reports : ∃ conflict, validate loopSchema loopDocument = .ok [conflict] ∧
    conflict.Reports (occurrences loopSchema loopDocument) ⟨1, 2, .differentFieldName⟩ ∧
    ∃ content ∈ documentRoots loopDocument, content.Finds loopSchema loopDocument ⟨1, 2, .differentFieldName⟩ := by
  have hlength : (validate loopSchema loopDocument).toOption.map List.length = some 1 := by
    decide +kernel
  obtain ⟨conflicts, hvalidate, hone⟩ := exists_validate_eq hlength
  obtain ⟨conflict, rfl⟩ := List.length_eq_one_iff.1 hone
  obtain ⟨found, hreports, hexactly⟩ := validate_reports_exactly hvalidate
  obtain ⟨⟨a, b, reason⟩, rest, hreport, -, rfl⟩ := List.forall₂_cons_left_iff.1 hreports
  obtain ⟨content, hcontent, hfinds⟩ := (hexactly _).1 (.head _)
  obtain ⟨x, y, hx, hy, hreason⟩ := hfinds.conflict
  -- Of the three fields only the last two have one response key.
  have hkeys : ∀ b < 3, ∀ a < b, responseKeyAt (occurrences loopSchema loopDocument) a =
      responseKeyAt (occurrences loopSchema loopDocument) b → a = 1 ∧ b = 2 := by
    decide +kernel
  have hkey : responseKeyAt (occurrences loopSchema loopDocument) a =
      responseKeyAt (occurrences loopSchema loopDocument) b := by
    rw [hreport.first.responseKeyAt, hreport.second.responseKeyAt, hreport.firstKey, hreport.secondKey]
  obtain ⟨rfl, rfl⟩ := hkeys b (List.getElem?_eq_some_iff.1 hy).1 a hfinds.ordered hkey
  have hrule : ((occurrences loopSchema loopDocument)[1]?.bind fun x =>
      (occurrences loopSchema loopDocument)[2]?.bind fun y => x.bare.conflict? y.bare) =
        some .differentFieldName := by
    decide +kernel
  have hreason : some reason = some .differentFieldName := by
    rw [← Occurrence.conflict?_bare.2 hreason, ← hrule, hx, hy]
    rfl
  obtain rfl := Option.some.inj hreason
  exact ⟨conflict, hvalidate, hreport, content, hcontent, hfinds⟩

end SelectionMerge
