import SelectionMerge.Proofs.Check.Ledger
import SelectionMerge.Proofs.Merge.Borders
import SelectionMerge.Proofs.Types.Shapes

/-!
# When a check fails

A schema can give a field an input object type as its output type, by mistake. Such a type has no
shape, and a check that comes to the field fails. It comes to every field of the document, whatever
it finds on the way, and nothing else stops it: the walk keeps its containers balanced
(`SelectionGraph.ofDocument_eq`) and the passes do not use up their depth
(`ResolvedGraph.exists_shape_of_check_fails`). So a check fails exactly on the documents that select such a
field (`validate_fails_iff`).
-/

namespace SelectionMerge
set_option autoImplicit false

/-- The named type inside the output type of the field selection is an input object type, of that
name. -/
def Occurrence.ReturnsInput (schema : Schema) (occurrence : Occurrence) (name : Name) : Prop :=
  ∃ type definition, occurrence.type? = some type ∧ type.type.innerName = name ∧
    schema.type? name = some definition ∧ definition.IsInputObject

namespace Schema

/-- A type is found under its name. -/
theorem name_of_type? {schema : Schema} {name : Name} {definition : TypeDefinition}
    (h : schema.type? name = some definition) : definition.name = name := by
  unfold type? at h
  have hname := List.find?_some h
  exact eq_of_beq hname

end Schema

namespace SelectionGraph

variable {graph : SelectionGraph} {schema : Schema} {definitions : List Definition}

/-- The fields without a shape are the field selections that return an input object. -/
theorem Represents.shape_eq_error (h : Represents schema definitions graph) {i : FieldId} {defect : Defect} :
    graph.resolved.shape i = .error defect ↔
      ∃ occurrence name, (occurrences schema definitions)[i]? = some occurrence ∧
        occurrence.ReturnsInput schema name ∧ defect = .inputObjectOutput name := by
  constructor
  · intro hshape
    unfold ResolvedGraph.shape at hshape
    split at hshape
    next selected hselected =>
      obtain ⟨occurrence, hoccurrence, hbare⟩ := h.field? hselected
      unfold SelectedField.shape at hshape
      split at hshape
      next type htype =>
        have hdefinition := h.definition hselected htype
        cases hof : Shape.of type.type type.definition with
        | ok shape =>
          rw [hof] at hshape
          cases hshape
        | error found =>
          rw [hof] at hshape
          obtain rfl := Except.error.inj hshape
          obtain ⟨hinput, rfl⟩ := Shape.of_eq_error.1 hof
          rw [Schema.name_of_type? hdefinition]
          have htype' : occurrence.type? = some type := (congrArg SelectedField.type? hbare).symm.trans htype
          exact ⟨occurrence, _, hoccurrence, ⟨type, type.definition, htype', rfl, hdefinition, hinput⟩, rfl⟩
      next => cases hshape
    next => cases hshape
  · rintro ⟨occurrence, name, hoccurrence, ⟨type, definition, htype, rfl, hdefinition, hinput⟩, rfl⟩
    obtain ⟨selected, hselected, -, htype', -⟩ := h.exists_selected hoccurrence
    have hselected : graph.resolved.field? i = some selected := hselected
    have hsame := h.definition hselected (htype'.trans htype)
    obtain rfl := Option.some.inj (hdefinition.symm.trans hsame)
    have hof : Shape.of type.type type.definition = .error (.inputObjectOutput type.definition.name) :=
      Shape.of_eq_error.2 ⟨hinput, rfl⟩
    unfold ResolvedGraph.shape SelectedField.shape
    simp only [hselected, htype', htype, hof, Schema.name_of_type? hdefinition]
    rfl

/-- The shape of a field does not depend on a depth. -/
theorem Represents.shape_ne_depthExhausted (h : Represents schema definitions graph) (i : FieldId) :
    graph.resolved.shape i ≠ .error .depthExhausted := by
  intro hshape
  obtain ⟨occurrence, name, -, -, hdefect⟩ := h.shape_eq_error.1 hshape
  cases hdefect

end SelectionGraph

namespace Check

variable {resolved : ResolvedGraph} {memo after : Memo} {found : List Finding} {defect : Defect}

theorem upholds_checkRoot (root : ContainerId) : Upholds resolved (checkRoot resolved root) := by
  unfold checkRoot
  rw [follow_shapes, follow_calls]
  refine Upholds.bind ?_ fun _ => (upholds_lookup _).bind fun id => ?_
  · exact upholds_modify fun _ => rfl
  refine (upholds_follow .shapes _ id).bind fun _ => (upholds_follow .calls _ id).bind fun _ => ?_
  exact preserves_get.bind fun _ => preserves_pure _

end Check

namespace ResolvedGraph

variable {resolved : ResolvedGraph}

theorem tidy_opening (resolved : ResolvedGraph) : resolved.opening.Tidy resolved :=
  (Memo.tidy_empty resolved).congr rfl

/-- A check that nothing stops has read the shapes of all fields in the groups of the first pass. -/
theorem exists_shape_of_check_returns {found : List (List Finding)} (h : resolved.check.1 = .ok found)
    {root : ContainerId} (hroot : root ∈ resolved.graph.roots) {group : List FieldId}
    (hgroup : resolved.ReachedGroup .shapes (resolved.fieldSet root) group) {i : FieldId} (hi : i ∈ group) :
    ∃ shape, resolved.shape i = .ok shape := by
  obtain ⟨after, hroots⟩ := exists_returns_of_check h
  have hmarked := (Check.mapM_checkRoot_returns resolved.checked_opening hroots).grouped_iff .shapes group
  have htidy := Check.Upholds.mapM Check.upholds_checkRoot _ _ _ _ resolved.tidy_opening hroots
  exact htidy.shapes (hmarked.2 ⟨root, hroot, hgroup⟩) hi

end ResolvedGraph

section Documents

variable {schema : Schema} {definitions : List Definition} {graph : SelectionGraph}

/-- The conflicts of a document are those that the check of its graph finds. -/
theorem validate_eq (h : SelectionGraph.ofDocument schema definitions = .ok graph) :
    validate schema definitions = graph.resolved.check.1.map fun found =>
      found.flatten.filterMap (Finding.conflict? graph.fields) := by
  unfold validate check
  rw [h]

/-- The defect that stops a check is that a field selection returns an input object. -/
theorem exists_input_of_validate {defect : Defect} (h : validate schema definitions = .error defect) :
    ∃ occurrence ∈ occurrences schema definitions, ∃ name,
      occurrence.ReturnsInput schema name ∧ defect = .inputObjectOutput name := by
  have hgraph := SelectionGraph.ofDocument_eq schema definitions
  have hrepresents := SelectionGraph.represents_ofDocument hgraph
  rw [validate_eq hgraph] at h
  cases hcheck : (SelectionGraph.resolved _).check.1 with
  | ok found =>
    rw [hcheck] at h
    cases h
  | error found =>
    rw [hcheck] at h
    obtain rfl := Except.error.inj h
    obtain ⟨i, hshape⟩ := ResolvedGraph.exists_shape_of_check_fails hrepresents.wellFormed hcheck
    obtain ⟨occurrence, name, hoccurrence, hinput, hdefect⟩ := hrepresents.shape_eq_error.1 hshape
    exact ⟨occurrence, List.mem_of_getElem? hoccurrence, name, hinput, hdefect⟩

/-- A field selection that returns an input object stops the check. -/
theorem not_validate_of_input {occurrence : Occurrence} (hmem : occurrence ∈ occurrences schema definitions)
    {name : Name} (hinput : occurrence.ReturnsInput schema name) (conflicts : List Conflict) :
    validate schema definitions ≠ .ok conflicts := by
  intro h
  obtain ⟨graph, found, -, hgraph, hfound, -⟩ := validate_checked h
  have hrepresents := SelectionGraph.represents_ofDocument hgraph
  obtain ⟨i, hi⟩ := List.getElem?_of_mem hmem
  obtain ⟨root, hroot, set, hset, hi'⟩ := hrepresents.exists_reached .shapes hi
  obtain ⟨group, hgroup, hmem', -⟩ := ResolvedGraph.exists_group .shapes hi' hi' rfl nofun
  obtain ⟨shape, hshape⟩ := ResolvedGraph.exists_shape_of_check_returns hfound hroot ⟨set, hset, hgroup⟩ hmem'
  rw [hrepresents.shape_eq_error.2 ⟨occurrence, name, hi, hinput, rfl⟩] at hshape
  cases hshape

/-- A check returns exactly on the documents without input objects in the place of output types. -/
theorem exists_validate_iff : (∃ conflicts, validate schema definitions = .ok conflicts) ↔
    ∀ occurrence ∈ occurrences schema definitions, ∀ name, ¬ occurrence.ReturnsInput schema name := by
  constructor
  · rintro ⟨conflicts, h⟩ occurrence hmem name hinput
    exact not_validate_of_input hmem hinput conflicts h
  · intro hnone
    cases h : validate schema definitions with
    | ok conflicts => exact ⟨conflicts, rfl⟩
    | error defect =>
      obtain ⟨occurrence, hmem, name, hinput, -⟩ := exists_input_of_validate h
      exact absurd hinput (hnone occurrence hmem name)

/-- A document passes if no field selection returns an input object and no pair that a pass has to
compare is in conflict. -/
theorem validate_eq_nil_iff (hgraph : SelectionGraph.ofDocument schema definitions = .ok graph) :
    validate schema definitions = .ok [] ↔
      (∀ occurrence ∈ occurrences schema definitions, ∀ name, ¬ occurrence.ReturnsInput schema name) ∧
      graph.resolved.Quiet := by
  constructor
  · intro h
    obtain ⟨graph', hgraph', hquiet⟩ := quiet_of_validate h
    obtain rfl := Except.ok.inj (hgraph.symm.trans hgraph')
    exact ⟨exists_validate_iff.1 ⟨[], h⟩, hquiet⟩
  · rintro ⟨hnone, hquiet⟩
    obtain ⟨conflicts, h⟩ := exists_validate_iff.2 hnone
    obtain ⟨graph', found, memo, hgraph', -, hchecked, hconflicts⟩ := validate_checked h
    obtain rfl := Except.ok.inj (hgraph.symm.trans hgraph')
    -- A finding would be a conflict in a group that a pass comes to.
    have hfound : found.flatten = [] := by
      apply List.eq_nil_iff_forall_not_mem.2
      rintro ⟨a, b, reason⟩ hfinding
      obtain ⟨hcompared, hconflict⟩ := (hchecked.finds a b reason).1 hfinding
      obtain ⟨hlt, pass, group, hgroup, hpair⟩ := (hchecked.compared_iff a b).1 hcompared
      obtain ⟨root, hroot, hgroup⟩ := (hchecked.grouped_iff pass group).1 hgroup
      rw [hquiet pass root hroot group hgroup a b hlt hpair] at hconflict
      cases hconflict
    rw [hfound, List.map_nil] at hconflicts
    rw [h, List.map_eq_nil_iff.1 hconflicts]

end Documents

/-- **Failure.** A check fails exactly where some field selection of the document, used or not,
returns an input object, and it fails with the name of the type of such a selection. -/
theorem validate_fails_iff (schema : Schema) (definitions : List Definition) :
    ((∃ defect, validate schema definitions = .error defect) ↔
      ∃ occurrence ∈ occurrences schema definitions, ∃ name, occurrence.ReturnsInput schema name) ∧
    ∀ defect, validate schema definitions = .error defect →
      ∃ occurrence ∈ occurrences schema definitions, ∃ name,
        occurrence.ReturnsInput schema name ∧ defect = .inputObjectOutput name := by
  refine ⟨⟨?_, ?_⟩, fun defect h => exists_input_of_validate h⟩
  · rintro ⟨defect, h⟩
    obtain ⟨occurrence, hmem, name, hinput, -⟩ := exists_input_of_validate h
    exact ⟨occurrence, hmem, name, hinput⟩
  · rintro ⟨occurrence, hmem, name, hinput⟩
    cases h : validate schema definitions with
    | ok conflicts => exact absurd h (not_validate_of_input hmem hinput conflicts)
    | error defect => exact ⟨defect, rfl⟩

end SelectionMerge
