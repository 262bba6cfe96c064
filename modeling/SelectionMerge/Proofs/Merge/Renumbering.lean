import SelectionMerge.Proofs.Merge.Mirror
import SelectionMerge.Proofs.Expansion.Exactness

/-!
# Documents under other numbers

What a check reports does not depend on how a document is written but on what its selections expand to.
Where the fields of a document are fields of another one, in the same order and alike
(`Renumbered`), the graph of the one is embedded in the graph of the other (`Renumbered.embeds`), so the
checks go side by side from a memo that knows nothing of these fields (`abreast_opening`). Documents with
the same fields and the same expansions are reported alike (`SameExpansions.validate`).
-/

namespace SelectionMerge
set_option autoImplicit false

section Squares

variable {α β γ δ : Type} {P : α → β → Prop} {Q : α → γ → Prop} {S : γ → δ → Prop} {T : β → δ → Prop}

theorem forall₂_square {as : List α} {bs : List β} {cs : List γ} {ds : List δ} (hleft : List.Forall₂ P as bs)
    (hacross : List.Forall₂ Q as cs) (hright : List.Forall₂ S cs ds)
    (h : ∀ {a b c d}, P a b → Q a c → S c d → T b d) : List.Forall₂ T bs ds := by
  induction hleft generalizing cs ds with
  | nil =>
    cases hacross
    cases hright
    exact .nil
  | cons hp _ ih =>
    rcases hacross with _ | ⟨hq, hacross⟩
    rcases hright with _ | ⟨hs, hright⟩
    exact .cons (h hp hq hs) (ih hacross hright)

end Squares

/-- The fields of the one document are fields of the other under ascending new numbers, with the same
fields below them. -/
structure Renumbered (schema : Schema) (definitions definitions' : List Definition) (rename : Nat → Nat) :
    Prop where
  mono : StrictMono rename
  alike : ∀ {i x}, (occurrences schema definitions)[i]? = some x →
    ∃ y, (occurrences schema definitions')[rename i]? = some y ∧ x.Alike y
  below : ∀ {i}, i < (occurrences schema definitions).length → ∀ j,
    ExpandsBelow schema definitions' (rename i) j ↔ ∃ k, ExpandsBelow schema definitions i k ∧ rename k = j

/-- The contents have the same fields. -/
def Content.Renumbered (definitions definitions' : List Definition) (rename : Nat → Nat)
    (content content' : Content) : Prop :=
  ∀ j, content'.Expands definitions' j ↔ ∃ k, content.Expands definitions k ∧ rename k = j

namespace SelectionGraph

variable {schema : Schema} {definitions definitions' : List Definition} {graph graph' : SelectionGraph}

theorem Represents.size_eq (h : Represents schema definitions graph) :
    graph.fields.size = (occurrences schema definitions).length := by
  have hlength := congrArg List.length h.fields
  simpa using hlength

theorem Represents.within_fieldsOf (h : Represents schema definitions graph) (ids : List ContainerId) :
    graph.resolved.Within (graph.fieldsOf ids) := by
  intro i hi
  obtain ⟨c, -, hi⟩ := ResolvedGraph.mem_fieldsOf.1 hi
  exact h.wellFormed.fields_lt hi

/-- Nothing but the shape of a field stops the check of a document. -/
theorem Represents.check_ne_depthExhausted (h : Represents schema definitions graph) :
    graph.resolved.check.1 ≠ .error .depthExhausted := by
  intro hcheck
  obtain ⟨i, hshape⟩ := ResolvedGraph.exists_shape_of_check_fails h.wellFormed hcheck
  exact h.shape_ne_depthExhausted i hshape

end SelectionGraph

section Graphs

variable {schema : Schema} {definitions definitions' : List Definition} {rename : Nat → Nat}
variable {graph graph' : SelectionGraph}

/-- Ascending lists with the same fields are the same list, under the new numbers. -/
theorem eq_map_of_mem_iff (hmono : StrictMono rename) {set set' : List FieldId} (hset : set.Pairwise (· < ·))
    (hset' : set'.Pairwise (· < ·)) (h : ∀ j, j ∈ set' ↔ ∃ k ∈ set, rename k = j) : set' = set.map rename := by
  apply Ascending.eq_of_mem_iff hset' (hset.map rename fun _ _ hlt => hmono hlt)
  intro j
  rw [List.mem_map]
  exact h j

/-- The graph of the one document is embedded in the graph of the other. -/
theorem Renumbered.embeds (h : Renumbered schema definitions definitions' rename)
    (hleft : SelectionGraph.Expanded schema definitions graph)
    (hright : SelectionGraph.Expanded schema definitions' graph') :
    graph.resolved.Embeds graph'.resolved rename where
  mono := h.mono
  alike i hi := by
    change i < graph.fields.size at hi
    rw [hleft.represents.size_eq] at hi
    obtain ⟨y, hy, hxy⟩ := h.alike (List.getElem?_eq_getElem hi)
    exact hleft.represents.alike hright.represents (List.getElem?_eq_getElem hi) hy hxy
  children set hset := by
    have hlt : ∀ i ∈ set, i < (occurrences schema definitions).length := fun i hi =>
      hleft.represents.size_eq ▸ hset i hi
    refine eq_map_of_mem_iff h.mono ?_ ?_ fun j => ?_
    · exact ResolvedGraph.pairwise_fieldsOf _ _
    · exact ResolvedGraph.pairwise_fieldsOf _ _
    rw [hright.children]
    constructor
    · rintro ⟨_, hmem, hj⟩
      obtain ⟨above, habove, rfl⟩ := List.mem_map.1 hmem
      obtain ⟨k, hk, hkj⟩ := (h.below (hlt above habove) j).1 hj
      exact ⟨k, (hleft.children set k).2 ⟨above, habove, hk⟩, hkj⟩
    · rintro ⟨k, hk, hkj⟩
      obtain ⟨above, habove, hk⟩ := (hleft.children set k).1 hk
      exact ⟨rename above, List.mem_map_of_mem habove, (h.below (hlt above habove) j).2 ⟨k, hk, hkj⟩⟩
  within set := hleft.represents.within_fieldsOf _

/-- Roots that stand for the same contents have the same field sets. -/
theorem forall₂_fieldSets (hmono : StrictMono rename) (hleft : SelectionGraph.Expanded schema definitions graph)
    {contents' : List Content} {roots' : List ContainerId}
    (hcontents : List.Forall₂ (Content.Renumbered definitions definitions' rename)
      (documentRoots definitions) contents')
    (hright : List.Forall₂ (fun content root =>
      ∀ i, i ∈ graph'.resolved.fieldSet root ↔ content.Expands definitions' i) contents' roots') :
    List.Forall₂ (fun root root' => graph.resolved.Within (graph.resolved.fieldSet root) ∧
      graph'.resolved.fieldSet root' = (graph.resolved.fieldSet root).map rename) graph.roots roots' := by
  refine forall₂_square hleft.roots hcontents hright fun {content root content' root'} hroot hsame hroot' => ?_
  refine ⟨hleft.represents.within_fieldsOf _, ?_⟩
  refine eq_map_of_mem_iff hmono ?_ ?_ fun j => ?_
  · exact ResolvedGraph.pairwise_fieldsOf _ _
  · exact ResolvedGraph.pairwise_fieldsOf _ _
  simp only [hroot', hroot]
  exact hsame j

end Graphs

section Checks

variable {left right : ResolvedGraph} {rename : FieldId → FieldId}

/-- A check of the left graph may begin beside a check of the right one that has not come to any of its
fields. -/
theorem abreast_opening {memo' : Memo} {roots' : List ContainerId} {found : List Finding}
    (hmemo : memo'.Checked right roots' found) (htidy : memo'.Tidy right)
    (hnew : ∀ root ∈ roots', ∀ pass set, right.Reached pass (right.fieldSet root) set → ∀ i, rename i ∉ set) :
    Memo.Abreast left right rename left.opening.reset memo'.reset := by
  have hopening := left.checked_opening
  have hfollowed : ∀ pass {set}, set ≠ [] → ¬ memo'.Followed pass (set.map rename) := by
    intro pass set hne hmark
    obtain ⟨root, hroot, hreached⟩ := (hmemo.followed_iff pass _).1 hmark
    obtain ⟨i, hi⟩ := List.exists_mem_of_ne_nil _ hne
    exact hnew root hroot pass _ hreached i (List.mem_map_of_mem hi)
  have hgrouped : ∀ pass group, memo'.Grouped pass group → ∀ i, rename i ∉ group := by
    intro pass group hmark i hi
    obtain ⟨root, hroot, set, hreached, hgroup⟩ := (hmemo.grouped_iff pass _).1 hmark
    exact hnew root hroot pass _ hreached i (ResolvedGraph.mem_group hgroup hi).1
  have hnone : ∀ pass group, ¬ left.opening.Grouped pass group := by
    intro pass group hmark
    obtain ⟨root, hroot, -⟩ := (hopening.grouped_iff pass group).1 hmark
    cases hroot
  refine ⟨⟨hopening.sound.congr rfl, hmemo.sound.congr rfl, ?_, ?_, ?_, rfl⟩, ?_, htidy.congr rfl⟩
  · intro pass set _ hne
    refine iff_of_false (hfollowed pass hne) fun hmark => ?_
    obtain ⟨root, hroot, -⟩ := (hopening.followed_iff pass set).1 hmark
    cases hroot
  · intro pass group _ hne
    obtain ⟨i, hi⟩ := List.exists_mem_of_ne_nil _ hne
    exact iff_of_false (fun hmark => hgrouped pass _ hmark i (List.mem_map_of_mem hi)) (hnone pass group)
  · intro a b _ _
    rw [Bool.eq_iff_iff]
    change memo'.compared (rename a) (rename b) = true ↔ left.opening.compared a b = true
    rw [hmemo.compared_iff, hopening.compared_iff]
    refine iff_of_false ?_ ?_
    · rintro ⟨-, pass, group, hgroup, hpair | hpair⟩
      · exact hgrouped pass group hgroup a (ResolvedGraph.mem_of_pairs hpair).1
      · exact hgrouped pass group hgroup a (ResolvedGraph.mem_of_pairs hpair).2
    · rintro ⟨-, pass, group, hgroup, -⟩
      exact hnone pass group hgroup
  · exact left.tidy_opening.congr rfl

/-- With the numbers as they are, what is found is the same. -/
theorem map_rename_id (result : Except Defect (List (List Finding))) :
    result.map (List.map (List.map (Finding.rename id))) = result := by
  have hrename : Finding.rename id = id := rfl
  rw [hrename, List.map_id_fun, List.map_id_fun]
  cases result <;> rfl

/-- From a memo that has not come to any of its fields, the roots of the left graph are checked in the
right one as they are by themselves. -/
theorem ResolvedGraph.Embeds.runOn_eq (h : left.Embeds right rename) {memo' : Memo} {roots' : List ContainerId}
    (hroots : List.Forall₂ (fun root root' => left.Within (left.fieldSet root) ∧
      right.fieldSet root' = (left.fieldSet root).map rename) left.graph.roots roots')
    (hmemo : Memo.Abreast left right rename left.opening.reset memo'.reset)
    (hdepth : left.check.1 ≠ .error .depthExhausted) :
    (Check.runOn (roots'.mapM (Check.checkRoot right)) memo').1 =
      left.check.1.map (List.map (List.map (Finding.rename rename))) := by
  rw [ResolvedGraph.check_eq] at hdepth ⊢
  exact (Check.mapM_checkRoot_lockstep h hroots hmemo).result_eq (fun htogether => htogether.2) hdepth

/-- No field was come to before the check. -/
theorem abreast_begin (left right : ResolvedGraph) (rename : FieldId → FieldId) :
    Memo.Abreast left right rename left.opening.reset right.opening.reset :=
  abreast_opening right.checked_opening right.tidy_opening fun _ hroot => nomatch hroot

end Checks

/-- What the check of a document finds: the conflicts by the numbers of their fields. -/
def findings (schema : Schema) (definitions : List Definition) : Except Defect (List Finding) := do
  let graph ← SelectionGraph.ofDocument schema definitions
  let found ← graph.resolved.check.1
  return found.flatten

section Findings

variable {schema : Schema} {definitions : List Definition} {graph : SelectionGraph}

theorem findings_eq (h : SelectionGraph.ofDocument schema definitions = .ok graph) :
    findings schema definitions = graph.resolved.check.1.map List.flatten := by
  unfold findings
  rw [h]
  show (graph.resolved.check.1 >>= fun found => Except.ok found.flatten) = _
  cases graph.resolved.check.1 <;> rfl

/-- What is reported are the conflicts that the findings stand for. -/
theorem validate_eq_findings (h : SelectionGraph.ofDocument schema definitions = .ok graph) :
    validate schema definitions =
      (findings schema definitions).map fun found => found.filterMap (Finding.conflict? graph.fields) := by
  rw [validate_eq h, findings_eq h]
  cases graph.resolved.check.1 <;> rfl

end Findings

/-- The fields are written alike and have the same types. -/
structure ConflictingField.Alike (x y : ConflictingField) : Prop where
  field : x.field.Alike y.field
  type? : x.type? = y.type?

/-- The conflicts are between fields that are alike, for one reason. -/
structure Conflict.Alike (x y : Conflict) : Prop where
  responseKey : x.responseKey = y.responseKey
  reason : x.reason = y.reason
  first : x.first.Alike y.first
  second : x.second.Alike y.second

/-- Findings between fields that are alike stand for conflicts that are alike. -/
theorem Finding.conflict?_alike {fields fields' : Array SelectedField}
    (h : ∀ i : FieldId, Option.Rel SelectedField.Alike fields[i]? fields'[i]?) (finding : Finding) :
    Option.Rel Conflict.Alike (finding.conflict? fields) (finding.conflict? fields') := by
  have hfirst := h finding.first
  have hsecond := h finding.second
  unfold Finding.conflict?
  generalize fields[finding.first]? = first at hfirst ⊢
  generalize fields'[finding.first]? = first' at hfirst ⊢
  generalize fields[finding.second]? = second at hsecond ⊢
  generalize fields'[finding.second]? = second' at hsecond ⊢
  cases hfirst with
  | none => exact .none
  | some hfirst =>
    cases hsecond with
    | none => exact .none
    | some hsecond =>
      refine .some ⟨hfirst.responseKey, rfl, ⟨hfirst.field, ?_⟩, ⟨hsecond.field, ?_⟩⟩
      · exact congrArg (Option.map FieldType.type) hfirst.type?
      · exact congrArg (Option.map FieldType.type) hsecond.type?

theorem forall₂_filterMap {α β γ : Type} {R : β → γ → Prop} {f : α → Option β} {g : α → Option γ}
    (h : ∀ a, Option.Rel R (f a) (g a)) (as : List α) : List.Forall₂ R (as.filterMap f) (as.filterMap g) := by
  induction as with
  | nil => exact .nil
  | cons a as ih =>
    have ha := h a
    rw [List.filterMap_cons, List.filterMap_cons]
    generalize f a = b at ha ⊢
    generalize g a = c at ha ⊢
    cases ha with
    | none => exact ih
    | some hbc => exact .cons hbc ih

/-- The same defect, or conflicts that are alike, in one order. -/
inductive SameOutcome : Except Defect (List Conflict) → Except Defect (List Conflict) → Prop where
  | error (defect : Defect) : SameOutcome (.error defect) (.error defect)
  | ok {conflicts conflicts' : List Conflict} :
    List.Forall₂ Conflict.Alike conflicts conflicts' → SameOutcome (.ok conflicts) (.ok conflicts')

theorem SameOutcome.exists_eq_ok {result result' : Except Defect (List Conflict)} {conflicts : List Conflict}
    (h : SameOutcome result result') (hresult : result = .ok conflicts) :
    ∃ conflicts', result' = .ok conflicts' ∧ List.Forall₂ Conflict.Alike conflicts conflicts' := by
  cases h with
  | error defect => cases hresult
  | ok halike =>
    obtain rfl := Except.ok.inj hresult
    exact ⟨_, rfl, halike⟩

/-- The documents have the same fields in the same order, and expand to the same fields everywhere. -/
structure SameExpansions (schema : Schema) (definitions definitions' : List Definition) : Prop where
  alike : List.Forall₂ Occurrence.Alike (occurrences schema definitions) (occurrences schema definitions')
  below : ∀ i j, ExpandsBelow schema definitions i j ↔ ExpandsBelow schema definitions' i j
  roots : List.Forall₂ (fun content content' => ∀ j, content.Expands definitions j ↔ content'.Expands definitions' j)
    (documentRoots definitions) (documentRoots definitions')

namespace SameExpansions

variable {schema : Schema} {definitions definitions' : List Definition}

theorem renumbered (h : SameExpansions schema definitions definitions') :
    Renumbered schema definitions definitions' id where
  mono := strictMono_id
  alike {i x} hx := by
    have hrel := List.forall₂_iff_get.1 h.alike
    obtain ⟨hlt, rfl⟩ := List.getElem?_eq_some_iff.1 hx
    have hlt' : i < (occurrences schema definitions').length := hrel.1 ▸ hlt
    exact ⟨_, List.getElem?_eq_getElem hlt', hrel.2 i hlt hlt'⟩
  below {i} _ j := (h.below i j).symm.trans exists_eq_right.symm

/-- Fields with the same numbers are found in conflict, for the same reasons and in the same order. -/
theorem findings (h : SameExpansions schema definitions definitions') :
    findings schema definitions' = findings schema definitions := by
  have hgraph := SelectionGraph.ofDocument_eq schema definitions
  have hgraph' := SelectionGraph.ofDocument_eq schema definitions'
  have hleft := SelectionGraph.expanded_ofDocument hgraph
  have hright := SelectionGraph.expanded_ofDocument hgraph'
  have hcontents : List.Forall₂ (Content.Renumbered definitions definitions' id)
      (documentRoots definitions) (documentRoots definitions') :=
    h.roots.imp fun content content' hsame j => (hsame j).symm.trans exists_eq_right.symm
  have hcheck := (h.renumbered.embeds hleft hright).runOn_eq
    (forall₂_fieldSets strictMono_id hleft hcontents hright.roots) (abreast_begin _ _ id)
    hleft.represents.check_ne_depthExhausted
  rw [map_rename_id] at hcheck
  rw [findings_eq hgraph, findings_eq hgraph', ResolvedGraph.check_eq]
  exact congrArg (Except.map List.flatten) hcheck

/-- The documents are reported alike. -/
theorem validate (h : SameExpansions schema definitions definitions') :
    SameOutcome (validate schema definitions) (validate schema definitions') := by
  have hgraph := SelectionGraph.ofDocument_eq schema definitions
  have hgraph' := SelectionGraph.ofDocument_eq schema definitions'
  have hleft := SelectionGraph.represents_ofDocument hgraph
  have hright := SelectionGraph.represents_ofDocument hgraph'
  rw [validate_eq_findings hgraph, validate_eq_findings hgraph', h.findings]
  generalize definitions.foldl (SelectionGraph.define schema) SelectionGraph.empty = graph at *
  generalize definitions'.foldl (SelectionGraph.define schema) SelectionGraph.empty = graph' at *
  have halike : ∀ i : FieldId, Option.Rel SelectedField.Alike graph.fields[i]? graph'.fields[i]? := by
    intro i
    cases hx : (occurrences schema definitions)[i]? with
    | some x =>
      obtain ⟨y, hy, hxy⟩ := h.renumbered.alike hx
      obtain ⟨x', y', hx', hy', hxy'⟩ := hleft.alike hright hx hy hxy
      have hx' : graph.fields[i]? = some x' := hx'
      have hy' : graph'.fields[i]? = some y' := hy'
      rw [hx', hy']
      exact .some hxy'
    | none =>
      have hle := List.getElem?_eq_none_iff.1 hx
      have hle' := h.alike.length_eq ▸ hle
      rw [← hleft.size_eq] at hle
      rw [← hright.size_eq] at hle'
      rw [Array.getElem?_eq_none hle, Array.getElem?_eq_none hle']
      exact .none
  cases SelectionMerge.findings schema definitions with
  | error defect => exact .error defect
  | ok found => exact .ok (forall₂_filterMap (Finding.conflict?_alike halike) found)

end SameExpansions

end SelectionMerge
