import SelectionMerge.Proofs.Build.Holds
import SelectionMerge.Proofs.Merge.Groups
import SelectionMerge.Proofs.Reach.Closure

/-!
# Field sets of a document

The graph of a document is resolved from its operations and fragment definitions, so every
container that matters is closed and lists all that it reaches. Hence the field set of a
container has what the selections in it expand to (`Represents.mem_fieldSet`), the merged
sub-selections of a group have what those of its fields expand to
(`Represents.mem_children`), and each pass comes to every field of the document
(`Represents.exists_reached`).
-/

namespace SelectionMerge
set_option autoImplicit false

namespace ResolvedGraph

variable {resolved : ResolvedGraph}

theorem mem_fieldsOf {graph : SelectionGraph} {ids : List ContainerId} {i : FieldId} :
    i ∈ graph.fieldsOf ids ↔ ∃ c ∈ ids, i ∈ (graph.container c).fields := by
  unfold SelectionGraph.fieldsOf
  rw [Ascending.mem_unions]
  constructor
  · rintro ⟨fields, hfields, hi⟩
    obtain ⟨c, hc, rfl⟩ := List.mem_map.1 hfields
    exact ⟨c, hc, Ascending.mem_ofList.1 hi⟩
  · rintro ⟨c, hc, hi⟩
    exact ⟨_, List.mem_map.2 ⟨c, hc, rfl⟩, Ascending.mem_ofList.2 hi⟩

theorem pairwise_fieldsOf (graph : SelectionGraph) (ids : List ContainerId) :
    (graph.fieldsOf ids).Pairwise (· < ·) := by
  apply Ascending.pairwise_unions
  intro fields hfields
  obtain ⟨c, -, rfl⟩ := List.mem_map.1 hfields
  exact Ascending.pairwise_ofList

/-- The merged sub-selections of fields are those of each of them. -/
theorem mem_children {fields : List FieldId} {i : FieldId} :
    i ∈ resolved.children fields ↔
      ∃ f ∈ fields, ∃ c, resolved.graph.nested? f = some c ∧ i ∈ resolved.fieldSet c := by
  unfold children fieldSet
  simp only [mem_fieldsOf, Ascending.mem_unions, List.mem_map, List.mem_filterMap]
  constructor
  · rintro ⟨d, ⟨_, ⟨c, ⟨f, hf, hc⟩, rfl⟩, hd⟩, hi⟩
    exact ⟨f, hf, c, hc, d, hd, hi⟩
  · rintro ⟨f, hf, c, hc, d, hd, hi⟩
    exact ⟨d, ⟨_, ⟨c, ⟨f, hf, hc⟩, rfl⟩, hd⟩, hi⟩

/-- A set that a pass comes to from a field set is strictly ascending. -/
theorem Reached.pairwise {pass : Pass} {c : ContainerId} {set : List FieldId}
    (h : resolved.Reached pass (resolved.fieldSet c) set) : set.Pairwise (· < ·) := by
  cases h with
  | start => exact pairwise_fieldsOf _ _
  | children _ _ => exact pairwise_fieldsOf _ _

/-- A group that a pass comes to from a field set is strictly ascending. -/
theorem ReachedGroup.pairwise {pass : Pass} {c : ContainerId} {group : List FieldId}
    (h : resolved.ReachedGroup pass (resolved.fieldSet c) group) : group.Pairwise (· < ·) := by
  obtain ⟨set, hset, hmem⟩ := h
  exact pairwise_group hmem hset.pairwise

end ResolvedGraph

namespace SelectionGraph

variable {graph : SelectionGraph} {schema : Schema} {definitions : List Definition}

/-- What selections expand to stands in the containers that theirs reaches. -/
theorem Represents.exists_reaches (h : Represents schema definitions graph) {number : Nat}
    {selections : List Selection} {i : FieldId} (hexpands : Expands definitions number selections i)
    {c : ContainerId} (hholds : graph.Holds c number selections) :
    ∃ d, graph.Reaches c d ∧ i ∈ (graph.container d).fields := by
  induction hexpands generalizing c with
  | here => exact ⟨c, .refl c, hholds.1.1⟩
  | later _ ih => exact ih hholds.2
  | inline _ ih =>
    obtain ⟨⟨inside, hspread, hinside⟩, -⟩ := hholds
    obtain ⟨d, hreaches, hi⟩ := ih hinside
    exact ⟨d, hspread.reaches.trans hreaches, hi⟩
  | spread hmem hname _ ih =>
    obtain ⟨⟨target, htarget, hspread⟩, -⟩ := hholds
    obtain ⟨root, -, hroot, hholds⟩ := h.definitions hmem
    rw [hname] at hroot
    obtain rfl := Option.some.inj (htarget.symm.trans hroot)
    obtain ⟨d, hreaches, hi⟩ := ih hholds
    exact ⟨d, hspread.reaches.trans hreaches, hi⟩

/-- Where the fields of selections stand: each in a container that theirs leads to, with its
sub-selections in a container of its own. -/
theorem Holds.occurrence {selections : List Selection} {parent? : Option TypeDefinition} {c : ContainerId}
    {number k : Nat} {occurrence : Occurrence} (h : graph.Holds c number selections)
    (hk : (occurrencesIn schema parent? selections)[k]? = some occurrence) :
    (∃ d, graph.LeadsTo c d ∧ number + k ∈ (graph.container d).fields) ∧
      (occurrence.selections = [] ∨ ∃ below, graph.nested? (number + k) = some below ∧
        graph.Holds below (number + k + 1) occurrence.selections) := by
  induction selections using selections_induction generalizing parent? c number k with
  | nil => cases hk
  | field field selections later ih ih' =>
    obtain ⟨⟨hnumber, hbelow⟩, hlater⟩ := h
    unfold occurrencesIn at hk
    rw [List.getElem?_append, Selection.length_occurrences] at hk
    split at hk
    next hlt =>
      cases k with
      | zero =>
        obtain rfl := Option.some.inj hk
        exact ⟨⟨c, .refl, hnumber⟩, hbelow⟩
      | succ k =>
        -- A field of the sub-selections, which are not empty then.
        obtain rfl | ⟨below, hnested, hbelow⟩ := hbelow
        · cases hk
        · obtain ⟨⟨d, hpath, hd⟩, hnext⟩ := ih hbelow hk
          rw [Nat.add_right_comm, Nat.add_assoc] at hd hnext
          exact ⟨⟨d, .head (.inr ⟨number, hnumber, hnested⟩) hpath, hd⟩, hnext⟩
    next hge =>
      have hshift : number + (Selection.field field selections).fieldCount +
          (k - (Selection.field field selections).fieldCount) = number + k := by omega
      rw [← hshift]
      exact ih' hlater hk
  | inline condition? selections later ih ih' =>
    obtain ⟨⟨inside, hspread, hinside⟩, hlater⟩ := h
    unfold occurrencesIn at hk
    rw [List.getElem?_append, Selection.length_occurrences] at hk
    split at hk
    next hlt =>
      obtain ⟨⟨d, hpath, hd⟩, hnext⟩ := ih hinside hk
      exact ⟨⟨d, .head (.inl hspread) hpath, hd⟩, hnext⟩
    next hge =>
      have hshift : number + (Selection.inline condition? selections).fieldCount +
          (k - (Selection.inline condition? selections).fieldCount) = number + k := by omega
      rw [← hshift]
      exact ih' hlater hk
  | spread name later ih =>
    obtain ⟨-, hlater⟩ := h
    exact ih hlater hk

/-- Each field selection of a document stands in one of its definitions. -/
theorem exists_definition {definitions : List Definition} (first : Nat) {i : Nat} {occurrence : Occurrence}
    (hi : (occurrences schema definitions)[i]? = some occurrence) :
    ∃ number definition k, (number, definition) ∈ numberedFrom first definitions ∧
      first + i = number + k ∧
      (occurrencesIn schema (definition.parent? schema) definition.selections)[k]? = some occurrence := by
  induction definitions generalizing first i with
  | nil => cases hi
  | cons definition definitions ih =>
    unfold occurrences at hi
    rw [List.flatMap_cons, List.getElem?_append, length_occurrencesIn] at hi
    split at hi
    next hlt => exact ⟨first, definition, i, .head _, rfl, hi⟩
    next hge =>
      obtain ⟨number, other, k, hmem, hsum, hk⟩ := ih (first + fieldCount definition.selections) hi
      exact ⟨number, other, k, .tail _ hmem, by omega, hk⟩

/-- Where the fields of a document stand. -/
theorem Represents.occurrence (h : Represents schema definitions graph) {i : Nat} {occurrence : Occurrence}
    (hi : (occurrences schema definitions)[i]? = some occurrence) :
    (∃ root ∈ graph.roots, ∃ d, graph.LeadsTo root d ∧ i ∈ (graph.container d).fields) ∧
      (occurrence.selections = [] ∨ ∃ below, graph.nested? i = some below ∧
        graph.Holds below (i + 1) occurrence.selections) := by
  obtain ⟨number, definition, k, hmem, hsum, hk⟩ := exists_definition 0 hi
  rw [Nat.zero_add] at hsum
  subst hsum
  have hdefinition := h.definitions hmem
  cases definition with
  | operation operation =>
    obtain ⟨root, hroot, hholds⟩ := hdefinition
    obtain ⟨⟨d, hpath, hd⟩, hbelow⟩ := hholds.occurrence hk
    exact ⟨⟨root, hroot, d, hpath, hd⟩, hbelow⟩
  | fragment fragment =>
    obtain ⟨root, hroot, -, hholds⟩ := hdefinition
    obtain ⟨⟨d, hpath, hd⟩, hbelow⟩ := hholds.occurrence hk
    exact ⟨⟨root, hroot, d, hpath, hd⟩, hbelow⟩
  | typeSystem definition => cases hk

section Resolved

/-- The container is one that the definitions lead to. -/
def FromRoots (graph : SelectionGraph) (c : ContainerId) : Prop :=
  ∃ root ∈ graph.roots, graph.LeadsTo root c

/-- The field set of a container has the fields of all containers that it reaches. -/
theorem WellFormed.mem_fieldSet (h : graph.WellFormed) {c : ContainerId} (hc : graph.FromRoots c)
    {i : FieldId} :
    i ∈ graph.resolved.fieldSet c ↔ ∃ d, graph.Reaches c d ∧ i ∈ (graph.container d).fields := by
  have hclosed : (graph.marksAfter graph.roots).IsClosed c :=
    (isClosed_marksAfter_iff h.inRange h.roots_lt c).2 hc
  have hreach : ∀ d, d ∈ (graph.marksAfter graph.roots).reach c ↔ graph.Reaches c d :=
    (reach_marksAfter h.inRange h.roots_lt hclosed).2
  have hmem : i ∈ graph.resolved.fieldSet c ↔
      ∃ d ∈ graph.resolved.marks.reach c, i ∈ (graph.container d).fields :=
    ResolvedGraph.mem_fieldsOf
  rw [hmem, marks_resolved h.resolution]
  simp only [hreach]

/-- The field set of a root is among the sets that a pass comes to, and so is one with the fields
of every container that the root leads to. -/
theorem WellFormed.exists_reached (h : graph.WellFormed) (pass : Pass) {root c : ContainerId}
    (hroot : root ∈ graph.roots) (hc : graph.LeadsTo root c) :
    ∃ set, graph.resolved.Reached pass (graph.resolved.fieldSet root) set ∧
      ∀ i ∈ graph.resolved.fieldSet c, i ∈ set := by
  induction hc with
  | refl => exact ⟨_, .start, fun i hi => hi⟩
  | @tail c d hpath hstep ih =>
    obtain ⟨set, hset, hfields⟩ := ih
    have hc : graph.FromRoots c := ⟨root, hroot, hpath⟩
    have hd : graph.FromRoots d := ⟨root, hroot, hpath.tail hstep⟩
    obtain hspread | ⟨field, hfield, hnested⟩ := hstep
    · refine ⟨set, hset, fun i hi => ?_⟩
      obtain ⟨e, hreaches, hi⟩ := (h.mem_fieldSet hd).1 hi
      exact hfields i ((h.mem_fieldSet hc).2 ⟨e, hspread.reaches.trans hreaches, hi⟩)
    · have hmem := hfields field ((h.mem_fieldSet hc).2 ⟨c, .refl c, hfield⟩)
      obtain ⟨group, hgroup, hmem, -⟩ := ResolvedGraph.exists_group pass hmem hmem rfl
        fun _ p q hp hq => Option.some.inj (hp.symm.trans hq)
      refine ⟨_, hset.children hgroup, fun i hi => ?_⟩
      exact ResolvedGraph.mem_children.2 ⟨field, hmem, d, hnested, hi⟩

/-- A pass comes to every field of a document. -/
theorem Represents.exists_reached (h : Represents schema definitions graph) (pass : Pass) {i : Nat}
    {occurrence : Occurrence} (hi : (occurrences schema definitions)[i]? = some occurrence) :
    ∃ root ∈ graph.roots, ∃ set, graph.resolved.Reached pass (graph.resolved.fieldSet root) set ∧ i ∈ set := by
  obtain ⟨⟨root, hroot, d, hpath, hd⟩, -⟩ := h.occurrence hi
  obtain ⟨set, hset, hfields⟩ := h.wellFormed.exists_reached pass hroot hpath
  refine ⟨root, hroot, set, hset, hfields i ?_⟩
  exact (h.wellFormed.mem_fieldSet ⟨root, hroot, hpath⟩).2 ⟨d, .refl d, hd⟩

/-- The field set of a container has what the selections in it expand to. -/
theorem Represents.mem_fieldSet (h : Represents schema definitions graph) {number : Nat}
    {selections : List Selection} {c : ContainerId} (hc : graph.FromRoots c)
    (hholds : graph.Holds c number selections) {i : Nat}
    (hexpands : Expands definitions number selections i) : i ∈ graph.resolved.fieldSet c :=
  (h.wellFormed.mem_fieldSet hc).2 (h.exists_reaches hexpands hholds)

/-- The merged sub-selections of fields have what those of each of them expand to. -/
theorem Represents.mem_children (h : Represents schema definitions graph) {fields : List FieldId} {above i : Nat}
    (habove : above ∈ fields) (hbelow : ExpandsBelow schema definitions above i) :
    i ∈ graph.resolved.children fields := by
  obtain ⟨occurrence, hoccurrence, hexpands⟩ := hbelow
  obtain ⟨⟨root, hroot, d, hpath, hd⟩, hselections⟩ := h.occurrence hoccurrence
  obtain hnone | ⟨below, hnested, hholds⟩ := hselections
  · rw [hnone] at hexpands
    cases hexpands
  · have hc : graph.FromRoots below := ⟨root, hroot, hpath.tail (.inr ⟨above, hd, hnested⟩)⟩
    exact ResolvedGraph.mem_children.2 ⟨above, habove, below, hnested, h.mem_fieldSet hc hholds hexpands⟩

end Resolved

end SelectionGraph

end SelectionMerge
