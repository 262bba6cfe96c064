import SelectionMerge.Proofs.Expansion.Exactness
import SelectionMerge.Proofs.Merge.Layout
import SelectionMerge.Proofs.Merge.Partition

/-!
# What a pass has to compare

Which two field selections a pass compares is said here of the document itself. The sets that a pass comes
to from a root are what the root expands to and, for each group of such a set, what the sub-selections of
the group's fields expand to (`Content.ComesTo`). The groups split a set by response key, in the second pass
then by the object types that can hold the fields; a group is split once more, by shape or by call, and the
neighbours in what results are compared (`ComparesIn`). What is found are those that conflict, for the first
reason that applies (`Occurrence.Conflicts`). No graph, container, mark or memo is mentioned.

The graph of a document comes to the same sets (`Expanded.comesTo_iff`) and finds the same
(`Expanded.finds_iff`).
-/

namespace SelectionMerge
set_option autoImplicit false

namespace Occurrence

/-- The object type that the field is selected on, if it is selected on one. -/
def objectParent? (occurrence : Occurrence) : Option Name :=
  occurrence.parent?.bind fun parent => if parent.isObject then some parent.name else none

/-- The shape of the field's value, if its type is known and an output type. -/
def shape? (occurrence : Occurrence) : Option Shape :=
  occurrence.type?.bind fun type => (Shape.of type.type type.definition).toOption

/-- The fields are selected on two different object types. -/
def Apart (x y : Occurrence) : Prop :=
  ∃ p q, x.objectParent? = some p ∧ y.objectParent? = some q ∧ p ≠ q

/-- One field is known to be a scalar and the other an enum. -/
def MixesLeaves (x y : Occurrence) : Prop :=
  ∃ s t, x.type? = some s ∧ y.type? = some t ∧ s.definition.isLeaf = true ∧ t.definition.isLeaf = true ∧
    s.definition.isScalar ≠ t.definition.isScalar

/-- The named types inside the fields' types are known and differ. -/
def MixesTypes (x y : Occurrence) : Prop :=
  ∃ s t, x.type? = some s ∧ y.type? = some t ∧ s.type.innerName ≠ t.type.innerName

/-- The fields conflict for this reason: they can stand in one object, and no reason before it applies. -/
def Conflicts (x y : Occurrence) (reason : ConflictReason) : Prop :=
  ¬ x.Apart y ∧ match reason with
    | .leafKindMismatch => x.MixesLeaves y
    | .differentFieldName => ¬ x.MixesLeaves y ∧ x.field.name ≠ y.field.name
    | .typeMismatch => ¬ x.MixesLeaves y ∧ x.field.name = y.field.name ∧ x.MixesTypes y
    | .argumentMismatch => ¬ x.MixesLeaves y ∧ x.field.name = y.field.name ∧ ¬ x.MixesTypes y ∧
        x.field.call.arguments ≠ y.field.call.arguments

/-- A selected field is on the object type of its occurrence. -/
theorem objectParent?_eq : objectParent? = SelectedField.objectParent? ∘ bare := by
  funext occurrence
  unfold objectParent? Function.comp SelectedField.objectParent? bare
  cases occurrence.parent? <;> rfl

theorem shape?_eq : shape? = (fun selected => selected.shape.toOption.join) ∘ bare := by
  funext occurrence
  unfold shape? Function.comp SelectedField.shape bare
  cases occurrence.type? with
  | none => rfl
  | some type =>
    simp only [Option.bind_some]
    cases Shape.of type.type type.definition <;> rfl

theorem neverTogether_bare {x y : Occurrence} : x.bare.neverTogether y.bare = true ↔ x.Apart y := by
  unfold SelectedField.neverTogether Apart
  rw [objectParent?_eq, Function.comp_apply, Function.comp_apply]
  cases x.bare.objectParent? <;> cases y.bare.objectParent? <;> simp

theorem leafKindsDiffer_bare {x y : Occurrence} : x.bare.leafKindsDiffer y.bare = true ↔ x.MixesLeaves y := by
  unfold SelectedField.leafKindsDiffer MixesLeaves bare
  cases x.type? <;> cases y.type? <;> simp [and_assoc]

theorem namedTypesDiffer_bare {x y : Occurrence} : x.bare.namedTypesDiffer y.bare = true ↔ x.MixesTypes y := by
  unfold SelectedField.namedTypesDiffer MixesTypes bare
  cases x.type? <;> cases y.type? <;> simp

/-- The rule for pairs finds the reason for which two fields conflict. -/
theorem conflict?_bare {x y : Occurrence} {reason : ConflictReason} :
    x.bare.conflict? y.bare = some reason ↔ x.Conflicts y reason := by
  have hname : (x.bare.field.name != y.bare.field.name) = true ↔ x.field.name ≠ y.field.name := bne_iff_ne
  have harguments : (x.bare.call.arguments != y.bare.call.arguments) = true ↔
      x.field.call.arguments ≠ y.field.call.arguments := bne_iff_ne
  unfold SelectedField.conflict? Conflicts
  split_ifs with hapart hleaves hnames htypes harguments'
  all_goals
    simp only [neverTogether_bare, leafKindsDiffer_bare, namedTypesDiffer_bare, hname, harguments, ne_eq,
      not_not] at *
    cases reason <;> simp [*]

end Occurrence

section Numbered

variable (all : List Occurrence)

/-- The response key of the field of that number. -/
def responseKeyAt (i : FieldId) : Option Name :=
  all[i]?.map fun occurrence => occurrence.field.responseKey

/-- The name and arguments of the field of that number. -/
def callAt (i : FieldId) : Option FieldCall :=
  all[i]?.map fun occurrence => occurrence.field.call

def objectParentAt (i : FieldId) : Option Name :=
  all[i]?.bind Occurrence.objectParent?

def shapeAt (i : FieldId) : Option Shape :=
  all[i]?.bind Occurrence.shape?

/-- The fields of these numbers conflict for this reason. -/
def ConflictAt (a b : FieldId) (reason : ConflictReason) : Prop :=
  ∃ x y, all[a]? = some x ∧ all[b]? = some y ∧ x.Conflicts y reason

/-- What a pass makes of the fields of one response key: one group, or those that can stand in one object. -/
def PartsAt : Pass → List FieldId → List (List FieldId) → Prop
  | .shapes, fields, parts => parts = [fields]
  | .calls, fields, parts => SharedBy (objectParentAt all) fields parts

/-- The group is one that a pass makes of the set. -/
def GroupAt (pass : Pass) (set group : List FieldId) : Prop :=
  ∃ keyed parts, SplitBy (responseKeyAt all) set keyed ∧
    ∃ fields ∈ keyed, PartsAt all pass fields parts ∧ group ∈ parts

/-- In the group, split by a key and put together again, `b` stands right behind `a`. -/
def NextBy {κ : Type} (key : FieldId → κ) (group : List FieldId) (a b : FieldId) : Prop :=
  ∃ parts before after, SplitBy key group parts ∧ parts.flatten = before ++ a :: b :: after

/-- The pass compares the fields in the group: they are neighbours by shape, and their shapes are known and
differ, or they are neighbours by call. -/
def ComparesIn : Pass → List FieldId → FieldId → FieldId → Prop
  | .shapes, group, a, b => NextBy (shapeAt all) group a b ∧
      ∃ s t, shapeAt all a = some s ∧ shapeAt all b = some t ∧ s ≠ t
  | .calls, group, a, b => NextBy (callAt all) group a b

end Numbered

namespace Content

variable (schema : Schema) (definitions : List Definition)

/-- The sets that a pass comes to from a root: those it expands to, and what the sub-selections of the
fields of a group expand to. -/
inductive ComesTo (pass : Pass) (content : Content) : List FieldId → Prop where
  | start {set : List FieldId} :
    Enumerates set (content.Expands definitions) → ComesTo pass content set
  | children {set group below : List FieldId} :
    ComesTo pass content set → GroupAt (occurrences schema definitions) pass set group →
      Enumerates below (fun i => ∃ above ∈ group, ExpandsBelow schema definitions above i) →
      ComesTo pass content below

/-- The groups that a pass comes to from a root. -/
def ComesToGroup (pass : Pass) (content : Content) (group : List FieldId) : Prop :=
  ∃ set, content.ComesTo schema definitions pass set ∧ GroupAt (occurrences schema definitions) pass set group

/-- A pass compares the two fields in a group that it comes to from the root. -/
def Compares (content : Content) (a b : FieldId) : Prop :=
  ∃ pass group, content.ComesToGroup schema definitions pass group ∧
    (ComparesIn (occurrences schema definitions) pass group a b ∨
      ComparesIn (occurrences schema definitions) pass group b a)

/-- What is found from a root: a conflict between two fields that are compared, the first in the document
first. -/
structure Finds (content : Content) (finding : Finding) : Prop where
  ordered : finding.first < finding.second
  conflict : ConflictAt (occurrences schema definitions) finding.first finding.second finding.reason
  compared : content.Compares schema definitions finding.first finding.second

end Content

theorem Enumerates.eq {fields fields' : List FieldId} {belongs : FieldId → Prop} (h : Enumerates fields belongs)
    (h' : Enumerates fields' belongs) : fields = fields' :=
  Ascending.eq_of_mem_iff h.ascending h'.ascending fun i => (h.mem_iff i).trans (h'.mem_iff i).symm

/-- What holds of an item of a list holds of one of a list that corresponds to it. -/
theorem exists_mem_iff_of_forall₂ {α β : Type} {P : α → Prop} {Q : β → Prop} {as : List α} {bs : List β}
    (h : List.Forall₂ (fun a b => P a ↔ Q b) as bs) : (∃ a ∈ as, P a) ↔ ∃ b ∈ bs, Q b := by
  constructor
  · rintro ⟨a, ha, hP⟩
    obtain ⟨b, hb, hiff⟩ := exists_of_forall₂_left h ha
    exact ⟨b, hb, hiff.1 hP⟩
  · rintro ⟨b, hb, hQ⟩
    obtain ⟨a, ha, hiff⟩ := exists_of_forall₂_right h hb
    exact ⟨a, ha, hiff.2 hQ⟩

namespace ResolvedGraph

/-- A pass that starts from the set has to compare the two fields. -/
def Compares (resolved : ResolvedGraph) (start : List FieldId) (a b : FieldId) : Prop :=
  ∃ pass group, resolved.ReachedGroup pass start group ∧ ListedPair (resolved.pairs pass group) a b

/-- The finding is of a conflict that the passes compare from the root. -/
structure Finds (resolved : ResolvedGraph) (root : ContainerId) (finding : Finding) : Prop where
  ordered : finding.first < finding.second
  conflict : resolved.conflict? finding.first finding.second = some finding.reason
  compared : resolved.Compares (resolved.fieldSet root) finding.first finding.second

theorem shape?_eq_bind (resolved : ResolvedGraph) (i : FieldId) :
    resolved.shape? i = (resolved.field? i).bind fun selected => selected.shape.toOption.join := by
  unfold shape? shape
  cases resolved.field? i <;> rfl

end ResolvedGraph

namespace SelectionGraph

variable {schema : Schema} {definitions : List Definition} {graph : SelectionGraph}

section Fields

variable (h : Represents schema definitions graph)
include h

/-- What is read of the field of a number, besides its container, is what the document says. -/
theorem Represents.view_field {β : Type} (view? : SelectedField → Option β)
    (hbare : ∀ selected, view? selected.bare = view? selected) (i : FieldId) :
    (occurrences schema definitions)[i]?.bind (view? ∘ Occurrence.bare) = (graph.resolved.field? i).bind view? := by
  have hviews := congrArg (Option.bind · view?) (h.bare_field i)
  simp only [Option.bind_map] at hviews
  rw [← hviews]
  exact Option.bind_congr fun selected _ => hbare selected

theorem Represents.responseKeyAt_eq : responseKeyAt (occurrences schema definitions) = graph.resolved.responseKey? := by
  funext i
  unfold responseKeyAt ResolvedGraph.responseKey?
  rw [Option.map_eq_bind, Option.map_eq_bind]
  exact h.view_field (some ∘ SelectedField.responseKey) (fun _ => rfl) i

theorem Represents.callAt_eq : callAt (occurrences schema definitions) = graph.resolved.call? := by
  funext i
  unfold callAt ResolvedGraph.call?
  rw [Option.map_eq_bind, Option.map_eq_bind]
  exact h.view_field (some ∘ SelectedField.call) (fun _ => rfl) i

theorem Represents.objectParentAt_eq :
    objectParentAt (occurrences schema definitions) = graph.resolved.objectParent? := by
  funext i
  unfold objectParentAt ResolvedGraph.objectParent?
  rw [Occurrence.objectParent?_eq]
  exact h.view_field SelectedField.objectParent? (fun _ => rfl) i

theorem Represents.shapeAt_eq : shapeAt (occurrences schema definitions) = graph.resolved.shape? := by
  funext i
  unfold shapeAt
  rw [Occurrence.shape?_eq, ResolvedGraph.shape?_eq_bind]
  exact h.view_field (fun selected => selected.shape.toOption.join) (fun _ => rfl) i

theorem Represents.conflictAt_iff {a b : FieldId} {reason : ConflictReason} :
    ConflictAt (occurrences schema definitions) a b reason ↔ graph.resolved.conflict? a b = some reason := by
  constructor
  · rintro ⟨x, y, hx, hy, hreason⟩
    obtain ⟨first, hfirst, hbare⟩ := h.exists_bare hx
    obtain ⟨second, hsecond, hbare'⟩ := h.exists_bare hy
    rw [← Occurrence.conflict?_bare, ← hbare, ← hbare'] at hreason
    exact Eq.trans (ResolvedGraph.conflict?_eq hfirst hsecond) hreason
  · intro hreason
    obtain ⟨first, hfirst, hreason⟩ := Option.bind_eq_some_iff.1 hreason
    obtain ⟨second, hsecond, hreason⟩ := Option.bind_eq_some_iff.1 hreason
    obtain ⟨x, hx, hbare⟩ := h.field? hfirst
    obtain ⟨y, hy, hbare'⟩ := h.field? hsecond
    refine ⟨x, y, hx, hy, ?_⟩
    rw [← Occurrence.conflict?_bare, ← hbare, ← hbare']
    exact hreason

/-- The graph splits an ascending set into the groups of the document. -/
theorem Represents.groupAt_iff {pass : Pass} {set group : List FieldId} (hset : set.Pairwise (· < ·)) :
    GroupAt (occurrences schema definitions) pass set group ↔ group ∈ graph.resolved.groups pass set := by
  unfold GroupAt
  rw [h.responseKeyAt_eq, ResolvedGraph.mem_groups]
  have hparts : ∀ fields ∈ graph.resolved.keyGroups set, ∀ parts,
      PartsAt (occurrences schema definitions) pass fields parts ↔ parts = graph.resolved.parts pass fields := by
    intro fields hfields parts
    cases pass with
    | shapes => exact Iff.rfl
    | calls =>
      unfold PartsAt
      rw [h.objectParentAt_eq]
      exact ResolvedGraph.sharedBy_iff (ResolvedGraph.pairwise_keyGroup hfields hset)
  constructor
  · rintro ⟨keyed, parts, hkeyed, fields, hfields, hmade, hgroup⟩
    obtain rfl := (splitBy_iff hset).1 hkeyed
    rw [hparts fields hfields] at hmade
    exact ⟨fields, hfields, hmade ▸ hgroup⟩
  · rintro ⟨fields, hfields, hgroup⟩
    exact ⟨_, _, splitBy_classes hset, fields, hfields, (hparts fields hfields _).2 rfl, hgroup⟩

omit h in
theorem nextBy_iff {κ : Type} [DecidableEq κ] {key : FieldId → κ} {group : List FieldId} {a b : FieldId}
    (hgroup : group.Pairwise (· < ·)) : NextBy key group a b ↔ (a, b) ∈ neighbours (layout key group) := by
  rw [mem_neighbours_iff]
  constructor
  · rintro ⟨parts, before, after, hparts, hflatten⟩
    obtain rfl := (splitBy_iff hgroup).1 hparts
    exact ⟨before, after, hflatten⟩
  · rintro ⟨before, after, hlayout⟩
    exact ⟨_, before, after, splitBy_classes hgroup, hlayout⟩

/-- The graph has the pairs of the document compared in an ascending group. -/
theorem Represents.comparesIn_iff {pass : Pass} {group : List FieldId} (hgroup : group.Pairwise (· < ·))
    {a b : FieldId} :
    ComparesIn (occurrences schema definitions) pass group a b ↔ (a, b) ∈ graph.resolved.pairs pass group := by
  rw [ResolvedGraph.mem_pairs_iff]
  cases pass with
  | shapes =>
    simp only [ComparesIn, ResolvedGraph.arranged, h.shapeAt_eq, nextBy_iff hgroup, forall_const]
  | calls =>
    simp only [ComparesIn, ResolvedGraph.arranged, h.callAt_eq, nextBy_iff hgroup, reduceCtorEq, false_imp_iff,
      and_true]

end Fields

section Roots

variable {pass : Pass} {content : Content} {root : ContainerId} {set group : List FieldId} {a b : FieldId}
variable (h : Expanded schema definitions graph)
variable (hroot : ∀ i, i ∈ graph.resolved.fieldSet root ↔ content.Expands definitions i)
include h hroot

/-- A pass comes to the same sets in the graph and in the document. -/
theorem Expanded.comesTo_iff :
    content.ComesTo schema definitions pass set ↔
      graph.resolved.Reached pass (graph.resolved.fieldSet root) set := by
  have hstart : Enumerates (graph.resolved.fieldSet root) (content.Expands definitions) :=
    ⟨ResolvedGraph.pairwise_fieldsOf _ _, hroot⟩
  have hbelow : ∀ group, Enumerates (graph.resolved.children group)
      (fun i => ∃ above ∈ group, ExpandsBelow schema definitions above i) :=
    fun group => ⟨ResolvedGraph.pairwise_fieldsOf _ _, h.children group⟩
  constructor
  · intro hset
    induction hset with
    | start hset =>
      rw [hset.eq hstart]
      exact .start
    | children _ hgroup hset ih =>
      rw [hset.eq (hbelow _)]
      exact ih.children ((h.represents.groupAt_iff ih.pairwise).1 hgroup)
  · intro hset
    induction hset with
    | start => exact .start hstart
    | children hset hgroup ih =>
      exact ih.children ((h.represents.groupAt_iff hset.pairwise).2 hgroup) (hbelow _)

theorem Expanded.comesToGroup_iff :
    content.ComesToGroup schema definitions pass group ↔
      graph.resolved.ReachedGroup pass (graph.resolved.fieldSet root) group := by
  refine exists_congr fun set => ?_
  rw [h.comesTo_iff hroot]
  exact and_congr_right fun hset => h.represents.groupAt_iff hset.pairwise

/-- A pass compares the same fields in the graph and in the document. -/
theorem Expanded.compares_iff :
    content.Compares schema definitions a b ↔ graph.resolved.Compares (graph.resolved.fieldSet root) a b := by
  refine exists_congr fun pass => exists_congr fun group => ?_
  rw [h.comesToGroup_iff hroot]
  refine and_congr_right fun hgroup => ?_
  rw [h.represents.comparesIn_iff hgroup.pairwise, h.represents.comparesIn_iff hgroup.pairwise]
  rfl

/-- The same is found from a root of the document and from its container. -/
theorem Expanded.finds_iff {finding : Finding} :
    content.Finds schema definitions finding ↔ graph.resolved.Finds root finding := by
  constructor
  · rintro ⟨hlt, hconflict, hcompared⟩
    exact ⟨hlt, h.represents.conflictAt_iff.1 hconflict, (h.compares_iff hroot).1 hcompared⟩
  · rintro ⟨hlt, hconflict, hcompared⟩
    exact ⟨hlt, h.represents.conflictAt_iff.2 hconflict, (h.compares_iff hroot).2 hcompared⟩

end Roots

/-- Root by root, the same is found in the document and in its graph. -/
theorem Expanded.forall₂_finds (h : Expanded schema definitions graph) :
    List.Forall₂ (fun content root => ∀ finding,
        content.Finds schema definitions finding ↔ graph.resolved.Finds root finding)
      (documentRoots definitions) graph.roots :=
  h.roots.imp fun _ _ hroot _ => h.finds_iff hroot

end SelectionGraph

end SelectionMerge
