import SelectionMerge.Proofs.Expansion.Reorder
import SelectionMerge.Proofs.Merge.Layout

/-!
# The order of selections

Whether a response is ambiguous has nothing to do with the order in which a document selects its
fields, but neighbours in a layout do: `reordering_changes_verdict` is a document that is reported
or not, depending on which of two inline fragments is written first.

What does not depend on the order is that two fields of a group ask for different things
(`Disagrees`), and that some neighbours do so however the group is laid out (`Exposed`): in the
second pass where two fields of a group have different names or arguments, in the first where the
shapes are of two kinds and each field of the one kind conflicts with each of the other. Where the
one comes with the other, the order makes no difference (`reordering_keeps_verdict`).
-/

namespace SelectionMerge
set_option autoImplicit false

namespace ResolvedGraph

/-- The fields conflict and, in the first pass, have different known shapes. -/
def Rivals (resolved : ResolvedGraph) (pass : Pass) (a b : FieldId) : Prop :=
  resolved.conflict? a b ≠ none ∧
    (pass = .shapes → ∃ s t, resolved.shape? a = some s ∧ resolved.shape? b = some t ∧ s ≠ t)

/-- Two fields of a group that a pass comes to, neighbours or not, are rivals. -/
def Disagrees (resolved : ResolvedGraph) : Prop :=
  ∃ pass, ∃ root ∈ resolved.graph.roots, ∃ group, resolved.ReachedGroup pass (resolved.fieldSet root) group ∧
    ∃ a ∈ group, ∃ b ∈ group, resolved.Rivals pass a b

/-- Some neighbours in the layout of the group are in conflict, in whatever order its fields come. -/
def Exposes (resolved : ResolvedGraph) : Pass → List FieldId → Prop
  | .shapes, group =>
    (∀ i ∈ group, resolved.shape? i ≠ none) ∧
    ∃ kind : Option Shape → Prop,
      (∃ a ∈ group, kind (resolved.shape? a)) ∧ (∃ b ∈ group, ¬ kind (resolved.shape? b)) ∧
      ∀ a ∈ group, ∀ b ∈ group, kind (resolved.shape? a) → ¬ kind (resolved.shape? b) →
        resolved.conflict? a b ≠ none
  | .calls, group =>
    (∃ a ∈ group, ∃ b ∈ group, resolved.call? a ≠ resolved.call? b) ∨
    ((∀ i ∈ group, resolved.innerName? i ≠ none) ∧
      ∃ a ∈ group, ∃ b ∈ group, resolved.innerName? a ≠ resolved.innerName? b)

/-- A pass comes to a group that exposes a conflict. -/
def Exposed (resolved : ResolvedGraph) : Prop :=
  ∃ pass, ∃ root ∈ resolved.graph.roots, ∃ group, resolved.ReachedGroup pass (resolved.fieldSet root) group ∧
    resolved.Exposes pass group

variable {resolved left right : ResolvedGraph} {pass : Pass} {group group' : List FieldId}

/-- In a graph that is not quiet, fields of a group disagree. -/
theorem disagrees_of_not_quiet (h : ¬ resolved.Quiet) : resolved.Disagrees := by
  by_contra hagree
  refine h fun pass root hroot group hgroup a b _ hpair => ?_
  by_contra hconflict
  obtain hpair | hpair := hpair
  · obtain ⟨ha, hb⟩ := mem_of_pairs hpair
    exact hagree ⟨pass, root, hroot, group, hgroup, a, ha, b, hb, hconflict, (mem_pairs_iff.1 hpair).2⟩
  · obtain ⟨hb, ha⟩ := mem_of_pairs hpair
    refine hagree ⟨pass, root, hroot, group, hgroup, a, ha, b, hb, hconflict, fun hpass => ?_⟩
    obtain ⟨s, t, hs, ht, hne⟩ := (mem_pairs_iff.1 hpair).2 hpass
    exact ⟨t, s, ht, hs, hne.symm⟩

/-- Neighbours of different known shapes are compared. -/
theorem mem_shapePairs {a b : FieldId} (hmem : (a, b) ∈ neighbours (layout resolved.shape? group))
    (ha : resolved.shape? a ≠ none) (hb : resolved.shape? b ≠ none) (hne : resolved.shape? a ≠ resolved.shape? b) :
    (a, b) ∈ resolved.pairs .shapes group := by
  obtain ⟨s, hs⟩ := Option.ne_none_iff_exists'.1 ha
  obtain ⟨t, ht⟩ := Option.ne_none_iff_exists'.1 hb
  rw [hs, ht] at hne
  exact mem_pairs_iff.2 ⟨hmem, fun _ => ⟨s, t, hs, ht, fun heq => hne (congrArg some heq)⟩⟩

section Transfer

variable {R : Nat → Nat → Prop} (halike : ∀ {i j}, R i j → left.Alike right i j)
include halike

theorem Rivals.transfer {a b a' b' : FieldId} (h : left.Rivals pass a b) (ha : R a a') (hb : R b b') :
    right.Rivals pass a' b' := by
  unfold Rivals at h ⊢
  rw [(halike ha).conflict? (halike hb), (halike ha).shape?, (halike hb).shape?] at h
  exact h

/-- A group exposes a conflict if a corresponding one does. -/
theorem Exposes.transfer (hmatches : Matches R (fun _ => False) (· ∈ group) (· ∈ group'))
    (h : left.Exposes pass group) : right.Exposes pass group' := by
  cases pass with
  | shapes =>
    obtain ⟨hknown, kind, ⟨a, ha, hkind⟩, ⟨b, hb, hother⟩, hconflict⟩ := h
    obtain ⟨a', ha', haa⟩ := hmatches.forth ha
    obtain ⟨b', hb', hbb⟩ := hmatches.forth hb
    rw [(halike haa).shape?] at hkind
    rw [(halike hbb).shape?] at hother
    refine ⟨fun j hj => ?_, kind, ⟨a', ha', hkind⟩, ⟨b', hb', hother⟩, fun j hj l hl => ?_⟩
    · obtain hfalse | ⟨i, hi, hij⟩ := hmatches.back hj
      · exact hfalse.elim
      · rw [← (halike hij).shape?]
        exact hknown i hi
    · obtain hfalse | ⟨i, hi, hij⟩ := hmatches.back hj
      · exact hfalse.elim
      obtain hfalse | ⟨k, hk, hkl⟩ := hmatches.back hl
      · exact hfalse.elim
      rw [← (halike hij).shape?, ← (halike hkl).shape?, ← (halike hij).conflict? (halike hkl)]
      exact hconflict i hi k hk
  | calls =>
    obtain ⟨a, ha, b, hb, hne⟩ | ⟨hknown, a, ha, b, hb, hne⟩ := h
    · obtain ⟨a', ha', haa⟩ := hmatches.forth ha
      obtain ⟨b', hb', hbb⟩ := hmatches.forth hb
      rw [(halike haa).call?, (halike hbb).call?] at hne
      exact .inl ⟨a', ha', b', hb', hne⟩
    · obtain ⟨a', ha', haa⟩ := hmatches.forth ha
      obtain ⟨b', hb', hbb⟩ := hmatches.forth hb
      rw [(halike haa).innerName?, (halike hbb).innerName?] at hne
      refine .inr ⟨fun j hj => ?_, a', ha', b', hb', hne⟩
      obtain hfalse | ⟨i, hi, hij⟩ := hmatches.back hj
      · exact hfalse.elim
      · rw [← (halike hij).innerName?]
        exact hknown i hi

end Transfer

end ResolvedGraph

namespace SelectionGraph

variable {graph : SelectionGraph}

/-- In a quiet graph no group exposes a conflict. -/
theorem WellFormed.not_exposed (h : graph.WellFormed) (hquiet : graph.resolved.Quiet) :
    ¬ graph.resolved.Exposed := by
  rintro ⟨pass, root, hroot, group, hgroup, hexposes⟩
  cases pass with
  | shapes =>
    -- Neighbours of two kinds would conflict, so all fields are of one kind.
    obtain ⟨hknown, kind, ⟨a, ha, hkind⟩, ⟨b, hb, hother⟩, hconflict⟩ := hexposes
    have hlayout : ∀ i ∈ group, i ∈ layout graph.resolved.shape? group := fun i hi => mem_layout.2 hi
    have hsame : ∀ a ∈ layout graph.resolved.shape? group, ∀ b ∈ layout graph.resolved.shape? group,
        kind (graph.resolved.shape? a) = kind (graph.resolved.shape? b) := by
      refine eq_of_neighbours fun x y hxy => propext ?_
      obtain ⟨hx, hy⟩ := mem_of_neighbours hxy
      rw [mem_layout] at hx hy
      by_contra hkinds
      have hne : graph.resolved.shape? x ≠ graph.resolved.shape? y := by
        intro heq
        rw [heq] at hkinds
        exact hkinds .rfl
      have hnone : graph.resolved.conflict? x y = none := by
        refine hquiet.conflict?_eq_none hroot hgroup ?_
        exact ResolvedGraph.mem_shapePairs hxy (hknown x hx) (hknown y hy) hne
      obtain ⟨hx', hy'⟩ | ⟨hy', hx'⟩ := (xor_iff_not_iff _ _).2 hkinds
      · exact hconflict x hx y hy hx' hy' hnone
      · rw [ResolvedGraph.conflict?_comm] at hnone
        exact hconflict y hy x hx hy' hx' hnone
    exact hother (hsame a (hlayout a ha) b (hlayout b hb) ▸ hkind)
  | calls =>
    obtain ⟨hcalls, hinner⟩ := hquiet.agree hroot hgroup fun i hi => h.exists_field_of_group hgroup hi
    obtain ⟨a, ha, b, hb, hne⟩ | ⟨hknown, a, ha, b, hb, hne⟩ := hexposes
    · exact hne (hcalls a ha b hb)
    · refine hne (hinner (fun i hi selected hselected htype => hknown i hi ?_) a ha b hb)
      simp [ResolvedGraph.innerName?, hselected, htype]

end SelectionGraph

namespace Simulates

variable {schema : Schema} {definitions definitions' : List Definition} {R : Nat → Nat → Prop}
variable {extra : Nat → Prop} {graph graph' : SelectionGraph}

/-- A field selection that returns an input object corresponds to one that does. -/
theorem exists_input (h : Simulates schema definitions definitions' R extra) {name : Name}
    (hinput : ∃ occurrence ∈ occurrences schema definitions, occurrence.ReturnsInput schema name) :
    ∃ occurrence ∈ occurrences schema definitions', occurrence.ReturnsInput schema name := by
  obtain ⟨occurrence, hmem, hinput⟩ := hinput
  obtain ⟨i, hi⟩ := List.getElem?_of_mem hmem
  have hleft := SelectionGraph.expanded_ofDocument (SelectionGraph.ofDocument_eq schema definitions)
  have hright := SelectionGraph.expanded_ofDocument (SelectionGraph.ofDocument_eq schema definitions')
  obtain ⟨root, hroot, set, hset, hmem⟩ := hleft.represents.exists_reached .shapes hi
  obtain ⟨root', -, hstart⟩ := h.root hleft hright hroot
  obtain ⟨set', -, hmatches⟩ := h.reached hleft hright hstart hset
  obtain ⟨j, -, hij⟩ := hmatches.forth hmem
  obtain ⟨x, y, hx, hy, hxy⟩ := h.alike hij
  obtain rfl := Option.some.inj (hx.symm.trans hi)
  unfold Occurrence.ReturnsInput at hinput
  rw [hxy.type?] at hinput
  exact ⟨y, List.mem_of_getElem? hy, hinput⟩

/-- Fields that disagree correspond to fields that do. -/
theorem disagrees (h : Simulates schema definitions definitions' R extra)
    (hleft : SelectionGraph.Expanded schema definitions graph)
    (hright : SelectionGraph.Expanded schema definitions' graph') (hdisagrees : graph.resolved.Disagrees) :
    graph'.resolved.Disagrees := by
  obtain ⟨pass, root, hroot, group, hgroup, a, ha, b, hb, hrivals⟩ := hdisagrees
  obtain ⟨root', hroot', group', hgroup', hmatches⟩ := h.reachedGroup hleft hright hroot hgroup
  obtain ⟨a', ha', haa⟩ := hmatches.forth ha
  obtain ⟨b', hb', hbb⟩ := hmatches.forth hb
  exact ⟨pass, root', hroot', group', hgroup', a', ha', b', hb',
    hrivals.transfer (h.selected hleft.represents hright.represents) haa hbb⟩

/-- A group that exposes a conflict corresponds to one that does, without extra fields. -/
theorem exposed (h : Simulates schema definitions definitions' R fun _ => False)
    (hleft : SelectionGraph.Expanded schema definitions graph)
    (hright : SelectionGraph.Expanded schema definitions' graph') (hexposed : graph.resolved.Exposed) :
    graph'.resolved.Exposed := by
  obtain ⟨pass, root, hroot, group, hgroup, hexposes⟩ := hexposed
  obtain ⟨root', hroot', group', hgroup', hmatches⟩ := h.reachedGroup hleft hright hroot hgroup
  exact ⟨pass, root', hroot', group', hgroup',
    hexposes.transfer (h.selected hleft.represents hright.represents) hmatches⟩

end Simulates

/-- **Order.** Where fields that disagree come with a group that exposes a conflict, a document is
without conflicts exactly if it is with its selections in any other order. -/
theorem reordering_keeps_verdict {schema : Schema} {definitions definitions' : List Definition}
    {graph : SelectionGraph} (hdocuments : ReorderedDocuments definitions definitions')
    (hgraph : SelectionGraph.ofDocument schema definitions = .ok graph)
    (hexposed : graph.resolved.Disagrees → graph.resolved.Exposed) :
    validate schema definitions = .ok [] ↔ validate schema definitions' = .ok [] := by
  have hforth := simulates_of_reordered schema hdocuments
  have hback := simulates_of_reordered schema hdocuments.symm
  have hgraph' := SelectionGraph.ofDocument_eq schema definitions'
  have hleft := SelectionGraph.expanded_ofDocument hgraph
  have hright := SelectionGraph.expanded_ofDocument hgraph'
  rw [validate_eq_nil_iff hgraph, validate_eq_nil_iff hgraph']
  refine and_congr ⟨fun hnone y hy name hinput => ?_, fun hnone x hx name hinput => ?_⟩ ⟨fun hquiet => ?_, fun hquiet => ?_⟩
  · obtain ⟨x, hx, hinput⟩ := hback.exists_input ⟨y, hy, hinput⟩
    exact hnone x hx name hinput
  · obtain ⟨y, hy, hinput⟩ := hforth.exists_input ⟨x, hx, hinput⟩
    exact hnone y hy name hinput
  · by_contra hloud
    have hdisagrees := hback.disagrees hright hleft (ResolvedGraph.disagrees_of_not_quiet hloud)
    exact hleft.represents.wellFormed.not_exposed hquiet (hexposed hdisagrees)
  · by_contra hloud
    have hexposed' := hforth.exposed hleft hright (hexposed (ResolvedGraph.disagrees_of_not_quiet hloud))
    exact hright.represents.wellFormed.not_exposed hquiet hexposed'

/-- Two different fields as `x`, in either order. -/
def rivalsDocument (aFirst : Bool) : List Definition :=
  let select (name : String) (h : isName name.toList = true) : Selection :=
    .field ⟨some ⟨"x", Eq.refl true⟩, ⟨name, h⟩, [], none⟩ []
  let a := select "a" (Eq.refl true)
  let b := select "b" (Eq.refl true)
  [.operation ⟨.query, none, if aFirst then [a, b] else [b, a]⟩]

/-- They are reported in both orders. -/
theorem rivals_reported_in_both_orders :
    ReorderedDocuments (rivalsDocument true) (rivalsDocument false) ∧
    validate loopSchema (rivalsDocument true) ≠ .ok [] ∧ validate loopSchema (rivalsDocument false) ≠ .ok [] := by
  have hdocuments : ReorderedDocuments (rivalsDocument true) (rivalsDocument false) :=
    .cons ⟨.operation rfl rfl, .swap _ _ _⟩ .nil
  have hall : (SelectionGraph.ofDocument loopSchema (rivalsDocument true)).toOption.any (fun graph =>
      decide (0 ∈ graph.roots ∧ [0, 1] ∈ graph.resolved.groups .calls (graph.resolved.fieldSet 0) ∧
        graph.resolved.call? 0 ≠ graph.resolved.call? 1)) = true := by
    decide +kernel
  have hreported : (validate loopSchema (rivalsDocument true)).toOption.map List.length = some 1 := by
    decide +kernel
  obtain ⟨graph, hgraph, hroot, hgroup, hcalls⟩ := SelectionGraph.exists_ofDocument hall
  have hexposed : graph.resolved.Exposed :=
    ⟨.calls, 0, hroot, [0, 1], ⟨_, .start, hgroup⟩, .inl ⟨0, by decide, 1, by decide, hcalls⟩⟩
  have hiff := reordering_keeps_verdict hdocuments hgraph fun _ => hexposed
  have hfirst : validate loopSchema (rivalsDocument true) ≠ .ok [] := by
    intro h
    rw [h] at hreported
    cases hreported
  exact ⟨hdocuments, hfirst, fun h => hfirst (hiff.2 h)⟩

/-- The document `ownerDocument` with the club of a dog's owner before the person. -/
def clubFirstDocument : List Definition :=
  let on (name : String) (h : isName name.toList = true) (field : Selection) : Selection :=
    .inline (some ⟨name, h⟩) [field]
  let owner (selections : List Selection) : Selection :=
    .field ⟨none, ⟨"owner", Eq.refl true⟩, [], none⟩ selections
  let select (name : String) (h : isName name.toList = true) : Selection :=
    .field ⟨some ⟨"k", Eq.refl true⟩, ⟨name, h⟩, [], none⟩ []
  [.operation ⟨.query, none, [.field ⟨none, ⟨"pet", Eq.refl true⟩, [], none⟩
    [on "Dog" (Eq.refl true) (owner
      [on "Club" (Eq.refl true) (select "age" (Eq.refl true)),
       on "Person" (Eq.refl true) (select "age" (Eq.refl true))]),
     on "Cat" (Eq.refl true) (owner
      [on "Person" (Eq.refl true) (select "name" (Eq.refl true))])]]⟩]

/-- With the person first, the club's age stands between the age and the name of a person and no
conflict is found; with the club first, the two are neighbours and are reported. -/
theorem reordering_changes_verdict :
    ReorderedDocuments ownerDocument clubFirstDocument ∧
    validate ownerSchema ownerDocument = .ok [] ∧ validate ownerSchema clubFirstDocument ≠ .ok [] := by
  refine ⟨?_, ownerDocument_quiet, fun h => ?_⟩
  · refine .cons ⟨.operation rfl rfl, .field (.refl _) (.inline ?_ (.refl _)) .nil⟩ .nil
    exact .field (.refl _) (.swap _ _ _) .nil
  · have hreported : (validate ownerSchema clubFirstDocument).toOption.map List.length = some 1 := by
      decide +kernel
    rw [h] at hreported
    cases hreported

end SelectionMerge
