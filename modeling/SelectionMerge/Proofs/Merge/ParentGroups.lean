import SelectionMerge.Proofs.Check.Moments
import SelectionMerge.Proofs.Merge.Borders
import SelectionMerge.Proofs.Merge.Layout

/-!
# Groups of parents and the rule for a pair

Which fields can stand in one object is said twice. The second pass splits a set into groups that have the
fields of one object type together with all that may apply to any object, and the rule for a pair finds no
conflict between fields on two different object types. Both come to the same: two fields of a set share a
group if and only if the rule does not keep them apart (`ResolvedGraph.parent_groups_match_rule`). So that
part of the rule never decides a pair that the second pass compares.
-/

namespace SelectionMerge
set_option autoImplicit false

/-- The parents of the fields are two known object types of different names. -/
def SelectedField.OnDifferentObjects (x y : SelectedField) : Prop :=
  ∃ p q, x.parent? = some p ∧ y.parent? = some q ∧ p.isObject = true ∧ q.isObject = true ∧ p.name ≠ q.name

namespace ResolvedGraph

variable {resolved : ResolvedGraph} {fields : List FieldId} {a b : FieldId} {x y : SelectedField}

/-- Fields can stand in one object unless they are on two different object types. -/
theorem together_iff (ha : resolved.field? a = some x) (hb : resolved.field? b = some y) :
    resolved.Together a b ↔ ¬ x.OnDifferentObjects y := by
  unfold Together SelectedField.OnDifferentObjects
  simp only [objectParent?_eq ha, objectParent?_eq hb, SelectionGraph.objectParent?_eq_some]
  constructor
  · rintro h ⟨p, q, hp, hq, hobject, hobject', hne⟩
    exact hne (h p.name q.name ⟨p, hp, hobject, rfl⟩ ⟨q, hq, hobject', rfl⟩)
  · rintro h _ _ ⟨p, hp, hobject, rfl⟩ ⟨q, hq, hobject', rfl⟩
    by_contra hne
    exact h ⟨p, q, hp, hq, hobject, hobject', hne⟩

/-- Two fields of a set share a group if they can stand in one object, and only then. -/
theorem share_parentGroup_iff (ha : a ∈ fields) (hb : b ∈ fields) :
    (∃ group ∈ resolved.parentGroups fields, a ∈ group ∧ b ∈ group) ↔ resolved.Together a b := by
  constructor
  · rintro ⟨group, hgroup, hmem, hmem'⟩
    exact (mem_parentGroup hgroup hmem).2 b hmem'
  · exact exists_parentGroup ha hb

/-- The fields of one object type are in the group of that type and in no other. -/
theorem onParent_inj {p q : Name} (hp : p ∈ resolved.parents fields)
    (h : resolved.onParent fields p = resolved.onParent fields q) : p = q := by
  obtain ⟨a, ha, hparent⟩ := mem_parents.1 hp
  have hmem : a ∈ resolved.onParent fields p :=
    mem_onParent.2 ⟨ha, fun p' hp' => Option.some.inj (hp'.symm.trans hparent)⟩
  rw [h] at hmem
  exact (mem_onParent.1 hmem).2 p hparent

/-- No two groups of a set are equal. -/
theorem nodup_parentGroups (resolved : ResolvedGraph) (fields : List FieldId) :
    (resolved.parentGroups fields).Nodup := by
  unfold parentGroups
  split
  next => split <;> simp
  next =>
    refine List.Nodup.map_on ?_ (nodup_firstKeys _)
    intro p hp q _ hpq
    exact onParent_inj hp hpq

/-- Pairs that the second pass compares can stand in one object. -/
theorem together_of_comparePair {moment : Moment} (hmoment : moment ∈ resolved.moments)
    (hpair : moment.operation = .comparePair .calls a b) : resolved.Together a b := by
  have hfits := (resolved.tracks_check.right.moments moment hmoment).fits
  rw [hpair] at hfits
  obtain ⟨set, group, hgroup, hpair⟩ := hfits
  obtain ⟨ha, hb⟩ := mem_of_pairs hpair
  exact ((mem_group hgroup ha).2 b hb).2 rfl

/-- In an ascending set two fields share a group of parents if and only if they are not on two different
object types, which is what the rule for a pair asks. Each field has a group; each group has fields, all
of the set and in order, and at most one object type; no group is there twice. No pair that the second
pass compares is kept apart by the rule, in either order. -/
theorem parent_groups_match_rule (resolved : ResolvedGraph) (fields : List FieldId)
    (hfields : fields.Pairwise (· < ·)) :
    (∀ a ∈ fields, ∀ b ∈ fields, a ≠ b → ∀ x y, resolved.field? a = some x → resolved.field? b = some y →
      ((∃ group ∈ resolved.parentGroups fields, a ∈ group ∧ b ∈ group) ↔ ¬ x.OnDifferentObjects y) ∧
      (x.neverTogether y = true ↔ x.OnDifferentObjects y)) ∧
    (∀ a ∈ fields, ∃ group ∈ resolved.parentGroups fields, a ∈ group) ∧
    (∀ group ∈ resolved.parentGroups fields,
      group ≠ [] ∧ group.Pairwise (· < ·) ∧ (∀ a ∈ group, a ∈ fields) ∧
      ∀ a ∈ group, ∀ b ∈ group, ∀ p q,
        resolved.objectParent? a = some p → resolved.objectParent? b = some q → p = q) ∧
    (resolved.parentGroups fields).Nodup ∧
    ∀ moment ∈ resolved.moments, ∀ a b, moment.operation = .comparePair .calls a b →
      ∀ x y, resolved.field? a = some x → resolved.field? b = some y →
        x.neverTogether y = false ∧ y.neverTogether x = false := by
  refine ⟨fun a ha b hb _ x y hx hy => ?_, fun a ha => ?_, fun group hgroup => ?_,
    nodup_parentGroups resolved fields, fun moment hmoment a b hpair x y hx hy => ?_⟩
  · have htogether := together_iff hx hy
    refine ⟨(share_parentGroup_iff ha hb).trans htogether, ?_⟩
    rw [← not_iff_not, Bool.not_eq_true, neverTogether_eq_false_iff hx hy]
    exact htogether
  · obtain ⟨group, hgroup, hmem, -⟩ := (share_parentGroup_iff ha ha).2
      fun p q hp hq => Option.some.inj (hp.symm.trans hq)
    exact ⟨group, hgroup, hmem⟩
  · refine ⟨ne_nil_of_parentGroups hgroup, pairwise_parentGroup hgroup hfields, ?_, ?_⟩
    · exact fun a ha => (mem_parentGroup hgroup ha).1
    · exact fun a ha b hb => (mem_parentGroup hgroup ha).2 b hb
  · have htogether := together_of_comparePair hmoment hpair
    exact ⟨(neverTogether_eq_false_iff hx hy).2 htogether, (neverTogether_eq_false_iff hy hx).2 htogether.symm⟩

/-- The owner of a dog, of a cat, of any pet and of a type that is missing. -/
def ownersDocument : List Definition :=
  let owner : Selection := .field ⟨none, ⟨"owner", Eq.refl true⟩, [], none⟩ []
  [.operation ⟨.query, none, [.field ⟨none, ⟨"pet", Eq.refl true⟩, [], none⟩
    [.inline (some ⟨"Dog", Eq.refl true⟩) [owner], .inline (some ⟨"Cat", Eq.refl true⟩) [owner], owner,
     .inline (some ⟨"Nope", Eq.refl true⟩) [owner]]]⟩]

/-- The owners of the dog and the cat are kept apart and the other two join both, so the second pass compares
the owner of the dog with that of any pet. -/
theorem owners_parted : ∃ graph, SelectionGraph.ofDocument ownerSchema ownersDocument = .ok graph ∧
    [1, 2, 3, 4].Pairwise (· < ·) ∧ graph.resolved.parentGroups [1, 2, 3, 4] = [[1, 3, 4], [2, 3, 4]] ∧
    ∃ dog cat pet, graph.resolved.field? 1 = some dog ∧ graph.resolved.field? 2 = some cat ∧
      graph.resolved.field? 3 = some pet ∧ dog.OnDifferentObjects cat ∧ dog.neverTogether cat = true ∧
      ∃ moment ∈ graph.resolved.moments, moment.operation = .comparePair .calls 1 3 ∧
        dog.neverTogether pet = false := by
  have hall : (SelectionGraph.ofDocument ownerSchema ownersDocument).toOption.any (fun graph =>
      decide (graph.fields.size = 5 ∧ graph.resolved.parentGroups [1, 2, 3, 4] = [[1, 3, 4], [2, 3, 4]] ∧
        .comparePair .calls 1 3 ∈ graph.resolved.moments.map Moment.operation)) = true := by
    decide +kernel
  obtain ⟨graph, hgraph, hsize, hparts, hcompared⟩ := SelectionGraph.exists_ofDocument hall
  obtain ⟨moment, hmoment, hoperation⟩ := List.mem_map.1 hcompared
  have hfield : ∀ i < 5, ∃ x, graph.resolved.field? i = some x := by
    intro i hi
    rw [← hsize] at hi
    exact ⟨graph.fields[i], Array.getElem?_eq_getElem hi⟩
  obtain ⟨dog, hdog⟩ := hfield 1 (by decide)
  obtain ⟨cat, hcat⟩ := hfield 2 (by decide)
  obtain ⟨pet, hpet⟩ := hfield 3 (by decide)
  have hascending : [1, 2, 3, 4].Pairwise (· < ·) := by decide
  obtain ⟨hrule, -, -, -, hdecided⟩ := parent_groups_match_rule graph.resolved [1, 2, 3, 4] hascending
  obtain ⟨hshare, hnever⟩ := hrule 1 (by decide) 2 (by decide) (by decide) dog cat hdog hcat
  have hdifferent : dog.OnDifferentObjects cat := by
    by_contra hsame
    obtain ⟨group, hgroup, hmem⟩ := hshare.2 hsame
    rw [hparts] at hgroup
    revert group
    decide
  exact ⟨graph, hgraph, hascending, hparts, dog, cat, pet, hdog, hcat, hpet, hdifferent, hnever.2 hdifferent,
    moment, hmoment, hoperation, (hdecided moment hmoment 1 3 hoperation dog pet hdog hpet).1⟩

end ResolvedGraph

end SelectionMerge
