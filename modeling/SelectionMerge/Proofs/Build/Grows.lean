import SelectionMerge.Proofs.Build.Insert
import SelectionMerge.Proofs.Reach.Marks

/-!
# Growing graphs

Building only ever adds to a graph: fields and containers get new numbers, containers get new
fields and spreads, fragments and roots get new containers. `SelectionGraph.Grows` says what a
larger graph keeps, `SelectionGraph.WellFormed` that every number that a graph mentions is one of
its own, and `SelectionGraph.Adds` puts both together with the fields that are new.
-/

namespace SelectionMerge
set_option autoImplicit false

/-- A selected field without its container, as it is known before its sub-selections. -/
def SelectedField.bare (selected : SelectedField) : SelectedField :=
  { selected with container? := none }

/-- The field of an occurrence, without a container. -/
def Occurrence.bare (occurrence : Occurrence) : SelectedField :=
  ⟨occurrence.field, occurrence.type?, occurrence.parent?, none⟩

namespace SelectionGraph

/-- All that is in `graph` is in `after`, under the same numbers. -/
structure Grows (graph after : SelectionGraph) : Prop where
  size_le : graph.containers.size ≤ after.containers.size
  numbered : ∀ {i : FieldId} {selected : SelectedField},
    graph.fields[i]? = some selected → after.fields[i]? = some selected
  fields : ∀ {c i}, i ∈ (graph.container c).fields → i ∈ (after.container c).fields
  spreads : ∀ {a b}, graph.Spreads a b → after.Spreads a b
  fragments : ∀ {name c}, graph.fragment? name = some c → after.fragment? name = some c
  roots : ∀ {c}, c ∈ graph.roots → c ∈ after.roots

/-- All numbers in a graph are numbers of its containers and fields, and each container has a mark, which
says that it has not been visited. -/
structure WellFormed (graph : SelectionGraph) : Prop where
  resolution : graph.resolution = Array.replicate graph.containers.size .unvisited
  fields_lt : ∀ {c i}, i ∈ (graph.container c).fields → i < graph.fields.size
  spreads_lt : ∀ {a b}, graph.Spreads a b → b < graph.containers.size
  nested_lt : ∀ {i c}, graph.nested? i = some c → c < graph.containers.size
  fragments_lt : ∀ {name c}, graph.fragment? name = some c → c < graph.containers.size
  roots_lt : ∀ c ∈ graph.roots, c < graph.containers.size

variable {graph middle after : SelectionGraph}

theorem Grows.refl (graph : SelectionGraph) : graph.Grows graph :=
  ⟨Nat.le_refl _, id, id, id, id, id⟩

theorem Grows.trans (h : graph.Grows middle) (h' : middle.Grows after) : graph.Grows after where
  size_le := Nat.le_trans h.size_le h'.size_le
  numbered hi := h'.numbered (h.numbered hi)
  fields hi := h'.fields (h.fields hi)
  spreads hab := h'.spreads (h.spreads hab)
  fragments hname := h'.fragments (h.fragments hname)
  roots hc := h'.roots (h.roots hc)

theorem nested?_eq_some {i : FieldId} {c : ContainerId} :
    graph.nested? i = some c ↔ ∃ selected, graph.fields[i]? = some selected ∧ selected.container? = some c := by
  unfold nested?
  exact Option.bind_eq_some_iff

theorem Grows.nested (h : graph.Grows after) {i : FieldId} {c : ContainerId}
    (hi : graph.nested? i = some c) : after.nested? i = some c := by
  obtain ⟨selected, hselected, hc⟩ := nested?_eq_some.1 hi
  exact nested?_eq_some.2 ⟨selected, h.numbered hselected, hc⟩

theorem Grows.lt_size (h : graph.Grows after) {c : ContainerId} (hc : c < graph.containers.size) :
    c < after.containers.size :=
  Nat.lt_of_lt_of_le hc h.size_le

theorem WellFormed.inRange (h : graph.WellFormed) : graph.InRange where
  spreads := h.spreads_lt
  nests := by
    rintro a b ⟨field, -, hb⟩
    exact h.nested_lt hb

/-- A container that the graph does not have is empty. -/
theorem container_eq_empty {c : ContainerId} (hc : graph.containers.size ≤ c) :
    graph.container c = Container.empty := by
  unfold container
  rw [Array.getElem?_eq_none hc]
  rfl

section Containers

theorem size_addContainer (graph : SelectionGraph) :
    graph.addContainer.containers.size = graph.containers.size + 1 :=
  Array.size_push _

/-- The new container has the next number. -/
theorem size_lt_addContainer (graph : SelectionGraph) :
    graph.containers.size < graph.addContainer.containers.size := by
  rw [size_addContainer]
  omega

/-- A new container is empty, so no container changes. -/
theorem container_addContainer (graph : SelectionGraph) (c : ContainerId) :
    graph.addContainer.container c = graph.container c := by
  unfold container addContainer
  rw [Array.getElem?_push]
  split
  next heq =>
    rw [heq, Array.getElem?_eq_none (Nat.le_refl _)]
    rfl
  next => rfl

theorem container_addSpread (graph : SelectionGraph) {source : ContainerId} (target c : ContainerId)
    (hsource : source < graph.containers.size) :
    (graph.addSpread source target).container c =
      ⟨(graph.container c).fields,
        (graph.container c).spreads ++ if source = c then [target] else []⟩ := by
  unfold container addSpread
  rw [Array.getElem?_modify]
  split
  next heq =>
    subst heq
    rw [Array.getElem?_eq_getElem hsource]
    rfl
  next => rw [List.append_nil]

theorem container_addField (graph : SelectionGraph) {top : ContainerId} (selected : SelectedField)
    (c : ContainerId) (htop : top < graph.containers.size) :
    (graph.addField top selected).container c =
      ⟨(graph.container c).fields ++ if top = c then [graph.fields.size] else [],
        (graph.container c).spreads⟩ := by
  unfold container addField
  rw [Array.getElem?_modify]
  split
  next heq =>
    subst heq
    rw [Array.getElem?_eq_getElem htop]
    rfl
  next => rw [List.append_nil]

end Containers

/-- What is in `after` besides `graph` are the fields `new`. -/
structure Adds (graph : SelectionGraph) (new : List Occurrence) (after : SelectionGraph) : Prop where
  wellFormed : after.WellFormed
  grows : graph.Grows after
  fields : after.fields.toList.map SelectedField.bare =
    graph.fields.toList.map SelectedField.bare ++ new.map Occurrence.bare

namespace Adds

theorem trans {new later : List Occurrence} (h : graph.Adds new middle) (h' : middle.Adds later after) :
    graph.Adds (new ++ later) after where
  wellFormed := h'.wellFormed
  grows := h.grows.trans h'.grows
  fields := by rw [h'.fields, h.fields, List.map_append, List.append_assoc]

theorem size_eq {new : List Occurrence} (h : graph.Adds new after) :
    after.fields.size = graph.fields.size + new.length := by
  have hlength := congrArg List.length h.fields
  simp only [List.length_map, List.length_append, Array.length_toList] at hlength
  exact hlength

end Adds

/-- Nothing is added where nothing changes. -/
theorem WellFormed.adds_nil (h : graph.WellFormed) : graph.Adds [] graph :=
  ⟨h, .refl graph, (List.append_nil _).symm⟩

theorem WellFormed.addContainer (h : graph.WellFormed) : graph.Adds [] graph.addContainer where
  wellFormed := by
    constructor
    · show graph.resolution.push .unvisited = _
      rw [h.resolution, size_addContainer, Array.replicate_succ]
    · intro c i hi
      rw [container_addContainer] at hi
      exact h.fields_lt hi
    · intro a b hab
      unfold Spreads at hab
      rw [container_addContainer] at hab
      exact Nat.lt_trans (h.spreads_lt hab) graph.size_lt_addContainer
    · intro i c hi
      exact Nat.lt_trans (h.nested_lt hi) graph.size_lt_addContainer
    · intro name c hname
      exact Nat.lt_trans (h.fragments_lt hname) graph.size_lt_addContainer
    · intro c hc
      exact Nat.lt_trans (h.roots_lt c hc) graph.size_lt_addContainer
  grows := by
    refine ⟨Nat.le_of_lt graph.size_lt_addContainer, id, fun {c i} hi => ?_, fun {a b} hab => ?_, id, id⟩
    · rw [container_addContainer]
      exact hi
    · unfold Spreads
      rw [container_addContainer]
      exact hab
  fields := (List.append_nil _).symm

theorem WellFormed.addSpread (h : graph.WellFormed) {source target : ContainerId}
    (hsource : source < graph.containers.size) (htarget : target < graph.containers.size) :
    graph.Adds [] (graph.addSpread source target) ∧ (graph.addSpread source target).Spreads source target := by
  have hsize : (graph.addSpread source target).containers.size = graph.containers.size := Array.size_modify
  have hspreads : ∀ {a b}, (graph.addSpread source target).Spreads a b ↔
      graph.Spreads a b ∨ source = a ∧ b = target := by
    intro a b
    unfold Spreads
    rw [container_addSpread graph target a hsource, List.mem_append]
    apply or_congr_right
    split
    next heq => simp [heq]
    next hne => simp [hne]
  have hfields : ∀ c, ((graph.addSpread source target).container c).fields = (graph.container c).fields := by
    intro c
    rw [container_addSpread graph target c hsource]
  have hwellFormed : (graph.addSpread source target).WellFormed := by
    constructor
    · rw [hsize]
      exact h.resolution
    · intro c i hi
      rw [hfields] at hi
      exact h.fields_lt hi
    · intro a b hab
      rw [hsize]
      obtain hab | ⟨-, rfl⟩ := hspreads.1 hab
      · exact h.spreads_lt hab
      · exact htarget
    · intro i c hi
      rw [hsize]
      exact h.nested_lt hi
    · intro name c hname
      rw [hsize]
      exact h.fragments_lt hname
    · intro c hc
      rw [hsize]
      exact h.roots_lt c hc
  have hgrows : graph.Grows (graph.addSpread source target) := by
    refine ⟨Nat.le_of_eq hsize.symm, id, fun {c i} hi => ?_, fun hab => hspreads.2 (.inl hab), id, id⟩
    rw [hfields]
    exact hi
  exact ⟨⟨hwellFormed, hgrows, (List.append_nil _).symm⟩, hspreads.2 (.inr ⟨rfl, rfl⟩)⟩

/-- A new field has the next number. Its sub-selections are in a container of the graph. -/
theorem WellFormed.addField (h : graph.WellFormed) {top : ContainerId} (occurrence : Occurrence)
    (selected : SelectedField) (hbare : selected.bare = occurrence.bare) (htop : top < graph.containers.size)
    (hbelow : ∀ c, selected.container? = some c → c < graph.containers.size) :
    graph.Adds [occurrence] (graph.addField top selected) ∧
      graph.fields.size ∈ ((graph.addField top selected).container top).fields ∧
      (graph.addField top selected).nested? graph.fields.size = selected.container? := by
  have hsize : (graph.addField top selected).containers.size = graph.containers.size := Array.size_modify
  have hcount : (graph.addField top selected).fields.size = graph.fields.size + 1 := Array.size_push _
  have hget : ∀ i : FieldId, (graph.addField top selected).fields[i]? =
      if i = graph.fields.size then some selected else graph.fields[i]? := fun i => Array.getElem?_push
  have hspreads : ∀ {a b}, (graph.addField top selected).Spreads a b ↔ graph.Spreads a b := by
    intro a b
    unfold Spreads
    rw [container_addField graph selected a htop]
  have hfields : ∀ {c i}, i ∈ ((graph.addField top selected).container c).fields ↔
      i ∈ (graph.container c).fields ∨ top = c ∧ i = graph.fields.size := by
    intro c i
    rw [container_addField graph selected c htop, List.mem_append]
    apply or_congr_right
    split
    next heq => simp [heq]
    next hne => simp [hne]
  have hnumbered : ∀ {i : FieldId} {x : SelectedField}, graph.fields[i]? = some x →
      (graph.addField top selected).fields[i]? = some x := by
    intro i x hx
    have hlt : i < graph.fields.size := (Array.getElem?_eq_some_iff.1 hx).1
    rw [hget, if_neg (Nat.ne_of_lt hlt)]
    exact hx
  have hwellFormed : (graph.addField top selected).WellFormed := by
    constructor
    · rw [hsize]
      exact h.resolution
    · intro c i hi
      rw [hcount]
      obtain hi | ⟨-, rfl⟩ := hfields.1 hi
      · exact Nat.lt_succ_of_lt (h.fields_lt hi)
      · exact Nat.lt_succ_self _
    · intro a b hab
      rw [hsize]
      exact h.spreads_lt (hspreads.1 hab)
    · intro i c hi
      rw [hsize]
      obtain ⟨x, hx, hc⟩ := nested?_eq_some.1 hi
      rw [hget] at hx
      split at hx
      · obtain rfl := Option.some.inj hx
        exact hbelow c hc
      · exact h.nested_lt (nested?_eq_some.2 ⟨x, hx, hc⟩)
    · intro name c hname
      rw [hsize]
      exact h.fragments_lt hname
    · intro c hc
      rw [hsize]
      exact h.roots_lt c hc
  have hgrows : graph.Grows (graph.addField top selected) :=
    ⟨Nat.le_of_eq hsize.symm, hnumbered, fun hi => hfields.2 (.inl hi), hspreads.2, id, id⟩
  refine ⟨⟨hwellFormed, hgrows, ?_⟩, hfields.2 (.inr ⟨rfl, rfl⟩), ?_⟩
  · unfold SelectionGraph.addField
    rw [Array.toList_push, List.map_append, List.map_singleton, hbare]
    rfl
  · unfold nested?
    rw [hget, if_pos rfl]
    rfl

theorem internFragment_of_some {name : Name} {id : ContainerId} (h : graph.fragment? name = some id) :
    graph.internFragment name = (graph, id) := by
  unfold internFragment
  rw [h]

theorem internFragment_of_none {name : Name} (h : graph.fragment? name = none) :
    graph.internFragment name = ({ graph.addContainer with
      fragments := graph.fragments ++ [(name, graph.containers.size)] }, graph.containers.size) := by
  unfold internFragment
  rw [h]

/-- Interning a fragment gives it a container and changes that of no other fragment. -/
theorem fragment?_internFragment (graph : SelectionGraph) (name other : Name) :
    (graph.internFragment name).1.fragment? other =
      if name = other then some (graph.internFragment name).2 else graph.fragment? other := by
  cases hfound : graph.fragment? name with
  | some id =>
    rw [internFragment_of_some hfound]
    split
    next heq => rw [← heq, hfound]
    next => rfl
  | none =>
    have hnone : graph.fragments.find? (fun entry => entry.1 == name) = none := Option.map_eq_none_iff.1 hfound
    rw [internFragment_of_none hfound]
    show ((graph.fragments ++ [(name, graph.containers.size)]).find? fun entry => entry.1 == other).map Prod.snd = _
    rw [List.find?_append]
    split
    next heq =>
      subst heq
      rw [hnone, List.find?_singleton]
      simp
    next hne =>
      rw [List.find?_singleton]
      simp [fragment?, hne]

theorem WellFormed.internFragment (h : graph.WellFormed) (name : Name) :
    graph.Adds [] (graph.internFragment name).1 ∧
      (graph.internFragment name).1.fragment? name = some (graph.internFragment name).2 ∧
      (graph.internFragment name).2 < (graph.internFragment name).1.containers.size := by
  have hname : (graph.internFragment name).1.fragment? name = some (graph.internFragment name).2 := by
    rw [fragment?_internFragment, if_pos rfl]
  have hfragment := fragment?_internFragment graph name
  cases hfound : graph.fragment? name with
  | some id =>
    rw [internFragment_of_some hfound] at hname ⊢
    exact ⟨h.adds_nil, hname, h.fragments_lt hname⟩
  | none =>
    rw [internFragment_of_none hfound] at hname hfragment ⊢
    have hadds := h.addContainer
    have hlt := graph.size_lt_addContainer
    refine ⟨⟨{ hadds.wellFormed with fragments_lt := fun {other c} hother => ?_ },
      { hadds.grows with fragments := fun {other c} hother => ?_ }, hadds.fields⟩, hname, hlt⟩
    · rw [hfragment] at hother
      split at hother
      · obtain rfl := Option.some.inj hother
        exact hlt
      · exact Nat.lt_trans (h.fragments_lt hother) hlt
    · rw [hfragment, if_neg]
      · exact hother
      · rintro rfl
        rw [hfound] at hother
        cases hother

theorem WellFormed.addRoot (h : graph.WellFormed) {root : ContainerId} (hroot : root < graph.containers.size) :
    graph.Adds [] (graph.addRoot root) ∧ root ∈ (graph.addRoot root).roots := by
  unfold SelectionGraph.addRoot
  split
  next hmem => exact ⟨h.adds_nil, hmem⟩
  next =>
    refine ⟨⟨⟨h.resolution, h.fields_lt, h.spreads_lt, h.nested_lt, h.fragments_lt, fun c hc => ?_⟩,
      ⟨Nat.le_refl _, id, id, id, id, fun hc => List.mem_append_left _ hc⟩, (List.append_nil _).symm⟩,
      List.mem_append_right _ (.head _)⟩
    obtain hc | hc := List.mem_append.1 hc
    · exact h.roots_lt c hc
    · obtain rfl := List.mem_singleton.1 hc
      exact hroot

theorem wellFormed_empty : empty.WellFormed := by
  have hcontainer : ∀ c, empty.container c = Container.empty := fun c => container_eq_empty (Nat.zero_le c)
  constructor
  · rfl
  · intro c i hi
    rw [hcontainer] at hi
    simp [Container.empty] at hi
  · intro a b hab
    unfold Spreads at hab
    rw [hcontainer] at hab
    simp [Container.empty] at hab
  · intro i c hi
    cases hi
  · intro name c hname
    cases hname
  · intro c hc
    simp [empty] at hc

end SelectionGraph

end SelectionMerge
