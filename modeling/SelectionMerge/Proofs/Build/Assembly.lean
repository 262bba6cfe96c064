import SelectionMerge.Proofs.Build.Labels
import SelectionMerge.Proofs.Expansion.FieldSets
import SelectionMerge.Proofs.Expansion.Parts

/-!
# How the parts of a graph hang together

A graph is put together by five operations: a container is added, for a fragment or not, and it is linked,
as the sub-selections of a field, as a spread or as a root. `SelectionGraph.Assembled` is what holds before
and after each of them. A container that was just added is pending until it is linked; every other one has
a root that leads to it, and unless it is that of a fragment it is referenced once. One lemma for each
operation says that it keeps this, and by induction on the selections so does every walk
(`Built.ofDocument`).
-/

namespace SelectionMerge
set_option autoImplicit false

/-- A field as the builder knows it: with its types, and whether it has sub-selections. -/
def SelectedField.outline (selected : SelectedField) : SelectedField × Bool :=
  (selected.bare, selected.container?.isSome)

/-- The outline of the field that an occurrence becomes. -/
def Occurrence.outline (occurrence : Occurrence) : SelectedField × Bool :=
  (occurrence.bare, !occurrence.selections.isEmpty)

/-- The fragments that a definition defines or spreads. -/
def Definition.mentioned (definition : Definition) : List Name :=
  definition.fragmentName?.toList ++ spreadNamesIn definition.selections

namespace SelectionGraph

/-- The mentions of containers: as a root, as a spread of a container, and as the sub-selections of a
field. -/
def references (graph : SelectionGraph) : List ContainerId :=
  graph.roots ++ graph.containers.toList.flatMap Container.spreads ++
    graph.fields.toList.filterMap SelectedField.container?

/-- The containers of fragments. -/
def fragmentContainers (graph : SelectionGraph) : List ContainerId :=
  graph.fragments.map Prod.snd

variable {schema : Schema} {graph middle after : SelectionGraph}

theorem fragment?_eq_none {name : Name} :
    graph.fragment? name = none ↔ name ∉ graph.fragments.map Prod.fst := by
  unfold fragment?
  rw [Option.map_eq_none_iff, List.find?_eq_none, List.mem_map]
  constructor
  · rintro h ⟨entry, hentry, rfl⟩
    exact h entry hentry (beq_self_eq_true _)
  · intro h entry hentry heq
    exact h ⟨entry, hentry, eq_of_beq heq⟩

theorem mem_of_fragment? {name : Name} {id : ContainerId} (h : graph.fragment? name = some id) :
    (name, id) ∈ graph.fragments := by
  unfold fragment? at h
  obtain ⟨entry, hentry, rfl⟩ := Option.map_eq_some_iff.1 h
  have hname := List.find?_some hentry
  obtain rfl := eq_of_beq hname
  exact List.mem_of_find?_eq_some hentry

section Growing

theorem Grows.leadsTo (h : graph.Grows after) {a b : ContainerId} (hab : graph.LeadsTo a b) :
    after.LeadsTo a b := by
  apply Relation.ReflTransGen.mono _ _ _ hab
  rintro x y (hspread | ⟨field, hfield, hnested⟩)
  · exact .inl (h.spreads hspread)
  · exact .inr ⟨field, h.fields hfield, h.nested hnested⟩

theorem Grows.fromRoots (h : graph.Grows after) {c : ContainerId} (hc : graph.FromRoots c) :
    after.FromRoots c := by
  obtain ⟨root, hroot, hpath⟩ := hc
  exact ⟨root, h.roots hroot, h.leadsTo hpath⟩

theorem FromRoots.spread {a b : ContainerId} (ha : graph.FromRoots a) (hab : graph.Spreads a b) :
    graph.FromRoots b := by
  obtain ⟨root, hroot, hpath⟩ := ha
  exact ⟨root, hroot, hpath.tail (.inl hab)⟩

theorem FromRoots.nest {a b : ContainerId} (ha : graph.FromRoots a) (hab : graph.Nests a b) :
    graph.FromRoots b := by
  obtain ⟨root, hroot, hpath⟩ := ha
  exact ⟨root, hroot, hpath.tail (.inr hab)⟩

end Growing

section References

theorem references_addContainer (graph : SelectionGraph) : graph.addContainer.references = graph.references := by
  unfold references addContainer
  rw [Array.toList_push, List.flatMap_append, List.flatMap_singleton]
  simp [Container.empty]

theorem references_addRoot (graph : SelectionGraph) {root : ContainerId} (hroot : root ∉ graph.roots) :
    (graph.addRoot root).references.Perm (root :: graph.references) := by
  unfold references addRoot
  rw [if_neg hroot]
  simp only [List.append_assoc]
  exact List.perm_middle

/-- Changing containers without their spreads leaves all spreads as they are. -/
theorem spreads_modify_eq (change : Container → Container) (h : ∀ c, (change c).spreads = c.spreads)
    (cs : List Container) (i : Nat) :
    (cs.modify i change).flatMap Container.spreads = cs.flatMap Container.spreads := by
  induction cs generalizing i with
  | nil => rw [List.modify_nil]
  | cons c cs ih =>
    cases i with
    | zero => rw [List.modify_zero_cons, List.flatMap_cons, List.flatMap_cons, h]
    | succ i => rw [List.modify_succ_cons, List.flatMap_cons, List.flatMap_cons, ih]

/-- A container with one more spread has all spreads gain one. -/
theorem spreads_modify_perm (change : Container → Container) {target : ContainerId}
    (h : ∀ c, (change c).spreads = c.spreads ++ [target]) (cs : List Container) {i : Nat} (hi : i < cs.length) :
    ((cs.modify i change).flatMap Container.spreads).Perm (target :: cs.flatMap Container.spreads) := by
  induction cs generalizing i with
  | nil => cases hi
  | cons c cs ih =>
    cases i with
    | zero =>
      rw [List.modify_zero_cons, List.flatMap_cons, List.flatMap_cons, h, List.append_assoc]
      exact List.perm_middle
    | succ i =>
      rw [List.modify_succ_cons, List.flatMap_cons, List.flatMap_cons]
      exact ((ih (Nat.lt_of_succ_lt_succ hi)).append_left _).trans List.perm_middle

theorem references_addField (graph : SelectionGraph) (top : ContainerId) (selected : SelectedField) :
    (graph.addField top selected).references = graph.references ++ selected.container?.toList := by
  have hspreads := spreads_modify_eq (fun c => { c with fields := c.fields ++ [graph.fields.size] }) (fun _ => rfl)
    graph.containers.toList top
  unfold references addField
  rw [Array.toList_modify, hspreads, Array.toList_push, List.filterMap_append, ← List.append_assoc]
  cases hselected : selected.container? <;> simp [hselected]

theorem references_addSpread (graph : SelectionGraph) {source : ContainerId} (target : ContainerId)
    (hsource : source < graph.containers.size) :
    (graph.addSpread source target).references.Perm (target :: graph.references) := by
  have hcontainers := spreads_modify_perm (fun c => { c with spreads := c.spreads ++ [target] }) (fun _ => rfl)
    graph.containers.toList hsource
  unfold references addSpread
  rw [Array.toList_modify, List.append_assoc, List.append_assoc]
  exact ((hcontainers.append_right _).append_left _).trans List.perm_middle

/-- A container is referenced by its number only if the graph has it. -/
theorem WellFormed.references_lt (h : graph.WellFormed) {c : ContainerId} (hc : c ∈ graph.references) :
    c < graph.containers.size := by
  unfold references at hc
  rw [List.append_assoc, List.mem_append, List.mem_append] at hc
  rcases hc with hroot | hspread | hnested
  · exact h.roots_lt c hroot
  · obtain ⟨container, hcontainer, hc⟩ := List.mem_flatMap.1 hspread
    obtain ⟨a, ha⟩ := List.getElem?_of_mem hcontainer
    apply h.spreads_lt (a := a)
    unfold Spreads SelectionGraph.container
    rw [← Array.getElem?_toList, ha]
    exact hc
  · obtain ⟨selected, hselected, hc⟩ := List.mem_filterMap.1 hnested
    obtain ⟨i, hi⟩ := List.getElem?_of_mem hselected
    rw [Array.getElem?_toList] at hi
    exact h.nested_lt (nested?_eq_some.2 ⟨selected, hi, hc⟩)

end References

/-- What holds of a graph that has the fields `occurrences` and the fragments `names`. The container
`pending?` was added, but nothing leads to it yet. -/
structure Assembled (occurrences : List Occurrence) (names : List Name) (pending? : Option ContainerId)
    (graph : SelectionGraph) : Prop where
  wellFormed : graph.WellFormed
  fields : graph.fields.toList.map SelectedField.outline = occurrences.map Occurrence.outline
  owned : ∀ i < graph.fields.size, ∃! c, i ∈ (graph.container c).fields
  ascending : ∀ c, (graph.container c).fields.Pairwise (· < ·)
  named : ∀ name, name ∈ graph.fragments.map Prod.fst ↔ name ∈ names
  namedOnce : (graph.fragments.map Prod.fst).Nodup
  fragments_lt : ∀ c ∈ graph.fragmentContainers, c < graph.containers.size
  fragmentsApart : graph.fragmentContainers.Nodup
  referenced : ∀ c < graph.containers.size, c ∉ graph.fragmentContainers →
    graph.references.count c = if pending? = some c then 0 else 1
  fromRoots : ∀ c < graph.containers.size, pending? ≠ some c → graph.FromRoots c

namespace Assembled

variable {occurrences : List Occurrence} {names : List Name} {pending? : Option ContainerId}
variable {top c : ContainerId}

theorem empty : SelectionGraph.empty.Assembled [] [] none := by
  have hcontainer : ∀ c, SelectionGraph.empty.container c = Container.empty :=
    fun c => container_eq_empty (Nat.zero_le c)
  refine ⟨wellFormed_empty, rfl, fun i hi => absurd hi (Nat.not_lt_zero i), fun c => ?_, fun name => ?_,
    .nil, ?_, .nil, fun c hc => absurd hc (Nat.not_lt_zero c), fun c hc => absurd hc (Nat.not_lt_zero c)⟩
  · rw [hcontainer]
    exact .nil
  · simp [SelectionGraph.empty]
  · simp [fragmentContainers, SelectionGraph.empty]

/-- Where nothing is pending, a root leads to every container, and each is referenced. -/
theorem fromRoots_of_none (h : graph.Assembled occurrences names none) (hc : c < graph.containers.size) :
    graph.FromRoots c :=
  h.fromRoots c hc (Option.some_ne_none c).symm

theorem referenced_of_none (h : graph.Assembled occurrences names none) (hc : c < graph.containers.size)
    (hfragment : c ∉ graph.fragmentContainers) : graph.references.count c = 1 :=
  (h.referenced c hc hfragment).trans (if_neg (Option.some_ne_none c).symm)

/-- A graph keeps how it hangs together if its fields stay in their containers. -/
theorem owned_of_container (h : graph.Assembled occurrences names pending?)
    (hcount : after.fields = graph.fields)
    (hfields : ∀ c, (after.container c).fields = (graph.container c).fields) :
    (∀ i < after.fields.size, ∃! c, i ∈ (after.container c).fields) ∧
      ∀ c, (after.container c).fields.Pairwise (· < ·) := by
  refine ⟨fun i hi => ?_, fun c => ?_⟩
  · rw [hcount] at hi
    simp only [hfields]
    exact h.owned i hi
  · rw [hfields]
    exact h.ascending c

/-- All containers but the new one were there before. -/
theorem lt_of_ne_new {c : Nat} (hc : c < graph.addContainer.containers.size)
    (hne : some graph.containers.size ≠ some c) : c < graph.containers.size := by
  have hsize := graph.size_addContainer
  have hne' : graph.containers.size ≠ c := fun heq => hne (congrArg some heq)
  omega

/-- A new container is pending. -/
theorem addContainer (h : graph.Assembled occurrences names none) :
    graph.addContainer.Assembled occurrences names (some graph.containers.size) := by
  have hadds := h.wellFormed.addContainer
  obtain ⟨howned, hascending⟩ := h.owned_of_container (show graph.addContainer.fields = graph.fields from rfl)
    fun c => by rw [container_addContainer]
  refine ⟨hadds.wellFormed, h.fields, howned, hascending, h.named, h.namedOnce, ?_, h.fragmentsApart, ?_, ?_⟩
  · intro c hc
    exact hadds.grows.lt_size (h.fragments_lt c hc)
  · intro c hc hfragment
    rw [references_addContainer]
    split
    next heq =>
      obtain rfl := Option.some.inj heq
      exact List.count_eq_zero.2 fun hmem => Nat.lt_irrefl _ (h.wellFormed.references_lt hmem)
    next hne => exact h.referenced_of_none (lt_of_ne_new hc hne) hfragment
  · intro c hc hne
    exact hadds.grows.fromRoots (h.fromRoots_of_none (lt_of_ne_new hc hne))

/-- The container of a fragment that is known already is pending again. -/
theorem known_fragment (h : graph.Assembled occurrences names none) {name : Name} {id : ContainerId}
    (hmem : (name, id) ∈ graph.fragments) : graph.Assembled occurrences (names ++ [name]) (some id) := by
  have hname : name ∈ names := (h.named name).1 (List.mem_map_of_mem hmem)
  have hid : id ∈ graph.fragmentContainers := List.mem_map_of_mem hmem
  refine { h with named := fun other => ?_, referenced := fun c hc hfragment => ?_, fromRoots := fun c hc _ => ?_ }
  · rw [h.named, List.mem_append, List.mem_singleton]
    constructor
    · exact .inl
    · rintro (hother | rfl)
      · exact hother
      · exact hname
  · rw [h.referenced_of_none hc hfragment, if_neg]
    intro heq
    exact hfragment (Option.some.inj heq ▸ hid)
  · exact h.fromRoots_of_none hc

/-- The container of a new fragment is new, and pending. -/
theorem new_fragment (h : graph.Assembled occurrences names none) {name : Name}
    (hnone : graph.fragment? name = none) :
    (graph.internFragment name).1.Assembled occurrences (names ++ [name]) (some graph.containers.size) := by
  have hadded := h.addContainer
  have hadds := (h.wellFormed.internFragment name).1
  have hnames : (graph.fragments ++ [(name, graph.containers.size)]).map Prod.fst =
      graph.fragments.map Prod.fst ++ [name] := List.map_append
  have hcontainers : (graph.fragments ++ [(name, graph.containers.size)]).map Prod.snd =
      graph.fragmentContainers ++ [graph.containers.size] := List.map_append
  have hnew : graph.containers.size ∉ graph.fragmentContainers :=
    fun hmem => Nat.lt_irrefl _ (h.fragments_lt _ hmem)
  rw [internFragment_of_none hnone] at hadds ⊢
  refine ⟨hadds.wellFormed, hadded.fields, hadded.owned, hadded.ascending, fun other => ?_, ?_, fun c hc => ?_, ?_,
    fun c hc hfragment => ?_, fun c hc hne => ?_⟩
  · rw [hnames, List.mem_append, List.mem_append, h.named]
  · rw [hnames]
    exact h.namedOnce.append (List.nodup_singleton _) (List.disjoint_singleton.2 (fragment?_eq_none.1 hnone))
  · unfold fragmentContainers at hc
    rw [hcontainers, List.mem_append] at hc
    show c < graph.addContainer.containers.size
    obtain hc | hc := hc
    · exact hadded.fragments_lt c hc
    · obtain rfl := List.mem_singleton.1 hc
      exact graph.size_lt_addContainer
  · unfold fragmentContainers
    rw [hcontainers]
    exact h.fragmentsApart.append (List.nodup_singleton _) (List.disjoint_singleton.2 hnew)
  · unfold fragmentContainers at hfragment
    rw [hcontainers, List.mem_append, not_or] at hfragment
    exact hadded.referenced c hc hfragment.1
  · obtain ⟨root, hroot, hpath⟩ := hadded.fromRoots c hc hne
    exact ⟨root, hroot, hpath⟩

/-- The container of a fragment is pending, whether it is new or not. -/
theorem internFragment (h : graph.Assembled occurrences names none) (name : Name) :
    (graph.internFragment name).1.Assembled occurrences (names ++ [name])
      (some (graph.internFragment name).2) := by
  cases hfound : graph.fragment? name with
  | some id =>
    rw [internFragment_of_some hfound]
    exact h.known_fragment (mem_of_fragment? hfound)
  | none =>
    have hassembled := h.new_fragment hfound
    rw [internFragment_of_none hfound] at hassembled ⊢
    exact hassembled

/-- A container is referenced once more, and its own link is no longer pending. -/
theorem referenced_of_perm (h : graph.Assembled occurrences names (some c))
    (hsize : after.containers.size = graph.containers.size) (hfragments : after.fragments = graph.fragments)
    (hperm : after.references.Perm (c :: graph.references)) :
    ∀ d < after.containers.size, d ∉ after.fragmentContainers →
      after.references.count d = if (none : Option ContainerId) = some d then 0 else 1 := by
  intro d hd hfragment
  have hfragment' : d ∉ graph.fragmentContainers := by
    unfold fragmentContainers at hfragment ⊢
    rwa [← hfragments]
  rw [hperm.count_eq, List.count_cons, h.referenced d (hsize ▸ hd) hfragment',
    if_neg (Option.some_ne_none d).symm]
  by_cases hcd : c = d <;> simp [hcd]

/-- Every container is led to once the one that was pending is. -/
theorem fromRoots_of_link (h : graph.Assembled occurrences names pending?)
    (hsize : after.containers.size = graph.containers.size) (hgrows : graph.Grows after)
    (hlinked : ∀ c, pending? = some c → after.FromRoots c) :
    ∀ c < after.containers.size, (none : Option ContainerId) ≠ some c → after.FromRoots c := by
  intro c hc _
  by_cases hpending : pending? = some c
  · exact hlinked c hpending
  · exact hgrows.fromRoots (h.fromRoots c (hsize ▸ hc) hpending)

/-- A spread links a container. -/
theorem addSpread (h : graph.Assembled occurrences names (some c)) (htop : top < graph.containers.size)
    (hc : c < graph.containers.size) (hroots : graph.FromRoots top) :
    (graph.addSpread top c).Assembled occurrences names none := by
  obtain ⟨hadds, hspreads⟩ := h.wellFormed.addSpread htop hc
  have hsize : (graph.addSpread top c).containers.size = graph.containers.size := Array.size_modify
  obtain ⟨howned, hascending⟩ := h.owned_of_container (show (graph.addSpread top c).fields = graph.fields from rfl)
    fun d => by rw [container_addSpread graph c d htop]
  refine ⟨hadds.wellFormed, h.fields, howned, hascending, h.named, h.namedOnce, ?_, h.fragmentsApart,
    h.referenced_of_perm hsize rfl (references_addSpread graph c htop), ?_⟩
  · intro d hd
    rw [hsize]
    exact h.fragments_lt d hd
  · apply h.fromRoots_of_link hsize hadds.grows
    intro d hd
    obtain rfl := Option.some.inj hd
    exact (hadds.grows.fromRoots hroots).spread hspreads

/-- A definition links a container as a root, unless it is one: then it is that of a fragment. -/
theorem addRoot (h : graph.Assembled occurrences names (some c)) (hc : c < graph.containers.size) :
    (graph.addRoot c).Assembled occurrences names none := by
  obtain ⟨hadds, hroot⟩ := h.wellFormed.addRoot hc
  have hlinked : ∀ d, some c = some d → (graph.addRoot c).FromRoots d := by
    intro d hd
    obtain rfl := Option.some.inj hd
    exact ⟨c, hroot, .refl⟩
  by_cases hmem : c ∈ graph.roots
  · have hsame : graph.addRoot c = graph := if_pos hmem
    rw [hsame] at hlinked ⊢
    refine { h with referenced := fun d hd hfragment => ?_, fromRoots := ?_ }
    · -- A pending container of no fragment has no reference, so it is not a root.
      have hcount := h.referenced d hd hfragment
      rw [if_neg (Option.some_ne_none d).symm]
      split at hcount
      next heq =>
        obtain rfl := Option.some.inj heq
        exact absurd (List.mem_append_left _ (List.mem_append_left _ hmem)) (List.count_eq_zero.1 hcount)
      next => exact hcount
    · exact h.fromRoots_of_link rfl (.refl graph) hlinked
  · have hadded : graph.addRoot c = { graph with roots := graph.roots ++ [c] } := if_neg hmem
    have hperm := references_addRoot graph hmem
    rw [hadded] at hadds hlinked hperm ⊢
    exact ⟨hadds.wellFormed, h.fields, h.owned, h.ascending, h.named, h.namedOnce, h.fragments_lt,
      h.fragmentsApart, h.referenced_of_perm rfl rfl hperm, h.fromRoots_of_link rfl hadds.grows hlinked⟩

/-- A new field stands in `top` only, as the fields that stood in containers have smaller numbers. -/
theorem owned_addField (h : graph.Assembled occurrences names pending?) (htop : top < graph.containers.size)
    (selected : SelectedField) :
    ∀ i < (graph.addField top selected).fields.size, ∃! c, i ∈ ((graph.addField top selected).container c).fields := by
  have hcount : (graph.addField top selected).fields.size = graph.fields.size + 1 := Array.size_push _
  intro i hi
  rw [hcount] at hi
  simp only [container_addField graph selected _ htop, List.mem_append]
  by_cases hlast : i = graph.fields.size
  · refine ⟨top, .inr (by simp [hlast]), fun c hc => ?_⟩
    rcases hc with hc | hc
    · exact absurd (h.wellFormed.fields_lt hc) (hlast ▸ Nat.lt_irrefl _)
    · by_contra hne
      rw [if_neg fun heq => hne heq.symm] at hc
      cases hc
  · have hi' : i < graph.fields.size := by omega
    obtain ⟨c, hc, hunique⟩ := h.owned i hi'
    refine ⟨c, .inl hc, fun d hd => ?_⟩
    rcases hd with hd | hd
    · exact hunique d hd
    · split at hd
      · exact absurd (List.mem_singleton.1 hd) hlast
      · cases hd

theorem ascending_addField (h : graph.Assembled occurrences names pending?) (htop : top < graph.containers.size)
    (selected : SelectedField) (c : ContainerId) :
    ((graph.addField top selected).container c).fields.Pairwise (· < ·) := by
  rw [container_addField graph selected c htop]
  apply List.pairwise_append.2
  refine ⟨h.ascending c, ?_, fun i hi j hj => ?_⟩
  · split
    · exact List.pairwise_singleton _ _
    · exact .nil
  · split at hj
    · rw [List.mem_singleton.1 hj]
      exact h.wellFormed.fields_lt hi
    · cases hj

/-- A field references the container of its sub-selections, which was pending. -/
theorem referenced_addField (h : graph.Assembled occurrences names pending?) {selected : SelectedField}
    (hcontainer : selected.container? = pending?) :
    ∀ d < (graph.addField top selected).containers.size, d ∉ (graph.addField top selected).fragmentContainers →
      (graph.addField top selected).references.count d = if (none : Option ContainerId) = some d then 0 else 1 := by
  have hsize : (graph.addField top selected).containers.size = graph.containers.size := Array.size_modify
  have hreferences := references_addField graph top selected
  rw [hcontainer] at hreferences
  cases pending? with
  | some c =>
    apply h.referenced_of_perm hsize rfl
    rw [hreferences]
    exact List.perm_append_comm
  | none =>
    intro c hc hfragment
    rw [hreferences, Option.toList_none, List.append_nil]
    exact h.referenced c (hsize ▸ hc) hfragment

/-- A field links the container of its sub-selections, if it has any. -/
theorem addField (h : graph.Assembled occurrences names pending?) (htop : top < graph.containers.size)
    (hpending : ∀ c, pending? = some c → c < graph.containers.size) (hroots : graph.FromRoots top)
    (occurrence : Occurrence) (hselections : pending?.isSome = !occurrence.selections.isEmpty) :
    (graph.addField top ⟨occurrence.field, occurrence.type?, occurrence.parent?, pending?⟩).Assembled
      (occurrences ++ [occurrence]) names none := by
  generalize hselected :
    (⟨occurrence.field, occurrence.type?, occurrence.parent?, pending?⟩ : SelectedField) = selected
  have hbare : selected.bare = occurrence.bare := by
    rw [← hselected]
    rfl
  have hcontainer : selected.container? = pending? := by rw [← hselected]
  obtain ⟨hadds, hfield, hnested⟩ := h.wellFormed.addField occurrence selected hbare htop
    fun c hc => hpending c (hcontainer ▸ hc)
  have hsize : (graph.addField top selected).containers.size = graph.containers.size := Array.size_modify
  refine ⟨hadds.wellFormed, ?_, h.owned_addField htop selected, h.ascending_addField htop selected, h.named,
    h.namedOnce, fun c hc => ?_, h.fragmentsApart, h.referenced_addField hcontainer, ?_⟩
  · show (graph.fields.push selected).toList.map _ = _
    rw [Array.toList_push, List.map_append, List.map_append, h.fields, List.map_singleton, List.map_singleton]
    simp only [SelectedField.outline, Occurrence.outline, hbare, hcontainer, hselections]
  · rw [hsize]
    exact h.fragments_lt c hc
  · apply h.fromRoots_of_link hsize hadds.grows
    intro c hc
    apply (hadds.grows.fromRoots hroots).nest
    exact ⟨graph.fields.size, hfield, by rw [hnested, hcontainer, hc]⟩

end Assembled

section Insertion

/-- What inserting selections comes to. -/
def AssemblesAll (schema : Schema) (selections : List Selection) : Prop :=
  ∀ (parent? : Option TypeDefinition) (graph : SelectionGraph) (top : ContainerId)
    (occurrences : List Occurrence) (names : List Name),
    graph.Assembled occurrences names none → top < graph.containers.size →
    (graph.insertAll schema parent? top selections).Assembled
      (occurrences ++ occurrencesIn schema parent? selections) (names ++ spreadNamesIn selections) none

variable {occurrences : List Occurrence} {names : List Name} {parent? : Option TypeDefinition}
variable {top : ContainerId}

/-- What comes behind a selection is inserted into the graph that has it. -/
theorem assemblesAll_cons {selection : Selection} {later : List Selection} (hlater : AssemblesAll schema later)
    (hgraph : graph.WellFormed) (htop : top < graph.containers.size)
    (hfirst : (graph.insert schema parent? top selection).Assembled
      (occurrences ++ selection.occurrences schema parent?) (names ++ selection.spreadNames) none) :
    (graph.insertAll schema parent? top (selection :: later)).Assembled
      (occurrences ++ occurrencesIn schema parent? (selection :: later))
      (names ++ spreadNamesIn (selection :: later)) none := by
  have hgrows := (hgraph.insert_adds schema parent? htop selection).grows
  have hassembled := hlater parent? _ top _ _ hfirst (hgrows.lt_size htop)
  unfold insertAll occurrencesIn spreadNamesIn
  rw [← List.append_assoc, ← List.append_assoc]
  exact hassembled

/-- Selections keep how the parts of a graph hang together. -/
theorem insertAll_assembled (schema : Schema) (selections : List Selection) : AssemblesAll schema selections := by
  induction selections using selections_induction with
  | nil =>
    intro parent? graph top occurrences names h htop
    unfold insertAll occurrencesIn spreadNamesIn
    rw [List.append_nil, List.append_nil]
    exact h
  | field field selections later ih ih' =>
    intro parent? graph top occurrences names h htop
    apply assemblesAll_cons ih' h.wellFormed htop
    have hroots := h.fromRoots_of_none htop
    cases selections with
    | nil =>
      have hadded := h.addField htop (fun _ hc => absurd hc.symm (Option.some_ne_none _)) hroots
        ⟨field, [], schema.fieldType? parent? field.name, parent?⟩ rfl
      rw [show names ++ (Selection.field field []).spreadNames = names from List.append_nil _]
      exact hadded
    | cons selection selections =>
      generalize hselections : selection :: selections = below at *
      have hbelow : below.isEmpty = false := by rw [← hselections]; rfl
      have hgrows := h.wellFormed.addContainer.grows
      have hlt := graph.size_lt_addContainer
      have hadded := h.addContainer.addField (hgrows.lt_size htop)
        (fun c hc => Option.some.inj hc ▸ hlt) (hgrows.fromRoots hroots)
        ⟨field, below, schema.fieldType? parent? field.name, parent?⟩ (by rw [hbelow]; rfl)
      have hinside := ih ((schema.fieldType? parent? field.name).map FieldType.definition) _
        graph.containers.size _ _ hadded (by rw [SelectionGraph.addField, Array.size_modify]; exact hlt)
      unfold insert
      rw [if_neg (by rw [hbelow]; exact Bool.false_ne_true)]
      rw [List.append_assoc] at hinside
      exact hinside
  | inline condition? selections later ih ih' =>
    intro parent? graph top occurrences names h htop
    apply assemblesAll_cons ih' h.wellFormed htop
    have hroots := h.fromRoots_of_none htop
    have hgrows := h.wellFormed.addContainer.grows
    have hlt := graph.size_lt_addContainer
    have hadded := h.addContainer.addSpread (hgrows.lt_size htop) hlt (hgrows.fromRoots hroots)
    exact ih _ _ _ _ _ hadded (by rw [SelectionGraph.addSpread, Array.size_modify]; exact hlt)
  | spread name later ih =>
    intro parent? graph top occurrences names h htop
    apply assemblesAll_cons ih h.wellFormed htop
    have hroots := h.fromRoots_of_none htop
    obtain ⟨hadds, -, hlt⟩ := h.wellFormed.internFragment name
    rw [show occurrences ++ (Selection.spread name).occurrences schema parent? = occurrences from
      List.append_nil _]
    exact (h.internFragment name).addSpread (hadds.grows.lt_size htop) hlt (hadds.grows.fromRoots hroots)

/-- A definition keeps how the parts of a graph hang together. -/
theorem define_assembled (schema : Schema) (definition : Definition)
    (h : graph.Assembled occurrences names none) :
    (graph.define schema definition).Assembled
      (occurrences ++ occurrencesIn schema (definition.parent? schema) definition.selections)
      (names ++ definition.mentioned) none := by
  cases definition with
  | operation operation =>
    have hlt := graph.size_lt_addContainer
    have hroot := h.addContainer.addRoot hlt
    have hgrows := (h.addContainer.wellFormed.addRoot hlt).1.grows
    exact insertAll_assembled schema _ _ _ _ _ _ hroot (hgrows.lt_size hlt)
  | fragment fragment =>
    have hlt := (h.wellFormed.internFragment fragment.name).2.2
    have hinterned := h.internFragment fragment.name
    have hgrows := (hinterned.wellFormed.addRoot hlt).1.grows
    have hinside := insertAll_assembled schema fragment.selections (schema.type? fragment.condition) _ _ _ _
      (hinterned.addRoot hlt) (hgrows.lt_size hlt)
    rw [List.append_assoc] at hinside
    exact hinside
  | typeSystem definition =>
    show graph.Assembled (occurrences ++ []) (names ++ []) none
    rw [List.append_nil, List.append_nil]
    exact h

theorem foldl_define_assembled (schema : Schema) (definitions : List Definition)
    (h : graph.Assembled occurrences names none) :
    (definitions.foldl (define schema) graph).Assembled
      (occurrences ++ SelectionMerge.occurrences schema definitions)
      (names ++ definitions.flatMap Definition.mentioned) none := by
  induction definitions generalizing graph occurrences names with
  | nil =>
    show graph.Assembled (occurrences ++ []) (names ++ []) none
    rw [List.append_nil, List.append_nil]
    exact h
  | cons definition definitions ih =>
    have hrest := ih (define_assembled schema definition h)
    rw [List.append_assoc, List.append_assoc] at hrest
    exact hrest

end Insertion

/-- What holds of the graph of a document. -/
structure Built (schema : Schema) (definitions : List Definition) (graph : SelectionGraph) : Prop where
  /-- The fields are the field selections of the document in order, each with a container for its
  sub-selections if it has any. -/
  fields : graph.fields.toList.map SelectedField.outline =
    (occurrences schema definitions).map Occurrence.outline
  /-- Each field stands in one container, and containers list fields of the graph in order. -/
  owned : ∀ i < graph.fields.size, ∃! c, i ∈ (graph.container c).fields
  fields_lt : ∀ c, ∀ i ∈ (graph.container c).fields, i < graph.fields.size
  ascending : ∀ c, (graph.container c).fields.Pairwise (· < ·)
  /-- All numbers are numbers of containers. -/
  spreads_lt : ∀ a, ∀ c ∈ (graph.container a).spreads, c < graph.containers.size
  nested_lt : ∀ i c, graph.nested? i = some c → c < graph.containers.size
  fragments_lt : ∀ c ∈ graph.fragmentContainers, c < graph.containers.size
  roots_lt : ∀ c ∈ graph.roots, c < graph.containers.size
  /-- Each container has one mark, which says that it has not been visited. -/
  resolution : graph.resolution = Array.replicate graph.containers.size .unvisited
  /-- Each fragment that is defined or spread has one container, which is that of no other. -/
  named : ∀ name, name ∈ graph.fragments.map Prod.fst ↔
    name ∈ definedNames definitions ∨ name ∈ spreadNames definitions
  namedOnce : (graph.fragments.map Prod.fst).Nodup
  fragmentsApart : graph.fragmentContainers.Nodup
  /-- Every other container is referenced once. -/
  referenced : ∀ c < graph.containers.size, c ∉ graph.fragmentContainers → graph.references.count c = 1
  fromRoots : ∀ c < graph.containers.size, graph.FromRoots c

/-- The fragments that the definitions mention are those that the document defines or spreads. -/
theorem mem_mentioned {definitions : List Definition} {name : Name} :
    name ∈ definitions.flatMap Definition.mentioned ↔
      name ∈ definedNames definitions ∨ name ∈ spreadNames definitions := by
  unfold definedNames spreadNames Definition.mentioned
  simp only [List.mem_flatMap, List.mem_append, List.mem_filterMap, Option.mem_toList]
  constructor
  · rintro ⟨definition, hmem, hname | hname⟩
    · exact .inl ⟨definition, hmem, hname⟩
    · exact .inr ⟨definition, hmem, hname⟩
  · rintro (⟨definition, hmem, hname⟩ | ⟨definition, hmem, hname⟩)
    · exact ⟨definition, hmem, .inl hname⟩
    · exact ⟨definition, hmem, .inr hname⟩

/-- The graph of a document is built. -/
theorem Built.ofDocument {definitions : List Definition} (h : ofDocument schema definitions = .ok graph) :
    graph.Built schema definitions := by
  rw [ofDocument_eq] at h
  obtain rfl := Except.ok.inj h
  have hassembled := foldl_define_assembled schema definitions .empty
  rw [List.nil_append, List.nil_append] at hassembled
  have hgraph := hassembled.wellFormed
  exact {
    fields := hassembled.fields
    owned := hassembled.owned
    fields_lt := fun _ _ => hgraph.fields_lt
    ascending := hassembled.ascending
    spreads_lt := fun _ _ => hgraph.spreads_lt
    nested_lt := fun _ _ => hgraph.nested_lt
    fragments_lt := hassembled.fragments_lt
    roots_lt := hgraph.roots_lt
    resolution := hgraph.resolution
    named := fun name => (hassembled.named name).trans mem_mentioned
    namedOnce := hassembled.namedOnce
    fragmentsApart := hassembled.fragmentsApart
    referenced := fun _ => hassembled.referenced_of_none
    fromRoots := fun _ => hassembled.fromRoots_of_none
  }

/-- **Building.** The events of a walk never fail the builder; no container is open at the end, so the
graph is finished; and its fields, containers, fragments and references hang together as `Built` says. -/
theorem walk_builds (schema : Schema) (definitions : List Definition) :
    ∃ graph : SelectionGraph,
      (GraphBuilder.visitor.walk schema definitions).run GraphBuilder.start = .ok ((), ⟨graph, []⟩) ∧
      (⟨graph, []⟩ : GraphBuilder).finish = .ok graph ∧
      ofDocument schema definitions = .ok graph ∧
      graph.Built schema definitions := by
  refine ⟨definitions.foldl (define schema) .empty, ?_, rfl, ofDocument_eq schema definitions, ?_⟩
  · exact GraphBuilder.runs_walk schema definitions .empty
  · exact .ofDocument (ofDocument_eq schema definitions)

end SelectionGraph

end SelectionMerge
