import Mathlib.Logic.Function.Basic
import SelectionMerge.Proofs.Build.Holds
import SelectionMerge.Proofs.Expansion.Contents

/-!
# What containers stand for

Each container of the graph of a document stands for one content: a selection set at its place, or
a fragment. `SelectionGraph.Labelled` says of a labelling of the containers that nothing in the
graph goes beyond it: the fields in a container belong to its content, and so does all that belongs
to the content of a container that it spreads to. A new container gets the next number, so the
labels of those before it stay as they are, and every graph that is built has such a labelling
(`exists_labelled`). `Holds` is the other direction: all that belongs to a content is found.
-/

namespace SelectionMerge
set_option autoImplicit false

namespace SelectionGraph

/-- Nothing in the graph goes beyond what its containers stand for. -/
structure Bounded (schema : Schema) (definitions : List Definition) (content : ContainerId → Content)
    (graph : SelectionGraph) : Prop where
  fields : ∀ {c i}, i ∈ (graph.container c).fields → (content c).Expands definitions i
  spreads : ∀ {a b i}, graph.Spreads a b → (content b).Expands definitions i →
    (content a).Expands definitions i
  nested : ∀ {f c}, graph.nested? f = some c → ∃ occurrence,
    (occurrences schema definitions)[f]? = some occurrence ∧
    content c = .selections (f + 1) occurrence.selections

/-- The containers of a bounded graph that stand for fragments are those of its fragments. -/
structure Labelled (schema : Schema) (definitions : List Definition) (content : ContainerId → Content)
    (graph : SelectionGraph) : Prop extends Bounded schema definitions content graph where
  fragments : ∀ {name c}, graph.fragment? name = some c ↔
    c < graph.containers.size ∧ content c = .fragment name

/-- The containers of the graph keep their labels. -/
def KeepsLabels (graph : SelectionGraph) (content later : ContainerId → Content) : Prop :=
  ∀ c, c < graph.containers.size → later c = content c

/-- The graph has a labelling that keeps the labels `content` of the containers of `before`. -/
def Relabelled (schema : Schema) (definitions : List Definition) (before : SelectionGraph)
    (content : ContainerId → Content) (graph : SelectionGraph) : Prop :=
  ∃ later, before.KeepsLabels content later ∧ graph.Labelled schema definitions later

variable {schema : Schema} {definitions : List Definition} {graph middle after : SelectionGraph}
variable {content : ContainerId → Content}

theorem Labelled.relabelled (h : graph.Labelled schema definitions content) :
    Relabelled schema definitions graph content graph :=
  ⟨content, fun _ _ => rfl, h⟩

/-- What a container reaches belongs to its content. -/
theorem Labelled.expands (h : graph.Labelled schema definitions content) {a b : ContainerId}
    (hreaches : graph.Reaches a b) {i : FieldId} (hi : i ∈ (graph.container b).fields) :
    (content a).Expands definitions i := by
  induction hreaches using Relation.ReflTransGen.head_induction_on with
  | refl => exact h.fields hi
  | head hspread _ ih => exact h.spreads hspread ih

section Steps

/-- A new container can stand for anything: nothing is in it, and nothing leads to it. -/
theorem Bounded.addContainer (h : graph.Bounded schema definitions content) (hgraph : graph.WellFormed)
    (new : Content) :
    graph.addContainer.Bounded schema definitions (Function.update content graph.containers.size new) := by
  have hold : ∀ {c}, c < graph.containers.size →
      Function.update content graph.containers.size new c = content c :=
    fun hc => Function.update_of_ne (Nat.ne_of_lt hc) _ _
  constructor
  case fields =>
    intro c i hi
    rw [container_addContainer] at hi
    rcases Nat.lt_or_ge c graph.containers.size with hc | hc
    · rw [hold hc]
      exact h.fields hi
    · simp [container_eq_empty hc, Container.empty] at hi
  case spreads =>
    intro a b i hab hi
    unfold Spreads at hab
    rw [container_addContainer] at hab
    rw [hold (hgraph.spreads_lt hab)] at hi
    rcases Nat.lt_or_ge a graph.containers.size with ha | ha
    · rw [hold ha]
      exact h.spreads hab hi
    · simp [container_eq_empty ha, Container.empty] at hab
  case nested =>
    intro f c hc
    rw [hold (hgraph.nested_lt hc)]
    exact h.nested hc

theorem keepsLabels_update (graph : SelectionGraph) (content : ContainerId → Content) (new : Content) :
    graph.KeepsLabels content (Function.update content graph.containers.size new) :=
  fun _ hc => Function.update_of_ne (Nat.ne_of_lt hc) _ _

theorem Labelled.addContainer (h : graph.Labelled schema definitions content) (hgraph : graph.WellFormed)
    (first : Nat) (selections : List Selection) :
    graph.addContainer.Labelled schema definitions
      (Function.update content graph.containers.size (.selections first selections)) := by
  refine { h.toBounded.addContainer hgraph (.selections first selections) with fragments := fun {name c} => ?_ }
  rw [size_addContainer]
  apply h.fragments.trans
  rcases Nat.lt_trichotomy c graph.containers.size with hc | rfl | hc
  · rw [keepsLabels_update graph content _ c hc]
    simp [hc, Nat.lt_succ_of_lt hc]
  · simp
  · simp [Nat.lt_asymm hc, Nat.not_lt.2 hc]

theorem Labelled.addSpread (h : graph.Labelled schema definitions content) {source target : ContainerId}
    (hsource : source < graph.containers.size)
    (hbelongs : ∀ i, (content target).Expands definitions i → (content source).Expands definitions i) :
    (graph.addSpread source target).Labelled schema definitions content := by
  have hsize : (graph.addSpread source target).containers.size = graph.containers.size := Array.size_modify
  refine ⟨⟨?fields, ?spreads, h.nested⟩, ?fragments⟩
  case fields =>
    intro c i hi
    rw [container_addSpread graph target c hsource] at hi
    exact h.fields hi
  case spreads =>
    intro a b i hab hi
    unfold Spreads at hab
    rw [container_addSpread graph target a hsource, List.mem_append] at hab
    rcases hab with hab | hab
    · exact h.spreads hab hi
    · split at hab
      next heq =>
        obtain rfl := List.mem_singleton.1 hab
        exact heq ▸ hbelongs i hi
      next => cases hab
  case fragments =>
    intro name c
    rw [hsize]
    exact h.fragments

theorem Labelled.addField (h : graph.Labelled schema definitions content) {top : ContainerId}
    {selected : SelectedField} (htop : top < graph.containers.size)
    (hbelongs : (content top).Expands definitions graph.fields.size)
    (hnested : ∀ c, selected.container? = some c → ∃ occurrence,
      (occurrences schema definitions)[graph.fields.size]? = some occurrence ∧
      content c = .selections (graph.fields.size + 1) occurrence.selections) :
    (graph.addField top selected).Labelled schema definitions content := by
  have hsize : (graph.addField top selected).containers.size = graph.containers.size := Array.size_modify
  refine ⟨⟨?fields, ?spreads, ?nested⟩, ?fragments⟩
  case fields =>
    intro c i hi
    rw [container_addField graph selected c htop, List.mem_append] at hi
    rcases hi with hi | hi
    · exact h.fields hi
    · split at hi
      next heq =>
        obtain rfl := List.mem_singleton.1 hi
        exact heq ▸ hbelongs
      next => cases hi
  case spreads =>
    intro a b i hab hi
    unfold Spreads at hab
    rw [container_addField graph selected a htop] at hab
    exact h.spreads hab hi
  case fragments =>
    intro name c
    rw [hsize]
    exact h.fragments
  case nested =>
    intro f c hc
    obtain ⟨x, hx, hc⟩ := nested?_eq_some.1 hc
    have hget : (graph.addField top selected).fields[f]? =
        if f = graph.fields.size then some selected else graph.fields[f]? := Array.getElem?_push
    rw [hget] at hx
    split at hx
    next heq =>
      obtain rfl := Option.some.inj hx
      exact heq ▸ hnested c hc
    next => exact h.nested (nested?_eq_some.2 ⟨x, hx, hc⟩)

/-- The container of a fragment stands for the fragment, whether it is new or not. -/
theorem Labelled.internFragment (h : graph.Labelled schema definitions content)
    (hgraph : graph.WellFormed) (name : Name) :
    Relabelled schema definitions graph content (graph.internFragment name).1 := by
  cases hfound : graph.fragment? name with
  | some id =>
    rw [internFragment_of_some hfound]
    exact h.relabelled
  | none =>
    have hfragment := fragment?_internFragment graph name
    rw [internFragment_of_none hfound] at hfragment ⊢
    have hbounded := h.toBounded.addContainer hgraph (.fragment name)
    have hkeeps := keepsLabels_update graph content (.fragment name)
    refine ⟨_, hkeeps, ⟨hbounded.fields, hbounded.spreads, hbounded.nested⟩, fun {other c} => ?_⟩
    rw [hfragment, size_addContainer]
    have hold : graph.fragment? other = some c ↔ _ := h.fragments
    rcases Nat.lt_trichotomy c graph.containers.size with hc | rfl | hc
    · rw [hkeeps c hc]
      split
      next heq =>
        rw [← heq, hfound] at hold
        simp [Nat.ne_of_gt hc, Nat.lt_succ_of_lt hc, ← heq, ← hold.trans (and_iff_right hc)]
      next => simp [Nat.lt_succ_of_lt hc, hold, hc]
    · split
      next heq => simp [heq]
      next hne => simp [hold, hne]
    · split
      next => simp [Nat.ne_of_lt hc, Nat.not_lt.2 hc]
      next => simp [hold, Nat.lt_asymm hc, Nat.not_lt.2 hc]

theorem Labelled.addRoot (h : graph.Labelled schema definitions content) (root : ContainerId) :
    (graph.addRoot root).Labelled schema definitions content := by
  unfold SelectionGraph.addRoot
  split
  · exact h
  · exact ⟨⟨h.fields, h.spreads, h.nested⟩, h.fragments⟩

end Steps

section Insertion

variable {parent? : Option TypeDefinition} {top : ContainerId}

/-- Labels that are kept further on are kept from the beginning. -/
theorem KeepsLabels.relabelled {middleContent : ContainerId → Content}
    (hkeeps : graph.KeepsLabels content middleContent)
    (hsize : graph.containers.size ≤ middle.containers.size)
    (h : Relabelled schema definitions middle middleContent after) :
    Relabelled schema definitions graph content after := by
  obtain ⟨later, hkeeps', hlabelled⟩ := h
  exact ⟨later, fun c hc => (hkeeps' c (Nat.lt_of_lt_of_le hc hsize)).trans (hkeeps c hc), hlabelled⟩

/-- What inserting selections comes to that belong to the content of the container. -/
def LabelsAll (schema : Schema) (definitions : List Definition) (selections : List Selection) : Prop :=
  ∀ (parent? : Option TypeDefinition) (graph : SelectionGraph) (top : ContainerId)
    (content : ContainerId → Content),
    graph.WellFormed → graph.Labelled schema definitions content → top < graph.containers.size →
    PlacedAt schema definitions graph.fields.size parent? selections →
    (∀ i, Expands definitions graph.fields.size selections i → (content top).Expands definitions i) →
    Relabelled schema definitions graph content (graph.insertAll schema parent? top selections)

/-- Selections can be inserted into a container that stands for them. -/
theorem LabelsAll.inside {selections : List Selection} (h : LabelsAll schema definitions selections)
    (hgraph : graph.WellFormed) (hlabelled : graph.Labelled schema definitions content)
    (htop : top < graph.containers.size)
    (hplaced : PlacedAt schema definitions graph.fields.size parent? selections)
    (hcontent : content top = .selections graph.fields.size selections) :
    Relabelled schema definitions graph content (graph.insertAll schema parent? top selections) := by
  refine h parent? graph top content hgraph hlabelled htop hplaced fun i hi => ?_
  rw [hcontent]
  exact hi

/-- Inserting one selection adds its fields. -/
theorem WellFormed.insert_adds (h : graph.WellFormed) (schema : Schema) (parent? : Option TypeDefinition)
    (htop : top < graph.containers.size) (selection : Selection) :
    graph.Adds (selection.occurrences schema parent?) (graph.insert schema parent? top selection) := by
  have hadds := (insertAll_adds schema [selection] parent? graph top h htop).1
  simpa only [occurrencesIn, List.append_nil, insertAll] using hadds

/-- What comes behind a selection is inserted into the graph that has it. -/
theorem labelsAll_cons {selection : Selection} {later : List Selection}
    (hlater : LabelsAll schema definitions later) (hgraph : graph.WellFormed)
    (htop : top < graph.containers.size)
    (hplaced : PlacedAt schema definitions graph.fields.size parent? (selection :: later))
    (hbelongs : ∀ i, Expands definitions graph.fields.size (selection :: later) i →
      (content top).Expands definitions i)
    (hfirst : Relabelled schema definitions graph content (graph.insert schema parent? top selection)) :
    Relabelled schema definitions graph content (graph.insertAll schema parent? top (selection :: later)) := by
  obtain ⟨content', hkeeps, hlabelled⟩ := hfirst
  have hadds := hgraph.insert_adds schema parent? htop selection
  have hsize := hadds.size_eq
  rw [Selection.length_occurrences] at hsize
  apply hkeeps.relabelled hadds.grows.size_le
  refine hlater parent? _ top content' hadds.wellFormed hlabelled (hadds.grows.lt_size htop) ?_ fun i hi => ?_
  · rw [hsize]
    exact hplaced.later
  · rw [hsize] at hi
    rw [hkeeps top htop]
    exact hbelongs i (.later hi)

/-- Inserting selections into a container whose content they belong to keeps a graph labelled. -/
theorem insertAll_labels (schema : Schema) (definitions : List Definition) (selections : List Selection) :
    LabelsAll schema definitions selections := by
  induction selections using selections_induction with
  | nil => exact fun _ _ _ _ _ h _ _ _ => h.relabelled
  | field field selections later ih ih' =>
    intro parent? graph top content hgraph h htop hplaced hbelongs
    refine labelsAll_cons ih' hgraph htop hplaced hbelongs ?_
    cases selections with
    | nil =>
      exact ⟨content, fun _ _ => rfl, h.addField htop (hbelongs _ .here) nofun⟩
    | cons selection selections =>
      generalize hselections : selection :: selections = below at *
      have hkeeps := keepsLabels_update graph content (.selections (graph.fields.size + 1) below)
      have hnew := hgraph.addContainer
      have hlt := graph.size_lt_addContainer
      have hadds := (hnew.wellFormed.addField ⟨field, below, schema.fieldType? parent? field.name, parent?⟩
        ⟨field, schema.fieldType? parent? field.name, parent?, some graph.containers.size⟩ rfl
        (hnew.grows.lt_size htop) (fun c hc => Option.some.inj hc ▸ hlt)).1
      have hlabelled : (graph.addContainer.addField top ⟨field, schema.fieldType? parent? field.name, parent?,
          some graph.containers.size⟩).Labelled schema definitions
          (Function.update content graph.containers.size (.selections (graph.fields.size + 1) below)) := by
        apply (h.addContainer hgraph (graph.fields.size + 1) below).addField (hnew.grows.lt_size htop)
        · exact (hkeeps top htop).symm ▸ hbelongs _ .here
        · intro c hc
          obtain rfl := Option.some.inj hc
          exact ⟨_, hplaced.first.here, Function.update_self _ _ _⟩
      apply hkeeps.relabelled (hnew.grows.trans hadds.grows).size_le
      have hsize := hadds.size_eq
      have hrest := ih.inside hadds.wellFormed hlabelled (hadds.grows.lt_size hlt)
        (by rw [hsize]; exact hplaced.first.below)
        (by rw [hsize]; exact Function.update_self _ _ _)
      rw [← hselections] at hrest ⊢
      exact hrest
  | inline condition? selections later ih ih' =>
    intro parent? graph top content hgraph h htop hplaced hbelongs
    refine labelsAll_cons ih' hgraph htop hplaced hbelongs ?_
    have hkeeps := keepsLabels_update graph content (.selections graph.fields.size selections)
    have hself : Function.update content graph.containers.size (.selections graph.fields.size selections)
        graph.containers.size = .selections graph.fields.size selections := Function.update_self _ _ _
    have hnew := hgraph.addContainer
    have hlt := graph.size_lt_addContainer
    have hadds := (hnew.wellFormed.addSpread (hnew.grows.lt_size htop) hlt).1
    have hlabelled := (h.addContainer hgraph graph.fields.size selections).addSpread
      (hnew.grows.lt_size htop) fun i hi => by
        rw [hself] at hi
        rw [hkeeps top htop]
        exact hbelongs i (.inline hi)
    apply hkeeps.relabelled (hnew.grows.trans hadds.grows).size_le
    exact ih.inside hadds.wellFormed hlabelled (hadds.grows.lt_size hlt) hplaced.first.inside hself
  | spread name later ih =>
    intro parent? graph top content hgraph h htop hplaced hbelongs
    refine labelsAll_cons ih hgraph htop hplaced hbelongs ?_
    obtain ⟨hadds, hname, hlt⟩ := hgraph.internFragment name
    obtain ⟨content', hkeeps, hlabelled⟩ := h.internFragment hgraph name
    refine ⟨content', hkeeps, hlabelled.addSpread (hadds.grows.lt_size htop) fun i hi => ?_⟩
    rw [(hlabelled.fragments.1 hname).2] at hi
    obtain ⟨start, fragment, hmem, heq, hexpands⟩ := hi
    rw [hkeeps top htop]
    exact hbelongs i (.spread hmem heq hexpands)

end Insertion

section Definitions

theorem roots_addRoot (graph : SelectionGraph) (root : ContainerId) :
    (graph.addRoot root).roots = if root ∈ graph.roots then graph.roots else graph.roots ++ [root] := by
  unfold SelectionGraph.addRoot
  split <;> rfl

theorem roots_internFragment (graph : SelectionGraph) (name : Name) :
    (graph.internFragment name).1.roots = graph.roots := by
  unfold SelectionGraph.internFragment
  split <;> rfl

/-- Inserting selections adds no roots. -/
theorem roots_insertAll (schema : Schema) (parent? : Option TypeDefinition) (top : ContainerId)
    (graph : SelectionGraph) (selections : List Selection) :
    (graph.insertAll schema parent? top selections).roots = graph.roots := by
  induction selections using selections_induction generalizing parent? top graph with
  | nil => rfl
  | field field selections later ih ih' =>
    unfold insertAll
    rw [ih']
    unfold insert
    dsimp only
    split
    · rfl
    · exact ih _ _ _
  | inline condition? selections later ih ih' =>
    unfold insertAll
    rw [ih']
    exact ih _ _ _
  | spread name later ih =>
    unfold insertAll
    rw [ih]
    exact roots_internFragment graph name

/-- The roots of a graph hold what they stand for. -/
structure Rooted (schema : Schema) (definitions : List Definition) (contents : List Content)
    (content : ContainerId → Content) (graph : SelectionGraph) : Prop where
  labelled : graph.Labelled schema definitions content
  roots : graph.roots.map content = contents
  holds : ∀ root ∈ graph.roots, ∀ first selections, content root = .selections first selections →
    graph.Holds root first selections

/-- Once a container is opened for a definition, as a new root or not, its selections are put there. -/
theorem Rooted.insertAll {contents : List Content} {content' : ContainerId → Content} {root : ContainerId}
    {new : List ContainerId} {definition : Definition}
    (h : graph.Rooted schema definitions contents content) (hgraph : graph.WellFormed)
    (hopened : graph.Adds [] middle) (hkeeps : graph.KeepsLabels content content')
    (hlabelled : middle.Labelled schema definitions content') (hroot : root < middle.containers.size)
    (hroots : middle.roots = graph.roots ++ new) (hnew : ∀ c ∈ new, c = root)
    (hmem : (graph.fields.size, definition) ∈ numberedFrom 0 definitions)
    (hbelongs : ∀ i, Expands definitions graph.fields.size definition.selections i →
      (content' root).Expands definitions i)
    (hcontent : ∀ first selections, content' root = .selections first selections →
      first = graph.fields.size ∧ selections = definition.selections) :
    ∃ later, (middle.insertAll schema (definition.parent? schema) root definition.selections).Rooted
      schema definitions (contents ++ new.map content') later := by
  have hsize : middle.fields.size = graph.fields.size := hopened.size_eq
  obtain ⟨hadds, hholds⟩ := insertAll_adds schema definition.selections (definition.parent? schema) middle
    root hopened.wellFormed hroot
  obtain ⟨later, hkeeps', hlabelled'⟩ := insertAll_labels schema definitions definition.selections
    (definition.parent? schema) middle root content' hopened.wellFormed hlabelled hroot
    (hsize ▸ placedAt_of_mem hmem) (hsize ▸ hbelongs)
  have hold : ∀ c ∈ graph.roots, later c = content c := fun c hc =>
    (hkeeps' c (hopened.grows.lt_size (hgraph.roots_lt c hc))).trans (hkeeps c (hgraph.roots_lt c hc))
  refine ⟨later, hlabelled', ?_, fun c hc first selections heq => ?_⟩
  · rw [roots_insertAll, hroots, List.map_append, ← h.roots, List.map_congr_left hold]
    congr 1
    exact List.map_congr_left fun c hc => hkeeps' c (hnew c hc ▸ hroot)
  · rw [roots_insertAll, hroots] at hc
    obtain hc | hc := List.mem_append.1 hc
    · rw [hold c hc] at heq
      exact (h.holds c hc first selections heq).mono (hopened.grows.trans hadds.grows)
    · obtain rfl := hnew c hc
      rw [hkeeps' c hroot] at heq
      obtain ⟨rfl, rfl⟩ := hcontent first selections heq
      rw [← hsize]
      exact hholds

/-- An operation adds a root that stands for it. -/
theorem Rooted.operation {contents : List Content} {operation : Operation}
    (h : graph.Rooted schema definitions contents content) (hgraph : graph.WellFormed)
    (hmem : (graph.fields.size, .operation operation) ∈ numberedFrom 0 definitions) :
    ∃ later, (graph.define schema (.operation operation)).Rooted schema definitions
      (contents ++ [.selections graph.fields.size operation.selections]) later := by
  have hself : Function.update content graph.containers.size
      (.selections graph.fields.size operation.selections) graph.containers.size =
      .selections graph.fields.size operation.selections := Function.update_self _ _ _
  have hnew := hgraph.addContainer
  have hlt := graph.size_lt_addContainer
  have hroot := (hnew.wellFormed.addRoot hlt).1
  have hroots : (graph.addContainer.addRoot graph.containers.size).roots =
      graph.roots ++ [graph.containers.size] := by
    rw [roots_addRoot]
    exact if_neg fun hmem => Nat.lt_irrefl _ (hgraph.roots_lt _ hmem)
  have hlabelled := (h.labelled.addContainer hgraph graph.fields.size operation.selections).addRoot
    graph.containers.size
  have hrooted := h.insertAll hgraph (hnew.trans hroot) (keepsLabels_update graph content _) hlabelled
    (hroot.grows.lt_size hlt) hroots (fun c hc => List.mem_singleton.1 hc) hmem
    (fun i hi => by rw [hself]; exact hi)
    fun first selections heq => by
      rw [hself] at heq
      obtain ⟨rfl, rfl⟩ := Content.selections.inj heq
      exact ⟨rfl, rfl⟩
  rw [List.map_singleton, hself] at hrooted
  exact hrooted

/-- A fragment that is defined for the first time adds a root that stands for it. -/
theorem Rooted.fragment {contents : List Content} {fragment : Fragment} {defined : List Name}
    (h : graph.Rooted schema definitions contents content) (hgraph : graph.WellFormed)
    (hdefined : ∀ name, name ∈ defined ↔ .fragment name ∈ contents)
    (hmem : (graph.fields.size, .fragment fragment) ∈ numberedFrom 0 definitions) :
    ∃ later, (graph.define schema (.fragment fragment)).Rooted schema definitions
      (contents ++ if fragment.name ∈ defined then [] else [.fragment fragment.name]) later := by
  obtain ⟨hintern, hname, hlt⟩ := hgraph.internFragment fragment.name
  obtain ⟨content', hkeeps, hlabelled⟩ := h.labelled.internFragment hgraph fragment.name
  have hcontent : content' (graph.internFragment fragment.name).2 = .fragment fragment.name :=
    (hlabelled.fragments.1 hname).2
  have hroots := roots_internFragment graph fragment.name
  -- The container of the fragment is a root already if and only if the fragment was defined before.
  have hold : (graph.internFragment fragment.name).2 ∈ graph.roots ↔ fragment.name ∈ defined := by
    rw [hdefined, ← h.roots, List.mem_map]
    constructor
    · intro hroot
      exact ⟨_, hroot, (hkeeps _ (hgraph.roots_lt _ hroot)).symm.trans hcontent⟩
    · rintro ⟨c, hc, heq⟩
      have hfound := h.labelled.fragments.2 ⟨hgraph.roots_lt c hc, heq⟩
      rw [internFragment_of_some hfound]
      exact hc
  have hroot := (hintern.wellFormed.addRoot hlt).1
  have hadded : ((graph.internFragment fragment.name).1.addRoot (graph.internFragment fragment.name).2).roots =
      graph.roots ++ if fragment.name ∈ defined then [] else [(graph.internFragment fragment.name).2] := by
    rw [roots_addRoot, hroots]
    simp only [hold]
    split
    · rw [List.append_nil]
    · rfl
  have hnew : ∀ c ∈ if fragment.name ∈ defined then [] else [(graph.internFragment fragment.name).2],
      c = (graph.internFragment fragment.name).2 := by
    intro c hc
    split at hc
    · cases hc
    · exact List.mem_singleton.1 hc
  have hrooted := h.insertAll hgraph (hintern.trans hroot) hkeeps (hlabelled.addRoot _) (hroot.grows.lt_size hlt)
    hadded hnew hmem
    (fun i hi => by rw [hcontent]; exact ⟨_, fragment, hmem, rfl, hi⟩)
    fun first selections heq => by rw [hcontent] at heq; cases heq
  rw [apply_ite (List.map content'), List.map_singleton, List.map_nil, hcontent] at hrooted
  exact hrooted

/-- Adding definitions one after the other adds the roots that stand for them. -/
theorem foldl_define_rooted (schema : Schema) (definitions later : List Definition) {contents : List Content}
    {defined : List Name} (h : graph.Rooted schema definitions contents content) (hgraph : graph.WellFormed)
    (hdefined : ∀ name, name ∈ defined ↔ .fragment name ∈ contents)
    (hlater : ∀ entry ∈ numberedFrom graph.fields.size later, entry ∈ numberedFrom 0 definitions) :
    ∃ content', (later.foldl (define schema) graph).Rooted schema definitions
      (contents ++ rootsFrom graph.fields.size defined later) content' := by
  induction later generalizing graph content contents defined with
  | nil => exact ⟨content, by simpa [rootsFrom] using h⟩
  | cons definition later ih =>
    have hmem := hlater _ (.head _)
    have hadds := (define_adds schema definition hgraph).1
    have hsize := hadds.size_eq
    rw [length_occurrencesIn] at hsize
    have hnext : ∀ entry ∈ numberedFrom (graph.define schema definition).fields.size later,
        entry ∈ numberedFrom 0 definitions := by
      intro entry hentry
      rw [hsize] at hentry
      exact hlater entry (.tail _ hentry)
    cases definition with
    | operation operation =>
      obtain ⟨content', hrooted⟩ := h.operation hgraph hmem
      have hdefined' : ∀ name, name ∈ defined ↔
          .fragment name ∈ contents ++ [.selections graph.fields.size operation.selections] := by
        simp [hdefined]
      obtain ⟨content'', hrooted'⟩ := ih hrooted hadds.wellFormed hdefined' hnext
      refine ⟨content'', ?_⟩
      rw [hsize, List.append_assoc] at hrooted'
      exact hrooted'
    | fragment fragment =>
      obtain ⟨content', hrooted⟩ := h.fragment hgraph hdefined hmem
      unfold rootsFrom
      by_cases hold : fragment.name ∈ defined
      · rw [if_pos hold, List.append_nil] at hrooted
        rw [if_pos hold]
        obtain ⟨content'', hrooted'⟩ := ih hrooted hadds.wellFormed hdefined hnext
        rw [hsize] at hrooted'
        exact ⟨content'', hrooted'⟩
      · rw [if_neg hold] at hrooted ⊢
        have hdefined' : ∀ name, name ∈ fragment.name :: defined ↔
            .fragment name ∈ contents ++ [.fragment fragment.name] := by
          simp [hdefined, or_comm]
        obtain ⟨content'', hrooted'⟩ := ih hrooted hadds.wellFormed hdefined' hnext
        rw [hsize, List.append_assoc] at hrooted'
        exact ⟨content'', hrooted'⟩
    | typeSystem definition => exact ih h hgraph hdefined hnext

/-- The graph of a document has a labelling for which its roots stand for those of the document. -/
theorem exists_rooted (h : ofDocument schema definitions = .ok graph) :
    ∃ content, graph.Rooted schema definitions (documentRoots definitions) content := by
  rw [ofDocument_eq] at h
  obtain rfl := Except.ok.inj h
  have hcontainer : ∀ c, empty.container c = Container.empty := fun c => container_eq_empty (Nat.zero_le c)
  have hempty : empty.Rooted schema definitions [] fun _ => .selections 0 [] := by
    refine ⟨⟨⟨?_, ?_, nofun⟩, ?_⟩, rfl, nofun⟩
    · intro c i hi
      simp [hcontainer, Container.empty] at hi
    · intro a b i hab
      simp [Spreads, hcontainer, Container.empty] at hab
    · simp [fragment?, empty]
  have hnone : ∀ name, name ∈ ([] : List Name) ↔ Content.fragment name ∈ ([] : List Content) := by simp
  exact foldl_define_rooted schema definitions definitions hempty wellFormed_empty hnone fun _ => id

end Definitions

end SelectionGraph

end SelectionMerge
