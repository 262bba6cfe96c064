import Mathlib.Data.Finset.Dedup
import SelectionMerge.Proofs.Reach.Run

/-!
# What resolving closes

A root is resolved by a worklist: each container that is not visited yet is searched from, and
the sub-selections that its search comes to are put on the list. Each turn takes one container
off the list, and each search closes at least one container for good, so the turns suffice
(`Pending.resolveFrom`). The main statement is `resolve_roots_closes`: after any roots in any
order, the containers closed are those that the roots lead to, and each lists what it reaches,
also on cycles.
-/

namespace SelectionMerge
set_option autoImplicit false

namespace SelectionGraph

variable {graph : SelectionGraph} {marks : Marks}

theorem mem_nestedIn {ids : List ContainerId} {b : ContainerId} :
    b ∈ graph.nestedIn ids ↔ ∃ a ∈ ids, graph.Nests a b := by
  simp only [nestedIn, List.mem_flatMap, List.mem_filterMap, Nests]

/-- A worklist grows by no more than the fields of the graph. -/
theorem length_nestedIn_le {ids : List ContainerId} (hnodup : ids.Nodup)
    (hlt : ∀ c ∈ ids, c < graph.containers.size) :
    (graph.nestedIn ids).length ≤ graph.total fun c => c.fields.length := by
  have hle : (graph.nestedIn ids).length ≤ (ids.map fun c => (graph.container c).fields.length).sum := by
    unfold nestedIn
    rw [List.length_flatMap]
    exact List.sum_le_sum fun c _ => List.length_filterMap_le _ _
  have hsubset : ids.toFinset ⊆ Finset.range graph.containers.size := by
    intro c hc
    exact Finset.mem_range.2 (hlt c (List.mem_toFinset.1 hc))
  rw [← sum_containers graph fun c => c.fields.length]
  apply hle.trans
  rw [← List.sum_toFinset _ hnodup]
  exact Finset.sum_le_sum_of_subset hsubset

/-- A worklist has all that is still to be closed: the sub-selections of closed containers are
closed or on the list. -/
structure Pending (graph : SelectionGraph) (marks : Marks) (worklist : List ContainerId) : Prop where
  settled : marks.Settled graph
  inRange : ∀ c ∈ worklist, c < graph.containers.size
  nests : ∀ {a b}, marks.IsClosed a → graph.Nests a b → marks.IsClosed b ∨ b ∈ worklist

/-- The containers that were not visited. -/
def unvisited (graph : SelectionGraph) (marks : Marks) : Finset ContainerId :=
  (Finset.range graph.containers.size).filter fun c => marks.get c = .unvisited

/-- The turns that a worklist can still take. -/
def budget (graph : SelectionGraph) (marks : Marks) (worklist : List ContainerId) : Nat :=
  worklist.length + (graph.unvisited marks).card * graph.total fun c => c.fields.length

/-- The sub-selections that a search from `id` puts on the worklist. -/
def found (graph : SelectionGraph) (after : Marks) (id : ContainerId) : List ContainerId :=
  ((graph.nestedIn (after.reach id)).filter after.isUnvisited).reverse

/-- A search finds the unvisited sub-selections of what it reached. -/
theorem mem_found {after : Marks} (hafter : after.Settled graph) {id b : ContainerId}
    (hid : after.IsClosed id) :
    b ∈ graph.found after id ↔ (∃ a, graph.Reaches id a ∧ graph.Nests a b) ∧ after.get b = .unvisited := by
  obtain ⟨reached, hget⟩ := hid
  rw [found, List.mem_reverse, List.mem_filter, mem_nestedIn, Marks.isUnvisited_iff, Marks.reach_eq hget]
  simp only [(hafter.exact hget).2]

theorem length_found_le (range : graph.InRange) {after : Marks} (hafter : after.Settled graph)
    {id : ContainerId} (hlt : id < graph.containers.size) (hid : after.IsClosed id) :
    (graph.found after id).length ≤ graph.total fun c => c.fields.length := by
  obtain ⟨reached, hget⟩ := hid
  obtain ⟨hsorted, hreached⟩ := hafter.exact hget
  rw [found, List.length_reverse, Marks.reach_eq hget]
  refine (List.length_filter_le _ _).trans (length_nestedIn_le (hsorted.imp Nat.ne_of_lt) ?_)
  exact fun c hc => ((hreached c).1 hc).lt_size range hlt

/-- Closing one more container leaves fewer unvisited. -/
theorem card_unvisited_lt {after : Marks} (hsettled : marks.Settled graph)
    (hmono : ∀ c, marks.IsClosed c → after.IsClosed c) {id : ContainerId}
    (hid : id < graph.containers.size) (hun : marks.get id = .unvisited) (hclosed : after.IsClosed id) :
    (graph.unvisited after).card < (graph.unvisited marks).card := by
  refine Finset.card_lt_card ⟨fun c hc => ?_, fun hsubset => ?_⟩
  · obtain ⟨hlt, hc⟩ := Finset.mem_filter.1 hc
    refine Finset.mem_filter.2 ⟨hlt, ?_⟩
    rcases marks.trichotomy c with h | h | h
    · exact h
    · exact absurd h (hsettled.quiet c)
    · exact absurd hc (hmono c h).visited
  · have hmem := hsubset (Finset.mem_filter.2 ⟨Finset.mem_range.2 hid, hun⟩)
    exact hclosed.visited (Finset.mem_filter.1 hmem).2

namespace Pending

variable {id : ContainerId} {worklist : List ContainerId}

/-- An item that is closed already is passed over. -/
theorem skip (h : Pending graph marks (id :: worklist)) (hid : marks.IsClosed id) :
    Pending graph marks worklist where
  settled := h.settled
  inRange c hc := h.inRange c (.tail _ hc)
  nests ha hab := by
    rcases h.nests ha hab with hb | hb
    · exact .inl hb
    · rcases List.mem_cons.1 hb with rfl | hb
      · exact .inl hid
      · exact .inr hb

/-- An item that is not visited is searched from, and what the search finds is put on the list. -/
theorem search (h : Pending graph marks (id :: worklist)) (range : graph.InRange)
    (hun : marks.get id = .unvisited) :
    Pending graph (graph.connect graph.searchMoves marks id)
      (graph.found (graph.connect graph.searchMoves marks id) id ++ worklist) := by
  obtain ⟨hafter, hclosed⟩ := connect_closes range.spreads h.settled (h.inRange id (.head _)) hun
  generalize graph.connect graph.searchMoves marks id = after at hafter hclosed ⊢
  have hid : after.IsClosed id := (hclosed id).2 (.inr (.refl id))
  refine ⟨hafter, fun c hc => ?_, fun {a b} ha hab => ?_⟩
  · rcases List.mem_append.1 hc with hc | hc
    · obtain ⟨⟨a, -, hnest⟩, -⟩ := (mem_found hafter hid).1 hc
      exact range.nests hnest
    · exact h.inRange c (.tail _ hc)
  · rcases after.trichotomy b with hb | hb | hb
    · right
      rcases (hclosed a).1 ha with ha | ha
      · rcases h.nests ha hab with hb' | hb'
        · exact absurd hb ((hclosed b).2 (.inl hb')).visited
        · rcases List.mem_cons.1 hb' with rfl | hb'
          · exact absurd hb hid.visited
          · exact List.mem_append_right _ hb'
      · exact List.mem_append_left _ ((mem_found hafter hid).2 ⟨⟨a, ha, hab⟩, hb⟩)
    · exact absurd hb (hafter.quiet b)
    · exact .inl hb

/-- Searching from an item uses up more turns than what it finds can take. -/
theorem budget_search (h : Pending graph marks (id :: worklist)) (range : graph.InRange)
    (hun : marks.get id = .unvisited) :
    graph.budget (graph.connect graph.searchMoves marks id)
      (graph.found (graph.connect graph.searchMoves marks id) id ++ worklist) <
    graph.budget marks (id :: worklist) := by
  have hlt := h.inRange id (.head _)
  obtain ⟨hafter, hclosed⟩ := connect_closes range.spreads h.settled hlt hun
  have hid := (hclosed id).2 (.inr (.refl id))
  have hfound := length_found_le range hafter hlt hid
  have hcard := card_unvisited_lt h.settled (fun c hc => (hclosed c).2 (.inl hc)) hlt hun hid
  have hmul := Nat.mul_le_mul_right (graph.total fun c => c.fields.length) hcard
  rw [Nat.succ_mul] at hmul
  simp only [budget, List.length_append, List.length_cons]
  omega

end Pending

/-- What the turns of a worklist come to: all that was on it is closed, and all that is closed
was so before or is led to from the list. -/
structure Emptied (graph : SelectionGraph) (marks : Marks) (worklist : List ContainerId)
    (after : Marks) : Prop where
  pending : Pending graph after []
  closes : ∀ c, marks.IsClosed c ∨ c ∈ worklist → after.IsClosed c
  leads : ∀ c, after.IsClosed c → marks.IsClosed c ∨ ∃ start ∈ worklist, graph.LeadsTo start c

/-- Turns enough empty a worklist. -/
theorem Pending.resolveFrom (range : graph.InRange) (turns : Nat) {worklist : List ContainerId}
    (h : Pending graph marks worklist) (hturns : graph.budget marks worklist ≤ turns) :
    Emptied graph marks worklist (graph.resolveFrom graph.searchMoves turns worklist marks) := by
  induction turns generalizing worklist marks with
  | zero =>
    have hnil : worklist = [] := List.eq_nil_of_length_eq_zero (by unfold budget at hturns; omega)
    subst hnil
    exact ⟨h, fun c hc => hc.resolve_right List.not_mem_nil, fun c hc => .inl hc⟩
  | succ turns ih =>
    cases worklist with
    | nil => exact ⟨h, fun c hc => hc.resolve_right List.not_mem_nil, fun c hc => .inl hc⟩
    | cons id worklist =>
      unfold SelectionGraph.resolveFrom
      split
      next hun =>
        have hun := Marks.isUnvisited_iff.1 hun
        have hless := h.budget_search range hun
        obtain ⟨hafter, hclosed⟩ := connect_closes range.spreads h.settled (h.inRange id (.head _)) hun
        have hid := (hclosed id).2 (.inr (.refl id))
        have hrest := ih (h.search range hun) (by omega)
        refine ⟨hrest.pending, fun c hc => ?_, fun c hc => ?_⟩
        · rcases hc with hc | hc
          · exact hrest.closes c (.inl ((hclosed c).2 (.inl hc)))
          · rcases List.mem_cons.1 hc with rfl | hc
            · exact hrest.closes c (.inl hid)
            · exact hrest.closes c (.inr (List.mem_append_right _ hc))
        · rcases hrest.leads c hc with hc | ⟨start, hstart, hpath⟩
          · rcases (hclosed c).1 hc with hc | hc
            · exact .inl hc
            · exact .inr ⟨id, .head _, hc.leadsTo⟩
          · rcases List.mem_append.1 hstart with hstart | hstart
            · obtain ⟨⟨a, hreach, hnest⟩, -⟩ := (mem_found hafter hid).1 hstart
              exact .inr ⟨id, .head _, (hreach.leadsTo.tail (.inr hnest)).trans hpath⟩
            · exact .inr ⟨start, .tail _ hstart, hpath⟩
      next hvisited =>
        have hid := h.settled.isClosed_of_visited hvisited
        have hrest := ih (h.skip hid) (by simp only [budget, List.length_cons] at hturns ⊢; omega)
        refine ⟨hrest.pending, fun c hc => hrest.closes c ?_, fun c hc => ?_⟩
        · rcases hc with hc | hc
          · exact .inl hc
          · rcases List.mem_cons.1 hc with rfl | hc
            · exact .inl hid
            · exact .inr hc
        · rcases hrest.leads c hc with hc | ⟨start, hstart, hpath⟩
          · exact .inl hc
          · exact .inr ⟨start, .tail _ hstart, hpath⟩

/-- A root can be put on an empty worklist. -/
theorem Pending.root (h : Pending graph marks []) {root : ContainerId} (hroot : root < graph.containers.size) :
    Pending graph marks [root] := by
  refine ⟨h.settled, fun c hc => List.mem_singleton.1 hc ▸ hroot, fun ha hab => ?_⟩
  exact .inl ((h.nests ha hab).resolve_right List.not_mem_nil)

/-- One root takes no more turns than `resolve` has. -/
theorem budget_root_le {root : ContainerId} : graph.budget marks [root] ≤ graph.resolveTurns := by
  have hcard : (graph.unvisited marks).card ≤ (Finset.range graph.containers.size).card :=
    Finset.card_filter_le _ _
  rw [Finset.card_range] at hcard
  have hmul := Nat.mul_le_mul_right (graph.total fun c => c.fields.length) hcard
  simp only [budget, resolveTurns, List.length_cons, List.length_nil]
  omega

/-- Resolving a root closes it and what it leads to. -/
theorem Pending.resolve (range : graph.InRange) (h : Pending graph marks []) {root : ContainerId}
    (hroot : root < graph.containers.size) : Emptied graph marks [root] (graph.resolve marks root) :=
  (h.root hroot).resolveFrom range graph.resolveTurns budget_root_le

/-- No container visited. -/
def unresolved (graph : SelectionGraph) : Marks :=
  graph.containers.map fun _ => .unvisited

theorem get_unresolved (graph : SelectionGraph) (c : ContainerId) : graph.unresolved.get c = .unvisited := by
  unfold unresolved Marks.get
  rw [Array.getElem?_map]
  cases graph.containers[c]? <;> rfl

theorem pending_unresolved (graph : SelectionGraph) : Pending graph graph.unresolved [] := by
  have hopen : ∀ c, ¬ graph.unresolved.IsOpen c := by
    rintro c ⟨order, lowest, h⟩
    cases (get_unresolved graph c).symm.trans h
  have hclosed : ∀ c, ¬ graph.unresolved.IsClosed c := fun c h => h.visited (get_unresolved graph c)
  refine ⟨⟨Array.size_map, hopen, fun ha => absurd ha (hclosed _), fun h => ?_⟩,
    fun c hc => absurd hc List.not_mem_nil, fun ha => absurd ha (hclosed _)⟩
  exact absurd ⟨_, h⟩ (hclosed _)

/-- After roots are resolved one after the other nothing is pending, and what is closed is what
they lead to. -/
theorem foldl_resolve (range : graph.InRange) (roots : List ContainerId) (h : Pending graph marks [])
    (hroots : ∀ root ∈ roots, root < graph.containers.size) :
    Emptied graph marks roots (roots.foldl graph.resolve marks) := by
  induction roots generalizing marks with
  | nil => exact ⟨h, fun c hc => hc.resolve_right List.not_mem_nil, fun c hc => .inl hc⟩
  | cons root roots ih =>
    have hfirst := h.resolve range (hroots root (.head _))
    have hrest := ih hfirst.pending fun c hc => hroots c (.tail _ hc)
    refine ⟨hrest.pending, fun c hc => hrest.closes c ?_, fun c hc => ?_⟩
    · rcases hc with hc | hc
      · exact .inl (hfirst.closes c (.inl hc))
      · rcases List.mem_cons.1 hc with rfl | hc
        · exact .inl (hfirst.closes c (.inr (.head _)))
        · exact .inr hc
    · rcases hrest.leads c hc with hc | ⟨start, hstart, hpath⟩
      · rcases hfirst.leads c hc with hc | ⟨start, hstart, hpath⟩
        · exact .inl hc
        · exact .inr ⟨root, .head _, List.mem_singleton.1 hstart ▸ hpath⟩
      · exact .inr ⟨start, .tail _ hstart, hpath⟩

/-- The marks after roots are resolved one after the other. -/
def marksAfter (graph : SelectionGraph) (roots : List ContainerId) : Marks :=
  roots.foldl graph.resolve graph.unresolved

/-- A graph is resolved from its roots if the marks that it was built with are those of no visit. -/
theorem marks_resolved (h : graph.resolution = Array.replicate graph.containers.size .unvisited) :
    graph.resolved.marks = graph.marksAfter graph.roots := by
  have hunresolved : graph.unresolved = Array.replicate graph.containers.size .unvisited := Array.map_const' ..
  unfold resolved marksAfter
  rw [h, hunresolved]

/-- What roots lead to is closed by the time they are resolved. -/
theorem isClosed_marksAfter_iff (range : graph.InRange) {roots : List ContainerId}
    (hroots : ∀ root ∈ roots, root < graph.containers.size) (c : ContainerId) :
    (graph.marksAfter roots).IsClosed c ↔ ∃ root ∈ roots, graph.LeadsTo root c := by
  have h := foldl_resolve range roots (pending_unresolved graph) hroots
  constructor
  · intro hc
    exact (h.leads c hc).resolve_left fun hclosed => hclosed.visited (get_unresolved graph c)
  · rintro ⟨root, hroot, hpath⟩
    have hclosed := h.closes root (.inr hroot)
    induction hpath with
    | refl => exact hclosed
    | tail _ hstep ih =>
      rcases hstep with hspread | hnest
      · exact h.pending.settled.onward ih hspread
      · exact (h.pending.nests ih hnest).resolve_right List.not_mem_nil

/-- What is closed once roots are resolved lists what it reaches, in ascending order. -/
theorem reach_marksAfter (range : graph.InRange) {roots : List ContainerId}
    (hroots : ∀ root ∈ roots, root < graph.containers.size) {c : ContainerId}
    (hc : (graph.marksAfter roots).IsClosed c) :
    ((graph.marksAfter roots).reach c).Pairwise (· < ·) ∧
      ∀ x, x ∈ (graph.marksAfter roots).reach c ↔ graph.Reaches c x := by
  have h := foldl_resolve range roots (pending_unresolved graph) hroots
  obtain ⟨reached, hget⟩ := hc
  rw [Marks.reach_eq hget]
  exact h.pending.settled.exact hget

/-- **Closure.** After any roots are resolved in any order, no container is open; those that are
closed are the ones that the roots lead to; and each of them has the ascending list of the
containers that it reaches by spreads. -/
theorem resolve_roots_closes (graph : SelectionGraph) (range : graph.InRange) (roots : List ContainerId)
    (hroots : ∀ root ∈ roots, root < graph.containers.size) :
    (∀ c, ¬ (graph.marksAfter roots).IsOpen c) ∧
    (∀ c, (graph.marksAfter roots).IsClosed c ↔ ∃ root ∈ roots, graph.LeadsTo root c) ∧
    ∀ c, (graph.marksAfter roots).IsClosed c →
      ((graph.marksAfter roots).reach c).Pairwise (· < ·) ∧
      ∀ x, x ∈ (graph.marksAfter roots).reach c ↔ graph.Reaches c x := by
  refine ⟨?_, isClosed_marksAfter_iff range hroots, fun c hc => reach_marksAfter range hroots hc⟩
  exact (foldl_resolve range roots (pending_unresolved graph) hroots).pending.settled.quiet

/-- Three containers spread in a ring. A field in the second has sub-selections that spread back
into the ring and to a fifth container, which spreads to itself. -/
def ring : SelectionGraph where
  containers := #[⟨[], [1]⟩, ⟨[0], [2, 2]⟩, ⟨[], [0]⟩, ⟨[], [1, 4]⟩, ⟨[], [4]⟩]
  resolution := Array.replicate 5 .unvisited
  fields := #[⟨⟨none, ⟨"next", by decide⟩, [], none⟩, none, none, some 3⟩]
  roots := [4, 2]
  fragments := []

/-- Resolving the self-spread first and the ring from its last container closes all five, and the
sub-selections reach both circles. -/
theorem ring_resolve_closes :
    ring.InRange ∧ (∀ root ∈ ring.roots, root < ring.containers.size) ∧
    (ring.marksAfter ring.roots).reach 3 = [0, 1, 2, 3, 4] ∧ ring.Reaches 3 0 ∧ ¬ ring.Reaches 0 3 := by
  have range : ring.InRange := by
    apply inRange_of_forall
    intro c hc
    revert c
    decide
  have hroots : ∀ root ∈ ring.roots, root < ring.containers.size := by decide
  obtain ⟨-, -, hreach⟩ := resolve_roots_closes ring range ring.roots hroots
  have hfirst : (ring.marksAfter ring.roots).reach 0 = [0, 1, 2] := by decide +kernel
  have hlast : (ring.marksAfter ring.roots).reach 3 = [0, 1, 2, 3, 4] := by decide +kernel
  refine ⟨range, hroots, hlast, ?_, fun h => ?_⟩
  · rw [← (hreach 3 ⟨[0, 1, 2, 3, 4], by decide +kernel⟩).2 0, hlast]
    decide
  · rw [← (hreach 0 ⟨[0, 1, 2], by decide +kernel⟩).2 3, hfirst] at h
    exact absurd h (by decide)

end SelectionGraph

end SelectionMerge
