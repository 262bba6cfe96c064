import Mathlib.Data.List.Chain
import SelectionMerge.Proofs.Reach.Turns

/-!
# A search closes strongly connected components

What shows of a search between two moves, whatever was closed before it and with whatever lists:
the containers in progress are those on the stack, in the order of their numbers, and the calls are
a path of spreads through them (`InOrder`). A call that ends with its own number as the lowest takes
a strongly connected component from the stack (`Pops`). The main statement is
`search_closes_components`: this holds of every iteration of a search, and the last one leaves
nothing on either stack.
-/

namespace SelectionMerge
set_option autoImplicit false

/-- Spreads lead from each of the two containers to the other. The containers of which this holds
with `a` are its strongly connected component. -/
def SelectionGraph.SameComponent (graph : SelectionGraph) (a b : ContainerId) : Prop :=
  graph.Reaches a b ∧ graph.Reaches b a

namespace Marks

variable {marks : Marks}

/-- The lowest number of a container is no higher than its own. `Call` says so of the calls; of the
containers that ended calls leave on the stack it holds because no move raises a lowest number. -/
def Capped (marks : Marks) : Prop :=
  ∀ c, marks.lowest c ≤ marks.order c

theorem Capped.of_quiet (hquiet : ∀ c, ¬ marks.IsOpen c) : marks.Capped := by
  intro c
  rcases marks.trichotomy c with hc | hc | ⟨reached, hc⟩
  · simp only [lowest, order, hc, Nat.le_refl]
  · exact absurd hc (hquiet c)
  · simp only [lowest, order, hc, Nat.le_refl]

theorem Capped.of_get {after : Marks} (h : marks.Capped)
    (hget : ∀ c, after.get c = marks.get c ∨ after.lowest c ≤ after.order c) : after.Capped := by
  intro c
  obtain hsame | hle := hget c
  · rw [lowest_congr hsame, order_congr hsame]
    exact h c
  · exact hle

theorem Capped.opened (h : marks.Capped) {id : ContainerId} (hid : id < marks.size) (n : Nat) :
    Capped (marks.setIfInBounds id (.opened n n)) := by
  refine h.of_get fun c => ?_
  have hget := get_set hid (.opened n n) c
  by_cases heq : id = c
  · rw [if_pos heq] at hget
    exact .inr (Nat.le_of_eq ((lowest_eq hget).trans (order_eq hget).symm))
  · exact .inl (hget.trans (if_neg heq))

theorem Capped.lower (h : marks.Capped) {id : ContainerId} (hid : marks.IsOpen id) (bound : Nat) :
    (marks.lower id bound).Capped := by
  refine h.of_get fun c => ?_
  by_cases heq : id = c
  · subst heq
    rw [lowest_lower hid, order_lower hid]
    exact .inr (Nat.le_trans (Nat.min_le_left _ _) (h id))
  · exact .inl ((get_lower hid bound c).trans (if_neg heq))

theorem Capped.close (h : marks.Capped) {members : List ContainerId}
    (hmembers : ∀ m ∈ members, m < marks.size) (reached : List ContainerId) :
    (marks.close members reached).Capped := by
  refine h.of_get fun c => ?_
  have hget := get_close hmembers reached c
  by_cases hmem : c ∈ members
  · rw [if_pos hmem] at hget
    exact .inr (by simp only [lowest, order, hget, Nat.le_refl])
  · exact .inl (hget.trans (if_neg hmem))

end Marks

namespace Search

variable {graph : SelectionGraph} {search : Search}

/-- No move puts the lowest number of a container above its own. -/
theorem Invariant.capped_move (h : search.Invariant graph) (range : graph.SpreadsInRange)
    (capped : search.marks.Capped) {after : Search} (move : Move graph search after) :
    after.marks.Capped := by
  cases move with
  | visit hcalls htarget =>
    exact capped.opened (h.size ▸ range (h.spreads hcalls)) search.next
  | learn hcalls htarget => exact capped.lower (h.isOpen_of_calls hcalls) _
  | pass hcalls htarget => exact capped
  | back hcalls hlowest => exact capped.lower (h.isOpen_caller hcalls) _
  | complete hcalls hlowest =>
    obtain ⟨left, below, component⟩ := Component.of_calls h hcalls hlowest
    rw [component.complete_eq]
    exact capped.close (fun _ => component.lt_size) _

/-- Each call is on a container that its caller spreads to. -/
theorem Stacked.isChain {marks : Marks} {calls : List (ContainerId × List ContainerId)}
    {opened : List ContainerId} (h : Stacked graph marks calls opened) :
    (calls.map Prod.fst).IsChain fun callee caller => graph.Spreads caller callee := by
  induction h with
  | nil => exact .nil
  | @call id later callers left below top rest ih =>
    refine List.isChain_cons.2 ⟨fun caller hcaller => ?_, ih⟩
    rw [List.head?_map] at hcaller
    obtain ⟨call, hcall, rfl⟩ := Option.mem_map.1 hcaller
    exact top.caller call hcall

/-- The containers of the calls stand on the stack in the order of the calls. -/
theorem Stacked.sublist {marks : Marks} {calls : List (ContainerId × List ContainerId)}
    {opened : List ContainerId} (h : Stacked graph marks calls opened) :
    (calls.map Prod.fst).Sublist opened := by
  induction h with
  | nil => exact .slnil
  | @call id later callers left below top rest ih =>
    exact (ih.cons_cons id).trans (List.sublist_append_right left _)

/-- What the stacks of a search look like between two moves. -/
structure InOrder (graph : SelectionGraph) (search : Search) : Prop where
  opened : ∀ c, c ∈ search.opened ↔ search.marks.IsOpen c
  nodup : search.opened.Nodup
  /-- The numbers grow from the bottom of the stack to its top. -/
  sorted : search.opened.Pairwise fun upper lower => search.marks.order lower < search.marks.order upper
  /-- The calls are a path of spreads. -/
  path : (search.calls.map Prod.fst).IsChain fun callee caller => graph.Spreads caller callee
  /-- The path goes up the stack. -/
  inside : (search.calls.map Prod.fst).Sublist search.opened
  lowest_le : ∀ c ∈ search.opened, search.marks.lowest c ≤ search.marks.order c

theorem Invariant.inOrder (h : search.Invariant graph) (capped : search.marks.Capped) :
    search.InOrder graph where
  opened := h.opened
  nodup := h.nodup
  sorted := h.sorted
  path := h.stacked.isChain
  inside := h.stacked.sublist
  lowest_le c _ := capped c

/-- The next move takes `members` from the stack and closes them. They are the strongly connected
component of `id`, and what they spread to outside of it is closed already. -/
structure Pops (graph : SelectionGraph) (search : Search) (id : ContainerId) (members : List ContainerId) :
    Prop where
  opened : search.opened = members ++ (search.step graph).opened
  component : ∀ c, c ∈ members ↔ graph.SameComponent id c
  beyond : ∀ m ∈ members, ∀ target, graph.Spreads m target → ¬ graph.SameComponent id target →
    search.marks.IsClosed target
  closes : ∀ m ∈ members, (search.step graph).marks.IsClosed m

/-- The containers down to `id` are its strongly connected component. -/
theorem Component.mem_iff {id : ContainerId} {callers : List (ContainerId × List ContainerId)}
    {left below : List ContainerId} (h : Component graph search id callers left below) (c : ContainerId) :
    c ∈ left ++ [id] ↔ graph.SameComponent id c := by
  have hid : id ∈ left ++ [id] := List.mem_append_right _ (.head _)
  constructor
  · intro hc
    exact ⟨h.reaches_of_root hc, h.reaches_root hc⟩
  · rintro ⟨hto, hback⟩
    obtain hmem | hclosed := h.within hid hto
    · exact hmem
    · -- From what is closed nothing leads back to a container in progress.
      exact absurd (Marks.Onward.isClosed h.invariant.onward hclosed hback) (h.isOpen hid).not_isClosed

/-- A call that ends with its own number as the lowest completes a component. -/
theorem Invariant.step_eq_complete (h : search.Invariant graph) {id : ContainerId}
    {callers : List (ContainerId × List ContainerId)} (hcalls : search.calls = (id, []) :: callers)
    (hlowest : search.marks.lowest id = search.marks.order id) :
    search.step graph = { search with calls := callers }.complete graph id := by
  have move := h.step_move (by rw [hcalls]; exact List.cons_ne_nil _ _)
  generalize search.step graph = after at move
  cases move with
  | visit hcalls' _ => cases hcalls.symm.trans hcalls'
  | learn hcalls' _ => cases hcalls.symm.trans hcalls'
  | pass hcalls' _ => cases hcalls.symm.trans hcalls'
  | back hcalls' hlt =>
    cases hcalls.symm.trans hcalls'
    omega
  | complete hcalls' _ =>
    cases hcalls.symm.trans hcalls'
    rfl

/-- What is popped when a call ends with its own number as the lowest. -/
theorem Invariant.pops (h : search.Invariant graph) {id : ContainerId}
    {callers : List (ContainerId × List ContainerId)} (hcalls : search.calls = (id, []) :: callers)
    (hlowest : search.marks.lowest id = search.marks.order id) : ∃ members, Pops graph search id members := by
  obtain ⟨left, below, component⟩ := Component.of_calls h hcalls hlowest
  have hstep := (h.step_eq_complete hcalls hlowest).trans component.complete_eq
  refine ⟨left ++ [id], ?_, component.mem_iff, fun m hm target hspread hout => ?_, fun m hm => ?_⟩
  · rw [hstep, component.opened, List.append_cons]
  · obtain hmem | hclosed := component.spreads_within hm hspread
    · exact absurd ((component.mem_iff target).1 hmem) hout
    · exact hclosed
  · rw [hstep]
    exact ⟨_, (component.get_close _ m).trans (if_pos hm)⟩

/-- The search that begins with the call on `start`, after so many moves. -/
def iteration (graph : SelectionGraph) (marks : Marks) (start : ContainerId) (moves : Nat) : Search :=
  (Search.step graph)^[moves] (Search.visit graph ⟨marks, 0, [], []⟩ start)

theorem iteration_invariant {marks : Marks} (range : graph.SpreadsInRange)
    (hidle : Numbered graph ⟨marks, 0, [], []⟩) {start : ContainerId}
    (hstart : start < graph.containers.size) (hun : marks.get start = .unvisited) (moves : Nat) :
    (iteration graph marks start moves).Invariant graph ∧ (iteration graph marks start moves).marks.Capped := by
  have hcapped : marks.Capped := .of_quiet fun c hc => List.not_mem_nil ((hidle.opened c).2 hc)
  have hfirst : (Search.visit graph ⟨marks, 0, [], []⟩ start).marks.Capped :=
    hcapped.opened (hidle.size ▸ hstart) 0
  exact (hidle.start hstart hun).iterate (P := fun search => search.marks.Capped) range hfirst
    (fun hinv hcapped move => hinv.capped_move range hcapped move) moves

end Search

namespace SelectionGraph

open Search

variable {graph : SelectionGraph} {marks : Marks}

/-- **Components.** Let no container be in progress and nothing closed spread to what is not. Then
in every iteration of a search from a container that was not visited, the stacks are in order; a
call that ends with its own number as the lowest pops its strongly connected component, whose other
spreads lead to containers closed before; and once no call is left, the stack is empty and nothing
is in progress. The search comes to that, with the marks that `connect` gives. -/
theorem search_closes_components (range : graph.SpreadsInRange) (hsize : marks.size = graph.containers.size)
    (hrest : ∀ c, marks.get c = .unvisited ∨ marks.IsClosed c) (honward : marks.Onward graph)
    {start : ContainerId} (hstart : start < graph.containers.size) (hun : marks.get start = .unvisited) :
    (∀ moves, (iteration graph marks start moves).InOrder graph) ∧
    (∀ moves id callers, (iteration graph marks start moves).calls = (id, []) :: callers →
      (iteration graph marks start moves).marks.lowest id = (iteration graph marks start moves).marks.order id →
      ∃ members, Pops graph (iteration graph marks start moves) id members) ∧
    (∀ moves, (iteration graph marks start moves).calls = [] →
      (iteration graph marks start moves).opened = [] ∧
      ∀ c, ¬ (iteration graph marks start moves).marks.IsOpen c) ∧
    ∃ moves, (iteration graph marks start moves).calls = [] ∧
      (iteration graph marks start moves).marks = graph.connect graph.searchMoves marks start := by
  have hquiet : ∀ c, ¬ marks.IsOpen c := by
    intro c hopen
    obtain hc | hc := hrest c
    · exact hopen.visited hc
    · exact hopen.not_isClosed hc
  have hidle := Numbered.idle hsize hquiet honward
  have hinv := iteration_invariant range hidle hstart hun
  refine ⟨fun moves => (hinv moves).1.inOrder (hinv moves).2, fun moves id callers => (hinv moves).1.pops,
    fun moves hcalls => ⟨(hinv moves).1.opened_eq_nil hcalls, (hinv moves).1.quiet hcalls⟩, ?_⟩
  obtain ⟨last, ⟨⟨moves, rfl⟩, hcalls⟩, hmarks⟩ := connect_halts range hidle hstart hun
  exact ⟨moves, hcalls, hmarks⟩

/-- Of `ring`, only the container that spreads to itself is closed. -/
def loopClosed : Marks :=
  #[.unvisited, .unvisited, .unvisited, .unvisited, .closed [4]]

/-- A search from the sub-selections goes around the ring and comes back to its first container,
which pops the three of the ring and leaves the sub-selections on the stack. They spread to the
closed container too, and three more moves leave nothing. -/
theorem ring_popped_as_component :
    ring.SpreadsInRange ∧ loopClosed.Onward ring ∧
    (iteration ring loopClosed 3 7).calls = [(1, []), (3, [4])] ∧
    (iteration ring loopClosed 3 7).InOrder ring ∧
    Pops ring (iteration ring loopClosed 3 7) 1 [0, 2, 1] ∧
    (iteration ring loopClosed 3 10).opened = [] := by
  have range : ring.InRange := by
    apply inRange_of_forall
    intro c hc
    revert c
    decide
  have hget : ∀ c, loopClosed.get c = if c = 4 then .closed [4] else .unvisited := by
    intro c
    rcases c with _ | _ | _ | _ | _ | c <;> rfl
  have hrest : ∀ c, loopClosed.get c = .unvisited ∨ loopClosed.IsClosed c := by
    intro c
    by_cases hc : c = 4
    · exact .inr ⟨[4], (hget c).trans (if_pos hc)⟩
    · exact .inl ((hget c).trans (if_neg hc))
  have honward : loopClosed.Onward ring := by
    intro a b ha hab
    by_cases hfour : a = 4
    · subst hfour
      rw [List.mem_singleton.1 (show b ∈ [4] from hab)]
      exact ha
    · exact absurd ((hget a).trans (if_neg hfour)) ha.visited
  obtain ⟨horder, hpops, hend, -⟩ :=
    search_closes_components range.spreads rfl hrest honward (by decide) (hget 3)
  have hcalls : (iteration ring loopClosed 3 7).calls = [(1, []), (3, [4])] := by decide +kernel
  obtain ⟨members, pops⟩ := hpops 7 1 [(3, [4])] hcalls (by decide +kernel)
  have hopened : (iteration ring loopClosed 3 7).opened = [0, 2, 1] ++ [3] := by decide +kernel
  have hleft : ((iteration ring loopClosed 3 7).step ring).opened = [3] := by decide +kernel
  have hmembers : members = [0, 2, 1] := by
    have happend := pops.opened
    rw [hopened, hleft] at happend
    exact (List.append_cancel_right happend).symm
  exact ⟨range.spreads, honward, hcalls, horder 7, hmembers ▸ pops, (hend 10 (by decide +kernel)).1⟩

end SelectionGraph

end SelectionMerge
