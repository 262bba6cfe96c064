import SelectionMerge.Proofs.Reach.Marks

/-!
# The stacks of a search

A search keeps a stack of open containers and a stack of calls. Below the container of each
call stand the containers of its callers, and between it and the next call stand those that
were left open: their own calls have ended, but some caller is still to be reached from them.
`Stacked` says this call by call, and `Invariant` is what every move of a search keeps: the
open containers are those on the stack, in the order of their numbers, and the calls are a
path of spreads through them.

The main statement is `Invariant.returns`: from every open container a spread path leads back
to a container whose call has not ended.
-/

namespace SelectionMerge
set_option autoImplicit false

namespace Marks

/-- The container was visited, and while it is open its number is no less than `bound`. -/
def Met (marks : Marks) (bound : Nat) (b : ContainerId) : Prop :=
  marks.get b ≠ .unvisited ∧ (marks.IsOpen b → bound ≤ marks.order b)

/-- Marks move on: what was visited stays visited, and what is open of it was open before under
the same number. -/
structure MovesOn (marks after : Marks) : Prop where
  visited : ∀ {b}, marks.get b ≠ .unvisited → after.get b ≠ .unvisited
  order : ∀ {b}, marks.get b ≠ .unvisited → after.IsOpen b →
    marks.IsOpen b ∧ after.order b = marks.order b

variable {marks after : Marks}

theorem MovesOn.refl (marks : Marks) : marks.MovesOn marks :=
  ⟨id, fun _ h => ⟨h, rfl⟩⟩

theorem MovesOn.trans {last : Marks} (h : marks.MovesOn after) (h' : after.MovesOn last) :
    marks.MovesOn last where
  visited hb := h'.visited (h.visited hb)
  order hb hopen := by
    obtain ⟨hopen', horder'⟩ := h'.order (h.visited hb) hopen
    obtain ⟨hopen'', horder⟩ := h.order hb hopen'
    exact ⟨hopen'', horder'.trans horder⟩

theorem isOpen_congr {b : ContainerId} (h : after.get b = marks.get b) :
    after.IsOpen b ↔ marks.IsOpen b := by
  unfold IsOpen
  rw [h]

theorem order_congr {b : ContainerId} (h : after.get b = marks.get b) : after.order b = marks.order b := by
  unfold order
  rw [h]

theorem lowest_congr {b : ContainerId} (h : after.get b = marks.get b) :
    after.lowest b = marks.lowest b := by
  unfold lowest
  rw [h]

/-- Marks move on if each stays or changes to one that is visited, and no visited container is
opened under another number. -/
theorem movesOn_of_get (h : ∀ b, after.get b = marks.get b ∨ after.get b ≠ .unvisited ∧
    (marks.get b ≠ .unvisited → after.IsOpen b → marks.IsOpen b ∧ after.order b = marks.order b)) :
    marks.MovesOn after := by
  constructor
  · intro b hb
    obtain hsame | ⟨hvisited, -⟩ := h b
    · rw [hsame]
      exact hb
    · exact hvisited
  · intro b hb hopen
    obtain hsame | ⟨-, horder⟩ := h b
    · exact ⟨(isOpen_congr hsame).1 hopen, order_congr hsame⟩
    · exact horder hb hopen

theorem MovesOn.isClosed (h : marks.MovesOn after) {b : ContainerId} (hb : marks.IsClosed b) :
    after.IsClosed b := by
  rcases after.trichotomy b with hun | hopen | hclosed
  · exact absurd hun (h.visited hb.visited)
  · exact absurd hb (h.order hb.visited hopen).1.not_isClosed
  · exact hclosed

theorem MovesOn.met (h : marks.MovesOn after) {bound bound' : Nat} {b : ContainerId}
    (hb : marks.Met bound b) (hle : bound' ≤ bound) : after.Met bound' b := by
  refine ⟨h.visited hb.1, fun hopen => ?_⟩
  obtain ⟨hopen', horder⟩ := h.order hb.1 hopen
  have := hb.2 hopen'
  omega

theorem IsClosed.met {b : ContainerId} (hb : marks.IsClosed b) (bound : Nat) : marks.Met bound b :=
  ⟨hb.visited, fun hopen => absurd hb hopen.not_isClosed⟩

theorem IsOpen.met {b : ContainerId} (hb : marks.IsOpen b) {bound : Nat} (hle : bound ≤ marks.order b) :
    marks.Met bound b :=
  ⟨hb.visited, fun _ => hle⟩

end Marks

namespace Search

variable {graph : SelectionGraph}

/-- What holds of the call on `id`, which has `later` still to follow, while `left` stands above
`id` on the stack of open containers and `below` under it. -/
structure Call (graph : SelectionGraph) (marks : Marks) (id : ContainerId) (later : List ContainerId)
    (callers : List (ContainerId × List ContainerId)) (left below : List ContainerId) : Prop where
  lowest_le : marks.lowest id ≤ marks.order id
  /-- The lowest number is that of a container which is reached. -/
  lowest_reached : ∃ c ∈ id :: below, marks.order c = marks.lowest id ∧ graph.Reaches id c
  followed : ∃ done, (graph.container id).spreads = done ++ later ∧
    ∀ b ∈ done, marks.Met (marks.lowest id) b
  left_followed : ∀ c ∈ left, ∀ b, graph.Spreads c b → marks.Met (marks.lowest id) b
  left_reached : ∀ c ∈ left, graph.Reaches id c
  left_returns : ∀ c ∈ left, ∃ call ∈ id :: callers.map Prod.fst, graph.Reaches c call
  caller : ∀ caller ∈ callers.head?, graph.Spreads caller.1 id

/-- The stack of calls runs through the stack of open containers. -/
inductive Stacked (graph : SelectionGraph) (marks : Marks) :
    List (ContainerId × List ContainerId) → List ContainerId → Prop where
  | nil : Stacked graph marks [] []
  | call {id : ContainerId} {later : List ContainerId}
      {callers : List (ContainerId × List ContainerId)} {left below : List ContainerId}
      (top : Call graph marks id later callers left below) (rest : Stacked graph marks callers below) :
      Stacked graph marks ((id, later) :: callers) (left ++ id :: below)

/-- The open containers are those on the stack, in the order of their numbers, and nothing that
is closed spreads to what is not. -/
structure Numbered (graph : SelectionGraph) (search : Search) : Prop where
  size : search.marks.size = graph.containers.size
  onward : search.marks.Onward graph
  opened : ∀ c, c ∈ search.opened ↔ search.marks.IsOpen c
  sorted : search.opened.Pairwise fun a b => search.marks.order b < search.marks.order a
  next : ∀ c ∈ search.opened, search.marks.order c < search.next

/-- What every move of a search keeps. -/
structure Invariant (graph : SelectionGraph) (search : Search) : Prop extends Numbered graph search where
  stacked : Stacked graph search.marks search.calls search.opened

/-- The innermost call, with the part of the stack above its container and the part below. -/
theorem Stacked.innermost {marks : Marks} {id : ContainerId} {later : List ContainerId}
    {callers : List (ContainerId × List ContainerId)} {opened : List ContainerId}
    (h : Stacked graph marks ((id, later) :: callers) opened) :
    ∃ left below, opened = left ++ id :: below ∧ Call graph marks id later callers left below ∧
      Stacked graph marks callers below := by
  cases h with
  | @call _ _ _ left below top rest => exact ⟨left, below, rfl, top, rest⟩

/-- The container of each call is open. -/
theorem Stacked.mem_opened {marks : Marks} {calls : List (ContainerId × List ContainerId)}
    {opened : List ContainerId} (h : Stacked graph marks calls opened) :
    ∀ call ∈ calls.map Prod.fst, call ∈ opened := by
  induction h with
  | nil => exact fun _ h => h
  | call top rest ih =>
    intro call hcall
    rcases List.mem_cons.1 hcall with rfl | hcall
    · exact List.mem_append_right _ (.head _)
    · exact List.mem_append_right _ (.tail _ (ih call hcall))

/-- From each container of the stack a path leads back to a call. -/
theorem Stacked.returns {marks : Marks} {calls : List (ContainerId × List ContainerId)}
    {opened : List ContainerId} (h : Stacked graph marks calls opened) :
    ∀ c ∈ opened, ∃ call ∈ calls.map Prod.fst, graph.Reaches c call := by
  induction h with
  | nil => simp
  | @call id later callers left below top rest ih =>
    intro c hc
    rcases List.mem_append.1 hc with hc | hc
    · exact top.left_returns c hc
    · rcases List.mem_cons.1 hc with rfl | hc
      · exact ⟨c, .head _, .refl c⟩
      · obtain ⟨call, hcall, hreach⟩ := ih c hc
        exact ⟨call, .tail _ hcall, hreach⟩

/-- What holds of the calls speaks of the marks of the stack and of what was met. -/
theorem Stacked.transport {marks after : Marks} {calls : List (ContainerId × List ContainerId)}
    {opened : List ContainerId} (h : Stacked graph marks calls opened) (on : marks.MovesOn after)
    (same : ∀ c ∈ opened, after.get c = marks.get c) : Stacked graph after calls opened := by
  induction h with
  | nil => exact .nil
  | @call id later callers left below top rest ih =>
    have hid : after.get id = marks.get id := same id (List.mem_append_right _ (.head _))
    have hlowest : after.lowest id = marks.lowest id := Marks.lowest_congr hid
    have hbelow : ∀ c ∈ id :: below, after.get c = marks.get c :=
      fun c hc => same c (List.mem_append_right _ hc)
    refine .call ?_ (ih fun c hc => hbelow c (.tail _ hc))
    refine { top with lowest_le := ?_, lowest_reached := ?_, followed := ?_, left_followed := ?_ }
    · rw [hlowest, Marks.order_congr hid]
      exact top.lowest_le
    · obtain ⟨c, hc, horder, hreach⟩ := top.lowest_reached
      refine ⟨c, hc, ?_, hreach⟩
      rw [hlowest, Marks.order_congr (hbelow c hc), horder]
    · obtain ⟨done, hspreads, hdone⟩ := top.followed
      refine ⟨done, hspreads, fun b hb => ?_⟩
      rw [hlowest]
      exact on.met (hdone b hb) (Nat.le_refl _)
    · intro c hc b hb
      rw [hlowest]
      exact on.met (top.left_followed c hc b hb) (Nat.le_refl _)

variable {search : Search}

theorem Numbered.nodup (h : search.Numbered graph) : search.opened.Nodup :=
  h.sorted.imp fun hlt heq => by subst heq; exact Nat.lt_irrefl _ hlt

/-- The numbers fall from the top of the stack to its bottom. -/
theorem Numbered.sorted_at (h : search.Numbered graph) {id : ContainerId} {left below : List ContainerId}
    (hopened : search.opened = left ++ id :: below) :
    (∀ c ∈ left, search.marks.order id < search.marks.order c) ∧
    (∀ c ∈ below, search.marks.order c < search.marks.order id) ∧
    below.Pairwise fun a b => search.marks.order b < search.marks.order a := by
  have hsorted := h.sorted
  rw [hopened] at hsorted
  obtain ⟨-, hright, hacross⟩ := List.pairwise_append.1 hsorted
  obtain ⟨hbelow, hrest⟩ := List.pairwise_cons.1 hright
  exact ⟨fun c hc => hacross c hc id (.head _), hbelow, hrest⟩

namespace Invariant

theorem call_of_calls (h : search.Invariant graph) {id : ContainerId} {later : List ContainerId}
    {callers : List (ContainerId × List ContainerId)} (hcalls : search.calls = (id, later) :: callers) :
    ∃ left below, search.opened = left ++ id :: below ∧
      Call graph search.marks id later callers left below ∧
      Stacked graph search.marks callers below := by
  have hstacked := h.stacked
  rw [hcalls] at hstacked
  exact hstacked.innermost

theorem isOpen_of_calls (h : search.Invariant graph) {id : ContainerId} {later : List ContainerId}
    {callers : List (ContainerId × List ContainerId)} (hcalls : search.calls = (id, later) :: callers) :
    search.marks.IsOpen id := by
  obtain ⟨left, below, hopened, -⟩ := h.call_of_calls hcalls
  exact (h.opened id).1 (hopened ▸ List.mem_append_right _ (.head _))

theorem isOpen_caller (h : search.Invariant graph) {id caller : ContainerId}
    {later later' : List ContainerId} {callers : List (ContainerId × List ContainerId)}
    (hcalls : search.calls = (id, later) :: (caller, later') :: callers) : search.marks.IsOpen caller := by
  have hmem : caller ∈ search.opened := by
    apply h.stacked.mem_opened caller
    rw [hcalls]
    exact .tail _ (.head _)
  exact (h.opened caller).1 hmem

/-- From every open container a path leads back to a call that has not ended. -/
theorem returns (h : search.Invariant graph) {c : ContainerId} (hc : search.marks.IsOpen c) :
    ∃ call ∈ search.calls.map Prod.fst, graph.Reaches c call :=
  h.stacked.returns c ((h.opened c).2 hc)

/-- Where no call is left, no container is open. -/
theorem opened_eq_nil (h : search.Invariant graph) (hcalls : search.calls = []) : search.opened = [] := by
  have hstacked := h.stacked
  rw [hcalls] at hstacked
  generalize search.opened = opened at hstacked ⊢
  cases hstacked
  rfl

theorem quiet (h : search.Invariant graph) (hcalls : search.calls = []) (c : ContainerId) :
    ¬ search.marks.IsOpen c := by
  intro hc
  have hmem := (h.opened c).2 hc
  rw [h.opened_eq_nil hcalls] at hmem
  exact List.not_mem_nil hmem

end Invariant

end Search

end SelectionMerge
