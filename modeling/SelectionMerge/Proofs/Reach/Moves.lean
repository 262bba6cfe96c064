import SelectionMerge.Proofs.Reach.Stack

/-!
# The moves of a search

A search in a call makes one of five moves (`Move`): it visits a container, learns the number
of an open one, passes a closed one, goes back to the caller, or completes a component. Every step
is one of them (`Invariant.step_move`), and the first three keep the invariant (`Invariant.visit`,
`Invariant.learn`, `Invariant.pass`).
-/

namespace SelectionMerge
set_option autoImplicit false

namespace Marks

variable {marks : Marks}

theorem eq_of_get_eq {after : Marks} (hsize : after.size = marks.size)
    (h : ∀ c, after.get c = marks.get c) : after = marks := by
  apply Array.ext hsize
  intro i hi hi'
  have := h i
  unfold Marks.get at this
  rwa [Array.getElem?_eq_getElem hi, Array.getElem?_eq_getElem hi'] at this

theorem movesOn_open {id : ContainerId} (hid : id < marks.size) (h : marks.get id = .unvisited) (n : Nat) :
    marks.MovesOn (marks.setIfInBounds id (.opened n n)) := by
  apply movesOn_of_get
  intro b
  have hget := get_set hid (.opened n n) b
  by_cases heq : id = b
  · subst heq
    rw [if_pos rfl] at hget
    exact .inr ⟨by simp [hget], fun hb => absurd h hb⟩
  · rw [if_neg heq] at hget
    exact .inl hget

theorem movesOn_lower {id : ContainerId} (hid : marks.IsOpen id) (bound : Nat) :
    marks.MovesOn (marks.lower id bound) := by
  apply movesOn_of_get
  intro b
  have hget := get_lower hid bound b
  by_cases heq : id = b
  · subst heq
    rw [if_pos rfl] at hget
    exact .inr ⟨by simp [hget], fun _ _ => ⟨hid, order_eq hget⟩⟩
  · rw [if_neg heq] at hget
    exact .inl hget

theorem movesOn_close {members : List ContainerId} (hmembers : ∀ m ∈ members, m < marks.size)
    (reached : List ContainerId) : marks.MovesOn (marks.close members reached) := by
  apply movesOn_of_get
  intro b
  have hget := get_close hmembers reached b
  by_cases hmem : b ∈ members
  · rw [if_pos hmem] at hget
    exact .inr ⟨by simp [hget], fun _ hopen => absurd ⟨reached, hget⟩ hopen.not_isClosed⟩
  · rw [if_neg hmem] at hget
    exact .inl hget

end Marks

theorem popThrough_eq {id : ContainerId} {left below : List ContainerId} (h : id ∉ left) :
    popThrough id (left ++ id :: below) = (left ++ [id], below) := by
  induction left with
  | nil => simp [popThrough]
  | cons c left ih =>
    have hne : c ≠ id := fun heq => h (heq ▸ .head _)
    have hrest := ih fun hmem => h (.tail _ hmem)
    simp only [List.cons_append, popThrough, hne, if_false, hrest]

namespace Search

variable {graph : SelectionGraph} {search : Search}

/-- What a search that is in a call can do next. -/
inductive Move (graph : SelectionGraph) (search : Search) : Search → Prop where
  | visit {id target : ContainerId} {later : List ContainerId}
      {callers : List (ContainerId × List ContainerId)}
      (hcalls : search.calls = (id, target :: later) :: callers)
      (htarget : search.marks.get target = .unvisited) :
      Move graph search (Search.visit graph { search with calls := (id, later) :: callers } target)
  | learn {id target : ContainerId} {later : List ContainerId}
      {callers : List (ContainerId × List ContainerId)}
      (hcalls : search.calls = (id, target :: later) :: callers)
      (htarget : search.marks.IsOpen target) :
      Move graph search { search with
        calls := (id, later) :: callers
        marks := search.marks.lower id (search.marks.order target) }
  | pass {id target : ContainerId} {later : List ContainerId}
      {callers : List (ContainerId × List ContainerId)}
      (hcalls : search.calls = (id, target :: later) :: callers)
      (htarget : search.marks.IsClosed target) :
      Move graph search { search with calls := (id, later) :: callers }
  | back {id caller : ContainerId} {later : List ContainerId}
      {callers : List (ContainerId × List ContainerId)}
      (hcalls : search.calls = (id, []) :: (caller, later) :: callers)
      (hlowest : search.marks.lowest id < search.marks.order id) :
      Move graph search { search with
        calls := (caller, later) :: callers
        marks := search.marks.lower caller (search.marks.lowest id) }
  | complete {id : ContainerId} {callers : List (ContainerId × List ContainerId)}
      (hcalls : search.calls = (id, []) :: callers)
      (hlowest : search.marks.lowest id = search.marks.order id) :
      Move graph search ({ search with calls := callers }.complete graph id)

/-- The number of a caller is smaller than that of what it called. -/
theorem Invariant.order_caller_lt (h : search.Invariant graph) {id caller : ContainerId}
    {later later' : List ContainerId} {callers : List (ContainerId × List ContainerId)}
    (hcalls : search.calls = (id, later) :: (caller, later') :: callers) :
    search.marks.order caller < search.marks.order id := by
  obtain ⟨left, below, hopened, -, rest⟩ := h.call_of_calls hcalls
  exact (h.sorted_at hopened).2.1 caller (rest.mem_opened caller (.head _))

/-- A step in a call is one of the moves. -/
theorem Invariant.step_move (h : search.Invariant graph) (hcalls : search.calls ≠ []) :
    Move graph search (search.step graph) := by
  obtain ⟨⟨id, later⟩, callers, hcalls⟩ := List.exists_cons_of_ne_nil hcalls
  obtain ⟨left, below, hopened, top, rest⟩ := h.call_of_calls hcalls
  have hopen : search.marks.IsOpen id := h.isOpen_of_calls hcalls
  cases later with
  | cons target later =>
    rcases search.marks.trichotomy target with htarget | htarget | htarget
    · have hstep : search.step graph =
          Search.visit graph { search with calls := (id, later) :: callers } target := by
        simp only [step, hcalls, htarget]
      rw [hstep]
      exact .visit hcalls htarget
    · have hstep : search.step graph = { search with
          calls := (id, later) :: callers
          marks := search.marks.lower id (search.marks.order target) } := by
        simp only [step, hcalls, htarget.get_eq]
      rw [hstep]
      exact .learn hcalls htarget
    · have hstep : search.step graph = { search with calls := (id, later) :: callers } := by
        obtain ⟨reached, hget⟩ := htarget
        simp only [step, hcalls, hget]
      rw [hstep]
      exact .pass hcalls htarget
  | nil =>
    have hstep : search.step graph = search.leave graph id callers := by
      simp only [step, hcalls]
    rw [hstep]
    rcases Nat.lt_or_eq_of_le top.lowest_le with hlt | heq
    · cases callers with
      | nil =>
        -- With no caller, nothing below `id` is open, so its lowest number is its own.
        cases rest
        obtain ⟨c, hc, horder, -⟩ := top.lowest_reached
        rw [List.mem_singleton.1 hc] at horder
        omega
      | cons call callers =>
        obtain ⟨caller, later⟩ := call
        have hleave : search.leave graph id ((caller, later) :: callers) = { search with
            calls := (caller, later) :: callers
            marks := search.marks.lower caller (search.marks.lowest id) } := by
          simp only [leave, hopen.get_eq, if_neg (Nat.ne_of_lt hlt)]
        rw [hleave]
        exact .back hcalls hlt
    · have hleave : search.leave graph id callers = { search with calls := callers }.complete graph id := by
        cases callers with
        | nil => simp only [leave, hopen.get_eq, if_pos heq]
        | cons call callers =>
          obtain ⟨caller, later⟩ := call
          have hle : search.marks.lowest caller ≤ search.marks.lowest id := by
            obtain ⟨left', below', -, top', -⟩ := rest.innermost
            have := top'.lowest_le
            have := h.order_caller_lt hcalls
            omega
          have hmarks : search.marks.lower caller (search.marks.lowest id) = search.marks :=
            Marks.eq_of_get_eq (Marks.size_lower _ _)
              (Marks.get_lower_of_le (h.isOpen_caller hcalls) hle)
          simp only [leave, hopen.get_eq, if_pos heq, hmarks]
      rw [hleave]
      exact .complete hcalls heq

/-- Visiting a container keeps the numbers in order. -/
theorem Numbered.visit (h : search.Numbered graph) {target : ContainerId}
    (hlt : target < graph.containers.size) (htarget : search.marks.get target = .unvisited) :
    (Search.visit graph search target).Numbered graph := by
  have hget := Marks.get_set (h.size ▸ hlt) (.opened search.next search.next)
  have hne : ∀ c ∈ search.opened, target ≠ c := by
    rintro c hc rfl
    exact ((h.opened target).1 hc).visited htarget
  have hsame : ∀ c, target ≠ c →
      (Search.visit graph search target).marks.get c = search.marks.get c :=
    fun c hc => (hget c).trans (if_neg hc)
  have hnew : (Search.visit graph search target).marks.get target = .opened search.next search.next :=
    (hget target).trans (if_pos rfl)
  constructor
  · exact Array.size_setIfInBounds.trans h.size
  · intro a b ha hab
    have hclosed : ∀ c, (Search.visit graph search target).marks.IsClosed c ↔ search.marks.IsClosed c := by
      intro c
      by_cases hc : target = c
      · subst hc
        simp only [Marks.IsClosed, hnew, htarget, reduceCtorEq, exists_false]
      · simp only [Marks.IsClosed, hsame c hc]
    exact (hclosed b).2 (h.onward ((hclosed a).1 ha) hab)
  · intro c
    show c ∈ target :: search.opened ↔ _
    by_cases hc : target = c
    · subst hc
      exact ⟨fun _ => ⟨_, _, hnew⟩, fun _ => .head _⟩
    · rw [Marks.isOpen_congr (hsame c hc), ← h.opened c, List.mem_cons]
      exact ⟨fun hmem => hmem.resolve_left (Ne.symm hc), .inr⟩
  · refine List.pairwise_cons.2 ⟨fun c hc => ?_, h.sorted.imp_of_mem fun {a b} ha hb hlt => ?_⟩
    · rw [Marks.order_congr (hsame c (hne c hc)), Marks.order_eq hnew]
      exact h.next c hc
    · rw [Marks.order_congr (hsame a (hne a ha)), Marks.order_congr (hsame b (hne b hb))]
      exact hlt
  · intro c hc
    show (Search.visit graph search target).marks.order c < search.next + 1
    rcases List.mem_cons.1 hc with rfl | hc
    · rw [Marks.order_eq hnew]
      exact Nat.lt_succ_self _
    · rw [Marks.order_congr (hsame c (hne c hc))]
      exact Nat.lt_succ_of_lt (h.next c hc)

/-- Lowering a number keeps the numbers in order. -/
theorem Numbered.lower (h : search.Numbered graph) {id : ContainerId} (hid : search.marks.IsOpen id)
    (bound : Nat) (calls : List (ContainerId × List ContainerId)) :
    Numbered graph { search with calls, marks := search.marks.lower id bound } where
  size := (Marks.size_lower id bound).trans h.size
  onward ha hab :=
    (Marks.isClosed_lower hid bound _).2 (h.onward ((Marks.isClosed_lower hid bound _).1 ha) hab)
  opened c := (h.opened c).trans (Marks.isOpen_lower hid bound c).symm
  sorted := h.sorted.imp fun hlt => by
    rw [Marks.order_lower hid, Marks.order_lower hid]
    exact hlt
  next c hc := by
    rw [Marks.order_lower hid]
    exact h.next c hc

/-- The call on a visited container starts with nothing followed. -/
theorem Call.start {marks : Marks} {target n : Nat} (htarget : marks.get target = .opened n n)
    {callers : List (ContainerId × List ContainerId)}
    (hcaller : ∀ caller ∈ callers.head?, graph.Spreads caller.1 target) (below : List ContainerId) :
    Call graph marks target (graph.container target).spreads callers [] below where
  lowest_le := Nat.le_of_eq ((Marks.lowest_eq htarget).trans (Marks.order_eq htarget).symm)
  lowest_reached := ⟨target, .head _, by rw [Marks.lowest_eq htarget, Marks.order_eq htarget], .refl _⟩
  followed := ⟨[], rfl, fun _ h => absurd h List.not_mem_nil⟩
  left_followed _ h := absurd h List.not_mem_nil
  left_reached _ h := absurd h List.not_mem_nil
  left_returns _ h := absurd h List.not_mem_nil
  caller := hcaller

/-- A call that follows a further spread met its target. -/
theorem Call.follow {marks after : Marks} {id target : ContainerId} {later : List ContainerId}
    {callers : List (ContainerId × List ContainerId)} {left below : List ContainerId}
    (top : Call graph marks id (target :: later) callers left below) (on : marks.MovesOn after)
    (hlowest_le : after.lowest id ≤ marks.lowest id)
    (hlowest : after.lowest id ≤ after.order id)
    (hreached : ∃ c ∈ id :: below, after.order c = after.lowest id ∧ graph.Reaches id c)
    (hmet : after.Met (after.lowest id) target) :
    Call graph after id later callers left below where
  lowest_le := hlowest
  lowest_reached := hreached
  followed := by
    obtain ⟨done, hspreads, hdone⟩ := top.followed
    refine ⟨done ++ [target], by rw [hspreads, List.append_assoc]; rfl, fun b hb => ?_⟩
    rcases List.mem_append.1 hb with hb | hb
    · exact on.met (hdone b hb) hlowest_le
    · rw [List.mem_singleton.1 hb]
      exact hmet
  left_followed c hc b hb := on.met (top.left_followed c hc b hb) hlowest_le
  left_reached := top.left_reached
  left_returns := top.left_returns
  caller := top.caller

theorem Call.spreads {marks : Marks} {id target : ContainerId} {later : List ContainerId}
    {callers : List (ContainerId × List ContainerId)} {left below : List ContainerId}
    (top : Call graph marks id (target :: later) callers left below) : graph.Spreads id target := by
  obtain ⟨done, hspreads, -⟩ := top.followed
  show target ∈ (graph.container id).spreads
  rw [hspreads]
  exact List.mem_append_right _ (.head _)

/-- The innermost call follows a spread of its container. -/
theorem Invariant.spreads (h : search.Invariant graph) {id target : ContainerId}
    {later : List ContainerId} {callers : List (ContainerId × List ContainerId)}
    (hcalls : search.calls = (id, target :: later) :: callers) : graph.Spreads id target := by
  obtain ⟨left, below, -, top, -⟩ := h.call_of_calls hcalls
  exact top.spreads

/-- Of two open containers the one with the smaller number stands lower on the stack. -/
theorem Numbered.mem_of_order_lt (h : search.Numbered graph) {id c : ContainerId}
    {left below : List ContainerId} (hopened : search.opened = left ++ id :: below)
    (hc : search.marks.IsOpen c) (hlt : search.marks.order c ≤ search.marks.order id) :
    c ∈ id :: below := by
  have hmem : c ∈ left ++ id :: below := hopened ▸ (h.opened c).2 hc
  rcases List.mem_append.1 hmem with hleft | hbelow
  · have := (h.sorted_at hopened).1 c hleft
    omega
  · exact hbelow

theorem Numbered.not_mem (h : search.Numbered graph) {id : ContainerId} {left below : List ContainerId}
    (hopened : search.opened = left ++ id :: below) : id ∉ left ∧ id ∉ below := by
  have hnodup := h.nodup
  rw [hopened] at hnodup
  have happend := List.nodup_append.1 hnodup
  exact ⟨fun hmem => happend.2.2 id hmem id (.head _) rfl, (List.nodup_cons.1 happend.2.1).1⟩

theorem Invariant.visit (h : search.Invariant graph) (range : graph.SpreadsInRange) {id target : ContainerId}
    {later : List ContainerId} {callers : List (ContainerId × List ContainerId)}
    (hcalls : search.calls = (id, target :: later) :: callers)
    (htarget : search.marks.get target = .unvisited) :
    (Search.visit graph { search with calls := (id, later) :: callers } target).Invariant graph := by
  obtain ⟨left, below, hopened, top, rest⟩ := h.call_of_calls hcalls
  have hlt : target < graph.containers.size := range top.spreads
  have hid : search.marks.IsOpen id := h.isOpen_of_calls hcalls
  have hnumbered : Numbered graph { search with calls := (id, later) :: callers } := { h.toNumbered with }
  have hsize : target < search.marks.size := h.size ▸ hlt
  have hget := Marks.get_set hsize (.opened search.next search.next)
  have hsame : ∀ c ∈ search.opened,
      Marks.get (search.marks.setIfInBounds target (.opened search.next search.next)) c =
        search.marks.get c := by
    intro c hc
    rw [hget, if_neg]
    rintro rfl
    exact ((h.opened target).1 hc).visited htarget
  have on := Marks.movesOn_open hsize htarget search.next
  have hidsame := hsame id ((h.opened id).2 hid)
  have hlowest := Marks.lowest_congr hidsame
  have horder := Marks.order_congr hidsame
  have hidlt := h.next id ((h.opened id).2 hid)
  have hnew := (hget target).trans (if_pos rfl)
  refine ⟨hnumbered.visit hlt htarget, ?_⟩
  have htop := top.follow on (Nat.le_of_eq hlowest) (by rw [hlowest, horder]; exact top.lowest_le) ?_ ?_
  · have hrest := rest.transport on fun c hc => hsame c (hopened ▸ List.mem_append_right _ (.tail _ hc))
    have hstack := Stacked.call htop hrest
    rw [← hopened] at hstack
    have hcaller : ∀ caller ∈ ((id, later) :: callers).head?, graph.Spreads caller.1 target := by
      rintro _ ⟨⟩
      exact top.spreads
    exact Stacked.call (Call.start hnew hcaller search.opened) hstack
  · obtain ⟨c, hc, horderc, hreach⟩ := top.lowest_reached
    refine ⟨c, hc, ?_, hreach⟩
    rw [hlowest, Marks.order_congr (hsame c (hopened ▸ List.mem_append_right _ hc)), horderc]
  · apply Marks.IsOpen.met ⟨_, _, hnew⟩
    rw [hlowest, Marks.order_eq hnew]
    have := top.lowest_le
    omega

theorem Invariant.learn (h : search.Invariant graph) {id target : ContainerId}
    {later : List ContainerId} {callers : List (ContainerId × List ContainerId)}
    (hcalls : search.calls = (id, target :: later) :: callers)
    (htarget : search.marks.IsOpen target) :
    Invariant graph { search with
      calls := (id, later) :: callers
      marks := search.marks.lower id (search.marks.order target) } := by
  obtain ⟨left, below, hopened, top, rest⟩ := h.call_of_calls hcalls
  have hid : search.marks.IsOpen id := h.isOpen_of_calls hcalls
  have on := Marks.movesOn_lower hid (search.marks.order target)
  have hlowest := Marks.lowest_lower hid (search.marks.order target)
  refine ⟨h.toNumbered.lower hid _ _, ?_⟩
  have htop := top.follow on (by rw [hlowest]; exact Nat.min_le_left _ _) ?_ ?_ ?_
  · have hrest := rest.transport on fun c hc => by
      rw [Marks.get_lower hid, if_neg]
      rintro rfl
      exact (h.not_mem hopened).2 hc
    have hstack := Stacked.call htop hrest
    rwa [← hopened] at hstack
  · rw [hlowest, Marks.order_lower hid]
    exact Nat.le_trans (Nat.min_le_left _ _) top.lowest_le
  · -- The new lowest number is the old one or that of `target`, which then stands below `id`.
    simp only [hlowest, Marks.order_lower hid]
    rcases Nat.le_total (search.marks.lowest id) (search.marks.order target) with hle | hle
    · rw [Nat.min_eq_left hle]
      exact top.lowest_reached
    · rw [Nat.min_eq_right hle]
      have := top.lowest_le
      exact ⟨target, h.mem_of_order_lt hopened htarget (by omega), rfl, top.spreads.reaches⟩
  · apply Marks.IsOpen.met ((Marks.isOpen_lower hid _ target).2 htarget)
    rw [hlowest, Marks.order_lower hid]
    exact Nat.min_le_right _ _

theorem Invariant.pass (h : search.Invariant graph) {id target : ContainerId}
    {later : List ContainerId} {callers : List (ContainerId × List ContainerId)}
    (hcalls : search.calls = (id, target :: later) :: callers)
    (htarget : search.marks.IsClosed target) :
    Invariant graph { search with calls := (id, later) :: callers } := by
  obtain ⟨left, below, hopened, top, rest⟩ := h.call_of_calls hcalls
  refine ⟨{ h.toNumbered with }, ?_⟩
  have htop := top.follow (.refl _) (Nat.le_refl _) top.lowest_le top.lowest_reached (htarget.met _)
  have hstack := Stacked.call htop rest
  rwa [← hopened] at hstack

end Search

end SelectionMerge
