import SelectionMerge.Proofs.Reach.Moves

/-!
# Components of a search

When a call ends and its lowest number is the container's own, the containers from there to the
top of the stack are a component: they reach each other (`Component.reaches`), and all else that
they reach is closed (`Component.within`). Closing them keeps the invariant and gives them the
list of what they reach. When the lowest number is smaller, the containers stay on the stack
with those of the caller.
-/

namespace SelectionMerge
set_option autoImplicit false

namespace Search

variable {graph : SelectionGraph} {search : Search}

theorem Call.followed_all {marks : Marks} {id : ContainerId}
    {callers : List (ContainerId × List ContainerId)} {left below : List ContainerId}
    (top : Call graph marks id [] callers left below) {b : ContainerId} (hb : graph.Spreads id b) :
    marks.Met (marks.lowest id) b := by
  obtain ⟨done, hspreads, hdone⟩ := top.followed
  rw [List.append_nil] at hspreads
  exact hdone b (hspreads ▸ hb)

/-- A call that ends with a smaller number than its own leaves its containers to the caller. -/
theorem Invariant.back (h : search.Invariant graph) {id caller : ContainerId}
    {later : List ContainerId} {callers : List (ContainerId × List ContainerId)}
    (hcalls : search.calls = (id, []) :: (caller, later) :: callers)
    (hlowest : search.marks.lowest id < search.marks.order id) :
    Invariant graph { search with
      calls := (caller, later) :: callers
      marks := search.marks.lower caller (search.marks.lowest id) } := by
  obtain ⟨left, below, hopened, top, rest⟩ := h.call_of_calls hcalls
  obtain ⟨left', below', rfl, top', rest'⟩ := rest.innermost
  have hopened' : search.opened = (left ++ id :: left') ++ caller :: below' := by
    rw [hopened, List.append_assoc, List.cons_append]
  have hcaller : search.marks.IsOpen caller := h.isOpen_caller hcalls
  have on := Marks.movesOn_lower hcaller (search.marks.lowest id)
  have hnew := Marks.lowest_lower hcaller (search.marks.lowest id)
  have hspread : graph.Spreads caller id := top.caller _ rfl
  -- The container that gives `id` its lowest number stands below `id`.
  obtain ⟨c, hc, horder, hreach⟩ := top.lowest_reached
  have hcbelow : c ∈ left' ++ caller :: below' := by
    rcases List.mem_cons.1 hc with rfl | hc
    · omega
    · exact hc
  have hidreturns : ∃ call ∈ caller :: callers.map Prod.fst, graph.Reaches id call := by
    obtain ⟨call, hcall, hpath⟩ := rest.returns c hcbelow
    exact ⟨call, hcall, hreach.trans hpath⟩
  refine ⟨h.toNumbered.lower hcaller _ _, ?_⟩
  have hrest := rest'.transport on fun c hc => by
    rw [Marks.get_lower hcaller, if_neg]
    rintro rfl
    exact (h.not_mem hopened').2 hc
  refine (congrArg (Stacked graph _ _) hopened').mpr (Stacked.call ?_ hrest)
  constructor
  · rw [hnew, Marks.order_lower hcaller]
    exact Nat.le_trans (Nat.min_le_left _ _) top'.lowest_le
  · simp only [hnew, Marks.order_lower hcaller]
    rcases Nat.le_total (search.marks.lowest caller) (search.marks.lowest id) with hle | hle
    · rw [Nat.min_eq_left hle]
      exact top'.lowest_reached
    · rw [Nat.min_eq_right hle]
      have hcopen : search.marks.IsOpen c := (h.opened c).1 (hopened ▸ List.mem_append_right _ hc)
      have hle' : search.marks.order c ≤ search.marks.order caller := by
        have := top'.lowest_le
        omega
      exact ⟨c, h.mem_of_order_lt hopened' hcopen hle', horder, hspread.reaches.trans hreach⟩
  · obtain ⟨done, hspreads, hdone⟩ := top'.followed
    exact ⟨done, hspreads, fun b hb => on.met (hdone b hb) (by rw [hnew]; exact Nat.min_le_left _ _)⟩
  · intro x hx b hb
    have hmet : search.marks.Met (search.marks.lowest id) b ∨ search.marks.Met (search.marks.lowest caller) b := by
      rcases List.mem_append.1 hx with hx | hx
      · exact .inl (top.left_followed x hx b hb)
      · rcases List.mem_cons.1 hx with rfl | hx
        · exact .inl (top.followed_all hb)
        · exact .inr (top'.left_followed x hx b hb)
    rw [hnew]
    rcases hmet with hmet | hmet
    · exact on.met hmet (Nat.min_le_right _ _)
    · exact on.met hmet (Nat.min_le_left _ _)
  · intro x hx
    rcases List.mem_append.1 hx with hx | hx
    · exact hspread.reaches.trans (top.left_reached x hx)
    · rcases List.mem_cons.1 hx with rfl | hx
      · exact hspread.reaches
      · exact top'.left_reached x hx
  · intro x hx
    rcases List.mem_append.1 hx with hx | hx
    · obtain ⟨call, hcall, hpath⟩ := top.left_returns x hx
      rcases List.mem_cons.1 hcall with rfl | hcall
      · obtain ⟨call', hcall', hpath'⟩ := hidreturns
        exact ⟨call', hcall', hpath.trans hpath'⟩
      · exact ⟨call, hcall, hpath⟩
    · rcases List.mem_cons.1 hx with rfl | hx
      · exact hidreturns
      · exact top'.left_returns x hx
  · exact top'.caller

/-- The containers `left` and `id` on top of the stack, when the call on `id` ends with its own
number as the lowest. -/
structure Component (graph : SelectionGraph) (search : Search) (id : ContainerId)
    (callers : List (ContainerId × List ContainerId)) (left below : List ContainerId) : Prop where
  invariant : search.Invariant graph
  opened : search.opened = left ++ id :: below
  top : Call graph search.marks id [] callers left below
  rest : Stacked graph search.marks callers below
  lowest : search.marks.lowest id = search.marks.order id

namespace Component

variable {id : ContainerId} {callers : List (ContainerId × List ContainerId)}
  {left below : List ContainerId}

theorem of_calls (h : search.Invariant graph) (hcalls : search.calls = (id, []) :: callers)
    (hlowest : search.marks.lowest id = search.marks.order id) :
    ∃ left below, Component graph search id callers left below := by
  obtain ⟨left, below, hopened, top, rest⟩ := h.call_of_calls hcalls
  exact ⟨left, below, h, hopened, top, rest, hlowest⟩

theorem isOpen (h : Component graph search id callers left below) {m : ContainerId}
    (hm : m ∈ left ++ [id]) : search.marks.IsOpen m := by
  refine (h.invariant.opened m).1 (h.opened ▸ ?_)
  rw [List.append_cons]
  exact List.mem_append_left _ hm

theorem lt_size (h : Component graph search id callers left below) {m : ContainerId}
    (hm : m ∈ left ++ [id]) : m < search.marks.size :=
  Marks.lt_size_of_get (h.isOpen hm).visited

/-- A spread of a member leads to a member or to a closed container. -/
theorem spreads_within (h : Component graph search id callers left below) {m t : ContainerId}
    (hm : m ∈ left ++ [id]) (ht : graph.Spreads m t) : t ∈ left ++ [id] ∨ search.marks.IsClosed t := by
  have hmet : search.marks.Met (search.marks.lowest id) t := by
    rcases List.mem_append.1 hm with hm | hm
    · exact h.top.left_followed m hm t ht
    · rw [List.mem_singleton.1 hm] at ht
      exact h.top.followed_all ht
  rcases search.marks.trichotomy t with htarget | htarget | htarget
  · exact absurd htarget hmet.1
  · left
    have hle := hmet.2 htarget
    have hmem : t ∈ left ++ id :: below := h.opened ▸ (h.invariant.opened t).2 htarget
    rw [List.append_cons] at hmem
    rcases List.mem_append.1 hmem with hmem | hmem
    · exact hmem
    · -- What stands below `id` has a smaller number than the lowest one.
      have := (h.invariant.sorted_at h.opened).2.1 t hmem
      have := h.lowest
      omega
  · exact .inr htarget

/-- All that a member reaches is a member or closed. -/
theorem within (h : Component graph search id callers left below) {m x : ContainerId}
    (hm : m ∈ left ++ [id]) (hx : graph.Reaches m x) : x ∈ left ++ [id] ∨ search.marks.IsClosed x := by
  refine hx.mem_of_closed (P := fun x => x ∈ left ++ [id] ∨ search.marks.IsClosed x) (.inl hm) ?_
  rintro x y (hx | hx) hxy
  · exact h.spreads_within hx hxy
  · exact .inr (h.invariant.onward hx hxy)

theorem reaches_of_root (h : Component graph search id callers left below) {m : ContainerId}
    (hm : m ∈ left ++ [id]) : graph.Reaches id m := by
  rcases List.mem_append.1 hm with hm | hm
  · exact h.top.left_reached m hm
  · rw [List.mem_singleton.1 hm]
    exact .refl id

theorem not_mem_below (h : Component graph search id callers left below) {c : ContainerId}
    (hc : c ∈ below) : c ∉ left ++ [id] := by
  have hnodup := h.invariant.nodup
  rw [h.opened, List.append_cons] at hnodup
  exact fun hmem => (List.nodup_append.1 hnodup).2.2 c hmem c hc rfl

theorem reaches_root (h : Component graph search id callers left below) {m : ContainerId}
    (hm : m ∈ left ++ [id]) : graph.Reaches m id := by
  rcases List.mem_append.1 hm with hmem | hmem
  · obtain ⟨call, hcall, hpath⟩ := h.top.left_returns m hmem
    rcases List.mem_cons.1 hcall with rfl | hcall
    · exact hpath
    · -- A caller is open and no member, so no member reaches it.
      have hbelow : call ∈ below := h.rest.mem_opened call hcall
      have hopen : search.marks.IsOpen call :=
        (h.invariant.opened call).1 (h.opened ▸ List.mem_append_right _ (.tail _ hbelow))
      obtain hmem' | hclosed := h.within hm hpath
      · exact absurd hmem' (h.not_mem_below hbelow)
      · exact absurd hclosed hopen.not_isClosed
  · rw [List.mem_singleton.1 hmem]
    exact .refl id

/-- Members reach each other. -/
theorem reaches (h : Component graph search id callers left below) {m m' : ContainerId}
    (hm : m ∈ left ++ [id]) (hm' : m' ∈ left ++ [id]) : graph.Reaches m m' :=
  (h.reaches_root hm).trans (h.reaches_of_root hm')

/-- What a member reaches are the members and what the closed containers that they spread to
reach. -/
theorem reaches_iff (h : Component graph search id callers left below) {m x : ContainerId}
    (hm : m ∈ left ++ [id]) :
    graph.Reaches m x ↔ x ∈ left ++ [id] ∨ ∃ m' ∈ left ++ [id], ∃ t, graph.Spreads m' t ∧
      search.marks.IsClosed t ∧ graph.Reaches t x := by
  constructor
  · intro hx
    refine hx.mem_of_closed (P := fun x => x ∈ left ++ [id] ∨ ∃ m' ∈ left ++ [id], ∃ t,
      graph.Spreads m' t ∧ search.marks.IsClosed t ∧ graph.Reaches t x) (.inl hm) ?_
    rintro x y (hx | ⟨m', hm', t, hspread, hclosed, hpath⟩) hxy
    · rcases h.spreads_within hx hxy with hy | hy
      · exact .inl hy
      · exact .inr ⟨x, hx, y, hxy, hy, .refl y⟩
    · exact .inr ⟨m', hm', t, hspread, hclosed, hpath.trans hxy.reaches⟩
  · rintro (hx | ⟨m', hm', t, hspread, -, hpath⟩)
    · exact h.reaches hm hx
    · exact (h.reaches hm hm').trans (hspread.reaches.trans hpath)

/-- The list that the members of a component are closed with. -/
def reached (graph : SelectionGraph) (marks : Marks) (members : List ContainerId) : List ContainerId :=
  Ascending.union (Ascending.ofList members) (Ascending.unions
    (members.flatMap fun member => (graph.container member).spreads.map marks.closedReach))

/-- Completing a component closes it and takes it from the stack. -/
theorem complete_eq (h : Component graph search id callers left below) :
    ({ search with calls := callers }.complete graph id) = { search with
      calls := callers
      opened := below
      marks := search.marks.close (left ++ [id]) (reached graph search.marks (left ++ [id])) } := by
  have hpop : popThrough id (left ++ id :: below) = (left ++ [id], below) :=
    popThrough_eq (h.invariant.not_mem h.opened).1
  unfold complete reached
  simp only [h.opened, hpop]

theorem pairwise_reached {marks : Marks} (exact : marks.Exact graph) (members : List ContainerId) :
    (reached graph marks members).Pairwise (· < ·) := by
  refine Ascending.pairwise_union Ascending.pairwise_ofList (Ascending.pairwise_unions ?_)
  intro l hl
  obtain ⟨m, -, hl⟩ := List.mem_flatMap.1 hl
  obtain ⟨t, -, rfl⟩ := List.mem_map.1 hl
  rcases marks.trichotomy t with htarget | htarget | ⟨reached, htarget⟩
  · simp [Marks.closedReach, htarget]
  · simp [Marks.closedReach, htarget.get_eq]
  · rw [Marks.closedReach_eq htarget]
    exact (exact htarget).1

theorem mem_reached (h : Component graph search id callers left below)
    (exact : search.marks.Exact graph) {m x : ContainerId} (hm : m ∈ left ++ [id]) :
    x ∈ reached graph search.marks (left ++ [id]) ↔ graph.Reaches m x := by
  rw [h.reaches_iff hm, reached, Ascending.mem_union, Ascending.mem_ofList, Ascending.mem_unions]
  apply or_congr Iff.rfl
  simp only [List.mem_flatMap, List.mem_map]
  constructor
  · rintro ⟨_, ⟨m', hm', t, ht, rfl⟩, hx⟩
    obtain ⟨hclosed, hpath⟩ := exact.mem_closedReach.1 hx
    exact ⟨m', hm', t, ht, hclosed, hpath⟩
  · rintro ⟨m', hm', t, ht, hclosed, hpath⟩
    exact ⟨_, ⟨m', hm', t, ht, rfl⟩, exact.mem_closedReach.2 ⟨hclosed, hpath⟩⟩

theorem get_close (h : Component graph search id callers left below) (reached : List ContainerId)
    (c : ContainerId) : (search.marks.close (left ++ [id]) reached).get c =
      if c ∈ left ++ [id] then .closed reached else search.marks.get c :=
  Marks.get_close (fun _ => h.lt_size) reached c

end Component

/-- Completing a component keeps the invariant. -/
theorem Invariant.complete (h : search.Invariant graph) {id : ContainerId}
    {callers : List (ContainerId × List ContainerId)} (hcalls : search.calls = (id, []) :: callers)
    (hlowest : search.marks.lowest id = search.marks.order id) :
    ({ search with calls := callers }.complete graph id).Invariant graph := by
  obtain ⟨left, below, component⟩ := Component.of_calls h hcalls hlowest
  rw [component.complete_eq]
  generalize Component.reached graph search.marks (left ++ [id]) = reached
  have hget := component.get_close reached
  have hsame : ∀ c ∉ left ++ [id], (search.marks.close (left ++ [id]) reached).get c = search.marks.get c :=
    fun c hc => (hget c).trans (if_neg hc)
  have hmember : ∀ c ∈ left ++ [id], (search.marks.close (left ++ [id]) reached).IsClosed c :=
    fun c hc => ⟨reached, (hget c).trans (if_pos hc)⟩
  have on : search.marks.MovesOn (search.marks.close (left ++ [id]) reached) :=
    Marks.movesOn_close (fun _ => component.lt_size) reached
  have hbelow : ∀ c ∈ below, c ∈ search.opened := fun c hc =>
    component.opened ▸ List.mem_append_right _ (.tail _ hc)
  refine ⟨⟨(Marks.size_close _ _).trans h.size, ?_, ?_, ?_, ?_⟩, ?_⟩
  · intro a b ha hab
    by_cases hmem : a ∈ left ++ [id]
    · rcases component.spreads_within hmem hab with hb | hb
      · exact hmember b hb
      · exact on.isClosed hb
    · have hclosed : search.marks.IsClosed a := by
        unfold Marks.IsClosed at ha ⊢
        rwa [hsame a hmem] at ha
      exact on.isClosed (h.onward hclosed hab)
  · intro c
    show c ∈ below ↔ _
    by_cases hmem : c ∈ left ++ [id]
    · exact ⟨fun hc => absurd hmem (component.not_mem_below hc),
        fun hopen => absurd (hmember c hmem) hopen.not_isClosed⟩
    · rw [Marks.isOpen_congr (hsame c hmem), ← h.opened c, component.opened, List.append_cons,
        List.mem_append, or_iff_right hmem]
  · apply (h.sorted_at component.opened).2.2.imp_of_mem
    intro a b ha hb hlt
    rw [Marks.order_congr (hsame a (component.not_mem_below ha)),
      Marks.order_congr (hsame b (component.not_mem_below hb))]
    exact hlt
  · intro c hc
    rw [Marks.order_congr (hsame c (component.not_mem_below hc))]
    exact h.next c (hbelow c hc)
  · exact component.rest.transport on fun c hc => hsame c (component.not_mem_below hc)

/-- Every move keeps the invariant. -/
theorem Invariant.move (h : search.Invariant graph) (range : graph.SpreadsInRange) {after : Search}
    (move : Move graph search after) : after.Invariant graph := by
  cases move with
  | visit hcalls htarget => exact h.visit range hcalls htarget
  | learn hcalls htarget => exact h.learn hcalls htarget
  | pass hcalls htarget => exact h.pass hcalls htarget
  | back hcalls hlowest => exact h.back hcalls hlowest
  | complete hcalls hlowest => exact h.complete hcalls hlowest

/-- No move makes a visited container unvisited or a closed one open. -/
theorem Invariant.movesOn (h : search.Invariant graph) (range : graph.SpreadsInRange) {after : Search}
    (move : Move graph search after) : search.marks.MovesOn after.marks := by
  cases move with
  | visit hcalls htarget =>
    exact Marks.movesOn_open (h.size ▸ range (h.spreads hcalls)) htarget search.next
  | learn hcalls htarget => exact Marks.movesOn_lower (h.isOpen_of_calls hcalls) _
  | pass hcalls htarget => exact .refl _
  | back hcalls hlowest => exact Marks.movesOn_lower (h.isOpen_caller hcalls) _
  | complete hcalls hlowest =>
    obtain ⟨left, below, component⟩ := Component.of_calls h hcalls hlowest
    rw [component.complete_eq]
    exact Marks.movesOn_close (fun _ => component.lt_size) _

/-- Every move keeps the lists of closed containers right. -/
theorem Invariant.exact_move (h : search.Invariant graph) (range : graph.SpreadsInRange)
    (exact : search.marks.Exact graph) {after : Search} (move : Move graph search after) :
    after.marks.Exact graph := by
  cases move with
  | @visit id target later callers hcalls htarget =>
    intro a reached ha
    have hget := Marks.get_set (h.size ▸ range (h.spreads hcalls)) (.opened search.next search.next) a
    have hne : target ≠ a := by
      rintro rfl
      exact Mark.noConfusion (ha.symm.trans (hget.trans (if_pos rfl)))
    exact exact ((hget.trans (if_neg hne)).symm.trans ha)
  | learn hcalls htarget =>
    intro a reached ha
    exact exact (Marks.get_of_lower_closed (h.isOpen_of_calls hcalls) ha)
  | pass hcalls htarget => exact exact
  | back hcalls hlowest =>
    intro a reached ha
    exact exact (Marks.get_of_lower_closed (h.isOpen_caller hcalls) ha)
  | @complete id callers hcalls hlowest =>
    obtain ⟨left, below, component⟩ := Component.of_calls h hcalls hlowest
    rw [component.complete_eq]
    intro a reached ha
    have hget := component.get_close (Component.reached graph search.marks (left ++ [id])) a
    by_cases hmem : a ∈ left ++ [id]
    · obtain rfl := Mark.closed.inj ((hget.trans (if_pos hmem)).symm.trans ha)
      exact ⟨Component.pairwise_reached exact _, fun x => component.mem_reached exact hmem⟩
    · exact exact ((hget.trans (if_neg hmem)).symm.trans ha)

end Search

end SelectionMerge
