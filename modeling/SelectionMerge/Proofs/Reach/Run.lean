import Mathlib.Algebra.Order.BigOperators.Group.Finset
import Mathlib.Logic.Function.Iterate
import SelectionMerge.Proofs.Reach.Component

/-!
# Whole runs of a search

Every move uses up one unit of work: one for each spread still to be followed, and one for each
call still to be left (`work_move`). So a run of as many moves as the graph has containers and
spreads leaves every call, and nothing is open any more. `connect_closes` says what marks come
to: the containers closed are those from before and all that the first one reaches.
-/

namespace SelectionMerge
set_option autoImplicit false

namespace SelectionGraph

/-- A sum over the containers of a graph, by their numbers. -/
theorem sum_containers (graph : SelectionGraph) (f : Container → Nat) :
    ∑ c ∈ Finset.range graph.containers.size, f (graph.container c) = graph.total f := by
  have hlist : ∀ (cs : List Container) (n : Nat),
      n + ∑ c ∈ Finset.range cs.length, f (cs[c]?.getD Container.empty) =
        cs.foldl (fun sum c => sum + f c) n := by
    intro cs
    induction cs with
    | nil => exact fun n => rfl
    | cons c cs ih =>
      intro n
      rw [List.length_cons, Finset.sum_range_succ', List.foldl_cons, ← ih]
      simp only [List.getElem?_cons_succ, List.getElem?_cons_zero, Option.getD_some]
      omega
  have htotal := hlist graph.containers.toList 0
  rw [Array.foldl_toList, Nat.zero_add, Array.length_toList] at htotal
  simp only [Array.getElem?_toList] at htotal
  exact htotal

end SelectionGraph

namespace Search

variable {graph : SelectionGraph} {search : Search}

/-- The moves that the unvisited containers are good for: one for each spread, one for the call. -/
def unvisitedWork (graph : SelectionGraph) (marks : Marks) : Nat :=
  ∑ c ∈ Finset.range graph.containers.size,
    if marks.get c = .unvisited then (graph.container c).spreads.length + 1 else 0

/-- The moves that a search still has to make. -/
def work (graph : SelectionGraph) (search : Search) : Nat :=
  unvisitedWork graph search.marks + search.calls.foldr (fun call moves => call.2.length + 1 + moves) 0

theorem unvisitedWork_congr {marks after : Marks}
    (h : ∀ c, after.get c = .unvisited ↔ marks.get c = .unvisited) :
    unvisitedWork graph after = unvisitedWork graph marks := by
  apply Finset.sum_congr rfl
  intro c _
  simp only [h c]

/-- Visiting a container takes its spreads and its call from what the unvisited ones are good for. -/
theorem unvisitedWork_open {marks : Marks} (hsize : marks.size = graph.containers.size) {target : ContainerId}
    (hlt : target < graph.containers.size) (htarget : marks.get target = .unvisited) (n : Nat) :
    unvisitedWork graph (marks.setIfInBounds target (.opened n n)) +
      ((graph.container target).spreads.length + 1) = unvisitedWork graph marks := by
  have hmem : target ∈ Finset.range graph.containers.size := Finset.mem_range.2 hlt
  have hget := Marks.get_set (hsize ▸ hlt) (.opened n n)
  unfold unvisitedWork
  rw [← Finset.sum_erase_add _ _ hmem, ← Finset.sum_erase_add _ _ hmem]
  have htarget' : Marks.get (marks.setIfInBounds target (.opened n n)) target ≠ .unvisited := by
    rw [hget, if_pos rfl]
    exact Mark.noConfusion
  rw [if_neg htarget', if_pos htarget, Nat.add_zero]
  congr 1
  apply Finset.sum_congr rfl
  intro c hc
  rw [hget, if_neg (Ne.symm (Finset.ne_of_mem_erase hc))]

/-- Every move uses up one unit of work. -/
theorem Invariant.work_move (h : search.Invariant graph) (range : graph.SpreadsInRange) {after : Search}
    (move : Move graph search after) : work graph after + 1 = work graph search := by
  cases move with
  | @visit id target later callers hcalls htarget =>
    have hvisit := unvisitedWork_open h.size (range (h.spreads hcalls)) htarget search.next
    simp only [work, Search.visit, hcalls, List.foldr_cons, List.length_cons]
    omega
  | @learn id target later callers hcalls htarget =>
    have hid := h.isOpen_of_calls hcalls
    have hsame : unvisitedWork graph (search.marks.lower id (search.marks.order target)) =
        unvisitedWork graph search.marks := by
      apply unvisitedWork_congr
      intro c
      rw [Marks.get_lower hid]
      split
      next heq => subst heq; simp [hid.get_eq]
      next => rfl
    simp only [work, hcalls, List.foldr_cons, List.length_cons, hsame]
    omega
  | pass hcalls htarget =>
    simp only [work, hcalls, List.foldr_cons, List.length_cons]
    omega
  | @back id caller later callers hcalls hlowest =>
    have hcaller := h.isOpen_caller hcalls
    have hsame : unvisitedWork graph (search.marks.lower caller (search.marks.lowest id)) =
        unvisitedWork graph search.marks := by
      apply unvisitedWork_congr
      intro c
      rw [Marks.get_lower hcaller]
      split
      next heq => subst heq; simp [hcaller.get_eq]
      next => rfl
    simp only [work, hcalls, List.foldr_cons, List.length_nil, hsame]
    omega
  | @complete id callers hcalls hlowest =>
    obtain ⟨left, below, component⟩ := Component.of_calls h hcalls hlowest
    rw [component.complete_eq]
    have hsame : unvisitedWork graph (search.marks.close (left ++ [id])
        (Component.reached graph search.marks (left ++ [id]))) = unvisitedWork graph search.marks := by
      apply unvisitedWork_congr
      intro c
      rw [component.get_close]
      split
      next hmem => simp [(component.isOpen hmem).get_eq]
      next => rfl
    simp only [work, hcalls, List.foldr_cons, List.length_nil, hsame]
    omega

/-- What a search from `start` opened or closed is reached from there. -/
structure Within (graph : SelectionGraph) (initial : Marks) (start : ContainerId) (marks : Marks) : Prop where
  opened : ∀ {c}, marks.IsOpen c → graph.Reaches start c
  closed : ∀ {c}, marks.IsClosed c → initial.IsClosed c ∨ graph.Reaches start c

theorem Invariant.within_move (h : search.Invariant graph) (range : graph.SpreadsInRange) {initial : Marks}
    {start : ContainerId} (within : Within graph initial start search.marks) {after : Search}
    (move : Move graph search after) : Within graph initial start after.marks := by
  cases move with
  | @visit id target later callers hcalls htarget =>
    have hget := Marks.get_set (h.size ▸ range (h.spreads hcalls)) (.opened search.next search.next)
    have hstart : graph.Reaches start target :=
      (within.opened (h.isOpen_of_calls hcalls)).trans (h.spreads hcalls).reaches
    constructor
    · intro c hc
      by_cases heq : target = c
      · exact heq ▸ hstart
      · exact within.opened ((Marks.isOpen_congr ((hget c).trans (if_neg heq))).1 hc)
    · rintro c ⟨reached, hc⟩
      have hc' := (hget c).symm.trans hc
      by_cases heq : target = c
      · rw [if_pos heq] at hc'
        cases hc'
      · exact within.closed ⟨reached, (if_neg heq).symm.trans hc'⟩
  | learn hcalls htarget =>
    have hid := h.isOpen_of_calls hcalls
    exact ⟨fun hc => within.opened ((Marks.isOpen_lower hid _ _).1 hc),
      fun hc => within.closed ((Marks.isClosed_lower hid _ _).1 hc)⟩
  | pass hcalls htarget => exact within
  | back hcalls hlowest =>
    have hcaller := h.isOpen_caller hcalls
    exact ⟨fun hc => within.opened ((Marks.isOpen_lower hcaller _ _).1 hc),
      fun hc => within.closed ((Marks.isClosed_lower hcaller _ _).1 hc)⟩
  | @complete id callers hcalls hlowest =>
    obtain ⟨left, below, component⟩ := Component.of_calls h hcalls hlowest
    rw [component.complete_eq]
    have hget := component.get_close (Component.reached graph search.marks (left ++ [id]))
    constructor
    · rintro c ⟨order, lowest, hc⟩
      have hc' := (hget c).symm.trans hc
      by_cases hmem : c ∈ left ++ [id]
      · rw [if_pos hmem] at hc'
        cases hc'
      · exact within.opened ⟨order, lowest, (if_neg hmem).symm.trans hc'⟩
    · rintro c ⟨reached, hc⟩
      by_cases hmem : c ∈ left ++ [id]
      · exact .inr (within.opened (component.isOpen hmem))
      · exact within.closed ⟨reached, (if_neg hmem).symm.trans ((hget c).symm.trans hc)⟩

theorem step_of_calls_eq_nil (h : search.calls = []) : search.step graph = search := by
  unfold step
  rw [h]

/-- A run makes moves one after the other. -/
theorem run_eq_iterate (graph : SelectionGraph) (moves : Nat) (search : Search) :
    Search.run graph moves search = (Search.step graph)^[moves] search := by
  induction moves generalizing search with
  | zero => rfl
  | succ moves ih =>
    unfold Search.run
    split
    next h => exact (Function.iterate_fixed (step_of_calls_eq_nil (List.isEmpty_iff.1 h)) _).symm
    next => exact ih (search.step graph)

/-- What every move keeps holds after any number of them. -/
theorem Invariant.iterate {P : Search → Prop} (range : graph.SpreadsInRange) (h : search.Invariant graph)
    (hP : P search)
    (keeps : ∀ {search after : Search}, search.Invariant graph → P search → Move graph search after → P after)
    (moves : Nat) :
    ((Search.step graph)^[moves] search).Invariant graph ∧ P ((Search.step graph)^[moves] search) := by
  induction moves with
  | zero => exact ⟨h, hP⟩
  | succ moves ih =>
    rw [Function.iterate_succ_apply']
    generalize (Search.step graph)^[moves] search = reached at ih ⊢
    obtain ⟨hreached, hP⟩ := ih
    by_cases hcalls : reached.calls = []
    · rw [step_of_calls_eq_nil hcalls]
      exact ⟨hreached, hP⟩
    · have move := hreached.step_move hcalls
      exact ⟨hreached.move range move, keeps hreached hP move⟩

/-- As many moves as there is work leave every call. -/
theorem Invariant.calls_iterate (range : graph.SpreadsInRange) (moves : Nat) (h : search.Invariant graph)
    (hwork : work graph search ≤ moves) : ((Search.step graph)^[moves] search).calls = [] := by
  induction moves generalizing search with
  | zero =>
    cases hc : search.calls with
    | nil => exact hc
    | cons call calls =>
      simp only [work, hc, List.foldr_cons] at hwork
      omega
  | succ moves ih =>
    by_cases hcalls : search.calls = []
    · rw [Function.iterate_fixed (step_of_calls_eq_nil hcalls)]
      exact hcalls
    · have move := h.step_move hcalls
      have hless := h.work_move range move
      exact ih (h.move range move) (by omega)

/-- A run with moves enough leaves every call, and keeps what its moves keep. -/
theorem Invariant.run (range : graph.SpreadsInRange) {initial : Marks} {start : ContainerId} (moves : Nat)
    (h : search.Invariant graph) (exact : search.marks.Exact graph)
    (within : Within graph initial start search.marks) (hwork : work graph search ≤ moves) :
    (Search.run graph moves search).Invariant graph ∧ (Search.run graph moves search).calls = [] ∧
      (Search.run graph moves search).marks.Exact graph ∧
      Within graph initial start (Search.run graph moves search).marks ∧
      search.marks.MovesOn (Search.run graph moves search).marks := by
  have hkept := h.iterate range
    (P := fun reached => reached.marks.Exact graph ∧ Within graph initial start reached.marks ∧
      search.marks.MovesOn reached.marks)
    ⟨exact, within, .refl _⟩
    (fun hinv hP move => ⟨hinv.exact_move range hP.1 move, hinv.within_move range hP.2.1 move,
      hP.2.2.trans (hinv.movesOn range move)⟩) moves
  rw [run_eq_iterate]
  exact ⟨hkept.1, h.calls_iterate range moves hwork, hkept.2⟩

/-- A search that has not begun has numbered nothing. -/
theorem Numbered.idle {marks : Marks} (hsize : marks.size = graph.containers.size)
    (hquiet : ∀ c, ¬ marks.IsOpen c) (honward : marks.Onward graph) :
    Numbered graph ⟨marks, 0, [], []⟩ := by
  refine ⟨hsize, honward, fun c => ?_, .nil, fun c h => absurd h List.not_mem_nil⟩
  exact ⟨fun h => absurd h List.not_mem_nil, fun h => absurd h (hquiet c)⟩

/-- A search begins with the call on one container. -/
theorem Numbered.start {marks : Marks} (h : Numbered graph ⟨marks, 0, [], []⟩) {id : ContainerId}
    (hid : id < graph.containers.size) (hun : marks.get id = .unvisited) :
    (Search.visit graph ⟨marks, 0, [], []⟩ id).Invariant graph := by
  have hget := Marks.get_set (h.size ▸ hid) (.opened 0 0) id
  refine ⟨h.visit hid hun, ?_⟩
  exact Stacked.call (Call.start (hget.trans (if_pos rfl)) (fun _ h => by cases h) []) .nil

end Search

/-- No container is open, and those that are closed list what they reach. -/
structure Marks.Settled (graph : SelectionGraph) (marks : Marks) : Prop where
  size : marks.size = graph.containers.size
  quiet : ∀ c, ¬ marks.IsOpen c
  onward : marks.Onward graph
  exact : marks.Exact graph

/-- Once marks are settled, another search can begin. -/
theorem Marks.Settled.idle {graph : SelectionGraph} {marks : Marks} (h : marks.Settled graph) :
    Search.Numbered graph ⟨marks, 0, [], []⟩ :=
  .idle h.size h.quiet h.onward

/-- What was visited is closed. -/
theorem Marks.Settled.isClosed_of_visited {graph : SelectionGraph} {marks : Marks} (h : marks.Settled graph)
    {id : ContainerId} (hvisited : ¬ marks.isUnvisited id) : marks.IsClosed id := by
  rcases marks.trichotomy id with hid | hid | hid
  · exact absurd (Marks.isUnvisited_iff.2 hid) hvisited
  · exact absurd hid (h.quiet id)
  · exact hid

namespace SelectionGraph

open Search

variable {graph : SelectionGraph} {marks : Marks}

/-- A search has moves enough. -/
theorem work_visit_le (hsize : marks.size = graph.containers.size) {id : ContainerId}
    (hid : id < graph.containers.size) (hun : marks.get id = .unvisited) :
    work graph (Search.visit graph ⟨marks, 0, [], []⟩ id) ≤ graph.searchMoves := by
  have hvisit := unvisitedWork_open hsize hid hun 0
  have hle : unvisitedWork graph marks ≤
      ∑ c ∈ Finset.range graph.containers.size, ((graph.container c).spreads.length + 1) := by
    apply Finset.sum_le_sum
    intro c _
    split
    · exact Nat.le_refl _
    · exact Nat.zero_le _
  rw [Finset.sum_add_distrib, sum_containers graph fun c => c.spreads.length,
    ← Finset.card_eq_sum_ones, Finset.card_range] at hle
  simp only [work, Search.visit, searchMoves, List.foldr_cons, List.foldr_nil]
  omega

/-- The search from an unvisited container leaves every call. -/
theorem run_visit (range : graph.SpreadsInRange) (hsettled : marks.Settled graph) {id : ContainerId}
    (hid : id < graph.containers.size) (hun : marks.get id = .unvisited) {last : Search}
    (hlast : Search.run graph graph.searchMoves (Search.visit graph ⟨marks, 0, [], []⟩ id) = last) :
    last.Invariant graph ∧ last.calls = [] ∧ last.marks.Exact graph ∧ Within graph marks id last.marks ∧
      (Search.visit graph ⟨marks, 0, [], []⟩ id).marks.MovesOn last.marks := by
  have hsize : id < marks.size := hsettled.size ▸ hid
  have hget := Marks.get_set hsize (.opened 0 0)
  have hinv := hsettled.idle.start hid hun
  have hclosed : ∀ {c reached}, Marks.get (marks.setIfInBounds id (.opened 0 0)) c = .closed reached →
      marks.get c = .closed reached := by
    intro c reached hc
    have hne : id ≠ c := by
      rintro rfl
      exact Mark.noConfusion (hc.symm.trans ((hget id).trans (if_pos rfl)))
    exact (if_neg hne).symm.trans ((hget c).symm.trans hc)
  have hwithin : Within graph marks id (Search.visit graph ⟨marks, 0, [], []⟩ id).marks := by
    constructor
    · intro c hc
      by_cases heq : id = c
      · exact heq ▸ .refl id
      · exact absurd ((Marks.isOpen_congr ((hget c).trans (if_neg heq))).1 hc) (hsettled.quiet c)
    · rintro c ⟨reached, hc⟩
      exact .inl ⟨reached, hclosed hc⟩
  subst hlast
  exact hinv.run range graph.searchMoves (fun hc => hsettled.exact (hclosed hc)) hwithin
    (work_visit_le hsettled.size hid hun)

/-- A search from an unvisited container closes it and all that it reaches. -/
theorem connect_closes (range : graph.SpreadsInRange) (hsettled : marks.Settled graph) {id : ContainerId}
    (hid : id < graph.containers.size) (hun : marks.get id = .unvisited) :
    (graph.connect graph.searchMoves marks id).Settled graph ∧
      ∀ c, (graph.connect graph.searchMoves marks id).IsClosed c ↔
        marks.IsClosed c ∨ graph.Reaches id c := by
  obtain ⟨hlast, hcalls, hexact, hlastwithin, on⟩ := run_visit range hsettled hid hun rfl
  have hsize : id < marks.size := hsettled.size ▸ hid
  have hquiet : ∀ c, ¬ (graph.connect graph.searchMoves marks id).IsOpen c := hlast.quiet hcalls
  refine ⟨⟨hlast.size, hquiet, hlast.onward, hexact⟩, fun c => ⟨hlastwithin.closed, ?_⟩⟩
  rintro (hc | hc)
  · exact on.isClosed ((Marks.movesOn_open hsize hun 0).isClosed hc)
  · -- The first container is visited and not open, so it is closed.
    refine Marks.Onward.isClosed hlast.onward ?_ hc
    rcases (graph.connect graph.searchMoves marks id).trichotomy id with h | h | h
    · refine absurd h (on.visited ?_)
      show Marks.get (marks.setIfInBounds id (.opened 0 0)) id ≠ _
      rw [Marks.get_set hsize, if_pos rfl]
      exact Mark.noConfusion
    · exact absurd h (hquiet id)
    · exact h

end SelectionGraph

end SelectionMerge
