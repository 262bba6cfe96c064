import SelectionMerge.Proofs.Reach.Closure

/-!
# Resolving comes to an end

The search of `resolve` counts its moves down and its worklist the turns. Neither count is what ends them:
`Search.Halts` says that moves come to a search without calls, and `Empties` that the turns of a worklist
come to its end, both without a bound. The main statement is `resolve_empties`: after any roots were
resolved, the worklist of any other one is emptied, by searches that halt, and what it comes to is what
`resolve` gives.
-/

namespace SelectionMerge
set_option autoImplicit false

namespace Search

variable {graph : SelectionGraph} {search : Search}

/-- Moves come to the last search, which has no call left. -/
def Halts (graph : SelectionGraph) (search last : Search) : Prop :=
  (∃ moves, (Search.step graph)^[moves] search = last) ∧ last.calls = []

end Search

namespace SelectionGraph

variable {graph : SelectionGraph} {marks after : Marks}

/-- The turns of a worklist: an item that was visited is passed over; from one that was not, a search runs
until it halts, and what it finds is put on the list. -/
inductive Empties (graph : SelectionGraph) : List ContainerId → Marks → Marks → Prop where
  | done {marks : Marks} : Empties graph [] marks marks
  | skip {id : ContainerId} {worklist : List ContainerId} {marks after : Marks} :
    marks.isUnvisited id = false → Empties graph worklist marks after →
      Empties graph (id :: worklist) marks after
  | search {id : ContainerId} {worklist : List ContainerId} {marks after : Marks} {last : Search} :
    marks.isUnvisited id = true → Search.Halts graph (Search.visit graph ⟨marks, 0, [], []⟩ id) last →
      Empties graph (graph.found last.marks id ++ worklist) last.marks after →
      Empties graph (id :: worklist) marks after

/-- The search from a container that is not visited halts, at the marks that `connect` gives. -/
theorem connect_halts (range : graph.SpreadsInRange) (hidle : Search.Numbered graph ⟨marks, 0, [], []⟩)
    {id : ContainerId} (hid : id < graph.containers.size) (hun : marks.get id = .unvisited) :
    ∃ last, Search.Halts graph (Search.visit graph ⟨marks, 0, [], []⟩ id) last ∧
      last.marks = graph.connect graph.searchMoves marks id := by
  have hcalls := (hidle.start hid hun).calls_iterate range graph.searchMoves (work_visit_le hidle.size hid hun)
  exact ⟨_, ⟨⟨graph.searchMoves, rfl⟩, hcalls⟩, by rw [← Search.run_eq_iterate]; rfl⟩

/-- Turns enough empty a worklist, and the count of them does not matter. -/
theorem Pending.empties (range : graph.InRange) (turns : Nat) {worklist : List ContainerId}
    (h : Pending graph marks worklist) (hturns : graph.budget marks worklist ≤ turns) :
    Empties graph worklist marks (graph.resolveFrom graph.searchMoves turns worklist marks) := by
  induction turns generalizing worklist marks with
  | zero =>
    have hnil : worklist = [] := List.eq_nil_of_length_eq_zero (by unfold budget at hturns; omega)
    subst hnil
    exact .done
  | succ turns ih =>
    cases worklist with
    | nil => exact .done
    | cons id worklist =>
      unfold SelectionGraph.resolveFrom
      split
      next hunvisited =>
        have hun := Marks.isUnvisited_iff.1 hunvisited
        obtain ⟨last, hhalts, hmarks⟩ := connect_halts range.spreads h.settled.idle (h.inRange id (.head _)) hun
        have hless := h.budget_search range hun
        refine .search hunvisited hhalts ?_
        rw [hmarks]
        exact ih (h.search range hun) (by omega)
      next hvisited =>
        refine .skip (Bool.eq_false_iff.2 hvisited) (ih (h.skip ?_) ?_)
        · exact h.settled.isClosed_of_visited hvisited
        · simp only [budget, List.length_cons] at hturns ⊢
          omega

/-- Once roots are resolved, resolving any other one comes to an end, and to what `resolve` gives. -/
theorem resolve_empties (range : graph.InRange) {earlier : List ContainerId}
    (hearlier : ∀ root ∈ earlier, root < graph.containers.size) {root : ContainerId}
    (hroot : root < graph.containers.size) :
    Empties graph [root] (graph.marksAfter earlier) (graph.resolve (graph.marksAfter earlier) root) := by
  have hpending := (foldl_resolve range earlier (pending_unresolved graph) hearlier).pending
  exact (hpending.root hroot).empties range graph.resolveTurns budget_root_le

end SelectionGraph

end SelectionMerge
