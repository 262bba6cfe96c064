import SelectionMerge.Ordered
import SelectionMerge.Selection.Graph

/-!
# What a container reaches

The fields that apply at the level of a container are those of every container that spreads
lead to from it. Spreads may run in circles, so the containers reached are found component
by component: a search numbers containers as it opens them and keeps, for each open one, the
lowest number known to be reachable from it. A container whose lowest number is its own
completes a component. Every other container that the component spreads to is closed by
then, so its members reach themselves and what those reach.

The search is a machine: `Search.step` makes one move on an explicit stack of calls, and
`Search.run` repeats it as often as there are spreads to follow and calls to leave.
-/

namespace SelectionMerge
set_option autoImplicit false

namespace Marks

/-- The mark of a container. -/
def get (marks : Marks) (id : ContainerId) : Mark :=
  marks[id]?.getD .unvisited

/-- Whether a container has not been visited. -/
def isUnvisited (marks : Marks) (id : ContainerId) : Bool :=
  match marks.get id with
  | .unvisited => true
  | _ => false

/-- The containers reached from a closed container, none from others. -/
def closedReach (marks : Marks) (id : ContainerId) : List ContainerId :=
  match marks.get id with
  | .closed reached => reached
  | _ => []

/-- The containers whose fields apply at the level of a container, itself included. A
container that is not closed has its own fields only. -/
def reach (marks : Marks) (id : ContainerId) : List ContainerId :=
  match marks.get id with
  | .closed reached => reached
  | _ => [id]

/-- Lowers the lowest number of an open container to `bound`. -/
def lower (marks : Marks) (id : ContainerId) (bound : Nat) : Marks :=
  match marks.get id with
  | .opened order lowest => marks.setIfInBounds id (.opened order (min lowest bound))
  | _ => marks

/-- Closes containers that all reach the same ones. -/
def close (marks : Marks) (members reached : List ContainerId) : Marks :=
  members.foldl (fun marks id => marks.setIfInBounds id (.closed reached)) marks

end Marks

/-- The state of a search: the marks, the number for the next container, the stack of open
containers, and the stack of calls, each with the spreads it still has to follow. Both
stacks have their top first. -/
structure Search where
  marks : Marks
  next : Nat
  opened : List ContainerId
  calls : List (ContainerId × List ContainerId)
  deriving DecidableEq, Repr

/-- Splits a stack after the first occurrence of `id`. -/
def popThrough (id : ContainerId) : List ContainerId → List ContainerId × List ContainerId
  | [] => ([], [])
  | top :: stack =>
    if top = id then ([top], stack)
    else
      let (members, rest) := popThrough id stack
      (top :: members, rest)

namespace Search

/-- Opens a container and calls the search on it. -/
def visit (graph : SelectionGraph) (search : Search) (id : ContainerId) : Search where
  marks := search.marks.setIfInBounds id (.opened search.next search.next)
  next := search.next + 1
  opened := id :: search.opened
  calls := (id, (graph.container id).spreads) :: search.calls

/-- Closes the component whose first container is `id`. -/
def complete (graph : SelectionGraph) (search : Search) (id : ContainerId) : Search :=
  let (members, rest) := popThrough id search.opened
  let beyond := members.flatMap fun member =>
    (graph.container member).spreads.map search.marks.closedReach
  let reached := Ascending.union (Ascending.ofList members) (Ascending.unions beyond)
  { search with marks := search.marks.close members reached, opened := rest }

/-- Returns from the call on `id` to `callers`, whose first learns the lowest number. -/
def leave (graph : SelectionGraph) (search : Search) (id : ContainerId)
    (callers : List (ContainerId × List ContainerId)) : Search :=
  match search.marks.get id with
  | .opened order lowest =>
    let marks := match callers with
      | (caller, _) :: _ => search.marks.lower caller lowest
      | [] => search.marks
    let search := { search with marks, calls := callers }
    if lowest = order then search.complete graph id else search
  | _ => { search with calls := callers }

/-- One move: follow the next spread of the innermost call, or return from it. -/
def step (graph : SelectionGraph) (search : Search) : Search :=
  match search.calls with
  | [] => search
  | (id, []) :: callers => search.leave graph id callers
  | (id, target :: later) :: callers =>
    let search := { search with calls := (id, later) :: callers }
    match search.marks.get target with
    | .unvisited => search.visit graph target
    | .opened order _ => { search with marks := search.marks.lower id order }
    | .closed _ => search

/-- Makes at most `moves` moves, and none once no call is left. -/
def run (graph : SelectionGraph) : Nat → Search → Search
  | 0, search => search
  | moves + 1, search =>
    if search.calls.isEmpty then search else run graph moves (search.step graph)

end Search

end SelectionMerge
