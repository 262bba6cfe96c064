import SelectionMerge.Selection.Search

/-!
# Resolved graphs

A graph is resolved by a search from each root and then from the sub-selections that the
fields found there have, until everything that a root leads to is closed. A resolved graph
answers which fields apply in a container and in the sub-selections of a set of fields, each
time as an ascending list.
-/

namespace SelectionMerge
set_option autoImplicit false

namespace SelectionGraph

/-- The sum of what is counted in each container. -/
def total (graph : SelectionGraph) (count : Container → Nat) : Nat :=
  graph.containers.foldl (fun sum c => sum + count c) 0

/-- The moves that a search can make: one for each spread, one for each container. -/
def searchMoves (graph : SelectionGraph) : Nat :=
  graph.containers.size + graph.total fun c => c.spreads.length

/-- Closes a container that has not been visited, with all that it reaches, in at most `moves`
moves. -/
def connect (graph : SelectionGraph) (moves : Nat) (marks : Marks) (id : ContainerId) : Marks :=
  (Search.run graph moves (Search.visit graph ⟨marks, 0, [], []⟩ id)).marks

/-- The containers of the sub-selections that stand in any of `ids`. -/
def nestedIn (graph : SelectionGraph) (ids : List ContainerId) : List ContainerId :=
  ids.flatMap fun id => (graph.container id).fields.filterMap graph.nested?

/-- Connects the containers of a worklist, each in at most `moves` moves, and then those of the
sub-selections they reach, as long as there are any that have not been visited. -/
def resolveFrom (graph : SelectionGraph) (moves : Nat) :
    Nat → List ContainerId → Marks → Marks
  | 0, _, marks => marks
  | _ + 1, [], marks => marks
  | turns + 1, id :: worklist, marks =>
    if marks.isUnvisited id then
      let marks := graph.connect moves marks id
      let nested := (graph.nestedIn (marks.reach id)).filter marks.isUnvisited
      resolveFrom graph moves turns (nested.reverse ++ worklist) marks
    else resolveFrom graph moves turns worklist marks

/-- The turns that a worklist starting from one container can take: that container and, for
each container that is connected, each field once more. -/
def resolveTurns (graph : SelectionGraph) : Nat :=
  graph.containers.size * graph.total (fun c => c.fields.length) + 1

/-- Closes a container and all that its selections lead to. -/
def resolve (graph : SelectionGraph) (marks : Marks) (root : ContainerId) : Marks :=
  graph.resolveFrom graph.searchMoves graph.resolveTurns [root] marks

/-- The ascending list of the fields that stand in any of the containers. -/
def fieldsOf (graph : SelectionGraph) (ids : List ContainerId) : List FieldId :=
  Ascending.unions (ids.map fun id => Ascending.ofList (graph.container id).fields)

end SelectionGraph

/-- A selection graph with the containers that each of its containers reaches. -/
structure ResolvedGraph where
  graph : SelectionGraph
  marks : Marks

/-- The graph after all roots are resolved, in order, from the marks that it was built with. -/
def SelectionGraph.resolved (graph : SelectionGraph) : ResolvedGraph :=
  ⟨graph, graph.roots.foldl graph.resolve graph.resolution⟩

namespace ResolvedGraph

/-- The field of that number. -/
def field? (resolved : ResolvedGraph) (id : FieldId) : Option SelectedField :=
  resolved.graph.fields[id]?

/-- The ascending list of the fields that apply at the level of a container. -/
def fieldSet (resolved : ResolvedGraph) (id : ContainerId) : List FieldId :=
  resolved.graph.fieldsOf (resolved.marks.reach id)

/-- The ascending list of the fields that apply in the sub-selections of `fields`. -/
def children (resolved : ResolvedGraph) (fields : List FieldId) : List FieldId :=
  resolved.graph.fieldsOf
    (Ascending.unions ((fields.filterMap resolved.graph.nested?).map resolved.marks.reach))

end ResolvedGraph

end SelectionMerge
