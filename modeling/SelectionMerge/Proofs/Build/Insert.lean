import SelectionMerge.Selection.Builder
import SelectionMerge.Proofs.Expansion.Occurrences

/-!
# The graph that a walk builds

A walk leaves every node that it enters, so the stack of open containers is after a selection
what it was before. Hence the builder comes to what plain recursion over the tree puts into a
graph: `SelectionGraph.insert` for a selection, `SelectionGraph.define` for a definition. It
never fails (`ofDocument_eq`).
-/

namespace SelectionMerge
set_option autoImplicit false

namespace SelectionGraph

mutual

/-- Puts a selection on the type `parent?` into the container `top`. -/
def insert (schema : Schema) (parent? : Option TypeDefinition) (top : ContainerId) (graph : SelectionGraph) :
    Selection → SelectionGraph
  | .field field selections =>
    let type? := schema.fieldType? parent? field.name
    if selections.isEmpty then graph.addField top ⟨field, type?, parent?, none⟩
    else
      insertAll schema (type?.map FieldType.definition) graph.containers.size
        (graph.addContainer.addField top ⟨field, type?, parent?, some graph.containers.size⟩) selections
  | .inline condition? selections =>
    insertAll schema (schema.inlineType? parent? condition?) graph.containers.size
      (graph.addContainer.addSpread top graph.containers.size) selections
  | .spread name => (graph.internFragment name).1.addSpread top (graph.internFragment name).2

/-- Puts selections on the type `parent?` into the container `top`, one after the other. -/
def insertAll (schema : Schema) (parent? : Option TypeDefinition) (top : ContainerId)
    (graph : SelectionGraph) : List Selection → SelectionGraph
  | [] => graph
  | selection :: selections =>
    insertAll schema parent? top (insert schema parent? top graph selection) selections

end

/-- Opens a root container for a definition, unless it is that of a fragment that has one, and puts
its selections there. -/
def define (schema : Schema) (graph : SelectionGraph) (definition : Definition) : SelectionGraph :=
  match definition with
  | .operation _ =>
    insertAll schema (definition.parent? schema) graph.containers.size
      (graph.addContainer.addRoot graph.containers.size) definition.selections
  | .fragment fragment =>
    insertAll schema (definition.parent? schema) (graph.internFragment fragment.name).2
      ((graph.internFragment fragment.name).1.addRoot (graph.internFragment fragment.name).2)
      definition.selections
  | .typeSystem _ => graph

end SelectionGraph

namespace GraphBuilder

variable {builder entered nested after : GraphBuilder}

/-- What a step of a walk comes to. -/
def Runs (step : StateT GraphBuilder (Except Defect) Unit) (builder after : GraphBuilder) : Prop :=
  step.run builder = .ok ((), after)

theorem runs_pure : Runs (pure ()) builder builder := rfl

theorem runs_bind {first next : StateT GraphBuilder (Except Defect) Unit}
    (hfirst : Runs first builder nested) (hnext : Runs next nested after) :
    Runs (do first; next) builder after := by
  unfold Runs at *
  rw [StateT.run_bind, hfirst]
  exact hnext

theorem runs_enter {visit : Visit} (h : builder.enter visit = .ok after) :
    Runs (visitor.enter visit) builder after := by
  unfold Runs visitor
  simp only [StateT.run_bind, StateT.run_get, pure_bind, h]
  rfl

theorem runs_leave {visit : Visit} (h : builder.leave visit = .ok after) :
    Runs (visitor.leave visit) builder after := by
  unfold Runs visitor
  simp only [StateT.run_bind, StateT.run_get, pure_bind, h]
  rfl

/-- A node is entered, what is nested in it is walked, and the node is left. -/
theorem runs_around {visit : Visit} {inside : StateT GraphBuilder (Except Defect) Unit}
    {left : GraphBuilder} (henter : builder.enter visit = .ok entered)
    (hinside : Runs inside entered nested) (hleave : nested.leave visit = .ok left) :
    Runs (visitor.around visit inside) builder left :=
  runs_bind (runs_enter henter) (runs_bind hinside (runs_leave hleave))

/-- Walking selections inserts them into the innermost open container. -/
theorem runs_walkSelections (schema : Schema) (parent? : Option TypeDefinition)
    (selections : List Selection) (graph : SelectionGraph) (top : ContainerId) (outer : List ContainerId) :
    Runs (visitor.walkSelections schema parent? selections) ⟨graph, top :: outer⟩
      ⟨graph.insertAll schema parent? top selections, top :: outer⟩ := by
  induction selections using selections_induction generalizing parent? graph top outer with
  | nil => exact runs_pure
  | field field selections later ih ih' =>
    refine runs_bind ?_ (ih' parent? _ top outer)
    unfold Visitor.walkSelection SelectionGraph.insert
    cases hempty : selections.isEmpty with
    | true =>
      obtain rfl := List.isEmpty_iff.1 hempty
      exact runs_around rfl runs_pure rfl
    | false =>
      have henter : (⟨graph, top :: outer⟩ : GraphBuilder).enter
          (.field field selections (schema.fieldType? parent? field.name) parent?) =
          .ok ⟨graph.addContainer.addField top ⟨field, schema.fieldType? parent? field.name, parent?,
            some graph.containers.size⟩, graph.containers.size :: top :: outer⟩ := by
        show Except.ok (GraphBuilder.select _ _ _ _ _ _) = _
        unfold select
        rw [hempty]
        rfl
      refine runs_around henter (ih _ _ _ _) ?_
      show (if selections.isEmpty then Except.ok _ else _) = _
      rw [hempty]
      rfl
  | inline condition? selections later ih ih' =>
    refine runs_bind ?_ (ih' parent? _ top outer)
    exact runs_around rfl (ih _ _ _ _) rfl
  | spread name later ih =>
    refine runs_bind ?_ (ih parent? _ top outer)
    exact runs_around rfl runs_pure rfl

/-- Walking a definition adds it to the graph. -/
theorem runs_walkDefinition (schema : Schema) (definition : Definition) (graph : SelectionGraph) :
    Runs (visitor.walkDefinition schema definition) ⟨graph, []⟩ ⟨graph.define schema definition, []⟩ := by
  cases definition with
  | operation operation => exact runs_around rfl (runs_walkSelections _ _ _ _ _ _) rfl
  | fragment fragment => exact runs_around rfl (runs_walkSelections _ _ _ _ _ _) rfl
  | typeSystem definition => exact runs_pure

theorem runs_walk (schema : Schema) (definitions : List Definition) (graph : SelectionGraph) :
    Runs (visitor.walk schema definitions) ⟨graph, []⟩
      ⟨definitions.foldl (SelectionGraph.define schema) graph, []⟩ := by
  induction definitions generalizing graph with
  | nil => exact runs_pure
  | cons definition definitions ih =>
    exact runs_bind (runs_walkDefinition schema definition graph) (ih _)

end GraphBuilder

/-- The graph of a document has its definitions, one after the other. -/
theorem SelectionGraph.ofDocument_eq (schema : Schema) (definitions : List Definition) :
    ofDocument schema definitions = .ok (definitions.foldl (define schema) empty) := by
  have hruns := GraphBuilder.runs_walk schema definitions empty
  unfold ofDocument
  show ((GraphBuilder.visitor.walk schema definitions).run GraphBuilder.start >>= _) = _
  rw [show (GraphBuilder.visitor.walk schema definitions).run GraphBuilder.start = _ from hruns]
  rfl

end SelectionMerge
