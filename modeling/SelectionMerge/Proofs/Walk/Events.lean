import SelectionMerge.Proofs.Expansion.Occurrences

/-!
# The events of a walk

A visitor gets to see a document as a sequence of events: nodes are entered and left. The sequence depends on
the document only and not on the visitor, whatever the visitor does at an event: a walk handles it event by
event, in any monad (`Visitor.walk_eq`). It is well bracketed, with the nodes in the order of the document. So a
visitor that fails has received the beginning of the sequence, up to the event at which it failed, and the walk
ends there (`walk_is_bracketed`).
-/

namespace SelectionMerge
set_option autoImplicit false

section Nodes

/-- What a visitor is told. -/
inductive Event where
  | enter (visit : Visit)
  | leave (visit : Visit)

/-- A node of an executable definition. -/
inductive Node where
  | operation (operation : Operation)
  | fragment (fragment : Fragment)
  | selection (selection : Selection)

/-- The node that is visited. -/
def Visit.node : Visit → Node
  | .operation o => .operation o
  | .fragment f => .fragment f
  | .inline condition? selections => .selection (.inline condition? selections)
  | .spread name => .selection (.spread name)
  | .field f selections _ _ => .selection (.field f selections)

mutual

/-- A selection and the nodes nested in it, in the order of the document. -/
def Selection.nodes : Selection → List Node
  | .field f selections => .selection (.field f selections) :: nodesIn selections
  | .inline condition? selections => .selection (.inline condition? selections) :: nodesIn selections
  | .spread name => [.selection (.spread name)]

/-- The nodes in a selection set, in the order of the document. -/
def nodesIn : List Selection → List Node
  | [] => []
  | selection :: selections => selection.nodes ++ nodesIn selections

end

/-- The nodes nested in a node, in the order of the document. -/
def Node.nested : Node → List Node
  | .operation o => nodesIn o.selections
  | .fragment f => nodesIn f.selections
  | .selection (.field _ selections) => nodesIn selections
  | .selection (.inline _ selections) => nodesIn selections
  | .selection (.spread _) => []

/-- The nodes of a definition, in the order of the document. A definition of a type has none. -/
def Definition.nodes : Definition → List Node
  | .operation o => .operation o :: nodesIn o.selections
  | .fragment f => .fragment f :: nodesIn f.selections
  | .typeSystem _ => []

/-- The nodes of a document in its order. -/
def documentNodes (definitions : List Definition) : List Node :=
  definitions.flatMap Definition.nodes

end Nodes

section Events

/-- The visits that enter a node, in their order. -/
def entered (events : List Event) : List Visit :=
  events.filterMap fun event => match event with
    | .enter visit => some visit
    | .leave _ => none

/-- The visits that leave a node, in their order. -/
def left (events : List Event) : List Visit :=
  events.filterMap fun event => match event with
    | .enter _ => none
    | .leave visit => some visit

/-- Each node that is entered is left again by the same visit, and in between stand the events of just the
nodes nested in it, entered in the order of the document. -/
inductive Bracketed : List Event → Prop where
  | nil : Bracketed []
  | node {visit : Visit} {inside after : List Event} :
    Bracketed inside → (entered inside).map Visit.node = visit.node.nested → Bracketed after →
      Bracketed (.enter visit :: (inside ++ .leave visit :: after))

/-- A node is entered, `inside` happens, and the node is left. -/
def bracket (visit : Visit) (inside : List Event) : List Event :=
  .enter visit :: (inside ++ [.leave visit])

mutual

/-- The events of a selection on the type `parent?`. -/
def Selection.events (schema : Schema) (parent? : Option TypeDefinition) : Selection → List Event
  | .field field selections =>
    let type? := schema.fieldType? parent? field.name
    bracket (.field field selections type? parent?)
      (eventsIn schema (type?.map FieldType.definition) selections)
  | .inline condition? selections =>
    bracket (.inline condition? selections) (eventsIn schema (schema.inlineType? parent? condition?) selections)
  | .spread fragment => bracket (.spread fragment) []

/-- The events of a selection set on the type `parent?`. -/
def eventsIn (schema : Schema) (parent? : Option TypeDefinition) : List Selection → List Event
  | [] => []
  | selection :: selections => selection.events schema parent? ++ eventsIn schema parent? selections

end

/-- The events of a definition. -/
def Definition.events (schema : Schema) : Definition → List Event
  | .operation o => bracket (.operation o) (eventsIn schema (schema.root? o.kind) o.selections)
  | .fragment f => bracket (.fragment f) (eventsIn schema (schema.type? f.condition) f.selections)
  | .typeSystem _ => []

/-- The events of a document. -/
def documentEvents (schema : Schema) (definitions : List Definition) : List Event :=
  definitions.flatMap (Definition.events schema)

variable {first second inside : List Event} {visit : Visit}

theorem entered_append : entered (first ++ second) = entered first ++ entered second :=
  List.filterMap_append

theorem entered_bracket : entered (bracket visit inside) = visit :: entered inside := by
  simp [entered, bracket]

namespace Bracketed

theorem append (hfirst : Bracketed first) (hsecond : Bracketed second) : Bracketed (first ++ second) := by
  induction hfirst with
  | nil => exact hsecond
  | node hinside hnested _ _ ih =>
    rw [List.cons_append, List.append_assoc, List.cons_append]
    exact .node hinside hnested ih

theorem bracket (hinside : Bracketed inside) (hnested : (entered inside).map Visit.node = visit.node.nested) :
    Bracketed (bracket visit inside) :=
  .node hinside hnested .nil

/-- Nodes are left as often as they are entered, by the same visits. -/
theorem perm_left (h : Bracketed first) : (left first).Perm (entered first) := by
  induction h with
  | nil => exact .refl _
  | @node visit inside after _ _ _ ih ih' =>
    have hleft : left (.enter visit :: (inside ++ .leave visit :: after)) = left inside ++ visit :: left after := by
      simp [left]
    have hentered : entered (.enter visit :: (inside ++ .leave visit :: after)) =
        visit :: (entered inside ++ entered after) := by
      simp [entered]
    rw [hleft, hentered]
    exact List.perm_middle.trans ((ih.append ih').cons visit)

end Bracketed

/-- The nodes of a selection set are entered in its order. -/
theorem entered_eventsIn (schema : Schema) (parent? : Option TypeDefinition) (selections : List Selection) :
    (entered (eventsIn schema parent? selections)).map Visit.node = nodesIn selections := by
  induction selections using selections_induction generalizing parent? with
  | nil => rfl
  | field field selections later ih ih' | inline condition? selections later ih ih' =>
    rw [eventsIn, Selection.events, entered_append, entered_bracket, List.map_append, List.map_cons, ih, ih']
    rfl
  | spread fragment later ih =>
    rw [eventsIn, Selection.events, entered_append, entered_bracket, List.map_append, List.map_cons, ih]
    rfl

/-- The events of a selection set are well bracketed. -/
theorem bracketed_eventsIn (schema : Schema) (parent? : Option TypeDefinition) (selections : List Selection) :
    Bracketed (eventsIn schema parent? selections) := by
  induction selections using selections_induction generalizing parent? with
  | nil => exact .nil
  | field field selections later ih ih' | inline condition? selections later ih ih' =>
    rw [eventsIn, Selection.events]
    exact (Bracketed.bracket (ih _) (entered_eventsIn ..)).append (ih' parent?)
  | spread fragment later ih =>
    rw [eventsIn, Selection.events]
    exact (Bracketed.bracket .nil rfl).append (ih parent?)

theorem entered_definition (schema : Schema) (definition : Definition) :
    (entered (definition.events schema)).map Visit.node = definition.nodes := by
  cases definition with
  | operation operation | fragment fragment =>
    rw [Definition.events, entered_bracket, List.map_cons, entered_eventsIn]
    rfl
  | typeSystem definition => rfl

theorem bracketed_definition (schema : Schema) (definition : Definition) :
    Bracketed (definition.events schema) := by
  cases definition with
  | operation operation | fragment fragment =>
    exact (bracketed_eventsIn ..).bracket (entered_eventsIn ..)
  | typeSystem definition => exact .nil

/-- The nodes of a document are entered in its order. -/
theorem entered_documentEvents (schema : Schema) (definitions : List Definition) :
    (entered (documentEvents schema definitions)).map Visit.node = documentNodes definitions := by
  unfold documentEvents documentNodes
  induction definitions with
  | nil => rfl
  | cons definition definitions ih =>
    rw [List.flatMap_cons, List.flatMap_cons, entered_append, List.map_append, entered_definition, ih]

/-- The events of a document are well bracketed. -/
theorem bracketed_documentEvents (schema : Schema) (definitions : List Definition) :
    Bracketed (documentEvents schema definitions) := by
  unfold documentEvents
  induction definitions with
  | nil => exact .nil
  | cons definition definitions ih =>
    rw [List.flatMap_cons]
    exact (bracketed_definition schema definition).append ih

end Events

namespace Visitor

section AnyMonad

variable {m : Type → Type} [Monad m]

/-- What the visitor does at an event. -/
def receive (visitor : Visitor m) : Event → m Unit
  | .enter visit => visitor.enter visit
  | .leave visit => visitor.leave visit

/-- What the visitor does at one event after the other. -/
def receiveAll (visitor : Visitor m) (events : List Event) : m Unit :=
  events.forM visitor.receive

variable [LawfulMonad m] (visitor : Visitor m)

theorem receiveAll_append (first second : List Event) :
    visitor.receiveAll (first ++ second) = (do visitor.receiveAll first; visitor.receiveAll second) := by
  simp [receiveAll]

theorem receiveAll_bracket (visit : Visit) (inside : List Event) :
    visitor.receiveAll (bracket visit inside) = visitor.around visit (visitor.receiveAll inside) := by
  simp [receiveAll, bracket, around, receive]

/-- Walking selections is receiving their events. -/
theorem walkSelections_eq (schema : Schema) (parent? : Option TypeDefinition) (selections : List Selection) :
    visitor.walkSelections schema parent? selections = visitor.receiveAll (eventsIn schema parent? selections) := by
  induction selections using selections_induction generalizing parent? with
  | nil => rfl
  | field field selections later ih ih' | inline condition? selections later ih ih' =>
    rw [walkSelections, walkSelection, eventsIn, Selection.events, receiveAll_append, receiveAll_bracket, ih, ih']
  | spread fragment later ih =>
    rw [walkSelections, walkSelection, eventsIn, Selection.events, receiveAll_append, receiveAll_bracket, ih]
    rfl

theorem walkDefinition_eq (schema : Schema) (definition : Definition) :
    visitor.walkDefinition schema definition = visitor.receiveAll (definition.events schema) := by
  cases definition with
  | operation o | fragment f =>
    rw [walkDefinition, Definition.events, receiveAll_bracket, walkSelections_eq]
  | typeSystem definition => rfl

/-- **Walks have events.** To walk a document is to receive its events one after the other. -/
theorem walk_eq (schema : Schema) (definitions : List Definition) :
    visitor.walk schema definitions = visitor.receiveAll (documentEvents schema definitions) := by
  unfold documentEvents
  induction definitions with
  | nil => rfl
  | cons definition definitions ih =>
    rw [List.flatMap_cons, receiveAll_append, ← walkDefinition_eq, ← ih]
    rfl

end AnyMonad

section Failing

variable {ε σ : Type}

/-- What comes of an action that may fail, from a state on. A failure keeps the state. -/
def outcome (action : ExceptT ε (StateM σ) Unit) (state : σ) : Except ε Unit × σ :=
  action.run.run state

/-- The visitor `visitor` receives an event, which is noted behind those received before. -/
def receiveNoted (visitor : Visitor (ExceptT ε (StateM σ))) (event : Event) :
    ExceptT ε (StateM (σ × List Event)) Unit :=
  ExceptT.mk fun (state, received) =>
    let (result, after) := outcome (visitor.receive event) state
    (result, after, received ++ [event])

/-- The visitor with the events that it has received beside its own state. -/
def watched (visitor : Visitor (ExceptT ε (StateM σ))) : Visitor (ExceptT ε (StateM (σ × List Event))) where
  enter visit := visitor.receiveNoted (.enter visit)
  leave visit := visitor.receiveNoted (.leave visit)

/-- The visitor fails at no event. -/
def NeverFails (visitor : Visitor (ExceptT ε (StateM σ))) : Prop :=
  ∀ event state, ∃ after, outcome (visitor.receive event) state = (.ok (), after)

/-- The visitor fails when it receives event number `n`, counted from zero, and not before. -/
def FailsAt (visitor : Visitor (ExceptT ε (StateM σ))) (events : List Event) (state : σ) (n : Nat) (error : ε)
    (after : σ) : Prop :=
  ∃ event before, events[n]? = some event ∧
    outcome (visitor.receiveAll (events.take n)) state = (.ok (), before) ∧
    outcome (visitor.receive event) before = (.error error, after)

variable {first next : ExceptT ε (StateM σ) Unit} {state middle after : σ} {error : ε}

theorem outcome_seq_ok (h : outcome first state = (.ok (), middle)) :
    outcome (do first; next) state = outcome next middle := by
  unfold outcome at *
  rw [ExceptT.run_bind, StateT.run_bind, h]
  rfl

theorem outcome_seq_error (h : outcome first state = (.error error, after)) :
    outcome (do first; next) state = (.error error, after) := by
  unfold outcome at *
  rw [ExceptT.run_bind, StateT.run_bind, h]
  rfl

variable {visitor : Visitor (ExceptT ε (StateM σ))} {events received : List Event} {event : Event}

theorem outcome_watched_receive (result : Except ε Unit)
    (h : outcome (visitor.receive event) state = (result, after)) :
    outcome (visitor.watched.receive event) (state, received) = (result, after, received ++ [event]) := by
  have hnoted : outcome (visitor.receiveNoted event) (state, received) = (result, after, received ++ [event]) := by
    show ((outcome (visitor.receive event) state).1, (outcome (visitor.receive event) state).2, _) = _
    rw [h]
  cases event <;> exact hnoted

/-- A watched visitor does what it does unwatched, and notes the events. -/
theorem outcome_watched_receiveAll (h : outcome (visitor.receiveAll events) state = (.ok (), after)) :
    outcome (visitor.watched.receiveAll events) (state, received) = (.ok (), after, received ++ events) := by
  induction events generalizing state received with
  | nil =>
    cases h
    rw [List.append_nil]
    rfl
  | cons event events ih =>
    show outcome (do visitor.watched.receive event; visitor.watched.receiveAll events) _ = _
    have hboth : outcome (do visitor.receive event; visitor.receiveAll events) state = (.ok (), after) := h
    rcases hfirst : outcome (visitor.receive event) state with ⟨_ | ⟨⟩, middle⟩
    · rw [outcome_seq_error hfirst] at hboth
      cases hboth
    · rw [outcome_seq_ok hfirst] at hboth
      rw [outcome_seq_ok (outcome_watched_receive (.ok ()) hfirst), ih hboth, List.append_assoc]
      rfl

theorem NeverFails.receiveAll (h : visitor.NeverFails) (events : List Event) (state : σ) :
    ∃ after, outcome (visitor.receiveAll events) state = (.ok (), after) := by
  induction events generalizing state with
  | nil => exact ⟨state, rfl⟩
  | cons event events ih =>
    obtain ⟨middle, hfirst⟩ := h event state
    obtain ⟨after, hlater⟩ := ih middle
    exact ⟨after, (outcome_seq_ok hfirst).trans hlater⟩

variable {n : Nat}

/-- Nothing is received behind a failure. -/
theorem FailsAt.receiveAll (h : visitor.FailsAt events state n error after) :
    outcome (visitor.receiveAll events) state = (.error error, after) := by
  obtain ⟨event, before, hevent, hbefore, hfails⟩ := h
  obtain ⟨hlt, rfl⟩ := List.getElem?_eq_some_iff.1 hevent
  have hsplit : events = events.take n ++ events[n] :: events.drop (n + 1) := by
    rw [← List.drop_eq_getElem_cons hlt, List.take_append_drop]
  rw [hsplit, receiveAll_append, outcome_seq_ok hbefore]
  exact outcome_seq_error hfails

/-- A visitor that stops with an error has failed at an event. -/
theorem exists_failsAt (h : outcome (visitor.receiveAll events) state = (.error error, after)) :
    ∃ n, visitor.FailsAt events state n error after := by
  induction events generalizing state with
  | nil => cases h
  | cons event events ih =>
    have hboth : outcome (do visitor.receive event; visitor.receiveAll events) state = (.error error, after) := h
    rcases hfirst : outcome (visitor.receive event) state with ⟨_ | ⟨⟩, middle⟩
    · rw [outcome_seq_error hfirst] at hboth
      exact ⟨0, event, state, rfl, rfl, hfirst.trans hboth⟩
    · rw [outcome_seq_ok hfirst] at hboth
      obtain ⟨n, failing, before, hfailing, hbefore, hfails⟩ := ih hboth
      exact ⟨n + 1, failing, before, hfailing, (outcome_seq_ok hfirst).trans hbefore, hfails⟩

/-- A watched visitor fails where it does unwatched, and has noted the events up to that one. -/
theorem FailsAt.watched (h : visitor.FailsAt events state n error after) :
    visitor.watched.FailsAt events (state, []) n error (after, events.take (n + 1)) := by
  obtain ⟨event, before, hevent, hbefore, hfails⟩ := h
  refine ⟨event, (before, events.take n), hevent, outcome_watched_receiveAll hbefore, ?_⟩
  rw [outcome_watched_receive (.error error) hfails, List.take_add_one, hevent]
  rfl

end Failing

end Visitor

/-- **Walks are well bracketed and stop at the first failure.** The events of a document enter each node of its
operations and fragment definitions once, in the order of the document, and leave it once by the same visit,
with the events of just the nodes nested in it in between. A visitor that never fails receives all of them. The
walk fails if and only if the visitor fails at some event, with the error of that event, and the visitor has
received the events up to that one then and no other. -/
theorem walk_is_bracketed {ε σ : Type} (visitor : Visitor (ExceptT ε (StateM σ))) (schema : Schema)
    (definitions : List Definition) (state : σ) :
    (Bracketed (documentEvents schema definitions) ∧
      (entered (documentEvents schema definitions)).map Visit.node = documentNodes definitions ∧
      (left (documentEvents schema definitions)).Perm (entered (documentEvents schema definitions))) ∧
    (visitor.NeverFails → ∃ after,
      Visitor.outcome (visitor.walk schema definitions) state = (.ok (), after) ∧
      Visitor.outcome (visitor.watched.walk schema definitions) (state, []) =
        (.ok (), after, documentEvents schema definitions)) ∧
    ∀ error after,
      (Visitor.outcome (visitor.walk schema definitions) state = (.error error, after) ↔
        ∃ n, visitor.FailsAt (documentEvents schema definitions) state n error after) ∧
      ∀ n, visitor.FailsAt (documentEvents schema definitions) state n error after →
        Visitor.outcome (visitor.watched.walk schema definitions) (state, []) =
          (.error error, after, (documentEvents schema definitions).take (n + 1)) := by
  have hbracketed := bracketed_documentEvents schema definitions
  refine ⟨⟨hbracketed, entered_documentEvents schema definitions, hbracketed.perm_left⟩, ?_, ?_⟩
  · intro hnever
    obtain ⟨after, hafter⟩ := hnever.receiveAll (documentEvents schema definitions) state
    rw [Visitor.walk_eq, Visitor.walk_eq]
    exact ⟨after, hafter, Visitor.outcome_watched_receiveAll hafter⟩
  · intro error after
    rw [Visitor.walk_eq, Visitor.walk_eq]
    refine ⟨⟨Visitor.exists_failsAt, ?_⟩, fun n hfails => hfails.watched.receiveAll⟩
    rintro ⟨n, hfails⟩
    exact hfails.receiveAll

/-- Counts to `limit` and fails then. -/
def countTo (limit : Nat) : ExceptT String (StateM Nat) Unit := do
  if (← get) = limit then throw "limit"
  modify (· + 1)

/-- A visitor that counts the events that it receives. -/
def counting (limit : Nat) : Visitor (ExceptT String (StateM Nat)) where
  enter _ := countTo limit
  leave _ := countTo limit

/-- An operation with a field and a spread. -/
def briefDocument : List Definition :=
  [.operation ⟨.query, none,
    [.field ⟨none, ⟨"a", Eq.refl true⟩, [], none⟩ [], .spread ⟨"F", Eq.refl true⟩]⟩]

/-- A walk of six events that fails on leaving the field has entered the operation and the field before. -/
theorem walk_fails_on_leaving : ∃ visit,
    Visitor.outcome ((counting 2).watched.walk ⟨[], []⟩ briefDocument) (0, []) =
      (.error "limit", 2, [.enter (.operation ⟨.query, none,
        [.field ⟨none, ⟨"a", Eq.refl true⟩, [], none⟩ [], .spread ⟨"F", Eq.refl true⟩]⟩),
        .enter visit, .leave visit]) ∧
    (documentEvents ⟨[], []⟩ briefDocument).length = 6 := by
  have hfails : (counting 2).FailsAt (documentEvents ⟨[], []⟩ briefDocument) 0 2 "limit" 2 :=
    ⟨_, 2, rfl, rfl, rfl⟩
  exact ⟨_, ((walk_is_bracketed (counting 2) ⟨[], []⟩ briefDocument 0).2.2 "limit" 2).2 2 hfails, rfl⟩

end SelectionMerge
