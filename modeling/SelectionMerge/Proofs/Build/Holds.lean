import SelectionMerge.Proofs.Build.Grows

/-!
# What stands in a container

`SelectionGraph.Holds` says that a container has a selection set in it: its fields by their
numbers, its inline fragments as containers that it spreads to, its fragment spreads, and the
sub-selections of its fields in containers of their own. What a container holds it keeps when
the graph grows. The graph of a document holds every definition in a root (`represents_ofDocument`).
-/

namespace SelectionMerge
set_option autoImplicit false

namespace SelectionGraph

mutual

/-- The selection, whose first field has the given number, stands in the container. -/
def HoldsOne (graph : SelectionGraph) : ContainerId → Nat → Selection → Prop
  | container, number, .field _ selections =>
    number ∈ (graph.container container).fields ∧
      (selections = [] ∨
        ∃ below, graph.nested? number = some below ∧ Holds graph below (number + 1) selections)
  | container, number, .inline _ selections =>
    ∃ inside, graph.Spreads container inside ∧ Holds graph inside number selections
  | container, _, .spread name =>
    ∃ target, graph.fragment? name = some target ∧ graph.Spreads container target

/-- The selections stand in the container. -/
def Holds (graph : SelectionGraph) : ContainerId → Nat → List Selection → Prop
  | _, _, [] => True
  | container, number, selection :: selections =>
    HoldsOne graph container number selection ∧
      Holds graph container (number + selection.fieldCount) selections

end

variable {graph middle after : SelectionGraph}

/-- Containers keep what stands in them. -/
theorem Holds.mono (hgrows : graph.Grows after) {selections : List Selection} {container : ContainerId}
    {number : Nat} (h : graph.Holds container number selections) :
    after.Holds container number selections := by
  induction selections using selections_induction generalizing container number with
  | nil => trivial
  | field field selections later ih ih' =>
    obtain ⟨⟨hnumber, hbelow⟩, hlater⟩ := h
    refine ⟨⟨hgrows.fields hnumber, ?_⟩, ih' hlater⟩
    apply hbelow.imp_right
    rintro ⟨below, hnested, hbelow⟩
    exact ⟨below, hgrows.nested hnested, ih hbelow⟩
  | inline condition? selections later ih ih' =>
    obtain ⟨⟨inside, hspread, hinside⟩, hlater⟩ := h
    exact ⟨⟨inside, hgrows.spreads hspread, ih hinside⟩, ih' hlater⟩
  | spread name later ih =>
    obtain ⟨⟨target, htarget, hspread⟩, hlater⟩ := h
    exact ⟨⟨target, hgrows.fragments htarget, hgrows.spreads hspread⟩, ih hlater⟩

theorem HoldsOne.mono (hgrows : graph.Grows after) {selection : Selection} {container : ContainerId}
    {number : Nat} (h : graph.HoldsOne container number selection) :
    after.HoldsOne container number selection := by
  have hholds : graph.Holds container number [selection] := ⟨h, trivial⟩
  exact (hholds.mono hgrows).1

/-- What inserting selections comes to, from any graph. -/
def InsertsAll (schema : Schema) (selections : List Selection) : Prop :=
  ∀ (parent? : Option TypeDefinition) (graph : SelectionGraph) (top : ContainerId), graph.WellFormed →
    top < graph.containers.size →
    graph.Adds (occurrencesIn schema parent? selections) (graph.insertAll schema parent? top selections) ∧
      (graph.insertAll schema parent? top selections).Holds top graph.fields.size selections

/-- What comes behind a selection is inserted into the graph that has it. -/
theorem insertAll_cons {schema : Schema} {parent? : Option TypeDefinition} {top : ContainerId}
    {selection : Selection} {later : List Selection} (hlater : InsertsAll schema later)
    (htop : top < graph.containers.size)
    (hadds : graph.Adds (selection.occurrences schema parent?) (graph.insert schema parent? top selection))
    (hholds : (graph.insert schema parent? top selection).HoldsOne top graph.fields.size selection) :
    graph.Adds (occurrencesIn schema parent? (selection :: later))
      (graph.insertAll schema parent? top (selection :: later)) ∧
    (graph.insertAll schema parent? top (selection :: later)).Holds top graph.fields.size
      (selection :: later) := by
  have hsize := hadds.size_eq
  rw [Selection.length_occurrences] at hsize
  obtain ⟨hadds', hholds'⟩ := hlater parent? _ top hadds.wellFormed
    (hadds.grows.lt_size htop)
  rw [hsize] at hholds'
  exact ⟨hadds.trans hadds', hholds.mono hadds'.grows, hholds'⟩

/-- Inserting selections adds their fields and makes the container hold them. -/
theorem insertAll_adds (schema : Schema) (selections : List Selection) : InsertsAll schema selections := by
  induction selections using selections_induction with
  | nil => exact fun _ _ _ h _ => ⟨h.adds_nil, trivial⟩
  | field field selections later ih ih' =>
    intro parent? graph top h htop
    have hfirst : graph.Adds ((Selection.field field selections).occurrences schema parent?)
          (graph.insert schema parent? top (.field field selections)) ∧
        (graph.insert schema parent? top (.field field selections)).HoldsOne top graph.fields.size
          (.field field selections) := by
      cases selections with
      | nil =>
        obtain ⟨hadds, hmem, -⟩ := h.addField ⟨field, [], schema.fieldType? parent? field.name, parent?⟩
          ⟨field, schema.fieldType? parent? field.name, parent?, none⟩ rfl htop nofun
        exact ⟨hadds, hmem, .inl rfl⟩
      | cons selection selections =>
        have hnew := h.addContainer
        have hlt := graph.size_lt_addContainer
        obtain ⟨hadds, hmem, hnested⟩ := hnew.wellFormed.addField
          ⟨field, selection :: selections, schema.fieldType? parent? field.name, parent?⟩
          ⟨field, schema.fieldType? parent? field.name, parent?, some graph.containers.size⟩ rfl
          (hnew.grows.lt_size htop) (fun c hc => Option.some.inj hc ▸ hlt)
        obtain ⟨hbelow, hholds⟩ := ih ((schema.fieldType? parent? field.name).map FieldType.definition) _ _
          hadds.wellFormed (hadds.grows.lt_size hlt)
        rw [hadds.size_eq] at hholds
        refine ⟨(hnew.trans hadds).trans hbelow, hbelow.grows.fields hmem, .inr ?_⟩
        exact ⟨graph.containers.size, hbelow.grows.nested hnested, hholds⟩
    exact insertAll_cons ih' htop hfirst.1 hfirst.2
  | inline condition? selections later ih ih' =>
    intro parent? graph top h htop
    have hnew := h.addContainer
    have hlt := graph.size_lt_addContainer
    obtain ⟨hspread, hspreads⟩ :=
      hnew.wellFormed.addSpread (hnew.grows.lt_size htop) hlt
    obtain ⟨hinside, hholds⟩ := ih (schema.inlineType? parent? condition?) _ _ hspread.wellFormed
      (hspread.grows.lt_size hlt)
    apply insertAll_cons ih' htop
    · exact (hnew.trans hspread).trans hinside
    · exact ⟨graph.containers.size, hinside.grows.spreads hspreads, hholds⟩
  | spread name later ih =>
    intro parent? graph top h htop
    obtain ⟨hintern, hname, hlt⟩ := h.internFragment name
    obtain ⟨hspread, hspreads⟩ :=
      hintern.wellFormed.addSpread (hintern.grows.lt_size htop) hlt
    apply insertAll_cons ih htop
    · exact hintern.trans hspread
    · exact ⟨_, hspread.grows.fragments hname, hspreads⟩

/-- The definition, whose first field has the given number, stands in a root: a fragment in the
root of its name. -/
def HoldsDefinition (graph : SelectionGraph) (number : Nat) : Definition → Prop
  | .operation operation => ∃ root ∈ graph.roots, graph.Holds root number operation.selections
  | .fragment fragment => ∃ root ∈ graph.roots, graph.fragment? fragment.name = some root ∧
    graph.Holds root number fragment.selections
  | .typeSystem _ => True

theorem HoldsDefinition.mono (hgrows : graph.Grows after) {number : Nat} {definition : Definition}
    (h : graph.HoldsDefinition number definition) : after.HoldsDefinition number definition := by
  cases definition with
  | operation operation =>
    obtain ⟨root, hroot, hholds⟩ := h
    exact ⟨root, hgrows.roots hroot, hholds.mono hgrows⟩
  | fragment fragment =>
    obtain ⟨root, hroot, hname, hholds⟩ := h
    exact ⟨root, hgrows.roots hroot, hgrows.fragments hname, hholds.mono hgrows⟩
  | typeSystem definition => trivial

/-- Adding a definition puts it into a root. -/
theorem define_adds (schema : Schema) (definition : Definition) (h : graph.WellFormed) :
    graph.Adds (occurrencesIn schema (definition.parent? schema) definition.selections)
      (graph.define schema definition) ∧
    (graph.define schema definition).HoldsDefinition graph.fields.size definition := by
  cases definition with
  | operation operation =>
    have hnew := h.addContainer
    have hlt := graph.size_lt_addContainer
    obtain ⟨hroot, hmem⟩ := hnew.wellFormed.addRoot hlt
    obtain ⟨hadds, hholds⟩ := insertAll_adds schema operation.selections (schema.root? operation.kind) _ _
      hroot.wellFormed (hroot.grows.lt_size hlt)
    rw [hroot.size_eq] at hholds
    exact ⟨(hnew.trans hroot).trans hadds, _, hadds.grows.roots hmem, hholds⟩
  | fragment fragment =>
    obtain ⟨hintern, hname, hlt⟩ := h.internFragment fragment.name
    obtain ⟨hroot, hmem⟩ := hintern.wellFormed.addRoot hlt
    obtain ⟨hadds, hholds⟩ := insertAll_adds schema fragment.selections (schema.type? fragment.condition) _ _
      hroot.wellFormed (hroot.grows.lt_size hlt)
    rw [hroot.size_eq, hintern.size_eq] at hholds
    refine ⟨(hintern.trans hroot).trans hadds, _, hadds.grows.roots hmem, ?_, hholds⟩
    exact hadds.grows.fragments (hroot.grows.fragments hname)
  | typeSystem definition => exact ⟨h.adds_nil, trivial⟩

/-- Adding definitions one after the other puts each of them into a root. -/
theorem foldl_define_adds (schema : Schema) (definitions : List Definition) (h : graph.WellFormed) :
    graph.Adds (occurrences schema definitions) (definitions.foldl (define schema) graph) ∧
    ∀ number definition, (number, definition) ∈ numberedFrom graph.fields.size definitions →
      (definitions.foldl (define schema) graph).HoldsDefinition number definition := by
  induction definitions generalizing graph with
  | nil => exact ⟨h.adds_nil, fun _ _ hmem => absurd hmem List.not_mem_nil⟩
  | cons definition definitions ih =>
    obtain ⟨hadds, hholds⟩ := define_adds schema definition h
    obtain ⟨hlater, hrest⟩ := ih hadds.wellFormed
    refine ⟨hadds.trans hlater, fun number other hmem => ?_⟩
    obtain hmem | hmem := List.mem_cons.1 hmem
    · obtain ⟨rfl, rfl⟩ := Prod.mk.inj hmem
      exact hholds.mono hlater.grows
    · apply hrest
      rw [hadds.size_eq, length_occurrencesIn]
      exact hmem

/-- The graph has the fields and the definitions of a document. -/
structure Represents (schema : Schema) (definitions : List Definition) (graph : SelectionGraph) :
    Prop where
  wellFormed : graph.WellFormed
  fields : graph.fields.toList.map SelectedField.bare =
    (occurrences schema definitions).map Occurrence.bare
  definitions : ∀ {number definition}, (number, definition) ∈ numberedFrom 0 definitions →
    graph.HoldsDefinition number definition

/-- The graph of a document represents it. -/
theorem represents_ofDocument {schema : Schema} {definitions : List Definition}
    (h : ofDocument schema definitions = .ok graph) : Represents schema definitions graph := by
  rw [ofDocument_eq] at h
  obtain rfl := Except.ok.inj h
  obtain ⟨hadds, hholds⟩ := foldl_define_adds schema definitions wellFormed_empty
  exact ⟨hadds.wellFormed, hadds.fields, hholds _ _⟩

/-- The fields of a document have the types that the schema gives them. -/
theorem Represents.bare_field {schema : Schema} {definitions : List Definition}
    (h : Represents schema definitions graph) (i : FieldId) :
    graph.fields[i]?.map SelectedField.bare = (occurrences schema definitions)[i]?.map Occurrence.bare := by
  have hi := congrArg (fun fields => fields[i]?) h.fields
  simp only [List.getElem?_map, Array.getElem?_toList] at hi
  exact hi

theorem Represents.field? {schema : Schema} {definitions : List Definition}
    (h : Represents schema definitions graph) {i : FieldId} {selected : SelectedField}
    (hselected : graph.fields[i]? = some selected) :
    ∃ occurrence, (occurrences schema definitions)[i]? = some occurrence ∧
      selected.bare = occurrence.bare := by
  have hi := h.bare_field i
  rw [hselected] at hi
  obtain ⟨occurrence, hoccurrence, hbare⟩ := Option.map_eq_some_iff.1 hi.symm
  exact ⟨occurrence, hoccurrence, hbare.symm⟩

/-- Each field selection of a document is a field of the graph. -/
theorem Represents.exists_bare {schema : Schema} {definitions : List Definition}
    (h : Represents schema definitions graph) {i : FieldId} {occurrence : Occurrence}
    (hoccurrence : (occurrences schema definitions)[i]? = some occurrence) :
    ∃ selected, graph.fields[i]? = some selected ∧ selected.bare = occurrence.bare := by
  have hi := h.bare_field i
  rw [hoccurrence] at hi
  exact Option.map_eq_some_iff.1 hi

end SelectionGraph

end SelectionMerge
