import SelectionMerge.Proofs.Document.Calls
import SelectionMerge.Proofs.Merge.Borders
import SelectionMerge.Proofs.Types.Shapes

/-!
# Labels tell fields apart

The label under a field of a conflict shows what the reason of the conflict is about: the field's name, its type
or its arguments. What it shows can be read off it again (`name_of_label`, `innerName_of_label`,
`arguments_of_label`), and the two fields differ in just that (`SelectedField.conflict?_cases`). So the two
labels of a conflict that is reported are different (`labels_differ`).
-/

namespace SelectionMerge
set_option autoImplicit false

namespace SelectedField

variable {x y : SelectedField} {reason : ConflictReason}

/-- Fields whose types differ have types. -/
theorem exists_types_of_namedTypesDiffer (h : x.namedTypesDiffer y = true) :
    ∃ s t, x.type? = some s ∧ y.type? = some t ∧ s.type.innerName ≠ t.type.innerName := by
  unfold namedTypesDiffer at h
  split at h
  next s t hs ht => exact ⟨s, t, hs, ht, bne_iff_ne.1 h⟩
  next => cases h

/-- Of two leaves of different kinds not both can be of one definition. -/
theorem exists_types_of_leafKindsDiffer (h : x.leafKindsDiffer y = true) :
    ∃ s t, x.type? = some s ∧ y.type? = some t ∧ s.definition ≠ t.definition := by
  unfold leafKindsDiffer at h
  split at h
  next s t hs ht =>
    refine ⟨s, t, hs, ht, fun heq => ?_⟩
    simp [heq] at h
  next => cases h

/-- What fields differ in that conflict. -/
theorem conflict?_cases (h : x.conflict? y = some reason) :
    (reason = .leafKindMismatch ∧ x.leafKindsDiffer y = true) ∨
    (reason = .differentFieldName ∧ x.field.name ≠ y.field.name) ∨
    (reason = .typeMismatch ∧ x.namedTypesDiffer y = true) ∨
    (reason = .argumentMismatch ∧ x.field.name = y.field.name ∧ x.call.arguments ≠ y.call.arguments) := by
  unfold conflict? at h
  split at h
  · cases h
  split at h
  next hkinds => exact .inl ⟨(Option.some.inj h).symm, hkinds⟩
  split at h
  next hname => exact .inr (.inl ⟨(Option.some.inj h).symm, bne_iff_ne.1 hname⟩)
  split at h
  next htypes => exact .inr (.inr (.inl ⟨(Option.some.inj h).symm, htypes⟩))
  split at h
  next hname _ harguments =>
    rw [bne_iff_ne, ne_eq, not_not] at hname
    exact .inr (.inr (.inr ⟨(Option.some.inj h).symm, hname, bne_iff_ne.1 harguments⟩))
  · cases h

end SelectedField

section Quotes

variable {k l : Name} {r s : List Char}

/-- A name in backquotes, with more behind it. -/
def ticked (name : Name) (rest : List Char) : List Char :=
  '\x60' :: (name.text.toList ++ '\x60' :: rest)

/-- A name in backquotes ends where the second one stands. -/
theorem eq_of_ticked (h : ticked k r = ticked l s) : k = l ∧ r = s := by
  obtain ⟨hname, hrest⟩ := eq_of_words k.isWordChar l.isWordChar (delimited_cons (by decide))
    (delimited_cons (by decide)) (List.cons.inj h).2
  exact ⟨Name.ext (String.toList_inj.1 hname), (List.cons.inj hrest).2⟩

end Quotes

namespace ConflictingField

variable {a b : ConflictingField} {reason : ConflictReason}

theorem toList_label_name (a : ConflictingField) : (a.label .differentFieldName).toList =
    ticked a.field.responseKey (" is selected from ".toList ++ ticked a.field.name " here".toList) := by
  simp [label, ticked]

/-- Field names can be read off the labels that show them. -/
theorem name_of_label (h : a.label .differentFieldName = b.label .differentFieldName) :
    a.field.name = b.field.name := by
  have hchars := congrArg String.toList h
  rw [toList_label_name, toList_label_name] at hchars
  have hnames := List.append_cancel_left (eq_of_ticked hchars).2
  exact (eq_of_ticked hnames).1

/-- The label that shows a type. -/
def typeLabel (a : ConflictingField) (type : TypeRef) : String :=
  "`" ++ a.field.responseKey.text ++ "` has type `" ++ type.text ++ "` here"

theorem label_eq_typeLabel {type : TypeRef} (hreason : reason = .typeMismatch ∨ reason = .leafKindMismatch)
    (htype : a.type? = some type) : a.label reason = a.typeLabel type := by
  obtain rfl | rfl := hreason <;> simp only [label, htype, typeLabel]

theorem toList_typeLabel (a : ConflictingField) (type : TypeRef) : (a.typeLabel type).toList =
    ticked a.field.responseKey (" has type `".toList ++ (type.text.toList ++ "` here".toList)) := by
  simp [typeLabel, ticked]

/-- The names inside types can be read off the labels that show the types. -/
theorem innerName_of_label {s t : TypeRef} (h : a.typeLabel s = b.typeLabel t) : s.innerName = t.innerName := by
  have hchars := congrArg String.toList h
  rw [toList_typeLabel, toList_typeLabel] at hchars
  have htypes := List.append_cancel_right (List.append_cancel_left (eq_of_ticked hchars).2)
  exact TypeRef.innerName_of_text (String.toList_inj.1 htypes)

/-- The label of a field without arguments. -/
def bareLabel (a : ConflictingField) : String :=
  "`" ++ a.field.name.text ++ "` is selected without arguments here"

theorem label_eq_bareLabel (h : a.field.arguments = []) : a.label .argumentMismatch = a.bareLabel := by
  simp only [label, h, List.isEmpty_nil, if_true, bareLabel]

theorem toList_bareLabel (a : ConflictingField) :
    a.bareLabel.toList = ticked a.field.name " is selected without arguments here".toList := by
  simp [bareLabel, ticked]

theorem toList_label_arguments (h : a.field.arguments ≠ []) : (a.label .argumentMismatch).toList =
    ticked a.field.name (" is selected with arguments `".toList ++
      (commaSeparated (a.field.arguments.map Argument.chars) ++ '\x60' :: " here".toList)) := by
  have htexts : String.toList ∘ Argument.text = Argument.chars := funext fun _ => String.toList_ofList
  simp [label, ticked, h, commaSeparated, String.toList_intercalate, htexts]

/-- Arguments that a text can hold can be read off the labels that show them. -/
theorem arguments_of_label (ha : ∀ argument ∈ a.field.arguments, argument.value.Lexical)
    (hb : ∀ argument ∈ b.field.arguments, argument.value.Lexical)
    (h : a.label .argumentMismatch = b.label .argumentMismatch) : a.field.arguments = b.field.arguments := by
  have hchars := congrArg String.toList h
  by_cases hnone : a.field.arguments = []
  · by_cases hnone' : b.field.arguments = []
    · rw [hnone, hnone']
    · rw [label_eq_bareLabel hnone, toList_bareLabel, toList_label_arguments hnone'] at hchars
      have hrest := (eq_of_ticked hchars).2
      simp at hrest
  · by_cases hnone' : b.field.arguments = []
    · rw [label_eq_bareLabel hnone', toList_bareLabel, toList_label_arguments hnone] at hchars
      have hrest := (eq_of_ticked hchars).2
      simp at hrest
    · rw [toList_label_arguments hnone, toList_label_arguments hnone'] at hchars
      have hparts := List.append_cancel_left (eq_of_ticked hchars).2
      exact (eq_of_separated (by decide) (by decide)
        (fun argument _ => Value.Lexical.entry_open_ne argument.name argument.value (by decide))
        (fun argument hmem => ⟨ha argument hmem, Argument.cancels (ha argument hmem)⟩) hb hparts).1

end ConflictingField

section Reported

variable {schema : Schema} {definitions : List Definition} {conflicts : List Conflict}

/-- A conflict that is reported is one of two fields of the document. -/
theorem exists_fields_of_reported (h : validate schema definitions = .ok conflicts) {conflict : Conflict}
    (hmem : conflict ∈ conflicts) :
    ∃ graph i j x y, SelectionGraph.Represents schema definitions graph ∧
      graph.resolved.field? i = some x ∧ graph.resolved.field? j = some y ∧
      x.conflict? y = some conflict.reason ∧ conflict.first = x.conflicting ∧
      conflict.second = y.conflicting := by
  obtain ⟨graph, found, memo, hgraph, -, hchecked, hconflicts⟩ := validate_checked h
  have hsome : some conflict ∈ found.flatten.map (Finding.conflict? graph.fields) := by
    rw [← hconflicts]
    exact List.mem_map_of_mem hmem
  obtain ⟨finding, hfinding, hconflict⟩ := List.mem_map.1 hsome
  obtain ⟨x, hx, hconflict⟩ := Option.bind_eq_some_iff.1 hconflict
  obtain ⟨y, hy, hconflict⟩ := Option.bind_eq_some_iff.1 hconflict
  obtain rfl := Option.some.inj hconflict
  have hx : graph.resolved.field? finding.first = some x := hx
  have hy : graph.resolved.field? finding.second = some y := hy
  have hreason := ((hchecked.finds _ _ _).1 hfinding).2
  rw [ResolvedGraph.conflict?_eq hx hy] at hreason
  exact ⟨graph, _, _, x, y, SelectionGraph.represents_ofDocument hgraph, hx, hy, hreason, rfl, rfl⟩

variable {graph : SelectionGraph} {i j : FieldId} {x y : SelectedField} {reason : ConflictReason}

/-- Fields that conflict over their types have types, with different names inside. -/
theorem exists_types_of_conflict? (h : SelectionGraph.Represents schema definitions graph)
    (hx : graph.resolved.field? i = some x) (hy : graph.resolved.field? j = some y)
    (hconflict : x.conflict? y = some reason) (hreason : reason = .typeMismatch ∨ reason = .leafKindMismatch) :
    ∃ s t, x.type? = some s ∧ y.type? = some t ∧ s.type.innerName ≠ t.type.innerName := by
  obtain ⟨rfl, hkinds⟩ | ⟨rfl, -⟩ | ⟨rfl, htypes⟩ | ⟨rfl, -⟩ := SelectedField.conflict?_cases hconflict
  · obtain ⟨s, t, hs, ht, hne⟩ := SelectedField.exists_types_of_leafKindsDiffer hkinds
    refine ⟨s, t, hs, ht, fun hname => hne ?_⟩
    -- The schema has one definition for a name.
    have hdefinition := h.definition hx hs
    rw [hname, h.definition hy ht] at hdefinition
    exact (Option.some.inj hdefinition).symm
  · simp at hreason
  · exact SelectedField.exists_types_of_namedTypesDiffer htypes
  · simp at hreason

/-- The arguments of a field in the graph are those of a field selection of the document. -/
theorem lexical_of_field? (h : SelectionGraph.Represents schema definitions graph)
    (hlexical : ∀ o ∈ occurrences schema definitions, ∀ a ∈ o.field.arguments, a.value.Lexical)
    (hx : graph.resolved.field? i = some x) : ∀ a ∈ x.field.arguments, a.value.Lexical := by
  obtain ⟨occurrence, hoccurrence, hbare⟩ := h.field? hx
  have hfield : x.field = occurrence.field := congrArg SelectedField.field hbare
  rw [hfield]
  exact hlexical occurrence (List.mem_of_getElem? hoccurrence)

/-- Fields that conflict have different labels. -/
theorem label_ne_of_conflict? (h : SelectionGraph.Represents schema definitions graph)
    (hlexical : ∀ o ∈ occurrences schema definitions, ∀ a ∈ o.field.arguments, a.value.Lexical)
    (hx : graph.resolved.field? i = some x) (hy : graph.resolved.field? j = some y)
    (hconflict : x.conflict? y = some reason) : x.conflicting.label reason ≠ y.conflicting.label reason := by
  intro hlabel
  by_cases hreason : reason = .typeMismatch ∨ reason = .leafKindMismatch
  · obtain ⟨s, t, hs, ht, hne⟩ := exists_types_of_conflict? h hx hy hconflict hreason
    have hs : x.conflicting.type? = some s.type := congrArg (Option.map FieldType.type) hs
    have ht : y.conflicting.type? = some t.type := congrArg (Option.map FieldType.type) ht
    rw [ConflictingField.label_eq_typeLabel hreason hs, ConflictingField.label_eq_typeLabel hreason ht] at hlabel
    exact hne (ConflictingField.innerName_of_label hlabel)
  · obtain ⟨rfl, -⟩ | ⟨rfl, hname⟩ | ⟨rfl, -⟩ | ⟨rfl, -, harguments⟩ := SelectedField.conflict?_cases hconflict
    · exact hreason (.inr rfl)
    · exact hname (ConflictingField.name_of_label hlabel)
    · exact hreason (.inl rfl)
    · have hsame : x.field.arguments = y.field.arguments := ConflictingField.arguments_of_label
        (lexical_of_field? h hlexical hx) (lexical_of_field? h hlexical hy) hlabel
      apply harguments
      unfold SelectedField.call Field.call
      rw [hsame]

end Reported

/-- **Labels tell fields apart.** The two labels of a conflict that is reported are different, where the
arguments of the document are such as a text can hold. A conflict over types shows the types of both fields, and
one over arguments says of one field at most that it has none. -/
theorem labels_differ {schema : Schema} {definitions : List Definition} {conflicts : List Conflict}
    (hlexical : ∀ o ∈ occurrences schema definitions, ∀ a ∈ o.field.arguments, a.value.Lexical)
    (h : validate schema definitions = .ok conflicts) :
    ∀ conflict ∈ conflicts,
      conflict.first.label conflict.reason ≠ conflict.second.label conflict.reason ∧
      (conflict.reason = .typeMismatch ∨ conflict.reason = .leafKindMismatch →
        ∀ side ∈ [conflict.first, conflict.second], ∃ type, side.type? = some type ∧
          side.label conflict.reason = side.typeLabel type) ∧
      (conflict.reason = .argumentMismatch →
        ¬ ∀ side ∈ [conflict.first, conflict.second], side.label conflict.reason = side.bareLabel) := by
  intro conflict hmem
  obtain ⟨graph, i, j, x, y, hrepresents, hx, hy, hconflict, hfirst, hsecond⟩ := exists_fields_of_reported h hmem
  have hne := label_ne_of_conflict? hrepresents hlexical hx hy hconflict
  rw [hfirst, hsecond]
  refine ⟨hne, fun hreason => ?_, fun hreason hbare => ?_⟩
  · obtain ⟨s, t, hs, ht, -⟩ := exists_types_of_conflict? hrepresents hx hy hconflict hreason
    have hs : x.conflicting.type? = some s.type := congrArg (Option.map FieldType.type) hs
    have ht : y.conflicting.type? = some t.type := congrArg (Option.map FieldType.type) ht
    simp only [List.forall_mem_cons]
    exact ⟨⟨s.type, hs, ConflictingField.label_eq_typeLabel hreason hs⟩,
      ⟨t.type, ht, ConflictingField.label_eq_typeLabel hreason ht⟩, by simp⟩
  · -- Both would say it of one name.
    obtain ⟨hbare, hbare', -⟩ := by simpa only [List.forall_mem_cons] using hbare
    have hname : x.field.name = y.field.name := by
      rw [hreason] at hconflict
      obtain ⟨heq, -⟩ | ⟨heq, -⟩ | ⟨heq, -⟩ | ⟨-, hname, -⟩ := SelectedField.conflict?_cases hconflict
      · cases heq
      · cases heq
      · cases heq
      · exact hname
    apply hne
    rw [hbare, hbare']
    unfold ConflictingField.bareLabel SelectedField.conflicting
    rw [hname]

/-- A field selected twice under one key, with two lists of strings that differ in where a string ends. -/
def listedDocument : List Definition :=
  [.operation ⟨.query, none,
    [.field (calledWith [listing ["a", "b"]]) [], .field (calledWith [listing ["a\", \"b"]]) []]⟩]

/-- The two lists are reported, and their labels differ. -/
theorem listed_labels_differ : ∃ conflicts, validate loopSchema listedDocument = .ok conflicts ∧
    conflicts.length = 1 ∧
    ∀ conflict ∈ conflicts, conflict.first.label conflict.reason ≠ conflict.second.label conflict.reason := by
  have hlength : (validate loopSchema listedDocument).toOption.map List.length = some 1 := by
    decide +kernel
  have hlexical : ∀ o ∈ occurrences loopSchema listedDocument, ∀ a ∈ o.field.arguments, a.value.Lexical := by
    simp [occurrences, listedDocument, Definition.selections, occurrencesIn, Selection.occurrences, calledWith,
      lexical_listing]
  obtain ⟨conflicts, hvalidate, hcount⟩ := exists_validate_eq hlength
  exact ⟨conflicts, hvalidate, hcount, fun conflict hmem => (labels_differ hlexical hvalidate conflict hmem).1⟩

end SelectionMerge
