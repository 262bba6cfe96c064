import SelectionMerge.Proofs.Expansion.Levels

/-!
# Spreads elsewhere

Documents that have the same fields and inline fragments, but spread fragments in other places
(`Respread`), are reported alike if their selection sets lead to the same fragments. How often a fragment
is spread in a set, where, and through which other ones it is reached makes no difference, nor do spreads of
fragments that are not defined (`spreads_matter_by_reach`).
-/

namespace SelectionMerge
set_option autoImplicit false

/-- The selections are the same but for the spreads among them, and `same` relates the sub-selections of
each field. What stands in an inline fragment belongs to the level of the set around it, so nothing is asked
of it by itself. -/
inductive Respread (same : List Selection → List Selection → Prop) : List Selection → List Selection → Prop where
  | nil : Respread same [] []
  | field {x y : Field} {nested nested' later later' : List Selection} :
    x.Alike y → same nested nested' → Respread same nested nested' → Respread same later later' →
      Respread same (.field x nested :: later) (.field y nested' :: later')
  | inline {condition? : Option Name} {nested nested' later later' : List Selection} :
    Respread same nested nested' → Respread same later later' →
      Respread same (.inline condition? nested :: later) (.inline condition? nested' :: later')
  | dropped {name : Name} {later later' : List Selection} :
    Respread same later later' → Respread same (.spread name :: later) later'
  | added {name : Name} {later later' : List Selection} :
    Respread same later later' → Respread same later (.spread name :: later')

/-- The definitions are the same but for their spreads, and `same` relates their selections and the
sub-selections of each field. -/
structure Definition.Respread (same : List Selection → List Selection → Prop)
    (definition definition' : Definition) : Prop where
  heading : definition.SameHeading definition'
  level : same definition.selections definition'.selections
  selections : SelectionMerge.Respread same definition.selections definition'.selections

/-- The selections lead to the same fragments, each in its document. -/
def SameReach (definitions definitions' : List Definition) (selections selections' : List Selection) : Prop :=
  ∀ name, LeadsTo definitions selections name ↔ LeadsTo definitions' selections' name

section Sets

variable {same wider : List Selection → List Selection → Prop} {selections selections' : List Selection}

theorem Respread.mono (h : Respread same selections selections')
    (hwider : ∀ {nested nested'}, same nested nested' → wider nested nested') :
    Respread wider selections selections' := by
  induction h with
  | nil => exact .nil
  | field hxy hsame _ _ ih ih' => exact .field hxy (hwider hsame) ih ih'
  | inline _ _ ih ih' => exact .inline ih ih'
  | dropped _ ih => exact .dropped ih
  | added _ ih => exact .added ih

theorem Definition.Respread.mono {definition definition' : Definition}
    (h : definition.Respread same definition')
    (hwider : ∀ {nested nested'}, same nested nested' → wider nested nested') :
    definition.Respread wider definition' :=
  ⟨h.heading, hwider h.level, h.selections.mono hwider⟩

theorem Respread.fieldCount (h : Respread same selections selections') :
    fieldCount selections = fieldCount selections' := by
  induction h with
  | nil => rfl
  | field _ _ _ _ ih ih' => simp only [SelectionMerge.fieldCount, Selection.fieldCount, ih, ih']
  | inline _ _ ih ih' => simp only [SelectionMerge.fieldCount, Selection.fieldCount, ih, ih']
  | dropped _ ih => simp only [SelectionMerge.fieldCount, Selection.fieldCount, Nat.zero_add, ih]
  | added _ ih => simp only [SelectionMerge.fieldCount, Selection.fieldCount, Nat.zero_add, ih]

/-- Spreads take up no numbers. -/
theorem Respread.levelFields (h : Respread same selections selections') (first : Nat) :
    levelFields first selections = levelFields first selections' := by
  induction h generalizing first with
  | nil => rfl
  | field _ _ hnested _ _ ih =>
    simp only [SelectionMerge.levelFields, Selection.levelFields, Selection.fieldCount, hnested.fieldCount, ih]
  | inline hnested _ ih ih' =>
    simp only [SelectionMerge.levelFields, Selection.levelFields, Selection.fieldCount, hnested.fieldCount, ih, ih']
  | dropped _ ih =>
    simp only [SelectionMerge.levelFields, Selection.levelFields, Selection.fieldCount, List.nil_append,
      Nat.add_zero, ih]
  | added _ ih =>
    simp only [SelectionMerge.levelFields, Selection.levelFields, Selection.fieldCount, List.nil_append,
      Nat.add_zero, ih]

end Sets

section Documents

variable {schema : Schema} {definitions definitions' : List Definition} {selections selections' : List Selection}

/-- Sets that lead to the same fragments reach all that is spread at their levels. -/
theorem SameReach.spreadsReached (h : SameReach definitions definitions' selections selections') :
    SpreadsReached definitions definitions' selections selections' where
  forth name hspread hdefined := (h name).1 (.spread hspread hdefined)
  back name hspread hdefined := (h name).2 (.spread hspread hdefined)

theorem SpreadsReached.sameLevel {same : List Selection → List Selection → Prop}
    (h : SpreadsReached definitions definitions' selections selections') (hrespread : Respread same selections selections') :
    SameLevel definitions definitions' selections selections' :=
  ⟨h, hrespread.levelFields⟩

/-- The fields are the same, and so are their sub-selections at their levels. -/
theorem Respread.occurrences (h : Respread (SpreadsReached definitions definitions') selections selections')
    (parent? : Option TypeDefinition) :
    List.Forall₂ (Occurrence.SameLevel definitions definitions') (occurrencesIn schema parent? selections)
      (occurrencesIn schema parent? selections') := by
  induction h generalizing parent? with
  | nil => exact .nil
  | @field x y nested nested' later later' hxy hreached hnested _ ih ih' =>
    simp only [occurrencesIn, Selection.occurrences, List.cons_append, ← hxy.name]
    exact .cons ⟨⟨hxy, rfl, rfl⟩, hreached.sameLevel hnested⟩ (List.rel_append (ih _) (ih' _))
  | inline _ _ ih ih' => exact List.rel_append (ih _) (ih' _)
  | dropped _ ih => exact ih parent?
  | added _ ih => exact ih parent?

/-- Documents that spread nothing but what is reached are the same, level by level. -/
theorem sameLevels_of_respread (schema : Schema)
    (h : List.Forall₂ (Definition.Respread (SpreadsReached definitions definitions')) definitions definitions') :
    SameLevels schema definitions definitions' := by
  refine h.imp fun definition definition' hrespread => ?_
  refine ⟨hrespread.heading, hrespread.level.sameLevel hrespread.selections, ?_⟩
  rw [← hrespread.heading.parent?]
  exact hrespread.selections.occurrences _

/-- Spreads of fragments that are not defined make no difference. -/
theorem SpreadsReached.of_undefined (h : ∀ name ∈ levelSpreads selections, name ∉ definedNames definitions)
    (h' : ∀ name ∈ levelSpreads selections', name ∉ definedNames definitions') :
    SpreadsReached definitions definitions' selections selections' where
  forth name hspread hdefined := absurd hdefined (h name hspread)
  back name hspread hdefined := absurd hdefined (h' name hspread)

/-- If nothing but what is reached is spread anywhere, sets lead to the same fragments. -/
theorem SpreadsReached.sameReach (schema : Schema)
    (hdocuments : List.Forall₂ (Definition.Respread (SpreadsReached definitions definitions')) definitions definitions')
    (h : SpreadsReached definitions definitions' selections selections') :
    SameReach definitions definitions' selections selections' := by
  have hlevels := sameLevels_of_respread schema hdocuments
  exact fun name => ⟨hlevels.leadsTo h, hlevels.symm.leadsTo ⟨h.back, h.forth⟩⟩

end Documents

/-- **Spreads matter by what they reach.** Let two documents have the same definitions, fields and inline
fragments in the same order, and let them spread fragments in different places. If the selections of each
definition and the sub-selections of each field lead to the same defined fragments in both, the check finds
the same conflicts between corresponding fields in the same order, or the same defect stops it. For this it
is enough that each spread at the level of a set is of an undefined fragment or of one that the
corresponding set leads to: spreads may be repeated and moved within their set, and a fragment may be spread
that is reached anyway. -/
theorem spreads_matter_by_reach (schema : Schema) (definitions definitions' : List Definition) :
    (List.Forall₂ (Definition.Respread (SpreadsReached definitions definitions')) definitions definitions' →
      List.Forall₂ (Definition.Respread (SameReach definitions definitions')) definitions definitions') ∧
    (List.Forall₂ (Definition.Respread (SameReach definitions definitions')) definitions definitions' →
      findings schema definitions' = findings schema definitions ∧
      SameOutcome (validate schema definitions) (validate schema definitions')) := by
  constructor
  · exact fun h => h.imp fun _ _ hrespread => hrespread.mono fun hreached => hreached.sameReach schema h
  · intro h
    have hreached := h.imp fun _ _ hrespread => hrespread.mono SameReach.spreadsReached
    have hsame := (sameLevels_of_respread schema hreached).sameExpansions
    exact ⟨hsame.findings, hsame.validate⟩

/-- Two fragments that spread each other, and a query that spreads one of them. -/
def ringDocument : List Definition :=
  [.fragment ⟨⟨"F", Eq.refl true⟩, ⟨"Query", Eq.refl true⟩,
    [.field ⟨some ⟨"x", Eq.refl true⟩, ⟨"a", Eq.refl true⟩, [], none⟩ [], .spread ⟨"G", Eq.refl true⟩]⟩,
   .fragment ⟨⟨"G", Eq.refl true⟩, ⟨"Query", Eq.refl true⟩,
    [.spread ⟨"F", Eq.refl true⟩, .field ⟨some ⟨"x", Eq.refl true⟩, ⟨"b", Eq.refl true⟩, [], none⟩ []]⟩,
   .operation ⟨.query, none,
    [.spread ⟨"F", Eq.refl true⟩,
     .field ⟨none, ⟨"next", Eq.refl true⟩, [], none⟩ [.spread ⟨"G", Eq.refl true⟩]]⟩]

/-- The same with the spread in `F` moved and one of an undefined fragment below its field, with the query
spreading both fragments, one of them twice, and with the other one of the ring spread below `next`. -/
def looseDocument : List Definition :=
  [.fragment ⟨⟨"F", Eq.refl true⟩, ⟨"Query", Eq.refl true⟩,
    [.spread ⟨"G", Eq.refl true⟩,
     .field ⟨some ⟨"x", Eq.refl true⟩, ⟨"a", Eq.refl true⟩, [], none⟩ [.spread ⟨"U", Eq.refl true⟩]]⟩,
   .fragment ⟨⟨"G", Eq.refl true⟩, ⟨"Query", Eq.refl true⟩,
    [.spread ⟨"F", Eq.refl true⟩, .field ⟨some ⟨"x", Eq.refl true⟩, ⟨"b", Eq.refl true⟩, [], none⟩ []]⟩,
   .operation ⟨.query, none,
    [.spread ⟨"F", Eq.refl true⟩, .spread ⟨"G", Eq.refl true⟩,
     .field ⟨none, ⟨"next", Eq.refl true⟩, [], none⟩ [.spread ⟨"F", Eq.refl true⟩],
     .spread ⟨"F", Eq.refl true⟩]⟩]

/-- Where two fragments spread each other, both are reached from every set that spreads either. -/
theorem leadsTo_of_ring {definitions : List Definition} {f g : Fragment} {selections : List Selection}
    (hf : .fragment f ∈ definitions) (hg : .fragment g ∈ definitions) (hfg : g.name ∈ levelSpreads f.selections)
    (hgf : f.name ∈ levelSpreads g.selections)
    (h : f.name ∈ levelSpreads selections ∨ g.name ∈ levelSpreads selections) :
    ∀ name ∈ [f.name, g.name], LeadsTo definitions selections name := by
  have hdefined := mem_definedNames.2 ⟨f, hf, rfl⟩
  have hdefined' := mem_definedNames.2 ⟨g, hg, rfl⟩
  intro name hname
  obtain rfl | hname := List.mem_cons.1 hname
  · exact h.elim (.spread · hdefined) (.through · hg (.spread hgf hdefined))
  · obtain rfl := List.mem_singleton.1 hname
    exact h.elim (.through · hf (.spread hfg hdefined')) (.spread · hdefined')

theorem ring_spreadsReached {selections selections' : List Selection}
    (h : ⟨"F", Eq.refl true⟩ ∈ levelSpreads selections ∨ ⟨"G", Eq.refl true⟩ ∈ levelSpreads selections)
    (h' : ⟨"F", Eq.refl true⟩ ∈ levelSpreads selections' ∨ ⟨"G", Eq.refl true⟩ ∈ levelSpreads selections') :
    SpreadsReached ringDocument looseDocument selections selections' where
  forth name _ hname := leadsTo_of_ring (.head _) (.tail _ (.head _)) (by decide) (by decide) h' name hname
  back name _ hname := leadsTo_of_ring (.head _) (.tail _ (.head _)) (by decide) (by decide) h name hname

/-- What is spread in different places is reported alike. -/
theorem loose_reported_like_ring : ∃ conflicts conflicts',
    List.Forall₂ (Definition.Respread (SameReach ringDocument looseDocument)) ringDocument looseDocument ∧
    validate loopSchema ringDocument = .ok conflicts ∧ conflicts.length = 1 ∧
    validate loopSchema looseDocument = .ok conflicts' ∧ List.Forall₂ Conflict.Alike conflicts conflicts' := by
  have hdocuments : List.Forall₂ (Definition.Respread (SpreadsReached ringDocument looseDocument))
      ringDocument looseDocument := by
    refine .cons ⟨.fragment rfl rfl, ?_, ?_⟩ (.cons ⟨.fragment rfl rfl, ?_, ?_⟩ (.cons ⟨.operation rfl rfl, ?_, ?_⟩ .nil))
    · exact ring_spreadsReached (by decide) (by decide)
    · exact .added (.field (.refl _) (.of_undefined (by decide) (by decide)) (.added .nil) (.dropped .nil))
    · exact ring_spreadsReached (by decide) (by decide)
    · exact .dropped (.added (.field (.refl _) (.of_undefined (by decide) (by decide)) .nil .nil))
    · exact ring_spreadsReached (by decide) (by decide)
    · refine .dropped (.added (.added (.field (.refl _) ?_ (.dropped (.added .nil)) (.added .nil))))
      exact ring_spreadsReached (by decide) (by decide)
  obtain ⟨hreach, hreported⟩ := spreads_matter_by_reach loopSchema ringDocument looseDocument
  have hlength : (validate loopSchema ringDocument).toOption.map List.length = some 1 := by decide +kernel
  obtain ⟨conflicts, hvalidate, hlength⟩ := exists_validate_eq hlength
  obtain ⟨conflicts', hvalidate', halike⟩ := (hreported (hreach hdocuments)).2.exists_eq_ok hvalidate
  exact ⟨conflicts, conflicts', hreach hdocuments, hvalidate, hlength, hvalidate', halike⟩

end SelectionMerge
