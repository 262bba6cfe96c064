import SelectionMerge.Grammar.TypeSystem
import SelectionMerge.Proofs.Document.Printing
import SelectionMerge.Proofs.Document.Spelling
import SelectionMerge.Proofs.Expansion.Occurrences

/-!
# What is read can be written

Calls are known by their arguments if these can be written (`Value.Lexical`). The values in a text that is
read can: its tokens are spelled, each parser takes tokens from the front of those, and a value is put together
from what they say (`Grammar.gives_value`). `Parser.Gives` says this of a parser, with a rule for each way in
which parsers are put together, and one lemma for each rule of the grammar leads to the definitions of a text
(`lexical_of_parseAll`).
-/

namespace SelectionMerge
set_option autoImplicit false

/-- The tokens ahead are spelled. -/
def Cursor.Spelled (cursor : Cursor) : Prop :=
  ∀ token ∈ cursor.rest, token.lexeme.Spelled

namespace Parser

variable {α β : Type} {item : Parser α} {fits : α → Prop}

/-- From tokens that are spelled the parser gives what fits, and leaves such tokens. -/
def Gives (parser : Parser α) (fits : α → Prop) : Prop :=
  ∀ cursor a after, Cursor.Spelled cursor → parser.run cursor = .ok (a, after) → Cursor.Spelled after ∧ fits a

/-- The parser leaves tokens that are spelled. -/
abbrev Leaves (parser : Parser α) : Prop :=
  Gives parser fun _ => True

theorem gives_pure {a : α} (h : fits a) : Gives (pure a) fits := by
  rintro cursor _ _ hcursor ⟨⟩
  exact ⟨hcursor, h⟩

theorem gives_throw (error : SyntaxError) : Gives (throw error : Parser α) fits := by
  rintro _ _ _ - ⟨⟩

theorem Gives.bind {parser : Parser α} {next : α → Parser β} {fits' : β → Prop} (h : Gives parser fits)
    (hnext : ∀ a, fits a → Gives (next a) fits') : Gives (parser >>= next) fits' := by
  intro cursor b after hcursor hrun
  obtain ⟨⟨a, between⟩, hfirst, hrest⟩ := exists_of_bind_eq_ok hrun
  obtain ⟨hbetween, ha⟩ := h cursor a between hcursor hfirst
  exact hnext a ha between b after hbetween hrest

/-- A parser and what follows it whatever it gives. -/
theorem Gives.andThen {parser : Parser α} {next : α → Parser β} {fits' : β → Prop} (h : Gives parser fits)
    (hnext : ∀ a, Gives (next a) fits') : Gives (parser >>= next) fits' :=
  h.bind fun a _ => hnext a

theorem Gives.ite {condition : Prop} [Decidable condition] {first second : Parser α} (hfirst : Gives first fits)
    (hsecond : Gives second fits) : Gives (if condition then first else second) fits := by
  split
  · exact hfirst
  · exact hsecond

theorem gives_get : Gives (get : Parser Cursor) Cursor.Spelled := by
  rintro cursor _ _ hcursor ⟨⟩
  exact ⟨hcursor, hcursor⟩

theorem gives_peek : Gives peek fun ahead? => ∀ lexeme, ahead? = some lexeme → lexeme.Spelled := by
  refine gives_get.bind fun cursor hcursor => gives_pure fun lexeme hlexeme => ?_
  obtain ⟨token, htoken, rfl⟩ := Option.map_eq_some_iff.1 hlexeme
  exact hcursor token (List.mem_of_head? htoken)

theorem gives_unexpected : Gives (unexpected : Parser α) fits :=
  gives_peek.andThen fun _ => gives_throw _

/-- Behind a token that cannot stand there nothing is read. -/
theorem gives_refused {next : α → Parser β} {fits : β → Prop} : Gives (unexpected >>= next) fits :=
  Gives.bind (gives_unexpected : Gives unexpected fun _ => False) fun _ h => h.elim

theorem leaves_advance : Leaves advance := by
  refine gives_get.bind fun cursor hcursor => ?_
  split
  next token rest hrest =>
    rintro _ _ _ - ⟨⟩
    exact ⟨fun other hother => hcursor other (by rw [hrest]; exact .tail _ hother), trivial⟩
  next => exact gives_unexpected

theorem leaves_isNext (lexeme : Lexeme) : Leaves (isNext lexeme) :=
  gives_peek.andThen fun _ => gives_pure trivial

theorem leaves_accept (lexeme : Lexeme) : Leaves (accept lexeme) :=
  (leaves_isNext lexeme).andThen fun _ =>
    .ite (leaves_advance.andThen fun _ => gives_pure trivial) (gives_pure trivial)

theorem leaves_expect (lexeme : Lexeme) : Leaves (expect lexeme) :=
  (leaves_accept lexeme).andThen fun _ => .ite gives_unexpected (gives_pure trivial)

theorem leaves_name : Leaves name := by
  refine gives_peek.andThen fun _ => ?_
  split
  · exact leaves_advance.andThen fun _ => gives_pure trivial
  · exact gives_unexpected

theorem leaves_acceptWord (word : String) : Leaves (acceptWord word) := by
  refine gives_peek.andThen fun _ => ?_
  split
  · exact .ite (leaves_advance.andThen fun _ => gives_pure trivial) (gives_pure trivial)
  · exact gives_pure trivial

theorem leaves_expectWord (word : String) : Leaves (expectWord word) :=
  (leaves_acceptWord word).andThen fun _ => .ite gives_unexpected (gives_pure trivial)

theorem gives_itemsUntil (closing : Lexeme) (h : Gives item fits) (bound : Nat) :
    Gives (itemsUntil closing item bound) fun items => ∀ a ∈ items, fits a := by
  induction bound with
  | zero => exact gives_unexpected
  | succ bound ih =>
    refine h.bind fun first hfirst => (leaves_accept closing).andThen fun _ => .ite (gives_pure ?_) ?_
    · simpa using hfirst
    · exact ih.bind fun rest hrest => gives_pure (List.forall_mem_cons.2 ⟨hfirst, hrest⟩)

theorem gives_between (opening closing : Lexeme) (h : Gives item fits) :
    Gives (between opening closing item) fun items => ∀ a ∈ items, fits a :=
  (leaves_expect opening).andThen fun _ => gives_get.andThen fun _ => gives_itemsUntil closing h _

theorem gives_optionalBetween (opening closing : Lexeme) (h : Gives item fits) :
    Gives (optionalBetween opening closing item) fun items => ∀ a ∈ items, fits a :=
  (leaves_isNext opening).andThen fun _ => .ite (gives_between opening closing h) (gives_pure (by simp))

theorem leaves_itemsWhile (opening : Lexeme) (h : Gives item fits) (bound : Nat) :
    Leaves (itemsWhile opening item bound) := by
  induction bound with
  | zero => exact gives_pure trivial
  | succ bound ih =>
    refine (leaves_isNext opening).andThen fun _ => .ite ?_ (gives_pure trivial)
    exact h.andThen fun _ => ih.andThen fun _ => gives_pure trivial

theorem leaves_many (opening : Lexeme) (h : Gives item fits) : Leaves (many opening item) :=
  (leaves_isNext opening).andThen fun _ =>
    .ite (gives_get.andThen fun _ => leaves_itemsWhile opening h _) (gives_pure trivial)

theorem leaves_separated (separator : Lexeme) (h : Gives item fits) : Leaves (separated separator item) :=
  (leaves_accept separator).andThen fun _ => h.andThen fun _ =>
    (leaves_many separator ((leaves_expect separator).andThen fun _ => h)).andThen fun _ => gives_pure trivial

theorem gives_itemsToEnd (h : Gives item fits) (bound : Nat) :
    Gives (itemsToEnd item bound) fun items => ∀ a ∈ items, fits a := by
  induction bound with
  | zero => exact gives_unexpected
  | succ bound ih =>
    refine h.bind fun first hfirst => gives_peek.andThen fun _ => .ite (gives_pure ?_) ?_
    · simpa using hfirst
    · exact ih.bind fun rest hrest => gives_pure (List.forall_mem_cons.2 ⟨hfirst, hrest⟩)

/-- What a whole text is read as fits. -/
theorem fits_of_all {text : String} {items : List α} (h : Gives item fits) (hall : all item text = .ok items) :
    ∀ a ∈ items, fits a := by
  obtain ⟨found, htokens, hitems⟩ := exists_of_bind_eq_ok hall
  obtain ⟨⟨read, after⟩, hrun, hread⟩ := exists_of_bind_eq_ok hitems
  cases hread
  exact (gives_itemsToEnd h _ ⟨found, 0⟩ _ _ (spelled_tokens htokens) hrun).2

end Parser

/-- The arguments of all fields in a selection can be written. -/
inductive Selection.Lexical : Selection → Prop where
  | field {field : Field} {selections : List Selection} :
    (∀ a ∈ field.arguments, a.value.Lexical) → (∀ nested ∈ selections, nested.Lexical) →
      Lexical (.field field selections)
  | inline {condition? : Option Name} {selections : List Selection} :
    (∀ nested ∈ selections, nested.Lexical) → Lexical (.inline condition? selections)
  | spread (fragment : Name) : Lexical (.spread fragment)

namespace Grammar

open SelectionMerge.Parser

variable {nested : Parser (List Selection)}

/-- A name as a value is a keyword or no keyword. -/
theorem lexical_ofName (name : Name) : (Value.ofName name).Lexical := by
  unfold Value.ofName
  split
  · exact .null
  · exact .boolean true
  · exact .boolean false
  · next hnull htrue hfalse =>
    exact .enum (by simpa using ⟨hnull, htrue, hfalse⟩)

theorem gives_value (constant : Bool) (depth : Nat) : Gives (value constant depth) Value.Lexical := by
  induction depth with
  | zero => exact gives_throw _
  | succ depth ih =>
    refine gives_peek.bind fun ahead? hspelled => ?_
    split
    · exact leaves_advance.andThen fun _ => gives_pure (.int (hspelled _ rfl))
    · exact leaves_advance.andThen fun _ => gives_pure (.float (hspelled _ rfl))
    · exact leaves_advance.andThen fun _ => gives_pure (.string _)
    · exact leaves_advance.andThen fun _ => gives_pure (lexical_ofName _)
    · have hname : Gives (advance >>= fun _ => return .variableRef (← name)) Value.Lexical :=
        leaves_advance.andThen fun _ => leaves_name.andThen fun _ => gives_pure (.variableRef _)
      exact .ite gives_refused hname
    · refine leaves_advance.andThen fun _ => (leaves_accept _).andThen fun _ => .ite (gives_pure (.list (by simp))) ?_
      exact gives_get.andThen fun _ => (gives_itemsUntil _ ih _).bind fun _ hitems => gives_pure (.list hitems)
    · refine leaves_advance.andThen fun _ => (leaves_accept _).andThen fun _ => .ite (gives_pure (.object (by simp))) ?_
      have hfield : Gives (do
          let fieldName ← name
          expect (.mark ':')
          return (fieldName, ← value constant depth)) fun field => field.2.Lexical :=
        leaves_name.andThen fun _ => (leaves_expect _).andThen fun _ => ih.bind fun _ hvalue => gives_pure hvalue
      exact gives_get.andThen fun _ => (gives_itemsUntil _ hfield _).bind fun _ hfields => gives_pure (.object hfields)
    · exact gives_unexpected

theorem gives_argument (constant : Bool) (depth : Nat) :
    Gives (argument constant depth) fun a => a.value.Lexical :=
  leaves_name.andThen fun _ => (leaves_expect _).andThen fun _ =>
    (gives_value constant (depth + 1)).bind fun _ hvalue => gives_pure hvalue

theorem gives_arguments (constant : Bool) (depth : Nat) :
    Gives (arguments constant depth) fun arguments => ∀ a ∈ arguments, a.value.Lexical :=
  gives_optionalBetween _ _ (gives_argument constant depth)

theorem leaves_directives (constant : Bool) (depth : Nat) : Leaves (directives constant depth) :=
  (leaves_many _ ((leaves_expect _).andThen fun _ => leaves_name.andThen fun _ =>
    gives_arguments constant depth)).andThen fun _ => gives_pure trivial

theorem leaves_typeRef (depth : Nat) : Leaves (typeRef depth) := by
  induction depth with
  | zero => exact gives_throw _
  | succ depth ih =>
    refine (leaves_accept _).andThen fun _ => .ite ?_ ?_
    · exact ih.andThen fun _ => (leaves_expect _).andThen fun _ => (leaves_accept _).andThen fun _ => gives_pure trivial
    · exact leaves_name.andThen fun _ => (leaves_accept _).andThen fun _ => gives_pure trivial

theorem gives_field (file : FileId) (depth : Nat)
    (h : Gives nested fun selections => ∀ selection ∈ selections, selection.Lexical) :
    Gives (field file depth nested) Selection.Lexical := by
  refine gives_get.andThen fun _ => leaves_name.andThen fun _ => (leaves_accept _).andThen fun _ => ?_
  have hrest : ∀ alias? fieldName start, Gives (do
      let arguments ← arguments false depth
      let _ ← directives false depth
      let selections ← if ← isNext (.mark '\x7b') then nested else pure []
      return Selection.field ⟨alias?, fieldName, arguments, some ⟨file, start, (← get).stop⟩⟩ selections)
      Selection.Lexical := by
    intro alias? fieldName start
    refine (gives_arguments false depth).bind fun _ harguments => (leaves_directives false depth).andThen fun _ => ?_
    have hnone : Gives (pure []) fun selections => ∀ selection ∈ selections, Selection.Lexical selection :=
      gives_pure (by simp)
    exact (leaves_isNext _).andThen fun _ => .ite
      (h.bind fun _ hselections => gives_get.andThen fun _ => gives_pure (.field harguments hselections))
      (hnone.bind fun _ hselections => gives_get.andThen fun _ => gives_pure (.field harguments hselections))
  exact .ite (leaves_name.andThen fun _ => hrest _ _ _) (hrest _ _ _)

theorem gives_spread (depth : Nat)
    (h : Gives nested fun selections => ∀ selection ∈ selections, selection.Lexical) :
    Gives (spread depth nested) Selection.Lexical := by
  have hinline : ∀ condition? : Option Name, Gives (do
      let _ ← directives false depth
      return .inline condition? (← nested)) Selection.Lexical :=
    fun _ => (leaves_directives _ _).andThen fun _ => h.bind fun _ hselections => gives_pure (.inline hselections)
  refine (leaves_expect _).andThen fun _ => (leaves_acceptWord _).andThen fun _ => .ite ?_ ?_
  · exact leaves_name.andThen fun _ => hinline _
  · refine gives_peek.andThen fun _ => ?_
    split
    · exact leaves_advance.andThen fun _ => (leaves_directives _ _).andThen fun _ => gives_pure (.spread _)
    · exact hinline none

theorem gives_selectionSet (file : FileId) (depth : Nat) :
    Gives (selectionSet file depth) fun selections => ∀ selection ∈ selections, selection.Lexical := by
  induction depth with
  | zero => exact gives_throw _
  | succ depth ih =>
    exact gives_between _ _ <| (leaves_isNext _).andThen fun _ =>
      .ite (gives_spread depth ih) (gives_field file depth ih)

theorem leaves_variableDefinition : Leaves variableDefinition := by
  have hdirectives : Leaves (do let _ ← directives true nestingLimit) :=
    (leaves_directives _ _).andThen fun _ => gives_pure trivial
  refine (leaves_expect _).andThen fun _ => leaves_name.andThen fun _ => (leaves_expect _).andThen fun _ => ?_
  refine (leaves_typeRef _).andThen fun _ => (leaves_accept _).andThen fun _ => .ite ?_ hdirectives
  exact (gives_value _ _).andThen fun _ => hdirectives

theorem gives_operation (file : FileId) (kind : OperationKind) :
    Gives (operation file kind) fun o => ∀ selection ∈ o.selections, selection.Lexical := by
  have hrest : ∀ name? : Option Name, Gives (do
      let _ ← optionalBetween (.mark '(') (.mark ')') variableDefinition
      let _ ← directives false nestingLimit
      return (⟨kind, name?, ← selectionSet file nestingLimit⟩ : Operation))
      fun o => ∀ selection ∈ o.selections, selection.Lexical := by
    intro name?
    refine (gives_optionalBetween _ _ leaves_variableDefinition).andThen fun _ => ?_
    refine (leaves_directives _ _).andThen fun _ => ?_
    exact (gives_selectionSet file _).bind fun _ hselections => gives_pure hselections
  refine gives_peek.andThen fun _ => ?_
  split
  · exact leaves_advance.andThen fun _ => hrest _
  · exact hrest none

theorem gives_fragment (file : FileId) :
    Gives (fragment file) fun f => ∀ selection ∈ f.selections, selection.Lexical := by
  refine leaves_name.andThen fun fragmentName => ?_
  have hrest : Gives (do
      expectWord "on"
      let condition ← name
      let _ ← directives false nestingLimit
      return (⟨fragmentName, condition, ← selectionSet file nestingLimit⟩ : Fragment))
      fun f => ∀ selection ∈ f.selections, selection.Lexical :=
    (leaves_expectWord _).andThen fun _ => leaves_name.andThen fun _ => (leaves_directives _ _).andThen fun _ =>
      (gives_selectionSet file _).bind fun _ hselections => gives_pure hselections
  exact .ite gives_refused hrest

section TypeSystem

theorem leaves_description : Leaves description := by
  refine gives_peek.andThen fun _ => ?_
  split
  · exact leaves_advance
  · exact gives_pure trivial

theorem leaves_inputValue : Leaves inputValue := by
  refine leaves_description.andThen fun _ => leaves_name.andThen fun valueName => (leaves_expect _).andThen fun _ => ?_
  refine (leaves_typeRef _).andThen fun type => (leaves_accept _).andThen fun _ => ?_
  have hdirectives : Leaves (do
      let _ ← directives true nestingLimit
      return (⟨valueName, type⟩ : FieldDefinition)) :=
    (leaves_directives _ _).andThen fun _ => gives_pure trivial
  exact .ite ((gives_value _ _).andThen fun _ => hdirectives) hdirectives

theorem leaves_fieldDefinition : Leaves fieldDefinition :=
  leaves_description.andThen fun _ => leaves_name.andThen fun _ =>
    (gives_optionalBetween _ _ leaves_inputValue).andThen fun _ => (leaves_expect _).andThen fun _ =>
      (leaves_typeRef _).andThen fun _ => (leaves_directives _ _).andThen fun _ => gives_pure trivial

theorem leaves_enumValue : Leaves enumValue := by
  refine leaves_description.andThen fun _ => leaves_name.andThen fun valueName => ?_
  have hdirectives : Leaves (do
      let _ ← directives true nestingLimit
      return valueName) :=
    (leaves_directives _ _).andThen fun _ => gives_pure trivial
  exact .ite gives_refused hdirectives

theorem leaves_rootKind : Leaves rootKind := by
  refine (leaves_acceptWord _).andThen fun _ => .ite (gives_pure trivial) ?_
  refine (leaves_acceptWord _).andThen fun _ => .ite (gives_pure trivial) ?_
  exact (leaves_acceptWord _).andThen fun _ => .ite (gives_pure trivial) gives_unexpected

theorem leaves_rootType : Leaves rootType :=
  leaves_rootKind.andThen fun _ => (leaves_expect _).andThen fun _ => leaves_name.andThen fun _ => gives_pure trivial

theorem leaves_interfaces : Leaves interfaces :=
  (leaves_acceptWord _).andThen fun _ => .ite (leaves_separated _ leaves_name) (gives_pure trivial)

theorem leaves_members : Leaves members :=
  (leaves_accept _).andThen fun _ => .ite (leaves_separated _ leaves_name) (gives_pure trivial)

theorem leaves_unlessBare (isExtension bare : Bool) : Leaves (unlessBare isExtension bare) :=
  .ite gives_unexpected (gives_pure trivial)

/-- Items in braces are read, and a bare extension is refused. -/
theorem leaves_body {α β : Type} {item : Parser α} (h : Leaves item) (isExtension : Bool) (bare : List α → Bool)
    (body : List α → β) : Leaves (do
      let items ← optionalBraces item
      unlessBare isExtension (bare items)
      return body items) :=
  (gives_optionalBetween _ _ h).andThen fun _ => (leaves_unlessBare _ _).andThen fun _ => gives_pure trivial

theorem leaves_typeDefinition (isExtension : Bool) (keyword : String) :
    Leaves (typeDefinition isExtension keyword) := by
  refine leaves_name.andThen fun _ => ?_
  split
  · exact (leaves_directives _ _).andThen fun _ => (leaves_unlessBare _ _).andThen fun _ => gives_pure trivial
  · exact leaves_interfaces.andThen fun _ => (leaves_directives _ _).andThen fun _ =>
      leaves_body leaves_fieldDefinition _ _ _
  · exact leaves_interfaces.andThen fun _ => (leaves_directives _ _).andThen fun _ =>
      leaves_body leaves_fieldDefinition _ _ _
  · exact (leaves_directives _ _).andThen fun _ => leaves_members.andThen fun _ =>
      (leaves_unlessBare _ _).andThen fun _ => gives_pure trivial
  · exact (leaves_directives _ _).andThen fun _ => leaves_body leaves_enumValue _ _ _
  · exact (leaves_directives _ _).andThen fun _ => leaves_body leaves_inputValue _ _ _
  · exact gives_unexpected

theorem leaves_directiveLocation : Leaves directiveLocation :=
  leaves_name.andThen fun _ => .ite gives_unexpected (gives_pure trivial)

theorem leaves_directiveDefinition : Leaves directiveDefinition :=
  (leaves_expect _).andThen fun _ => leaves_name.andThen fun _ =>
    (gives_optionalBetween _ _ leaves_inputValue).andThen fun _ => (leaves_acceptWord _).andThen fun _ =>
      (leaves_expectWord _).andThen fun _ => (leaves_separated _ leaves_directiveLocation).andThen fun _ =>
        gives_pure trivial

theorem leaves_typeSystemDefinition (keyword : String) : Leaves (typeSystemDefinition keyword) := by
  refine .ite ?_ (.ite ?_ (.ite ?_ gives_unexpected))
  · exact (leaves_directives _ _).andThen fun _ => (gives_between _ _ leaves_rootType).andThen fun _ =>
      gives_pure trivial
  · exact leaves_directiveDefinition.andThen fun _ => gives_pure trivial
  · exact (leaves_typeDefinition _ _).andThen fun _ => gives_pure trivial

theorem leaves_extension : Leaves extension := by
  refine leaves_name.andThen fun _ => .ite ?_ ?_
  · exact (leaves_directives _ _).andThen fun _ => leaves_body leaves_rootType _ _ _
  · exact (leaves_typeDefinition _ _).andThen fun _ => gives_pure trivial

end TypeSystem

theorem gives_definition (file : FileId) :
    Gives (definition file) fun d => ∀ selection ∈ d.selections, selection.Lexical := by
  have hoperation : ∀ kind, Gives (do return Definition.operation (← operation file kind))
      fun d => ∀ selection ∈ d.selections, selection.Lexical :=
    fun kind => (gives_operation file kind).bind fun _ hselections => gives_pure hselections
  have hsystem : ∀ {read : Parser TypeSystemDefinition}, Leaves read → Gives (do return Definition.typeSystem (← read))
      fun d => ∀ selection ∈ d.selections, selection.Lexical :=
    fun h => h.andThen fun _ => gives_pure fun _ hselection => by cases hselection
  refine gives_peek.andThen fun _ => ?_
  split
  · exact hoperation .query
  · exact leaves_advance.andThen fun _ => leaves_name.andThen fun _ => hsystem (leaves_typeSystemDefinition _)
  · refine leaves_name.andThen fun _ => ?_
    split
    · exact hoperation .query
    · exact hoperation .mutation
    · exact hoperation .subscription
    · exact (gives_fragment file).bind fun _ hselections => gives_pure hselections
    · exact hsystem leaves_extension
    · exact hsystem (leaves_typeSystemDefinition _)

end Grammar

/-- The arguments of the fields in selections that can be written can be. -/
theorem lexical_of_mem_occurrencesIn {schema : Schema} {parent? : Option TypeDefinition}
    {selections : List Selection} (h : ∀ selection ∈ selections, selection.Lexical) :
    ∀ o ∈ occurrencesIn schema parent? selections, ∀ a ∈ o.field.arguments, a.value.Lexical := by
  induction selections using selections_induction generalizing parent? with
  | nil => simp [occurrencesIn]
  | field f selections later ih ih' =>
    obtain ⟨⟨harguments, hselections⟩, hlater⟩ := List.forall_mem_cons.1 h
    simp only [occurrencesIn, Selection.occurrences, List.cons_append, List.forall_mem_cons, List.forall_mem_append]
    exact ⟨harguments, ih hselections, ih' hlater⟩
  | inline condition? selections later ih ih' =>
    obtain ⟨hinline, hlater⟩ := List.forall_mem_cons.1 h
    cases hinline with
    | inline hselections =>
      simp only [occurrencesIn, Selection.occurrences, List.forall_mem_append]
      exact ⟨ih hselections, ih' hlater⟩
  | spread fragment later ih =>
    exact ih (List.forall_mem_cons.1 h).2

/-- **What is read can be written.** The values that are given to the fields of a text can be written. -/
theorem lexical_of_parseAll {file : FileId} {text : String} {definitions : List Definition}
    (h : Definition.parseAll file text = .ok definitions) (schema : Schema) :
    ∀ o ∈ occurrences schema definitions, ∀ a ∈ o.field.arguments, a.value.Lexical := by
  intro o ho
  obtain ⟨definition, hdefinition, ho⟩ := List.mem_flatMap.1 ho
  exact lexical_of_mem_occurrencesIn (Parser.fits_of_all (Grammar.gives_definition file) h definition hdefinition) o ho

end SelectionMerge
