import SelectionMerge.Proofs.Document.Words

/-!
# Values are known by how they are written

`Value.Lexical` has the values that a text can hold: their numbers are spelled as numbers, and no enum value
is a keyword. Two such values that are written alike are equal, and so is what stands behind them, as long as
it does not go on with their words (`Value.Lexical.cancels`). For lists and objects this comes down to lists of
parts between commas (`eq_of_separated`), each part with that property (`Cancels`).
-/

namespace SelectionMerge
set_option autoImplicit false

/-- The values that a text can hold. Those that are read are such (`lexical_of_parseAll`). -/
inductive Value.Lexical : Value → Prop where
  | null : Lexical .null
  | boolean (value : Bool) : Lexical (.boolean value)
  | int {text : String} : NumberPhase.number? text = some (.int text) → Lexical (.int text)
  | float {text : String} : NumberPhase.number? text = some (.float text) → Lexical (.float text)
  | string (text : String) : Lexical (.string text)
  | enum {name : Name} : name.text ∉ ["null", "true", "false"] → Lexical (.enum name)
  | variableRef (name : Name) : Lexical (.variableRef name)
  | list {items : List Value} : (∀ item ∈ items, item.Lexical) → Lexical (.list items)
  | object {fields : List (Name × Value)} : (∀ field ∈ fields, field.2.Lexical) → Lexical (.object fields)

section Cancels

variable {α : Type} {print : α → List Char} {lexical : α → Prop}

/-- What is written like `a` is `a`, with the same behind it. -/
def Cancels (print : α → List Char) (lexical : α → Prop) (a : α) : Prop :=
  ∀ b r s, lexical b → Delimited r → Delimited s → print a ++ r = print b ++ s → a = b ∧ r = s

/-- The parts behind the first one come after a comma and a space each. -/
theorem commaSeparated_cons (part : List Char) (parts : List (List Char)) :
    commaSeparated (part :: parts) = part ++ parts.flatMap fun part => ',' :: ' ' :: part := by
  unfold commaSeparated
  induction parts generalizing part with
  | nil => simp
  | cons next parts ih =>
    rw [List.intercalate_cons_cons, ih, List.flatMap_cons, List.append_assoc]
    rfl

variable {close : Char} {as bs : List α} {r s : List Char}

/-- The parts behind the first one and what closes the list. -/
def behind (print : α → List Char) (close : Char) (as : List α) (rest : List Char) : List Char :=
  as.flatMap (fun a => ',' :: ' ' :: print a) ++ close :: rest

theorem behind_cons (a : α) (as : List α) (rest : List Char) :
    behind print close (a :: as) rest = ',' :: ' ' :: (print a ++ behind print close as rest) := by
  simp [behind]

theorem delimited_behind (hclose : isWordChar close = false) (as : List α) (rest : List Char) :
    Delimited (behind print close as rest) := by
  cases as with
  | nil => exact delimited_cons hclose
  | cons a as =>
    rw [behind_cons]
    exact delimited_cons (by decide)

theorem eq_of_behind (hclose : isWordChar close = false) (hcomma : close ≠ ',')
    (has : ∀ a ∈ as, Cancels print lexical a) (hbs : ∀ b ∈ bs, lexical b)
    (h : behind print close as r = behind print close bs s) : as = bs ∧ r = s := by
  induction as generalizing bs with
  | nil =>
    cases bs with
    | nil => exact ⟨rfl, (List.cons.inj h).2⟩
    | cons b bs =>
      rw [behind_cons] at h
      exact absurd (List.cons.inj h).1 hcomma
  | cons a as ih =>
    rw [behind_cons] at h
    cases bs with
    | nil => exact absurd (List.cons.inj h).1.symm hcomma
    | cons b bs =>
      rw [behind_cons] at h
      have hparts := (List.cons.inj (List.cons.inj h).2).2
      obtain ⟨rfl, hrest⟩ := has a (.head _) b _ _ (hbs b (.head _)) (delimited_behind hclose as r)
        (delimited_behind hclose bs s) hparts
      obtain ⟨rfl, hend⟩ := ih (fun a ha => has a (.tail _ ha)) (fun b hb => hbs b (.tail _ hb)) hrest
      exact ⟨rfl, hend⟩

/-- Lists of parts between commas that are written alike up to the character that closes them are equal. -/
theorem eq_of_separated (hclose : isWordChar close = false) (hcomma : close ≠ ',')
    (hopen : ∀ a, lexical a → ∃ c cs, print a = c :: cs ∧ c ≠ close)
    (has : ∀ a ∈ as, lexical a ∧ Cancels print lexical a) (hbs : ∀ b ∈ bs, lexical b)
    (h : commaSeparated (as.map print) ++ close :: r = commaSeparated (bs.map print) ++ close :: s) :
    as = bs ∧ r = s := by
  have hcons : ∀ (a : α) (as : List α) (rest : List Char),
      commaSeparated ((a :: as).map print) ++ close :: rest = print a ++ behind print close as rest := by
    intro a as rest
    rw [List.map_cons, commaSeparated_cons, List.flatMap_map, List.append_assoc]
    rfl
  cases as with
  | nil =>
    cases bs with
    | nil => exact ⟨rfl, (List.cons.inj h).2⟩
    | cons b bs =>
      obtain ⟨c, cs, hchars, hne⟩ := hopen b (hbs b (.head _))
      rw [hcons, hchars] at h
      exact absurd (List.cons.inj h).1.symm hne
  | cons a as =>
    obtain ⟨ha, hcancels⟩ := has a (.head _)
    rw [hcons] at h
    cases bs with
    | nil =>
      obtain ⟨c, cs, hchars, hne⟩ := hopen a ha
      rw [hchars] at h
      exact absurd (List.cons.inj h).1 hne
    | cons b bs =>
      rw [hcons] at h
      obtain ⟨rfl, hrest⟩ := hcancels b _ _ (hbs b (.head _)) (delimited_behind hclose as r)
        (delimited_behind hclose bs s) h
      obtain ⟨rfl, hend⟩ := eq_of_behind hclose hcomma (fun a ha => (has a (.tail _ ha)).2)
        (fun b hb => hbs b (.tail _ hb)) hrest
      exact ⟨rfl, hend⟩

end Cancels

namespace Value

variable {v w : Value}

/-- A name and a value as they stand in an object and as an argument. -/
def entryChars (entry : Name × Value) : List Char :=
  entry.1.text.toList ++ ':' :: ' ' :: entry.2.chars

theorem itemChars_eq (items : List Value) : itemChars items = items.map chars := by
  induction items with
  | nil => rfl
  | cons item items ih => rw [itemChars, ih, List.map_cons]

theorem fieldChars_eq (fields : List (Name × Value)) : fieldChars fields = fields.map entryChars := by
  induction fields with
  | nil => rfl
  | cons field fields ih =>
    rw [fieldChars, ih, List.map_cons]
    rfl

/-- The ways in which values are written. -/
inductive Form where
  /-- A keyword, a number or a name. -/
  | word
  | quoted
  | variableRef
  | list
  | object

/-- The way in which a value is written. -/
def form : Value → Form
  | .string _ => .quoted
  | .variableRef _ => .variableRef
  | .list _ => .list
  | .object _ => .object
  | _ => .word

/-- What the first character tells of the way in which a value is written. -/
def formOf? (c : Char) : Option Form :=
  if c = '"' then some .quoted
  else if c = '$' then some .variableRef
  else if c = '[' then some .list
  else if c = '\x7b' then some .object
  else if isWordChar c then some .word
  else none

/-- Words begin with none of the marks that the other values begin with. -/
theorem formOf?_word {c : Char} (h : isWordChar c = true) : formOf? c = some .word := by
  have hmarks : ['"', '$', '[', '\x7b'].any isWordChar = false := by decide
  have hne : ∀ d ∈ ['"', '$', '[', '\x7b'], c ≠ d := by
    rintro d hd rfl
    exact List.any_eq_false.1 hmarks c hd h
  simp only [List.forall_mem_cons] at hne
  simp [formOf?, hne, h]

/-- The value that a name stands for. -/
def ofName (name : Name) : Value :=
  match name.text with
  | "null" => .null
  | "true" => .boolean true
  | "false" => .boolean false
  | _ => .enum name

/-- The value that a word stands for. -/
def ofWord? (word : List Char) : Option Value :=
  match NumberPhase.number? (String.ofList word) with
  | some (.int text) => some (.int text)
  | some (.float text) => some (.float text)
  | _ => (Name.ofText? (String.ofList word)).map ofName

namespace Lexical

/-- Words have characters, and only those of words. -/
theorem word (hv : v.Lexical) (hform : v.form = .word) :
    v.chars ≠ [] ∧ ∀ c ∈ v.chars, isWordChar c = true := by
  cases hv with
  | null => exact ⟨List.cons_ne_nil _ _, List.all_eq_true.1 (by decide)⟩
  | boolean value => cases value <;> exact ⟨List.cons_ne_nil _ _, List.all_eq_true.1 (by decide)⟩
  | int hnumber | float hnumber =>
    obtain ⟨⟨c, cs, hchars, -⟩, hword⟩ := NumberPhase.word_of_number? hnumber
    exact ⟨fun hnil => by simp [chars, hchars] at hnil, hword⟩
  | @enum name hname =>
    refine ⟨fun hnil => ?_, name.isWordChar⟩
    have hname := name.isName
    rw [show name.text.toList = [] from hnil] at hname
    cases hname
  | string | variableRef | list | object => cases hform

/-- A word stands for the value that is written so. -/
theorem ofWord?_chars (hv : v.Lexical) (hform : v.form = .word) : ofWord? v.chars = some v := by
  cases hv with
  | null => rfl
  | boolean value => cases value <;> rfl
  | int hnumber | float hnumber => simp [ofWord?, chars, String.ofList_toList, hnumber]
  | @enum name hname =>
    simp only [ofWord?, chars, String.ofList_toList, NumberPhase.number?_name, Name.ofText?_eq_some_iff.2 rfl,
      Option.map_some]
    unfold ofName
    split <;> simp_all
  | string | variableRef | list | object => cases hform

/-- The first character of a value tells how it is written. -/
theorem exists_head (hv : v.Lexical) : ∃ c cs, v.chars = c :: cs ∧ formOf? c = some v.form := by
  by_cases hform : v.form = .word
  · obtain ⟨hne, hword⟩ := hv.word hform
    obtain ⟨c, cs, hchars⟩ := List.exists_cons_of_ne_nil hne
    refine ⟨c, cs, hchars, ?_⟩
    rw [hform]
    exact formOf?_word (hword c (by simp [hchars]))
  · cases hv with
    | string | variableRef | list | object => exact ⟨_, _, rfl, rfl⟩
    | null | boolean | int | float | enum => exact absurd rfl hform

/-- What is written alike is written in the same way. -/
theorem form_eq (hv : v.Lexical) (hw : w.Lexical) {r s : List Char} (h : v.chars ++ r = w.chars ++ s) :
    w.form = v.form := by
  obtain ⟨c, cs, hchars, hform⟩ := hv.exists_head
  obtain ⟨d, ds, hchars', hform'⟩ := hw.exists_head
  rw [hchars, hchars'] at h
  obtain rfl := (List.cons.inj h).1
  exact Option.some.inj (hform'.symm.trans hform)

/-- Words that are written alike are equal. -/
theorem cancels_word (hv : v.Lexical) (hform : v.form = .word) : Cancels chars Lexical v := by
  intro w r s hw hr hs h
  have hform' : w.form = .word := (hv.form_eq hw h).trans hform
  obtain ⟨hchars, hrest⟩ := eq_of_words (hv.word hform).2 (hw.word hform').2 hr hs h
  have hvalue := hv.ofWord?_chars hform
  rw [hchars, hw.ofWord?_chars hform'] at hvalue
  exact ⟨(Option.some.inj hvalue).symm, hrest⟩

/-- An entry is known by how it is written if its value is. -/
theorem cancels_entry {entry : Name × Value} (hvalue : Cancels chars Lexical entry.2) :
    Cancels entryChars (fun entry => entry.2.Lexical) entry := by
  intro other r s hother hr hs h
  unfold entryChars at h
  simp only [List.append_assoc, List.cons_append] at h
  obtain ⟨hname, hrest⟩ := eq_of_words entry.1.isWordChar other.1.isWordChar (delimited_cons (by decide))
    (delimited_cons (by decide)) h
  obtain ⟨hvalues, hend⟩ := hvalue other.2 r s hother hr hs (List.cons.inj (List.cons.inj hrest).2).2
  exact ⟨Prod.ext (Name.ext (String.toList_inj.1 hname)) hvalues, hend⟩

theorem open_ne {c : Char} (hv : v.Lexical) (hc : formOf? c = none) : ∃ d ds, v.chars = d :: ds ∧ d ≠ c := by
  obtain ⟨d, ds, hchars, hform⟩ := hv.exists_head
  refine ⟨d, ds, hchars, ?_⟩
  rintro rfl
  rw [hc] at hform
  cases hform

theorem entry_open_ne (name : Name) (v : Value) {c : Char} (hc : isWordChar c = false) :
    ∃ d ds, entryChars (name, v) = d :: ds ∧ d ≠ c := by
  have hname := name.isName
  cases hchars : name.text.toList with
  | nil =>
    rw [hchars] at hname
    cases hname
  | cons d ds =>
    refine ⟨d, ds ++ ':' :: ' ' :: v.chars, by simp [entryChars, hchars], ?_⟩
    rintro rfl
    rw [name.isWordChar d (by simp [hchars])] at hc
    cases hc

/-- **Values are known by how they are written.** -/
theorem cancels (hv : v.Lexical) : Cancels chars Lexical v := by
  induction hv with
  | null => exact cancels_word .null rfl
  | boolean value => exact cancels_word (.boolean value) rfl
  | int hnumber => exact cancels_word (.int hnumber) rfl
  | float hnumber => exact cancels_word (.float hnumber) rfl
  | enum hname => exact cancels_word (.enum hname) rfl
  | string text =>
    intro w r s hw hr hs h
    have hform := form_eq (.string text) hw h
    cases hw with
    | string text' =>
      simp only [chars, List.cons_append, List.append_assoc, List.nil_append] at h
      obtain ⟨htext, hrest⟩ := eq_of_quoted (List.cons.inj h).2
      exact ⟨congrArg Value.string (String.toList_inj.1 htext), hrest⟩
    | _ => cases hform
  | variableRef name =>
    intro w r s hw hr hs h
    have hform := form_eq (.variableRef name) hw h
    cases hw with
    | variableRef name' =>
      simp only [chars, List.cons_append] at h
      obtain ⟨hname, hrest⟩ := eq_of_words name.isWordChar name'.isWordChar hr hs (List.cons.inj h).2
      exact ⟨congrArg Value.variableRef (Name.ext (String.toList_inj.1 hname)), hrest⟩
    | _ => cases hform
  | list hitems ih =>
    intro w r s hw hr hs h
    have hform := form_eq (.list hitems) hw h
    cases hw with
    | list hitems' =>
      simp only [chars, itemChars_eq, List.cons_append, List.append_assoc, List.nil_append] at h
      obtain ⟨rfl, hrest⟩ := eq_of_separated (by decide) (by decide) (fun v hv => hv.open_ne (by decide))
        (fun item hitem => ⟨hitems item hitem, ih item hitem⟩) hitems' (List.cons.inj h).2
      exact ⟨rfl, hrest⟩
    | _ => cases hform
  | object hfields ih =>
    intro w r s hw hr hs h
    have hform := form_eq (.object hfields) hw h
    cases hw with
    | object hfields' =>
      simp only [chars, fieldChars_eq, List.cons_append, List.append_assoc, List.nil_append] at h
      obtain ⟨rfl, hrest⟩ := eq_of_separated (by decide) (by decide)
        (fun entry _ => entry_open_ne entry.1 entry.2 (by decide))
        (fun field hfield => ⟨hfields field hfield, cancels_entry (ih field hfield)⟩) hfields' (List.cons.inj h).2
      exact ⟨rfl, hrest⟩
    | _ => cases hform

end Lexical

end Value

end SelectionMerge
