import SelectionMerge.Proofs.Document.Printing

/-!
# Calls are known by their arguments

Fields are compared by their calls, which hold the arguments as they are written. No information is lost by
that: for arguments that a text can hold, two calls are the same if and only if the fields have one name and
one set of arguments, and the calls are written alike only if they are the same (`calls_identify_arguments`).
-/

namespace SelectionMerge
set_option autoImplicit false

/-- The argument is known by how it is written. -/
theorem Argument.cancels {argument : Argument} (h : argument.value.Lexical) :
    Cancels Argument.chars (fun other => other.value.Lexical) argument := by
  intro other r s hother hr hs hchars
  have hcancels : Cancels Value.entryChars (fun entry => entry.2.Lexical) (argument.name, argument.value) :=
    Value.Lexical.cancels_entry h.cancels
  obtain ⟨hentry, hrest⟩ := hcancels (other.name, other.value) r s hother hr hs hchars
  obtain ⟨hname, hvalue⟩ := Prod.mk.inj hentry
  cases argument
  cases other
  simp only at hname hvalue
  subst hname hvalue
  exact ⟨rfl, hrest⟩

/-- The text of an argument that a text can hold. -/
def IsWritten (text : String) : Prop :=
  ∃ argument : Argument, argument.value.Lexical ∧ argument.text = text

theorem IsWritten.cancels {text : String} (h : IsWritten text) : Cancels String.toList IsWritten text := by
  obtain ⟨argument, hargument, rfl⟩ := h
  rintro _ r s ⟨other, hother, rfl⟩ hr hs htext
  simp only [Argument.text, String.toList_ofList] at htext
  obtain ⟨rfl, hrest⟩ := Argument.cancels hargument other r s hother hr hs htext
  exact ⟨rfl, hrest⟩

theorem IsWritten.open_ne {text : String} (h : IsWritten text) : ∃ c cs, text.toList = c :: cs ∧ c ≠ ')' := by
  obtain ⟨argument, -, rfl⟩ := h
  rw [Argument.text, String.toList_ofList]
  exact Value.Lexical.entry_open_ne argument.name argument.value (by decide)

/-- Arguments that are written alike are equal. -/
theorem Argument.eq_of_text {a b : Argument} (ha : a.value.Lexical) (hb : b.value.Lexical) (h : a.text = b.text) :
    a = b := by
  have hchars : a.chars ++ [] = b.chars ++ [] := by
    rw [← String.toList_ofList (l := a.chars), ← String.toList_ofList (l := b.chars)]
    exact congrArg (fun text => text.toList ++ []) h
  exact (Argument.cancels ha b [] [] hb delimited_nil delimited_nil hchars).1

namespace FieldCall

/-- What follows the name of a call. -/
def tail (arguments : List String) : List Char :=
  if arguments.isEmpty then [] else '(' :: (commaSeparated (arguments.map String.toList) ++ [')'])

theorem toList_text (call : FieldCall) : call.text.toList = call.name.text.toList ++ tail call.arguments := by
  unfold text tail
  split
  · rw [List.append_nil]
  · simp [commaSeparated, String.toList_intercalate]

theorem delimited_tail (arguments : List String) : Delimited (tail arguments) := by
  unfold tail
  split
  · exact delimited_nil
  · exact delimited_cons (by decide)

/-- Written arguments are known by how they stand behind a name. -/
theorem tail_inj {as bs : List String} (has : ∀ text ∈ as, IsWritten text) (hbs : ∀ text ∈ bs, IsWritten text)
    (h : tail as = tail bs) : as = bs := by
  unfold tail at h
  cases as with
  | nil =>
    cases bs with
    | nil => rfl
    | cons b bs => simp at h
  | cons a as =>
    cases bs with
    | nil => simp at h
    | cons b bs =>
      have hparts := (List.cons.inj h).2
      exact (eq_of_separated (by decide) (by decide) (fun text htext => IsWritten.open_ne htext)
        (fun text htext => ⟨has text htext, (has text htext).cancels⟩) hbs hparts).1

/-- Calls of written arguments are known by how they are written. -/
theorem text_inj {f g : FieldCall} (hf : ∀ text ∈ f.arguments, IsWritten text)
    (hg : ∀ text ∈ g.arguments, IsWritten text) : f.text = g.text ↔ f = g := by
  refine ⟨fun h => ?_, congrArg text⟩
  have hchars := congrArg String.toList h
  rw [toList_text, toList_text] at hchars
  obtain ⟨hname, hrest⟩ := eq_of_words f.name.isWordChar g.name.isWordChar (delimited_tail f.arguments)
    (delimited_tail g.arguments) hchars
  have harguments := tail_inj hf hg hrest
  cases f
  cases g
  simp only at hname harguments
  rw [Name.ext (String.toList_inj.1 hname), harguments]

end FieldCall

namespace Field

variable {f g : Field}

theorem mem_arguments_call {text : String} : text ∈ f.call.arguments ↔ ∃ a ∈ f.arguments, a.text = text := by
  unfold call
  rw [Ascending.mem_ofList, List.mem_map]

/-- The arguments of a call are written. -/
theorem isWritten_of_call (hf : ∀ a ∈ f.arguments, a.value.Lexical) : ∀ text ∈ f.call.arguments, IsWritten text := by
  intro text htext
  obtain ⟨a, ha, rfl⟩ := mem_arguments_call.1 htext
  exact ⟨a, hf a ha, rfl⟩

/-- An argument of a field is in a call if and only if it is written there. -/
theorem mem_of_text_mem (hg : ∀ a ∈ g.arguments, a.value.Lexical) {a : Argument} (ha : a.value.Lexical) :
    a.text ∈ g.call.arguments ↔ a ∈ g.arguments := by
  rw [mem_arguments_call]
  constructor
  · rintro ⟨b, hb, htext⟩
    obtain rfl := Argument.eq_of_text (hg b hb) ha htext
    exact hb
  · exact fun ha => ⟨a, ha, rfl⟩

/-- Calls have the same arguments if the fields have. -/
theorem arguments_call_eq_iff (hf : ∀ a ∈ f.arguments, a.value.Lexical) (hg : ∀ a ∈ g.arguments, a.value.Lexical) :
    f.call.arguments = g.call.arguments ↔ ∀ a, a ∈ f.arguments ↔ a ∈ g.arguments := by
  constructor
  · intro h a
    constructor
    · intro ha
      rw [← mem_of_text_mem hg (hf a ha), ← h]
      exact (mem_of_text_mem hf (hf a ha)).2 ha
    · intro ha
      rw [← mem_of_text_mem hf (hg a ha), h]
      exact (mem_of_text_mem hg (hg a ha)).2 ha
  · intro h
    refine Ascending.eq_of_mem_iff Ascending.pairwise_ofList Ascending.pairwise_ofList fun text => ?_
    exact mem_arguments_call.trans ((exists_congr fun a => and_congr_left' (h a)).trans mem_arguments_call.symm)

end Field

/-- **Calls are known by their arguments.** Two fields whose arguments a text can hold make one call if and
only if they have one name and the same arguments, in any order and number, and their calls are written alike
if and only if they are one. -/
theorem calls_identify_arguments (f g : Field) (hf : ∀ a ∈ f.arguments, a.value.Lexical)
    (hg : ∀ a ∈ g.arguments, a.value.Lexical) :
    (f.call = g.call ↔ f.name = g.name ∧ ∀ a, a ∈ f.arguments ↔ a ∈ g.arguments) ∧
    (f.call.text = g.call.text ↔ f.call = g.call) := by
  refine ⟨?_, FieldCall.text_inj (Field.isWritten_of_call hf) (Field.isWritten_of_call hg)⟩
  rw [← Field.arguments_call_eq_iff hf hg]
  unfold Field.call
  rw [FieldCall.mk.injEq]

/-- A field that is called with these arguments. -/
def calledWith (arguments : List Argument) : Field :=
  ⟨none, ⟨"find", Eq.refl true⟩, arguments, none⟩

/-- An argument that lists strings. -/
def listing (strings : List String) : Argument :=
  ⟨⟨"names", Eq.refl true⟩, .list (strings.map .string)⟩

/-- An argument that is a number. -/
def limit : Argument :=
  ⟨⟨"limit", Eq.refl true⟩, .int "10"⟩

theorem lexical_listing (strings : List String) : (listing strings).value.Lexical := by
  refine .list fun item hitem => ?_
  obtain ⟨text, -, rfl⟩ := List.mem_map.1 hitem
  exact .string text

theorem lexical_limit : limit.value.Lexical :=
  .int (by decide)

/-- Two strings are told apart from one that holds what stands between them; and neither the order of the
arguments nor their repetition matters. -/
theorem listed_calls_told_apart :
    (calledWith [listing ["a", "b"], limit]).call ≠ (calledWith [listing ["a\", \"b"], limit]).call ∧
    (calledWith [listing ["a", "b"], limit]).call.text ≠ (calledWith [listing ["a\", \"b"], limit]).call.text ∧
    (calledWith [listing ["a", "b"], limit]).call = (calledWith [limit, listing ["a", "b"], limit]).call := by
  have hlexical : ∀ strings, ∀ a ∈ (calledWith [listing strings, limit]).arguments, a.value.Lexical := by
    simp [calledWith, lexical_listing, lexical_limit]
  have hrepeated : ∀ a ∈ (calledWith [limit, listing ["a", "b"], limit]).arguments, a.value.Lexical := by
    simp [calledWith, lexical_listing, lexical_limit]
  obtain ⟨hcall, htext⟩ := calls_identify_arguments (calledWith [listing ["a", "b"], limit])
    (calledWith [listing ["a\", \"b"], limit]) (hlexical _) (hlexical _)
  have hdiffer : (calledWith [listing ["a", "b"], limit]).call ≠ (calledWith [listing ["a\", \"b"], limit]).call := by
    intro heq
    have hmem := ((hcall.1 heq).2 (listing ["a", "b"])).1 (.head _)
    simp [calledWith, listing, limit] at hmem
  refine ⟨hdiffer, fun heq => hdiffer (htext.1 heq), ?_⟩
  refine (calls_identify_arguments _ _ (hlexical _) hrepeated).1.2 ⟨rfl, fun a => ?_⟩
  simp only [calledWith, List.mem_cons]
  grind

end SelectionMerge
