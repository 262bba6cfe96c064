/-!
# Names

A name is the word that fields, arguments, types, fragments and variables are called by:
a letter or underscore, then letters, digits and underscores, all ASCII. The check is part
of the type, so a name taken from a text or built in carries its own evidence, and two names
are equal as soon as their texts are.
-/

namespace SelectionMerge
set_option autoImplicit false

/-- The characters a name may start with. -/
def isNameStart (c : Char) : Bool :=
  c.isAlpha || c == '_'

/-- The characters a name may go on with. -/
def isNameContinue (c : Char) : Bool :=
  c.isAlphanum || c == '_'

/-- Whether the characters spell a name. -/
def isName : List Char → Bool
  | [] => false
  | c :: cs => isNameStart c && cs.all isNameContinue

/-- A checked name. -/
structure Name where
  text : String
  isName : isName text.toList = true
  deriving DecidableEq

namespace Name

instance : ToString Name := ⟨Name.text⟩

/-- The name that `text` spells, if it spells one. -/
def ofText? (text : String) : Option Name :=
  if h : SelectionMerge.isName text.toList = true then some ⟨text, h⟩ else none

@[ext] theorem ext {a b : Name} (h : a.text = b.text) : a = b := by
  cases a
  cases b
  simpa using h

theorem ofText?_eq_some_iff {text : String} {n : Name} : ofText? text = some n ↔ n.text = text := by
  unfold ofText?
  constructor
  · intro h
    split at h
    · cases h
      rfl
    · cases h
  · rintro rfl
    rw [dif_pos n.isName]

/-- Names are ordered by their texts, character by character. -/
def before (a b : Name) : Bool :=
  decide (a.text < b.text)

end Name

end SelectionMerge
