import SelectionMerge.Document.Text
import SelectionMerge.Text.Scanner

/-!
# Words and quoted characters

What written values are made of. A word has characters of names and numbers only and ends where another
character follows, so the text behind it tells where it ends (`eq_of_words`). Between quotes a character is
written in such a way that no other one begins like that (`quotedChar?_escapeChar`), so what is quoted is
known by how it is written (`eq_of_quoted`).
-/

namespace SelectionMerge
set_option autoImplicit false

section Words

/-- The characters of names, keywords and numbers. -/
def isWordChar (c : Char) : Bool :=
  isNameContinue c || c == '.' || c == '+' || c == '-'

/-- A text that a word cannot go on with. -/
def Delimited (rest : List Char) : Prop :=
  ∀ c cs, rest = c :: cs → isWordChar c = false

theorem delimited_nil : Delimited [] :=
  fun _ _ h => by cases h

theorem delimited_cons {c : Char} {cs : List Char} (hc : isWordChar c = false) : Delimited (c :: cs) := by
  rintro _ _ ⟨⟩
  exact hc

/-- Where a word ends is told by what follows. -/
theorem eq_of_words {u w r s : List Char} (hu : ∀ c ∈ u, isWordChar c = true) (hw : ∀ c ∈ w, isWordChar c = true)
    (hr : Delimited r) (hs : Delimited s) (h : u ++ r = w ++ s) : u = w ∧ r = s := by
  induction u generalizing w with
  | nil =>
    cases w with
    | nil => exact ⟨rfl, h⟩
    | cons d w =>
      have hd := hw d (.head _)
      rw [hr d _ h] at hd
      cases hd
  | cons c u ih =>
    cases w with
    | nil =>
      have hc := hu c (.head _)
      rw [hs c _ h.symm] at hc
      cases hc
    | cons d w =>
      obtain ⟨rfl, htail⟩ := List.cons.inj h
      obtain ⟨rfl, hrest⟩ := ih (fun c hc => hu c (.tail _ hc)) (fun c hc => hw c (.tail _ hc)) htail
      exact ⟨rfl, hrest⟩

/-- Names are words. -/
theorem Name.isWordChar (name : Name) : ∀ c ∈ name.text.toList, isWordChar c = true := by
  have hname := name.isName
  cases hchars : name.text.toList with
  | nil => simp
  | cons first rest =>
    rw [hchars, SelectionMerge.isName, Bool.and_eq_true, List.all_eq_true] at hname
    intro c hc
    unfold SelectionMerge.isWordChar
    rcases List.mem_cons.1 hc with rfl | hc
    · have hstart := hname.1
      simp only [isNameStart, Bool.or_eq_true] at hstart
      rcases hstart with hstart | hstart <;> simp [isNameContinue, Char.isAlphanum, hstart]
    · simp [hname.2 c hc]

namespace NumberPhase

/-- The phase after the first character of a number. -/
def first? (c : Char) : Option NumberPhase :=
  if c == '-' then some .minus
  else if c == '0' then some .zero
  else if c.isDigit then some .integer
  else none

/-- The phase after the characters of a number, if they are the beginning of one. -/
def read? : List Char → Option NumberPhase
  | [] => none
  | c :: cs => do cs.foldlM next? (← first? c)

/-- The number that a text spells, if it spells one. -/
def number? (text : String) : Option Lexeme := do
  (← read? text.toList).lexeme? text

theorem isWordChar_of_isDigit {c : Char} (h : c.isDigit = true) : isWordChar c = true := by
  simp [isWordChar, isNameContinue, Char.isAlphanum, h]

theorem isNameStart_of_isDigit {c : Char} (h : c.isDigit = true) : isNameStart c = false := by
  have hnot : c ≠ '_' := by
    rintro rfl
    exact absurd h (by decide)
  have halpha : c.isAlpha = false := by
    delta Char.isDigit at h
    delta Char.isAlpha Char.isUpper Char.isLower
    grind
  simp [isNameStart, halpha, hnot]

/-- A number goes on with characters of words. -/
theorem isWordChar_of_next? {phase after : NumberPhase} {c : Char} (h : phase.next? c = some after) :
    isWordChar c = true := by
  cases hword : isWordChar c with
  | true => rfl
  | false =>
    have hmarks : ['0', '.', 'e', 'E', '+', '-'].all isWordChar = true := by decide
    have hdigit : c.isDigit = false := by
      rw [← Bool.not_eq_true]
      intro hdigit
      rw [isWordChar_of_isDigit hdigit] at hword
      cases hword
    have hne : ∀ d ∈ ['0', '.', 'e', 'E', '+', '-'], (c == d) = false := by
      intro d hd
      rw [beq_eq_false_iff_ne]
      rintro rfl
      rw [List.all_eq_true.1 hmarks c hd] at hword
      cases hword
    simp only [List.forall_mem_cons] at hne
    cases phase <;> simp [next?, hdigit, hne] at h

/-- A number begins with a character of words that no name starts with. -/
theorem start_of_first? {phase : NumberPhase} {c : Char} (h : first? c = some phase) :
    isWordChar c = true ∧ isNameStart c = false := by
  unfold first? at h
  split at h
  next hminus =>
    obtain rfl := eq_of_beq hminus
    decide
  next =>
    split at h
    next hzero =>
      obtain rfl := eq_of_beq hzero
      decide
    next =>
      split at h
      next hdigit =>
        exact ⟨isWordChar_of_isDigit hdigit, isNameStart_of_isDigit hdigit⟩
      next => cases h

/-- A number has a first character, and all of them are characters of words. -/
theorem word_of_number? {text : String} {lexeme : Lexeme} (h : number? text = some lexeme) :
    (∃ c cs, text.toList = c :: cs ∧ isNameStart c = false) ∧ ∀ c ∈ text.toList, isWordChar c = true := by
  obtain ⟨last, hread, -⟩ := Option.bind_eq_some_iff.1 h
  cases hchars : text.toList with
  | nil =>
    rw [hchars] at hread
    cases hread
  | cons c cs =>
    rw [hchars] at hread
    obtain ⟨phase, hfirst, hrest⟩ := Option.bind_eq_some_iff.1 hread
    obtain ⟨hword, hstart⟩ := start_of_first? hfirst
    refine ⟨⟨c, cs, rfl, hstart⟩, List.forall_mem_cons.2 ⟨hword, ?_⟩⟩
    clear h hread hfirst hchars
    induction cs generalizing phase with
    | nil => simp
    | cons d cs ih =>
      rw [List.foldlM_cons] at hrest
      obtain ⟨after, hnext, hrest⟩ := Option.bind_eq_some_iff.1 hrest
      exact List.forall_mem_cons.2 ⟨isWordChar_of_next? hnext, ih after hrest⟩

/-- No name is a number. -/
theorem number?_name (name : Name) : number? name.text = none := by
  rw [Option.eq_none_iff_forall_ne_some]
  intro lexeme hnumber
  obtain ⟨⟨c, cs, hchars, hstart⟩, -⟩ := word_of_number? hnumber
  have hname := name.isName
  rw [hchars, isName, hstart] at hname
  cases hname

end NumberPhase

end Words

section Quoted

/-- The character that comes first between quotes, and the text behind it. -/
def quotedChar? : List Char → Option (Char × List Char)
  | '\\' :: 'u' :: a :: b :: c :: d :: rest =>
    (Quoted.hexNumber? [a, b, c, d]).map fun code => (Char.ofNat code, rest)
  | '\\' :: c :: rest => (Quoted.shortEscape? c).map fun escaped => (escaped, rest)
  | '"' :: _ => none
  | c :: rest => some (c, rest)
  | [] => none

/-- The two digits of a control character are read back. -/
theorem hexNumber?_hexDigits :
    ∀ n < 0x20, Quoted.hexNumber? ['0', '0', hexDigit (n / 16), hexDigit (n % 16)] = some n := by
  decide

/-- A character is read as it is written. -/
theorem quotedChar?_escapeChar (c : Char) (rest : List Char) : quotedChar? (escapeChar c ++ rest) = some (c, rest) := by
  unfold escapeChar
  by_cases hquote : c = '"'
  · subst hquote; rfl
  by_cases hbackslash : c = '\\'
  · subst hbackslash; rfl
  by_cases htab : c = '\t'
  · subst htab; rfl
  by_cases hback : c = '\x08'
  · subst hback; rfl
  by_cases hline : c = '\n'
  · subst hline; rfl
  by_cases hform : c = '\x0c'
  · subst hform; rfl
  by_cases hreturn : c = '\r'
  · subst hreturn; rfl
  by_cases hcontrol : c.toNat < 0x20
  · simp only [hquote, hbackslash, htab, hback, hline, hform, hreturn, hcontrol, if_true, if_false,
      List.cons_append, List.nil_append, quotedChar?]
    rw [hexNumber?_hexDigits c.toNat hcontrol, Option.map_some, Char.ofNat_toNat]
  · simp only [hquote, hbackslash, htab, hback, hline, hform, hreturn, hcontrol, if_false, List.cons_append,
      List.nil_append]
    unfold quotedChar?
    split <;> simp_all

/-- What is quoted, and where the quote ends, is told by the text. -/
theorem eq_of_quoted {u w r s : List Char} (h : u.flatMap escapeChar ++ '"' :: r = w.flatMap escapeChar ++ '"' :: s) :
    u = w ∧ r = s := by
  induction u generalizing w with
  | nil =>
    cases w with
    | nil => exact ⟨rfl, (List.cons.inj h).2⟩
    | cons d w =>
      rw [List.flatMap_cons, List.append_assoc] at h
      have hread := congrArg quotedChar? h
      rw [quotedChar?_escapeChar] at hread
      cases hread
  | cons c u ih =>
    rw [List.flatMap_cons, List.append_assoc] at h
    have hread := congrArg quotedChar? h
    rw [quotedChar?_escapeChar] at hread
    cases w with
    | nil => cases hread
    | cons d w =>
      rw [List.flatMap_cons, List.append_assoc, quotedChar?_escapeChar] at hread
      obtain ⟨rfl, htail⟩ := Prod.mk.inj (Option.some.inj hread)
      obtain ⟨rfl, hrest⟩ := ih htail
      exact ⟨rfl, hrest⟩

end Quoted

end SelectionMerge
