import SelectionMerge.Shape
import SelectionMerge.Proofs.Document.Words

/-!
# Shapes are known by their structure

A type and a shape both put lists and non-null marks around something at the bottom: a type around a name, a
shape around a scalar, an enum or the one composite shape. `Wrapper` names the two, and `enclosed` writes them
down, so that a type and a shape are known by how they are written (`TypeRef.innerName_of_text`,
`Shape.text_inj`). The shape of a type has the wrappers of the type (`wrappers_of`), so shapes tell apart just
what responses tell apart (`shapes_are_structures`).
-/

namespace SelectionMerge
set_option autoImplicit false

/-- What types and shapes put around others. -/
inductive Wrapper where
  | list
  | nonNull
  deriving DecidableEq

section Enclosed

/-- Characters with the brackets and exclamation marks of the wrappers around them, the outermost first. -/
def enclosed : List Wrapper → List Char → List Char
  | [], chars => chars
  | .list :: wrappers, chars => '[' :: (enclosed wrappers chars ++ [']'])
  | .nonNull :: wrappers, chars => enclosed wrappers chars ++ ['!']

/-- Characters that no wrapper is read off. -/
structure Bare (chars : List Char) : Prop where
  first : chars.head? ≠ some '['
  last : chars.getLast? ≠ some '!'

variable {wrappers wrappers' : List Wrapper} {as bs : List Char}

theorem head?_enclosed_list : (enclosed (.list :: wrappers) as).head? = some '[' := rfl

theorem getLast?_enclosed_list : (enclosed (.list :: wrappers) as).getLast? = some ']' := by
  rw [enclosed, ← List.cons_append, List.getLast?_concat]

theorem getLast?_enclosed_nonNull : (enclosed (.nonNull :: wrappers) as).getLast? = some '!' := by
  rw [enclosed, List.getLast?_concat]

/-- Bare characters are not wrapped. -/
theorem Bare.eq_nil (has : Bare as) (h : as = enclosed wrappers bs) : wrappers = [] := by
  cases wrappers with
  | nil => rfl
  | cons wrapper wrappers =>
    subst h
    cases wrapper with
    | list => exact absurd head?_enclosed_list has.first
    | nonNull => exact absurd getLast?_enclosed_nonNull has.last

/-- Wrappers and what they enclose are known by how they are written. -/
theorem enclosed_inj (has : Bare as) (hbs : Bare bs) (h : enclosed wrappers as = enclosed wrappers' bs) :
    wrappers = wrappers' ∧ as = bs := by
  induction wrappers generalizing wrappers' with
  | nil =>
    obtain rfl := has.eq_nil h
    exact ⟨rfl, h⟩
  | cons wrapper wrappers ih =>
    cases wrappers' with
    | nil => exact absurd (hbs.eq_nil h.symm) (List.cons_ne_nil _ _)
    | cons wrapper' wrappers' =>
      -- The last character tells which of the two stands outermost.
      have hlast := congrArg List.getLast? h
      cases wrapper with
      | list =>
        cases wrapper' with
        | list =>
          have hinner := List.append_cancel_right (List.cons.inj h).2
          obtain ⟨rfl, rfl⟩ := ih hinner
          exact ⟨rfl, rfl⟩
        | nonNull =>
          rw [getLast?_enclosed_list, getLast?_enclosed_nonNull] at hlast
          simp at hlast
      | nonNull =>
        cases wrapper' with
        | list =>
          rw [getLast?_enclosed_list, getLast?_enclosed_nonNull] at hlast
          simp at hlast
        | nonNull =>
          obtain ⟨rfl, rfl⟩ := ih (List.append_cancel_right h)
          exact ⟨rfl, rfl⟩

/-- Words are bare. -/
theorem bare_of_words (h : ∀ c ∈ as, isWordChar c = true) : Bare as := by
  constructor
  · intro hfirst
    have hword := h '[' (List.mem_of_mem_head? hfirst)
    revert hword
    decide
  · intro hlast
    have hword := h '!' (List.mem_of_getLast? hlast)
    revert hword
    decide

end Enclosed

namespace TypeRef

/-- The mark of a non-null type, if it is one. -/
def marks (nonNull : Bool) : List Wrapper :=
  if nonNull then [.nonNull] else []

/-- The lists and non-null marks of a type, from the outside to its name. -/
def wrappers : TypeRef → List Wrapper
  | .named _ nonNull => marks nonNull
  | .list item nonNull => marks nonNull ++ .list :: item.wrappers

theorem enclosed_marks (nonNull : Bool) (wrappers : List Wrapper) (chars : List Char) :
    enclosed (marks nonNull ++ wrappers) chars = enclosed wrappers chars ++ (bang nonNull).toList := by
  cases nonNull with
  | true => rfl
  | false => exact (List.append_nil _).symm

/-- A type is written as its name with its wrappers around it. -/
theorem toList_text (type : TypeRef) : type.text.toList = enclosed type.wrappers type.innerName.text.toList := by
  induction type with
  | named name nonNull =>
    have hmarks := enclosed_marks nonNull [] name.text.toList
    rw [List.append_nil] at hmarks
    simp only [text, String.toList_append, wrappers, innerName, hmarks, enclosed]
  | list item nonNull ih =>
    rw [wrappers, enclosed_marks, enclosed, innerName, ← ih]
    simp [text]

/-- The name inside a type is known by how the type is written. -/
theorem innerName_of_text {s t : TypeRef} (h : s.text = t.text) : s.innerName = t.innerName := by
  have hchars := congrArg String.toList h
  rw [toList_text, toList_text] at hchars
  have hnames := enclosed_inj (bare_of_words s.innerName.isWordChar) (bare_of_words t.innerName.isWordChar) hchars
  exact Name.ext (String.toList_inj.1 hnames.2)

/-- No mark stands directly inside another one. -/
theorem not_nonNull_nonNull_suffix (type : TypeRef) (wrappers : List Wrapper) :
    ¬ (.nonNull :: .nonNull :: wrappers) <:+ type.wrappers := by
  induction type with
  | named name nonNull =>
    intro h
    have hlength := h.length_le
    cases nonNull <;> simp [TypeRef.wrappers, marks] at hlength
  | list item nonNull ih =>
    cases nonNull <;> simp [TypeRef.wrappers, marks, List.suffix_cons_iff, ih]

end TypeRef

namespace Shape

/-- The lists and non-null marks of a shape, from the outside in. -/
def wrappers : Shape → List Wrapper
  | .leaf _ => []
  | .list item => .list :: item.wrappers
  | .nonNull inner => .nonNull :: inner.wrappers
  | .composite => []

/-- The scalar or enum at the bottom of a shape. -/
def leaf? : Shape → Option Name
  | .leaf name => some name
  | .list item => item.leaf?
  | .nonNull inner => inner.leaf?
  | .composite => none

/-- `part.Inside whole`: the one is a shape inside the other, or the other itself. -/
inductive Inside (part : Shape) : Shape → Prop where
  | whole : Inside part part
  | list {item : Shape} : Inside part item → Inside part (.list item)
  | nonNull {inner : Shape} : Inside part inner → Inside part (.nonNull inner)

variable {s t part : Shape}

/-- A shape is known by its wrappers and what stands at its bottom. -/
theorem eq_iff : s = t ↔ s.wrappers = t.wrappers ∧ s.leaf? = t.leaf? := by
  constructor
  · rintro rfl
    exact ⟨rfl, rfl⟩
  · induction s generalizing t with
    | leaf name => cases t <;> simp [wrappers, leaf?]
    | composite => cases t <;> simp [wrappers, leaf?]
    | list item ih =>
      cases t with
      | list item' =>
        rintro ⟨hwrappers, hleaf⟩
        rw [ih ⟨(List.cons.inj hwrappers).2, hleaf⟩]
      | _ => simp [wrappers]
    | nonNull inner ih =>
      cases t with
      | nonNull inner' =>
        rintro ⟨hwrappers, hleaf⟩
        rw [ih ⟨(List.cons.inj hwrappers).2, hleaf⟩]
      | _ => simp [wrappers]

theorem isLeaf_eq (s : Shape) : s.isLeaf = s.leaf?.isSome := by
  induction s with
  | leaf name => rfl
  | composite => rfl
  | list item ih => exact ih
  | nonNull inner ih => exact ih

/-- What stands inside a shape has the inner ones of its wrappers. -/
theorem Inside.suffix (h : part.Inside s) : part.wrappers <:+ s.wrappers := by
  induction h with
  | whole => exact List.suffix_refl _
  | list _ ih => exact ih.trans (List.suffix_cons _ _)
  | nonNull _ ih => exact ih.trans (List.suffix_cons _ _)

section Text

/-- What stands at the bottom of a shape, as it is written. -/
def bottomChars : Option Name → List Char
  | some name => name.text.toList
  | none => ['\x7b', '.', '.', '.', '\x7d']

/-- A shape is written as what stands at its bottom with its wrappers around it. -/
theorem toList_text (s : Shape) : s.text.toList = enclosed s.wrappers (bottomChars s.leaf?) := by
  induction s with
  | leaf name => rfl
  | composite => rfl
  | list item ih => simp [text, wrappers, leaf?, enclosed, ih]
  | nonNull inner ih => simp [text, wrappers, leaf?, enclosed, ih]

theorem bare_bottomChars (leaf? : Option Name) : Bare (bottomChars leaf?) := by
  cases leaf? with
  | some name => exact bare_of_words name.isWordChar
  | none => exact ⟨by decide, by decide⟩

/-- The brace of the composite shape is in no name. -/
theorem bottomChars_inj {a b : Option Name} (h : bottomChars a = bottomChars b) : a = b := by
  have hbrace : ∀ name : Name, name.text.toList ≠ bottomChars none := by
    intro name hname
    have hword := name.isWordChar '\x7b' (hname ▸ .head _)
    revert hword
    decide
  cases a with
  | none =>
    cases b with
    | none => rfl
    | some b => exact absurd h.symm (hbrace b)
  | some a =>
    cases b with
    | none => exact absurd h (hbrace a)
    | some b => rw [Name.ext (String.toList_inj.1 h)]

/-- Shapes are known by how they are written. -/
theorem text_inj : s.text = t.text ↔ s = t := by
  refine ⟨fun h => ?_, congrArg text⟩
  have hchars := congrArg String.toList h
  rw [toList_text, toList_text] at hchars
  obtain ⟨hwrappers, hbottom⟩ := enclosed_inj (bare_bottomChars _) (bare_bottomChars _) hchars
  exact eq_iff.2 ⟨hwrappers, bottomChars_inj hbottom⟩

end Text

section Wrap

theorem wrappers_mark (required : Bool) (s : Shape) :
    (mark required s).wrappers = TypeRef.marks required ++ s.wrappers := by
  cases required <;> rfl

theorem leaf?_mark (required : Bool) (s : Shape) : (mark required s).leaf? = s.leaf? := by
  cases required <;> rfl

/-- Wrapping puts the wrappers of the type around a shape. -/
theorem wrappers_wrap (inner : Shape) (type : TypeRef) :
    (wrap inner type).wrappers = type.wrappers ++ inner.wrappers := by
  induction type with
  | named name nonNull => exact wrappers_mark nonNull inner
  | list item nonNull ih =>
    simp only [wrap, wrappers_mark, wrappers, ih, TypeRef.wrappers, List.append_assoc, List.cons_append]

theorem leaf?_wrap (inner : Shape) (type : TypeRef) : (wrap inner type).leaf? = inner.leaf? := by
  induction type with
  | named name nonNull => exact leaf?_mark nonNull inner
  | list item nonNull ih => rw [wrap, leaf?_mark, leaf?, ih]

end Wrap

end Shape

/-- The type is an input object type. -/
def TypeDefinition.IsInputObject (type : TypeDefinition) : Prop :=
  ∃ fields, type.body = .inputObject fields

/-- The name of a scalar or an enum. -/
def TypeDefinition.leaf? (type : TypeDefinition) : Option Name :=
  if type.isLeaf then some type.name else none

namespace TypeDefinition

variable {d e : TypeDefinition}

theorem isSome_leaf? (d : TypeDefinition) : d.leaf?.isSome = d.isLeaf := by
  unfold leaf?
  cases d.isLeaf <;> rfl

/-- Two types are alike at the bottom of shapes if neither is a leaf or both are leaves of one name. -/
theorem leaf?_eq_iff : d.leaf? = e.leaf? ↔
    (!d.isLeaf) = true ∧ (!e.isLeaf) = true ∨ d.isLeaf = true ∧ e.isLeaf = true ∧ d.name = e.name := by
  unfold leaf?
  cases d.isLeaf <;> cases e.isLeaf <;> simp

end TypeDefinition

namespace Shape

variable {type : TypeRef} {definition : TypeDefinition} {shape : Shape}

/-- Input object types have no shape, and all others have one. -/
theorem of_eq_error {defect : Defect} :
    Shape.of type definition = .error defect ↔
      definition.IsInputObject ∧ defect = .inputObjectOutput definition.name := by
  unfold Shape.of ofDefinition TypeDefinition.IsInputObject
  cases definition.body with
  | inputObject fields => simp [Except.map, eq_comm]
  | scalar => simp [Except.map]
  | object interfaces fields => simp [Except.map]
  | interface interfaces fields => simp [Except.map]
  | union members => simp [Except.map]
  | enum values => simp [Except.map]

theorem exists_of_iff : (∃ shape, Shape.of type definition = .ok shape) ↔ ¬ definition.IsInputObject := by
  cases h : Shape.of type definition with
  | error defect => simp [(of_eq_error.1 h).1]
  | ok shape =>
    have hnone : ¬ definition.IsInputObject := by
      intro hinput
      have herror : Shape.of type definition = .error _ := of_eq_error.2 ⟨hinput, rfl⟩
      rw [h] at herror
      cases herror
    simp [hnone]

/-- The shape of a named type is bare, and has the name of the type if that is a scalar or an enum. -/
theorem ofDefinition_eq_ok (h : ofDefinition definition = .ok shape) :
    shape.wrappers = [] ∧ shape.leaf? = definition.leaf? ∧ definition.isComposite = !definition.isLeaf := by
  unfold ofDefinition at h
  cases hbody : definition.body with
  | inputObject fields =>
    rw [hbody] at h
    cases h
  | _ =>
    rw [hbody] at h
    obtain rfl := Except.ok.inj h
    simp [TypeDefinition.leaf?, TypeDefinition.isLeaf, TypeDefinition.isComposite, hbody, wrappers, leaf?]

/-- A shape has the wrappers of the type, around the named type's shape. -/
theorem of_eq_ok (h : Shape.of type definition = .ok shape) :
    shape.wrappers = type.wrappers ∧ shape.leaf? = definition.leaf? ∧
      definition.isComposite = !definition.isLeaf := by
  unfold Shape.of at h
  cases hnamed : ofDefinition definition with
  | error defect =>
    rw [hnamed] at h
    cases h
  | ok inner =>
    rw [hnamed] at h
    obtain rfl := Except.ok.inj h
    obtain ⟨hwrappers, hleaf, hcomposite⟩ := ofDefinition_eq_ok hnamed
    rw [wrappers_wrap, hwrappers, List.append_nil, leaf?_wrap]
    exact ⟨rfl, hleaf, hcomposite⟩

end Shape

/-- **Shapes are structures.** Input object types have no shape, and all others have one. Two shapes are equal
exactly where the types have the same lists and non-null marks around two composite types, or around scalars or
enums of one name. No non-null mark in a shape stands directly inside another one, a shape is that of a leaf
exactly for scalars and enums, and shapes are written alike only if they are equal. -/
theorem shapes_are_structures (s t : TypeRef) (d e : TypeDefinition) :
    (∀ defect, Shape.of s d = .error defect ↔ d.IsInputObject ∧ defect = .inputObjectOutput d.name) ∧
    ((∃ shape, Shape.of s d = .ok shape) ↔ ¬ d.IsInputObject) ∧
    ∀ a b, Shape.of s d = .ok a → Shape.of t e = .ok b →
      (a = b ↔ s.wrappers = t.wrappers ∧
        (d.isComposite = true ∧ e.isComposite = true ∨
          d.isLeaf = true ∧ e.isLeaf = true ∧ d.name = e.name)) ∧
      (∀ inner, ¬ (Shape.nonNull (.nonNull inner)).Inside a) ∧
      (a.isLeaf = true ↔ d.isLeaf = true) ∧
      (a.text = b.text ↔ a = b) := by
  refine ⟨fun defect => Shape.of_eq_error, Shape.exists_of_iff, fun a b ha hb => ?_⟩
  obtain ⟨hwrappers, hleaf, hcomposite⟩ := Shape.of_eq_ok ha
  obtain ⟨hwrappers', hleaf', hcomposite'⟩ := Shape.of_eq_ok hb
  refine ⟨?_, fun inner hinside => ?_, ?_, Shape.text_inj⟩
  · rw [Shape.eq_iff, hwrappers, hwrappers', hleaf, hleaf', TypeDefinition.leaf?_eq_iff, hcomposite, hcomposite']
  · have hsuffix := hinside.suffix
    rw [hwrappers] at hsuffix
    exact s.not_nonNull_nonNull_suffix inner.wrappers hsuffix
  · rw [Shape.isLeaf_eq, hleaf, TypeDefinition.isSome_leaf?]

/-- An interface. -/
def petType : TypeDefinition :=
  ⟨⟨"Pet", Eq.refl true⟩, .interface [] []⟩

/-- A union. -/
def animalType : TypeDefinition :=
  ⟨⟨"Animal", Eq.refl true⟩, .union []⟩

/-- A non-null list of items of a type. -/
def listed (definition : TypeDefinition) (required : Bool) : TypeRef :=
  .list (.named definition.name required) true

/-- Lists of an interface and of a union have one shape as long as both hold nulls or neither does. -/
theorem listed_shapes_compared : ∃ pets animals nullable,
    Shape.of (listed petType true) petType = .ok pets ∧
    Shape.of (listed animalType true) animalType = .ok animals ∧
    Shape.of (listed petType false) petType = .ok nullable ∧
    pets = animals ∧ pets ≠ nullable ∧ pets.text ≠ nullable.text := by
  refine ⟨_, _, _, rfl, rfl, rfl, ?_, ?_⟩
  · exact ((shapes_are_structures (listed petType true) (listed animalType true) petType animalType).2.2
      _ _ rfl rfl).1.2 ⟨rfl, .inl ⟨rfl, rfl⟩⟩
  · obtain ⟨hequal, -, -, htext⟩ := (shapes_are_structures (listed petType true) (listed petType false)
      petType petType).2.2 _ _ rfl rfl
    have hwrappers : (listed petType true).wrappers ≠ (listed petType false).wrappers := by decide
    exact ⟨fun heq => hwrappers (hequal.1 heq).1, fun heq => hwrappers (hequal.1 (htext.1 heq)).1⟩

end SelectionMerge
