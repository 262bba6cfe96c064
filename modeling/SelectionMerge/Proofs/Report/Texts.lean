import SelectionMerge.Proofs.Check.Transparency
import SelectionMerge.Report.Label

/-!
# The text under a label

A label counts characters of the text that is shown for its path, where the span of its field counts bytes of
the field's own file. The count is right: the characters of a label are the bytes of the span, in the text of
the file (`Stands.utf8_between`). But a text is shown for a path, and a file's text only if no later one is
handed over for the path (`SourceMap.shownText_eq_iff`). So a label stands under its field if the text of the
field's file is the last one for its path (`labels_cover_spans`), and under something else if it is not
(`shared_path_shows_other_text`).
-/

namespace SelectionMerge
set_option autoImplicit false

section Bytes

/-- The UTF-8 bytes of the characters. -/
def utf8 (cs : List Char) : List UInt8 :=
  cs.flatMap String.utf8EncodeChar

/-- What stands in a list from `start` on and before `stop`. -/
def between {α : Type} (start stop : Nat) (as : List α) : List α :=
  (as.take stop).drop start

/-- Character `index` of a text starts at byte `offset`. -/
structure Stands (text : List Char) (index offset : Nat) : Prop where
  le_length : index ≤ text.length
  length_utf8 : (utf8 (text.take index)).length = offset

/-- The first `offset` bytes of a text are characters of it. -/
def IsBoundary (text : List Char) (offset : Nat) : Prop :=
  ∃ before, before <+: text ∧ (utf8 before).length = offset

theorem utf8_append (as bs : List Char) : utf8 (as ++ bs) = utf8 as ++ utf8 bs :=
  List.flatMap_append

theorem length_utf8 (cs : List Char) : (utf8 cs).length = byteLength cs := by
  induction cs with
  | nil => rfl
  | cons c cs ih =>
    show (String.utf8EncodeChar c ++ utf8 cs).length = c.utf8Size + byteLength cs
    rw [List.length_append, String.length_utf8EncodeChar, ih]

theorem length_utf8_take_le (index : Nat) (cs : List Char) :
    (utf8 (cs.take index)).length ≤ (utf8 cs).length := by
  conv_rhs => rw [← List.take_append_drop index cs, utf8_append]
  simp

theorem utf8_take (index : Nat) (cs : List Char) :
    utf8 (cs.take index) = (utf8 cs).take (utf8 (cs.take index)).length := by
  conv_rhs => arg 2; rw [← List.take_append_drop index cs, utf8_append]
  rw [List.take_left]

theorem utf8_drop (index : Nat) (cs : List Char) :
    utf8 (cs.drop index) = (utf8 cs).drop (utf8 (cs.take index)).length := by
  conv_rhs => arg 2; rw [← List.take_append_drop index cs, utf8_append]
  rw [List.drop_left]

variable {text : List Char} {start stop first last : Nat}

/-- What stands between two characters of a text are the bytes between the places where they start. -/
theorem Stands.utf8_between (hstart : Stands text start first) (hstop : Stands text stop last) :
    utf8 (between start stop text) = between first last (utf8 text) := by
  have htake : utf8 (text.take stop) = (utf8 text).take last := by
    rw [utf8_take, hstop.length_utf8]
  unfold between
  rw [utf8_drop, List.take_take, htake]
  obtain hle | hle := Nat.le_total start stop
  · rw [Nat.min_eq_left hle, hstart.length_utf8]
  · -- The end stands before the start, and nothing between them.
    have hbytes : last ≤ first := by
      have hbytes := length_utf8_take_le stop (text.take start)
      rw [List.take_take, Nat.min_eq_left hle, hstart.length_utf8, hstop.length_utf8] at hbytes
      exact hbytes
    have hlength : ((utf8 text).take last).length ≤ last := List.length_take_le _ _
    rw [Nat.min_eq_right hle, hstop.length_utf8, List.drop_eq_nil_of_le hlength,
      List.drop_eq_nil_of_le (Nat.le_trans hlength hbytes)]

/-- The bytes of characters at the start of a text are counted as these characters. -/
theorem charsFrom?_append (before : Nat) (cs rest : List Char) :
    charsFrom? before (cs ++ rest) (byteLength cs) = some (before + cs.length) := by
  induction cs generalizing before with
  | nil => cases rest <;> rfl
  | cons c cs ih =>
    have hpos : 0 < c.utf8Size := c.utf8Size_pos
    have hbytes : byteLength (c :: cs) = c.utf8Size + byteLength cs := rfl
    obtain ⟨offset, hoffset⟩ : ∃ offset, byteLength (c :: cs) = offset + 1 :=
      ⟨byteLength (c :: cs) - 1, by omega⟩
    have hrest : offset + 1 - c.utf8Size = byteLength cs := by omega
    rw [hoffset, List.cons_append, charsFrom?, if_pos (by omega), hrest, ih]
    simp only [List.length_cons, Option.some.injEq]
    omega

/-- Offsets become the characters that stand there. -/
theorem charsBefore?_eq_some_iff {offset index : Nat} :
    charsBefore? text offset = some index ↔ Stands text index offset := by
  constructor
  · intro h
    obtain ⟨hle, hbytes⟩ := charsBefore?_eq_some h
    exact ⟨hle, by rw [length_utf8, hbytes]⟩
  · rintro ⟨hle, hbytes⟩
    have happend := charsFrom?_append 0 (text.take index) (text.drop index)
    rw [List.take_append_drop, ← length_utf8, hbytes, List.length_take, Nat.min_eq_left hle,
      Nat.zero_add] at happend
    exact happend

theorem isBoundary_iff {offset : Nat} : IsBoundary text offset ↔ ∃ index, Stands text index offset := by
  constructor
  · rintro ⟨before, hprefix, hbytes⟩
    refine ⟨before.length, hprefix.length_le, ?_⟩
    rw [← List.prefix_iff_eq_take.1 hprefix, hbytes]
  · rintro ⟨index, -, hbytes⟩
    exact ⟨text.take index, List.take_prefix index text, hbytes⟩

end Bytes

section Handed

/-- The texts that are handed over for being shown, in this order, each for a path: those of all files, and an
empty one for what stands for no file. -/
def SourceMap.handed (sources : SourceMap) : List (String × List Char) :=
  sources.map (fun entry => (entry.2.path, entry.2.text)) ++ [(noSourceFile, [])]

/-- Of the texts for a path this is the last one. -/
def GivenLast (texts : List (String × List Char)) (path : String) (text : List Char) : Prop :=
  ∃ before after, texts = before ++ (path, text) :: after ∧ ∀ given ∈ after, given.1 ≠ path

variable {texts : List (String × List Char)} {path : String} {text : List Char}

theorem givenLast_iff :
    GivenLast texts path text ↔ texts.reverse.find? (fun given => given.1 == path) = some (path, text) := by
  rw [List.find?_eq_some_iff_append]
  constructor
  · rintro ⟨before, after, rfl, hafter⟩
    refine ⟨beq_self_eq_true path, after.reverse, before.reverse, by simp, fun given hgiven => ?_⟩
    rw [List.mem_reverse] at hgiven
    simpa using hafter given hgiven
  · rintro ⟨-, after, before, hreverse, hafter⟩
    refine ⟨before.reverse, after.reverse, ?_, fun given hgiven => ?_⟩
    · rw [← List.reverse_reverse texts, hreverse]
      simp
    · rw [List.mem_reverse] at hgiven
      simpa using hafter given hgiven

variable {sources : SourceMap}

theorem SourceMap.shownText_eq (sources : SourceMap) (path : String) : sources.shownText path =
    ((sources.handed.reverse.find? fun given => given.1 == path).map Prod.snd).getD [] := by
  have hhanded : sources.handed.reverse =
      (noSourceFile, []) :: sources.reverse.map fun entry => (entry.2.path, entry.2.text) := by
    rw [handed, List.reverse_append, ← List.map_reverse]
    rfl
  unfold shownText
  rw [hhanded, List.find?_cons]
  by_cases hpath : path = noSourceFile
  · rw [if_pos hpath, hpath, beq_self_eq_true]
    rfl
  · rw [if_neg hpath, beq_false_of_ne (Ne.symm hpath), List.find?_map, Option.map_map]
    rfl

/-- Of the texts handed over for a path the last is shown, and no other. -/
theorem SourceMap.shownText_eq_iff {given : List Char} (h : (path, given) ∈ sources.handed) :
    sources.shownText path = text ↔ GivenLast sources.handed path text := by
  have hsome : (sources.handed.reverse.find? fun entry => entry.1 == path).isSome := by
    rw [List.find?_isSome]
    exact ⟨(path, given), List.mem_reverse.2 h, beq_self_eq_true path⟩
  obtain ⟨last, hlast⟩ := Option.isSome_iff_exists.1 hsome
  have hpath : last.1 = path := by simpa using List.find?_some hlast
  rw [givenLast_iff, sources.shownText_eq, hlast, ← hpath]
  simp [Prod.ext_iff]

/-- The texts of the files are handed over for their paths. -/
theorem SourceMap.mem_handed {file : FileId} {source : Source} (h : sources.file? file = some source) :
    (source.path, source.text) ∈ sources.handed := by
  obtain ⟨entry, hentry, rfl⟩ := Option.map_eq_some_iff.1 h
  refine List.mem_append_left _ ?_
  exact List.mem_map_of_mem (f := fun entry => (entry.2.path, entry.2.text)) (List.mem_of_find?_eq_some hentry)

end Handed

section Shown

variable {sources : SourceMap} {reason : ConflictReason} {side : ConflictingField} {label : Label}

/-- A span is shown from the character where it starts to that where it stops, in its own file. -/
theorem SourceMap.charSpan?_eq_some_iff {span : Span} {path : String} {start stop : Nat} :
    sources.charSpan? span = some (path, start, stop) ↔
      ∃ source, sources.file? span.file = some source ∧ path = source.path ∧
        Stands source.text start span.start ∧ Stands source.text stop span.stop := by
  simp only [charSpan?, Option.bind_eq_bind, Option.bind_eq_some_iff, charsBefore?_eq_some_iff, Option.pure_def,
    Option.some.injEq, Prod.mk.injEq]
  constructor
  · rintro ⟨source, hsource, first, hfirst, last, hlast, rfl, rfl, rfl⟩
    exact ⟨source, hsource, rfl, hfirst, hlast⟩
  · rintro ⟨source, hsource, rfl, hfirst, hlast⟩
    exact ⟨source, hsource, start, hfirst, stop, hlast, rfl, rfl, rfl⟩

theorem ConflictingField.shown?_eq_some_iff : side.shown? sources reason = some label ↔
    ∃ span, side.field.location? = some span ∧
      sources.charSpan? span = some (label.path, label.start, label.stop) ∧ label.text = side.label reason := by
  simp only [shown?, Option.bind_eq_bind, Option.bind_eq_some_iff, Option.pure_def, Option.some.injEq]
  constructor
  · rintro ⟨span, hspan, ⟨path, start, stop⟩, hchars, rfl⟩
    exact ⟨span, hspan, hchars, rfl⟩
  · rintro ⟨span, hspan, hchars, htext⟩
    refine ⟨span, hspan, _, hchars, ?_⟩
    rw [← htext]

/-- A field gets a label if its span is known, and its file, and the span starts and stops between characters. -/
theorem ConflictingField.exists_shown?_iff : (∃ label, side.shown? sources reason = some label) ↔
    ∃ span source, side.field.location? = some span ∧ sources.file? span.file = some source ∧
      IsBoundary source.text span.start ∧ IsBoundary source.text span.stop := by
  simp only [shown?_eq_some_iff, SourceMap.charSpan?_eq_some_iff, isBoundary_iff]
  constructor
  · rintro ⟨label, span, hspan, ⟨source, hsource, -, hstart, hstop⟩, -⟩
    exact ⟨span, source, hspan, hsource, ⟨_, hstart⟩, ⟨_, hstop⟩⟩
  · rintro ⟨span, source, hspan, hsource, ⟨start, hstart⟩, ⟨stop, hstop⟩⟩
    exact ⟨⟨source.path, start, stop, side.label reason⟩, span, hspan, ⟨source, hsource, rfl, hstart, hstop⟩, rfl⟩

end Shown

/-- **Labels cover the spans of their fields.** A field of a conflict gets a label if and only if its file is
known and both ends of its span stand between characters of the file's text. The label is for the path of that
file, and its characters are in the file's text exactly the bytes of the span. The text that is shown for the
path is the file's if and only if it is the last one handed over for it. -/
theorem labels_cover_spans (sources : SourceMap) (conflict : Conflict) :
    ∀ side ∈ [conflict.first, conflict.second],
      ((∃ label, side.shown? sources conflict.reason = some label) ↔
        ∃ span source, side.field.location? = some span ∧ sources.file? span.file = some source ∧
          IsBoundary source.text span.start ∧ IsBoundary source.text span.stop) ∧
      ∀ label, side.shown? sources conflict.reason = some label →
        ∃ span source, side.field.location? = some span ∧ sources.file? span.file = some source ∧
          label.path = source.path ∧
          Stands source.text label.start span.start ∧ Stands source.text label.stop span.stop ∧
          utf8 (between label.start label.stop source.text) = between span.start span.stop (utf8 source.text) ∧
          (sources.shownText label.path = source.text ↔
            GivenLast sources.handed source.path source.text) := by
  intro side _
  refine ⟨ConflictingField.exists_shown?_iff, fun label hlabel => ?_⟩
  obtain ⟨span, hspan, hchars, -⟩ := ConflictingField.shown?_eq_some_iff.1 hlabel
  obtain ⟨source, hsource, hpath, hstart, hstop⟩ := SourceMap.charSpan?_eq_some_iff.1 hchars
  refine ⟨span, source, hspan, hsource, hpath, hstart, hstop, hstart.utf8_between hstop, ?_⟩
  rw [hpath]
  exact SourceMap.shownText_eq_iff (SourceMap.mem_handed hsource)

/-- A text that selects `a` and `b` as `x`, with a character of two bytes between them. -/
def accentedText : List Char :=
  "\x7b x: a # é\n  x: b \x7d".toList

/-- A file of that text, and a second one. -/
def filesAt (path other : String) : SourceMap :=
  [(0, ⟨path, accentedText⟩), (1, ⟨other, "fragment F on Query \x7b a \x7d".toList⟩)]

/-- A field that the first file selects as `x`. -/
def accentedField (name : Name) (start stop : Nat) : Field :=
  ⟨some ⟨"x", Eq.refl true⟩, name, [], some ⟨0, start, stop⟩⟩

/-- The two fields side by side. -/
def accentedDocument : List Definition :=
  [.operation ⟨.query, none,
    [.field (accentedField ⟨"a", Eq.refl true⟩ 2 6) [], .field (accentedField ⟨"b", Eq.refl true⟩ 14 18) []]⟩]

/-- The conflict of the two fields. -/
def accentedConflict : Conflict where
  responseKey := ⟨"x", Eq.refl true⟩
  reason := .differentFieldName
  first := ⟨accentedField ⟨"a", Eq.refl true⟩ 2 6, none⟩
  second := ⟨accentedField ⟨"b", Eq.refl true⟩ 14 18, none⟩

/-- Behind the accent a label starts and stops one character before the bytes. -/
theorem accented_label_covers_span :
    ∃ label, accentedConflict.second.shown? (filesAt "query.graphql" "fragments.graphql")
        accentedConflict.reason = some label ∧
      label.start = 13 ∧ label.stop = 17 ∧
      (filesAt "query.graphql" "fragments.graphql").shownText label.path = accentedText ∧
      utf8 (between label.start label.stop accentedText) = between 14 18 (utf8 accentedText) := by
  have hlabel : accentedConflict.second.shown? (filesAt "query.graphql" "fragments.graphql")
      accentedConflict.reason = some ⟨"query.graphql", 13, 17, "`x` is selected from `b` here"⟩ := by
    decide +kernel
  obtain ⟨-, hshown⟩ := labels_cover_spans (filesAt "query.graphql" "fragments.graphql") accentedConflict
    accentedConflict.second (by simp)
  obtain ⟨span, source, hspan, hsource, -, -, -, hbytes, hlast⟩ := hshown _ hlabel
  obtain rfl := Option.some.inj hspan
  obtain rfl := Option.some.inj hsource
  refine ⟨_, hlabel, rfl, rfl, hlast.2 ⟨[], _, rfl, ?_⟩, hbytes⟩
  decide

/-- Two files of one path: the text that is shown for it is that of the second, and the label of a field in the
first covers what stands there by chance. In a file whose path is what stands for no file, the labels cover
nothing. -/
theorem shared_path_shows_other_text :
    (validate loopSchema accentedDocument).toOption.map
        (List.map (Conflict.labels (filesAt "query.graphql" "query.graphql"))) =
      some [[⟨"query.graphql", 2, 6, "`x` is selected from `a` here"⟩,
        ⟨"query.graphql", 13, 17, "`x` is selected from `b` here"⟩]] ∧
    between 13 17 ((filesAt "query.graphql" "query.graphql").shownText "query.graphql") = " Que".toList ∧
    between 14 18 (utf8 accentedText) = utf8 "x: b".toList ∧
    (filesAt "query.graphql" "query.graphql").shownText "query.graphql" ≠ accentedText ∧
    (validate loopSchema accentedDocument).toOption.map
        (List.map (Conflict.labels (filesAt noSourceFile "query.graphql"))) =
      some [[⟨noSourceFile, 2, 6, "`x` is selected from `a` here"⟩,
        ⟨noSourceFile, 13, 17, "`x` is selected from `b` here"⟩]] ∧
    (filesAt noSourceFile "query.graphql").shownText noSourceFile ≠ accentedText := by
  decide +kernel

end SelectionMerge
