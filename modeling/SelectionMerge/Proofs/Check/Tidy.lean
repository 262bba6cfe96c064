import SelectionMerge.Proofs.Check.Follow
import SelectionMerge.Proofs.Check.Preserves

/-!
# Tidy memos

Each set has one entry, since only a look-up that does not find the set adds one; and a group counts
as compared by shape only after the shapes of all its fields were read. A memo is `Memo.Tidy` if both
is so, and every step of a check that returns leaves it tidy (`upholds_follow`).
-/

namespace SelectionMerge
set_option autoImplicit false

namespace Memo

variable {memo after : Memo} {resolved : ResolvedGraph}

/-- No set has two entries. -/
def Distinct (memo : Memo) : Prop :=
  ∀ i j set, memo.fields? i = some set → memo.fields? j = some set → i = j

theorem Distinct.congr (h : memo.Distinct) (hfields : ∀ id, after.fields? id = memo.fields? id) :
    after.Distinct := by
  intro i j set hi hj
  rw [hfields] at hi hj
  exact h i j set hi hj

/-- The entries are those of before and the new one of a set that is looked up and not found. -/
theorem getElem?_push_fresh {set : List FieldId} (hnew : memo.find? set = none)
    (hentries : after.entries = memo.entries.push (Entry.fresh set)) {j : SetId} {entry : Entry}
    (hentry : after.entries[j]? = some entry) :
    j = memo.entries.size ∧ entry = Entry.fresh set ∨ memo.entries[j]? = some entry ∧ entry.fields ≠ set := by
  rw [hentries, Array.getElem?_push] at hentry
  split at hentry
  next hj => exact .inl ⟨hj, (Option.some.inj hentry).symm⟩
  next =>
    have hunlike := Array.findIdx?_eq_none_iff.1 hnew entry (Array.mem_of_getElem? hentry)
    exact .inr ⟨hentry, by simpa using hunlike⟩

/-- A set that is not found gets the only entry that it has. -/
theorem Distinct.push (h : memo.Distinct) {set : List FieldId} (hnew : memo.find? set = none)
    (hentries : after.entries = memo.entries.push (Entry.fresh set)) : after.Distinct := by
  intro i j x hi hj
  obtain ⟨entry, hentry, hx⟩ := fields?_eq_some.1 hi
  obtain ⟨other, hother, hx'⟩ := fields?_eq_some.1 hj
  obtain ⟨rfl, rfl⟩ | ⟨hentry, hold⟩ := getElem?_push_fresh hnew hentries hentry
  · obtain ⟨rfl, -⟩ | ⟨-, hold⟩ := getElem?_push_fresh hnew hentries hother
    · rfl
    · exact absurd (hx'.trans hx.symm) hold
  · obtain ⟨-, rfl⟩ | ⟨hother, -⟩ := getElem?_push_fresh hnew hentries hother
    · exact absurd (hx.trans hx'.symm) hold
    · exact h i j x (fields?_eq_some.2 ⟨entry, hentry, hx⟩) (fields?_eq_some.2 ⟨other, hother, hx'⟩)

/-- The entry of a set tells what was done with the set. -/
theorem Distinct.marked_iff (h : memo.Distinct) {id : SetId} {set : List FieldId} {flag : Entry → Bool}
    (hset : memo.fields? id = some set) : memo.Marked flag set ↔ flag (memo.entry id) = true := by
  obtain ⟨entry, hentry, hfields⟩ := fields?_eq_some.1 hset
  rw [entry_eq hentry]
  constructor
  · rintro ⟨j, other, hother, hsame, hmark⟩
    obtain rfl := h j id set (fields?_eq_some.2 ⟨other, hother, hsame⟩) hset
    obtain rfl := Option.some.inj (hother.symm.trans hentry)
    exact hmark
  · exact fun hmark => ⟨id, entry, hentry, hfields, hmark⟩

/-- No set has two entries, and the fields of a group that counts as compared have shapes. -/
structure Tidy (resolved : ResolvedGraph) (memo : Memo) : Prop where
  distinct : memo.Distinct
  shapes : ∀ {group i}, memo.Grouped .shapes group → i ∈ group → ∃ shape, resolved.shape i = .ok shape

theorem tidy_empty (resolved : ResolvedGraph) : Memo.empty.Tidy resolved where
  distinct i j set h := by cases h
  shapes h := by
    obtain ⟨id, entry, hentry, -⟩ := h
    cases hentry

theorem Tidy.congr (h : memo.Tidy resolved) (hentries : after.entries = memo.entries) :
    after.Tidy resolved where
  distinct := h.distinct.congr (fields?_congr hentries)
  shapes hgroup hi := h.shapes ((marked_congr hentries _).1 hgroup) hi

/-- A change of an entry that keeps its fields, and by which it counts as compared by shape only if
its fields have shapes, leaves a memo tidy. -/
theorem Tidy.update (h : memo.Tidy resolved) {id : SetId} {change : Entry → Entry}
    (hfields : ∀ entry, (change entry).fields = entry.fields)
    (hcompared : ∀ entry, memo.entries[id]? = some entry → (change entry).compared .shapes = true →
      entry.compared .shapes = true ∨ ∀ i ∈ entry.fields, ∃ shape, resolved.shape i = .ok shape) :
    (memo.update id change).Tidy resolved where
  distinct := h.distinct.congr (fields?_update hfields)
  shapes := by
    rintro group i ⟨j, entry, hentry, rfl, hmark⟩ hi
    rw [getElem?_update] at hentry
    split at hentry
    next heq =>
      subst heq
      obtain ⟨before, hbefore, rfl⟩ := Option.map_eq_some_iff.1 hentry
      rw [hfields] at hi
      obtain hmark | hshapes := hcompared before hbefore hmark
      · exact h.shapes ⟨id, before, hbefore, rfl, hmark⟩ hi
      · exact hshapes i hi
    next => exact h.shapes ⟨j, entry, hentry, rfl, hmark⟩ hi

theorem Tidy.push (h : memo.Tidy resolved) {set : List FieldId} (hnew : memo.find? set = none)
    (hentries : after.entries = memo.entries.push (Entry.fresh set)) : after.Tidy resolved where
  distinct := h.distinct.push hnew hentries
  shapes := by
    rintro group i ⟨j, entry, hentry, hgroup, hmark⟩ hi
    obtain ⟨-, rfl⟩ | ⟨hentry, -⟩ := getElem?_push_fresh hnew hentries hentry
    · cases hmark
    · exact h.shapes ⟨j, entry, hentry, hgroup, hmark⟩ hi

theorem Tidy.follow (h : memo.Tidy resolved) (id : SetId) (pass : Pass) :
    (memo.update id fun entry => entry.follow pass).Tidy resolved :=
  h.update (Entry.fields_follow pass) fun entry _ hmark =>
    .inl ((Entry.compared_follow .shapes pass entry).symm.trans hmark)

end Memo

namespace Check

variable {α β γ : Type} {resolved : ResolvedGraph} {memo after : Memo}

/-- The step leaves a tidy memo tidy when it returns. -/
def Upholds (resolved : ResolvedGraph) (step : Check α) : Prop :=
  ∀ memo a after, memo.Tidy resolved → Returns step memo a after → after.Tidy resolved

/-- A change that leaves the entries alone. -/
theorem upholds_modify {change : Memo → Memo} (h : ∀ memo, (change memo).entries = memo.entries) :
    Upholds resolved (modify change : Check PUnit) :=
  preserves_modify fun memo hmemo => hmemo.congr (h memo)

/-- A change of an entry that leaves alone what it stands for. -/
theorem upholds_update {id : SetId} {change : Entry → Entry}
    (hfields : ∀ entry, (change entry).fields = entry.fields)
    (hcompared : ∀ entry, (change entry).compared .shapes = entry.compared .shapes) :
    Upholds resolved (update id change) := by
  refine preserves_modify fun memo hmemo => hmemo.update hfields fun entry _ hmark => .inl ?_
  exact (hcompared entry).symm.trans hmark

theorem Upholds.bind {step : Check α} {next : α → Check β} (h : Upholds resolved step)
    (hnext : ∀ a, Upholds resolved (next a)) : Upholds resolved (step >>= next) :=
  Preserves.bind h hnext

theorem Upholds.mapM {step : γ → Check α} (h : ∀ c, Upholds resolved (step c)) (items : List γ) :
    Upholds resolved (items.mapM step) :=
  Preserves.mapM h items

theorem upholds_lookup (set : List FieldId) : Upholds resolved (lookup set) :=
  preserves_lookup (fun _ hmemo => hmemo.congr rfl) fun _ hnew hmemo => hmemo.push hnew rfl

/-- Asking a memo leaves it tidy. -/
theorem askingPreserves_tidy (resolved : ResolvedGraph) : AskingPreserves (Memo.Tidy resolved) where
  lookup := upholds_lookup
  update _ _ hfields _ hcompared := upholds_update hfields (hcompared .shapes)

theorem upholds_keyGroups (id : SetId) : Upholds resolved (keyGroups resolved id) :=
  (askingPreserves_tidy resolved).keyGroups id

theorem upholds_parts (pass : Pass) (id : SetId) : Upholds resolved (parts resolved pass id) :=
  (askingPreserves_tidy resolved).parts pass id

theorem upholds_children (id : SetId) : Upholds resolved (children resolved id) :=
  (askingPreserves_tidy resolved).children id

/-- A group whose fields are read in the first pass has their shapes. -/
theorem exists_shape_of_readGroup_returns {fields : List FieldId}
    (h : Returns (readGroup resolved .shapes fields) memo () after) :
    ∀ i ∈ fields, ∃ shape, resolved.shape i = .ok shape := by
  unfold readGroup at h
  obtain ⟨-, -, hdoes⟩ := forM_returns (fun _ => True) (fun _ _ => True)
    (fun i _ => ∃ shape, resolved.shape i = .ok shape) (fun _ => trivial) (fun _ _ => trivial)
    (fun hshape _ => hshape)
    (fun i _ start finish _ _ hturn => by
      obtain ⟨shape, middle, hshape, -⟩ := returns_bind.1 hturn
      cases hread : resolved.shape i with
      | ok shape => exact ⟨trivial, trivial, shape, rfl⟩
      | error defect =>
        rw [hread] at hshape
        exact absurd hshape not_returns_throw)
    trivial h
  exact hdoes

theorem upholds_compareGroup (pass : Pass) (id : SetId) : Upholds resolved (compareGroup resolved pass id) := by
  intro memo _ after hmemo h
  unfold compareGroup at h
  obtain ⟨read, _, hread, h⟩ := returns_bind.1 h
  obtain ⟨rfl, rfl⟩ := returns_entry.1 hread
  split at h
  next =>
    obtain ⟨-, rfl⟩ := returns_pure.1 h
    exact hmemo
  next =>
    obtain ⟨⟨⟩, _, hupdate, h⟩ := returns_bind.1 h
    obtain rfl := returns_modify.1 hupdate
    obtain ⟨⟨⟩, _, hcount, h⟩ := returns_bind.1 h
    obtain rfl := returns_modify.1 hcount
    obtain ⟨⟨⟩, _, hread, h⟩ := returns_bind.1 h
    obtain rfl := readGroup_returns hread
    have hmarked : (memo.update id fun entry => entry.compare pass).Tidy resolved := by
      refine hmemo.update (Entry.fields_compare pass) fun entry hentry hmark => ?_
      rw [Entry.compared_compare, Bool.or_eq_true, decide_eq_true_eq] at hmark
      refine hmark.imp_right fun hpass => ?_
      subst hpass
      rw [Memo.entry_eq hentry] at hread
      exact exists_shape_of_readGroup_returns hread
    exact hmarked.congr (@comparePairs_returns resolved _ after [] _ h).1

/-- A pass leaves a memo tidy. -/
theorem upholds_follow (pass : Pass) (depth : Nat) (id : SetId) :
    Upholds resolved (follow resolved pass depth id) :=
  preserves_follow (askingPreserves_tidy resolved)
    (fun _ => upholds_update (Entry.fields_follow pass) (Entry.compared_follow .shapes pass))
    (upholds_compareGroup pass) depth id

end Check

end SelectionMerge
