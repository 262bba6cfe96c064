import SelectionMerge.Proofs.Check.Tidy

/-!
# Memos that arise

The entries of a memo change in few ways: a set is looked up, an answer is kept, a set is marked. A memo
arises if it comes from the empty one by such steps, in any order and for any sets, whatever else changes
in between. So every memo of a check arises, between two steps as well as inside of one, and all that
arise are sound and have one entry for each set (`Arises.sound`, `Arises.distinct`). Nothing is taken back
on the way (`Memo.Grows`).
-/

namespace SelectionMerge
set_option autoImplicit false

namespace Memo

/-- The memo comes from the empty one by steps that a check can take. -/
inductive Arises (resolved : ResolvedGraph) : Memo → Prop where
  | empty : Arises resolved Memo.empty
  /-- Counts, pairs, findings and the log. -/
  | other {memo after : Memo} : Arises resolved memo → after.entries = memo.entries → Arises resolved after
  | lookup {memo after : Memo} {set : List FieldId} {id : SetId} :
    Arises resolved memo → Check.Returns (Check.lookup set) memo id after → Arises resolved after
  | keyGroups {memo after : Memo} {set : List FieldId} {id : SetId} {ids : List SetId} :
    Arises resolved memo → memo.fields? id = some set →
      Check.Returns (Check.keyGroups resolved id) memo ids after → Arises resolved after
  | parts {memo after : Memo} {set : List FieldId} {id : SetId} {ids : List SetId} (pass : Pass) :
    Arises resolved memo → memo.fields? id = some set →
      Check.Returns (Check.parts resolved pass id) memo ids after → Arises resolved after
  | children {memo after : Memo} {set : List FieldId} {id child : SetId} :
    Arises resolved memo → memo.fields? id = some set →
      Check.Returns (Check.children resolved id) memo child after → Arises resolved after
  | follow {memo : Memo} (pass : Pass) (id : SetId) :
    Arises resolved memo → Arises resolved (memo.update id fun entry => entry.follow pass)
  | compare {memo : Memo} (pass : Pass) (id : SetId) :
    Arises resolved memo → Arises resolved (memo.update id fun entry => entry.compare pass)

variable {resolved : ResolvedGraph} {memo middle after : Memo}

/-- What arises keeps right answers. -/
theorem Arises.sound (h : Arises resolved memo) : memo.Sound resolved := by
  induction h with
  | empty =>
    intro id entry hentry
    cases hentry
  | other _ hentries ih => exact ih.congr hentries
  | lookup _ hreturns ih => exact (Check.lookup_returns ih hreturns).1
  | keyGroups _ hset hreturns ih => exact (Check.keyGroups_returns ih hset hreturns).1
  | parts _ _ hset hreturns ih => exact (Check.parts_returns ih hset hreturns).1
  | children _ hset hreturns ih => exact (Check.children_returns ih hset hreturns).1
  | follow pass id _ ih => exact ih.follow id pass
  | compare pass id _ ih => exact ih.compare id pass

/-- Asking a memo gives no set a second entry. -/
theorem askingPreserves_distinct : Check.AskingPreserves Distinct where
  lookup _ := Check.preserves_lookup (fun _ hmemo => hmemo.congr fun _ => rfl)
    fun _ hnew hmemo => hmemo.push hnew rfl
  update _ _ hfields _ _ := Check.preserves_modify fun _ hmemo => hmemo.congr (fields?_update hfields)

/-- What arises has one entry for each set. -/
theorem Arises.distinct (h : Arises resolved memo) : memo.Distinct := by
  induction h with
  | empty =>
    intro i j set hi
    cases hi
  | other _ hentries ih => exact ih.congr (fields?_congr hentries)
  | lookup _ hreturns ih => exact askingPreserves_distinct.lookup _ _ _ _ ih hreturns
  | keyGroups _ _ hreturns ih => exact askingPreserves_distinct.keyGroups _ _ _ _ ih hreturns
  | parts pass _ _ hreturns ih => exact askingPreserves_distinct.parts pass _ _ _ _ ih hreturns
  | children _ _ hreturns ih => exact askingPreserves_distinct.children _ _ _ _ ih hreturns
  | follow pass id _ ih => exact ih.congr (fields?_update (Entry.fields_follow pass))
  | compare pass id _ ih => exact ih.congr (fields?_update (Entry.fields_compare pass))

/-- Numbers keep their sets, and marks stay. -/
structure Grows (memo after : Memo) : Prop where
  fields : ∀ id set, memo.fields? id = some set → after.fields? id = some set
  followed : ∀ pass set, memo.Followed pass set → after.Followed pass set
  grouped : ∀ pass group, memo.Grouped pass group → after.Grouped pass group

namespace Grows

theorem refl (memo : Memo) : memo.Grows memo :=
  ⟨fun _ _ => id, fun _ _ => id, fun _ _ => id⟩

theorem trans (h : memo.Grows middle) (h' : middle.Grows after) : memo.Grows after where
  fields id set hset := h'.fields id set (h.fields id set hset)
  followed pass set hset := h'.followed pass set (h.followed pass set hset)
  grouped pass group hgroup := h'.grouped pass group (h.grouped pass group hgroup)

theorem of_entries (hentries : after.entries = memo.entries) : memo.Grows after where
  fields id _ hset := (fields?_congr hentries id).trans hset
  followed _ set := (marked_congr hentries set).2
  grouped _ group := (marked_congr hentries group).2

theorem follow (memo : Memo) (pass : Pass) (id : SetId) :
    memo.Grows (memo.update id fun entry => entry.follow pass) where
  fields _ _ hset := (fields?_update (Entry.fields_follow pass) _).trans hset
  followed p set hset :=
    (marked_update (Entry.fields_follow pass) (Entry.followed_follow p pass) set).2 (.inl hset)
  grouped p group := (grouped_follow memo id pass p group).2

theorem compare (memo : Memo) (pass : Pass) (id : SetId) :
    memo.Grows (memo.update id fun entry => entry.compare pass) where
  fields _ _ hset := (fields?_update (Entry.fields_compare pass) _).trans hset
  followed p set := (followed_compare memo id pass p set).2
  grouped p group hgroup :=
    (marked_update (Entry.fields_compare pass) (Entry.compared_compare p pass) group).2 (.inl hgroup)

end Grows

theorem Widens.grows (h : memo.Widens after) : memo.Grows after where
  fields _ _ := h.fields
  followed pass set := (h.followed pass set).2
  grouped pass group := (h.grouped pass group).2

end Memo

end SelectionMerge
