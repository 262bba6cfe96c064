import SelectionMerge.Merge.Groups
import SelectionMerge.Merge.Log
import SelectionMerge.Merge.Rule

/-!
# The memo of a check

A check works on sets of fields: those of a root, those of one response key, those that can
stand in one object, and the merged sub-selections of a group. Each set is an ascending list
and has one entry, found by its fields; the entry keeps which sets it splits into and leads
to once they were asked for, and what was already done with it. Pairs of fields are
remembered too, so that none is compared twice: each field keeps the fields it was compared
with.

The main statement: after a pair is remembered, that pair counts as compared, and no other one
does that did not before (`compared_remember`).
-/

namespace SelectionMerge
set_option autoImplicit false

/-- Sets are numbered in the order in which they are first looked up. -/
abbrev SetId := Nat

/-- What is known of a set of fields, and what was done with it. -/
structure Entry where
  fields : List FieldId
  /-- Its groups of one response key. -/
  keyGroups? : Option (List SetId)
  /-- Its groups of fields that can stand in one object. -/
  parentGroups? : Option (List SetId)
  /-- The merged sub-selections of its fields. -/
  children? : Option SetId
  /-- Its groups are followed for shapes. -/
  shapesFollowed : Bool
  /-- Its groups are followed for names and arguments. -/
  callsFollowed : Bool
  /-- Its fields were compared with each other by shape. -/
  shapesCompared : Bool
  /-- Its fields were compared with each other by name and arguments. -/
  callsCompared : Bool
  deriving DecidableEq, Repr

/-- The entry of a set that was only looked up. -/
def Entry.fresh (fields : List FieldId) : Entry :=
  ⟨fields, none, none, none, false, false, false, false⟩

/-- What a check remembers. -/
structure Memo where
  entries : Array Entry
  /-- For each field, by its number, the fields behind it that it was compared with. -/
  partners : Array (List FieldId)
  /-- The number of pairs that were compared. -/
  pairs : Nat
  /-- The conflicts found under the current root, in the order of finding them. -/
  findings : List Finding
  hits : Nat
  misses : Nat
  groups : Nat
  log : List LogEntry
  deriving DecidableEq

namespace Memo

/-- The memo before the first check. -/
def empty : Memo :=
  ⟨#[], #[], 0, [], 0, 0, 0, []⟩

/-- The entry of that number. -/
def entry (memo : Memo) (id : SetId) : Entry :=
  memo.entries[id]?.getD (Entry.fresh [])

/-- The number of the entry with these fields. -/
def find? (memo : Memo) (fields : List FieldId) : Option SetId :=
  memo.entries.findIdx? fun entry => entry.fields == fields

/-- Changes an entry. -/
def update (memo : Memo) (id : SetId) (change : Entry → Entry) : Memo :=
  { memo with entries := memo.entries.modify id change }

/-- The fields that stand behind `a` in a pair that was compared. -/
def partnersOf (memo : Memo) (a : FieldId) : List FieldId :=
  memo.partners[a]?.getD []

/-- Whether the fields were compared, `a` the first of them. -/
def compared (memo : Memo) (a b : FieldId) : Bool :=
  (memo.partnersOf a).contains b

/-- Remembers that two fields are compared, `a` the first of them. -/
def remember (memo : Memo) (a b : FieldId) : Memo :=
  let room := Array.replicate (a + 1 - memo.partners.size) []
  { memo with
    partners := (memo.partners ++ room).modify a (b :: ·)
    pairs := memo.pairs + 1 }

theorem partnersOf_remember (memo : Memo) (a b c : FieldId) :
    (memo.remember a b).partnersOf c =
      if a = c then b :: memo.partnersOf c else memo.partnersOf c := by
  simp only [partnersOf, remember, Array.getElem?_modify, Array.getElem?_append,
    Array.getElem?_replicate]
  rcases Nat.lt_or_ge c memo.partners.size with hc | hc
  · split <;> simp [hc]
  · rw [Array.getElem?_eq_none hc, if_neg (Nat.not_lt.2 hc)]
    split
    next h =>
      subst h
      rw [if_pos (Nat.sub_lt_sub_right hc (Nat.lt_succ_self a))]
      rfl
    next => split <;> rfl

/-- The pairs that were compared are those from before and the one that is remembered. -/
theorem compared_remember (memo : Memo) (a b c d : FieldId) :
    (memo.remember a b).compared c d = (a == c && d == b || memo.compared c d) := by
  simp only [compared, partnersOf_remember]
  by_cases h : a = c
  · subst h
    rw [if_pos rfl, List.contains_cons, beq_self_eq_true, Bool.true_and]
  · rw [if_neg h, beq_false_of_ne h, Bool.false_and, Bool.false_or]

/-- Adds an entry to the log. -/
def note (memo : Memo) (entry : LogEntry) : Memo :=
  { memo with log := memo.log ++ [entry] }

/-- The log entry on what the memo was used for. -/
def usage (memo : Memo) : LogEntry :=
  .memo memo.entries.size memo.hits memo.misses memo.groups memo.pairs

end Memo

end SelectionMerge
