/-!
# Ordered lists

Two orders that answers show. A set whose order is shown is a strictly ascending list:
`union` merges two of them in one pass, and `ofList` makes one from any list. `sortBy` is
the stable sort by a strict order: equal elements keep their places.

The main statements: a union has the members of its parts (`mem_union`) and is strictly
ascending if they are (`pairwise_union`), a strictly ascending list is known by its members
(`eq_of_mem_iff`), and a sorted list is a permutation of the one it was made from
(`perm_sortBy`), in order if any two of its elements are (`pairwise_sortBy`).
-/

namespace SelectionMerge
set_option autoImplicit false

namespace Ascending

section Union

variable {α : Type} [LT α] [DecidableLT α]

/-- Merges `a`, then what `rest` makes of the remaining elements, into an ascending list. -/
def below (a : α) (rest : List α → List α) : List α → List α
  | [] => a :: rest []
  | b :: bs =>
    if b < a then b :: below a rest bs
    else if a < b then a :: rest (b :: bs)
    else a :: rest bs

/-- The union of two strictly ascending lists. -/
def union : List α → List α → List α
  | [], bs => bs
  | a :: as, bs => below a (union as) bs

/-- The union of strictly ascending lists. -/
def unions : List (List α) → List α :=
  List.foldr union []

/-- The strictly ascending list of the elements of any list. -/
def ofList (as : List α) : List α :=
  unions (as.map fun a => [a])

end Union

section Members

variable {α : Type} [LT α] [DecidableLT α] [Std.Trichotomous (α := α) (· < ·)]

theorem mem_below {x a : α} {rest : List α → List α} {as : List α}
    (hrest : ∀ bs, x ∈ rest bs ↔ x ∈ as ∨ x ∈ bs) (bs : List α) :
    x ∈ below a rest bs ↔ x ∈ a :: as ∨ x ∈ bs := by
  induction bs with
  | nil => simp [below, hrest]
  | cons b bs ih =>
    unfold below
    split
    · simp only [List.mem_cons, ih]
      grind
    · split
      · simp only [List.mem_cons, hrest]
        grind
      · have : a = b := Std.Trichotomous.trichotomous _ _ ‹_› ‹_›
        simp only [List.mem_cons, hrest, this]
        grind

/-- A union has the members of its parts. -/
theorem mem_union {x : α} {as bs : List α} : x ∈ union as bs ↔ x ∈ as ∨ x ∈ bs := by
  induction as generalizing bs with
  | nil => simp [union]
  | cons a as ih => exact mem_below (fun _ => ih) bs

theorem mem_unions {x : α} {lists : List (List α)} : x ∈ unions lists ↔ ∃ l ∈ lists, x ∈ l := by
  induction lists with
  | nil => simp [unions]
  | cons l lists ih =>
    have : unions (l :: lists) = union l (unions lists) := rfl
    simp [this, mem_union, ih]

theorem mem_ofList {x : α} {as : List α} : x ∈ ofList as ↔ x ∈ as := by
  simp only [ofList, mem_unions, List.mem_map]
  constructor
  · rintro ⟨_, ⟨a, ha, rfl⟩, hx⟩
    rwa [List.mem_singleton.1 hx]
  · exact fun hx => ⟨[x], ⟨x, hx, rfl⟩, List.mem_singleton.2 rfl⟩

variable [Trans (α := α) (· < ·) (· < ·) (· < ·)]

theorem pairwise_below {a : α} {rest : List α → List α} {as bs : List α}
    (hmem : ∀ x bs, x ∈ rest bs ↔ x ∈ as ∨ x ∈ bs)
    (hrest : ∀ bs, bs.Pairwise (· < ·) → (rest bs).Pairwise (· < ·))
    (has : ∀ x ∈ as, a < x) (hbs : bs.Pairwise (· < ·)) :
    (below a rest bs).Pairwise (· < ·) := by
  induction bs with
  | nil =>
    refine List.pairwise_cons.2 ⟨fun x hx => ?_, hrest [] .nil⟩
    exact has x (by simpa using (hmem x []).1 hx)
  | cons b bs ih =>
    obtain ⟨hb, hbs'⟩ := List.pairwise_cons.1 hbs
    unfold below
    split
    next hlt =>
      refine List.pairwise_cons.2 ⟨fun x hx => ?_, ih hbs'⟩
      rcases (mem_below (hmem x) bs).1 hx with hx | hx
      · rcases List.mem_cons.1 hx with rfl | hx
        · exact hlt
        · exact Std.lt_trans hlt (has x hx)
      · exact hb x hx
    next hnlt =>
      split
      next hlt =>
        refine List.pairwise_cons.2 ⟨fun x hx => ?_, hrest _ hbs⟩
        rcases (hmem x _).1 hx with hx | hx
        · exact has x hx
        · rcases List.mem_cons.1 hx with rfl | hx
          · exact hlt
          · exact Std.lt_trans hlt (hb x hx)
      next hnlt' =>
        have hab : a = b := Std.Trichotomous.trichotomous _ _ hnlt' hnlt
        refine List.pairwise_cons.2 ⟨fun x hx => ?_, hrest _ hbs'⟩
        rcases (hmem x _).1 hx with hx | hx
        · exact has x hx
        · exact hab ▸ hb x hx

/-- A union of strictly ascending lists is strictly ascending. -/
theorem pairwise_union {as bs : List α} (has : as.Pairwise (· < ·)) (hbs : bs.Pairwise (· < ·)) :
    (union as bs).Pairwise (· < ·) := by
  induction as generalizing bs with
  | nil => exact hbs
  | cons a as ih =>
    obtain ⟨ha, has'⟩ := List.pairwise_cons.1 has
    exact pairwise_below (fun _ _ => mem_union) (fun _ h => ih has' h) ha hbs

theorem pairwise_unions {lists : List (List α)} (h : ∀ l ∈ lists, l.Pairwise (· < ·)) :
    (unions lists).Pairwise (· < ·) := by
  induction lists with
  | nil => exact .nil
  | cons l lists ih =>
    exact pairwise_union (h l (.head _)) (ih fun l' hl' => h l' (.tail _ hl'))

theorem pairwise_ofList {as : List α} : (ofList as).Pairwise (· < ·) := by
  refine pairwise_unions fun l hl => ?_
  obtain ⟨a, -, rfl⟩ := List.mem_map.1 hl
  exact List.pairwise_singleton _ _

end Members

/-- A strictly ascending list is known by its members. -/
theorem eq_of_mem_iff {α : Type} [LT α] [Std.Asymm (α := α) (· < ·)] {as bs : List α}
    (has : as.Pairwise (· < ·)) (hbs : bs.Pairwise (· < ·)) (h : ∀ x, x ∈ as ↔ x ∈ bs) :
    as = bs := by
  induction as generalizing bs with
  | nil =>
    cases bs with
    | nil => rfl
    | cons b bs => exact absurd ((h b).2 (.head _)) List.not_mem_nil
  | cons a as ih =>
    cases bs with
    | nil => exact absurd ((h a).1 (.head _)) List.not_mem_nil
    | cons b bs =>
      obtain ⟨ha, has'⟩ := List.pairwise_cons.1 has
      obtain ⟨hb, hbs'⟩ := List.pairwise_cons.1 hbs
      have hab : a = b := by
        rcases List.mem_cons.1 ((h a).1 (.head _)) with hab | hab
        · exact hab
        · rcases List.mem_cons.1 ((h b).2 (.head _)) with hba | hba
          · exact hba.symm
          · exact absurd (ha b hba) (Std.Asymm.asymm _ _ (hb a hab))
      subst hab
      rw [ih has' hbs' fun x => ?_]
      have hx := h x
      simp only [List.mem_cons] at hx
      constructor
      · intro hxa
        rcases hx.1 (.inr hxa) with rfl | hxb
        · exact absurd (ha x hxa) (fun hlt => Std.Asymm.asymm _ _ hlt hlt)
        · exact hxb
      · intro hxb
        rcases hx.2 (.inr hxb) with rfl | hxa
        · exact absurd (hb x hxb) (fun hlt => Std.Asymm.asymm _ _ hlt hlt)
        · exact hxa

end Ascending

section Sorting

variable {α : Type} {comesBefore : α → α → Bool}

/-- Puts `a` before the first element that it comes before or ties with. -/
def insertBy (comesBefore : α → α → Bool) (a : α) : List α → List α
  | [] => [a]
  | b :: bs => if comesBefore b a then b :: insertBy comesBefore a bs else a :: b :: bs

/-- The stable sort by a strict order. -/
def sortBy (comesBefore : α → α → Bool) : List α → List α :=
  List.foldr (insertBy comesBefore) []

theorem perm_insertBy {a : α} {as : List α} : (insertBy comesBefore a as).Perm (a :: as) := by
  induction as with
  | nil => exact .refl _
  | cons b bs ih =>
    unfold insertBy
    split
    · exact (ih.cons b).trans (.swap a b bs)
    · exact .refl _

/-- A sorted list is a permutation of the one it was made from. -/
theorem perm_sortBy {as : List α} : (sortBy comesBefore as).Perm as := by
  induction as with
  | nil => exact .refl _
  | cons a as ih => exact perm_insertBy.trans (ih.cons a)

theorem mem_sortBy {a : α} {as : List α} : a ∈ sortBy comesBefore as ↔ a ∈ as :=
  perm_sortBy.mem_iff

section Map

variable {β : Type} {comesBefore' : β → β → Bool} {f : α → β}
variable (h : ∀ a b, comesBefore' (f a) (f b) = comesBefore a b)
include h

theorem insertBy_map (a : α) (as : List α) :
    insertBy comesBefore' (f a) (as.map f) = (insertBy comesBefore a as).map f := by
  induction as with
  | nil => rfl
  | cons b as ih =>
    simp only [List.map_cons, insertBy, h, ih]
    split <;> rfl

/-- Sorting commutes with what keeps the order. -/
theorem sortBy_map (as : List α) : sortBy comesBefore' (as.map f) = (sortBy comesBefore as).map f := by
  induction as with
  | nil => rfl
  | cons a as ih =>
    show insertBy comesBefore' (f a) (sortBy comesBefore' (as.map f)) =
      (insertBy comesBefore a (sortBy comesBefore as)).map f
    rw [ih, insertBy_map h]

end Map

section Order

variable (htrans : ∀ a b c, comesBefore a b = true → comesBefore b c = true → comesBefore a c = true)
include htrans

theorem pairwise_insertBy {a : α} {as : List α} (has : as.Pairwise fun b c => comesBefore b c = true)
    (ha : ∀ b ∈ as, comesBefore a b = true ∨ comesBefore b a = true) :
    (insertBy comesBefore a as).Pairwise fun b c => comesBefore b c = true := by
  induction as with
  | nil => exact List.pairwise_singleton _ _
  | cons b as ih =>
    obtain ⟨hb, has'⟩ := List.pairwise_cons.1 has
    unfold insertBy
    split
    next hlt =>
      refine List.pairwise_cons.2 ⟨fun c hc => ?_, ih has' fun c hc => ha c (.tail _ hc)⟩
      rcases List.mem_cons.1 (perm_insertBy.mem_iff.1 hc) with rfl | hc
      · exact hlt
      · exact hb c hc
    next hnlt =>
      have hab : comesBefore a b = true := (ha b (.head _)).resolve_right hnlt
      refine List.pairwise_cons.2 ⟨fun c hc => ?_, has⟩
      rcases List.mem_cons.1 hc with rfl | hc
      · exact hab
      · exact htrans _ _ _ hab (hb c hc)

/-- A list of which any two elements are in order, one way or the other, is sorted into that order. -/
theorem pairwise_sortBy {as : List α}
    (h : as.Pairwise fun a b => comesBefore a b = true ∨ comesBefore b a = true) :
    (sortBy comesBefore as).Pairwise fun a b => comesBefore a b = true := by
  induction as with
  | nil => exact .nil
  | cons a as ih =>
    obtain ⟨ha, has⟩ := List.pairwise_cons.1 h
    exact pairwise_insertBy htrans (ih has) fun b hb => ha b (mem_sortBy.1 hb)

end Order

end Sorting

end SelectionMerge
