import Mathlib.Data.List.Forall2
import SelectionMerge.Merge.Steps

/-!
# Steps that return

`Check.Returns` says what a step of a check comes to where no defect stops it. A step made of
others returns if these return one after the other (`returns_bind`), and what each turn of a
loop keeps, the loop keeps (`forM_returns`, `mapM_returns`).
-/

namespace SelectionMerge
set_option autoImplicit false

namespace Check

section Returns

variable {α β γ : Type}

/-- On `memo` the step gives `result`, and the memo is `after` then. -/
def Returns (step : Check α) (memo : Memo) (result : α) (after : Memo) : Prop :=
  runOn step memo = (.ok result, after)

variable {memo after : Memo}

theorem returns_pure {a result : α} :
    Returns (pure a) memo result after ↔ a = result ∧ memo = after := by
  unfold Returns
  rw [runOn_pure, Prod.mk.injEq, Except.ok.injEq]

theorem not_returns_throw {defect : Defect} {result : α} :
    ¬ Returns (throw defect) memo result after := by
  intro h
  unfold Returns at h
  rw [runOn_throw] at h
  cases h

theorem returns_get {result : Memo} :
    Returns get memo result after ↔ memo = result ∧ memo = after := by
  unfold Returns
  rw [runOn_get, Prod.mk.injEq, Except.ok.injEq]

theorem returns_set {memo' : Memo} : Returns (set memo' : Check PUnit) memo () after ↔ memo' = after := by
  unfold Returns
  rw [runOn_set, Prod.mk.injEq]
  exact and_iff_right rfl

theorem returns_modify {change : Memo → Memo} :
    Returns (modify change : Check PUnit) memo () after ↔ change memo = after := by
  unfold Returns
  rw [runOn_modify, Prod.mk.injEq]
  exact and_iff_right rfl

theorem returns_entry {id : SetId} {result : Entry} :
    Returns (entry id) memo result after ↔ memo.entry id = result ∧ memo = after := by
  unfold Returns
  rw [runOn_entry, Prod.mk.injEq, Except.ok.injEq]

/-- A step and what follows it return one after the other. -/
theorem returns_bind {step : Check α} {next : α → Check β} {result : β} :
    Returns (step >>= next) memo result after ↔
      ∃ a middle, Returns step memo a middle ∧ Returns (next a) middle result after := by
  unfold Returns
  rw [runOn_bind]
  cases hstep : runOn step memo with
  | mk first middle =>
    cases first with
    | error defect =>
      constructor
      · intro h
        cases h
      · rintro ⟨a, middle', h, -⟩
        cases h
    | ok a =>
      constructor
      · intro h
        exact ⟨a, middle, rfl, h⟩
      · rintro ⟨a', middle', h, hnext⟩
        cases h
        exact hnext

/-- What each turn keeps and adds to the memo, and what it does for its own item, holds for all
items after the loop, if what is done for an item stays done. -/
theorem forM_returns {step : γ → Check PUnit} (keeps : Memo → Prop) (adds : Memo → Memo → Prop)
    (does : γ → Memo → Prop) (hrefl : ∀ memo, adds memo memo)
    (htrans : ∀ {a b c}, adds a b → adds b c → adds a c)
    (hstays : ∀ {a b c}, does c a → adds a b → does c b) {items : List γ}
    (hturn : ∀ c ∈ items, ∀ start finish, adds memo start → keeps start →
      Returns (step c) start () finish → keeps finish ∧ adds start finish ∧ does c finish)
    (hmemo : keeps memo) (h : Returns (items.forM step) memo () after) :
    keeps after ∧ adds memo after ∧ ∀ c ∈ items, does c after := by
  suffices hloop : ∀ start, adds memo start → keeps start →
      Returns (items.forM step) start () after →
      keeps after ∧ adds start after ∧ ∀ c ∈ items, does c after from
    hloop memo (hrefl memo) hmemo h
  clear h hmemo
  induction items with
  | nil =>
    intro start _ hstart h
    obtain rfl : start = after := (returns_pure.1 h).2
    exact ⟨hstart, hrefl start, fun c hc => absurd hc List.not_mem_nil⟩
  | cons c items ih =>
    intro start hfrom hstart h
    obtain ⟨⟨⟩, middle, hfirst, hrest⟩ := returns_bind.1 h
    obtain ⟨hmiddle, hadds, hdoes⟩ := hturn c (.head _) start middle hfrom hstart hfirst
    have hlater := ih (fun c hc => hturn c (.tail _ hc)) middle (htrans hfrom hadds) hmiddle hrest
    refine ⟨hlater.1, htrans hadds hlater.2.1, fun c' hc' => ?_⟩
    cases hc' with
    | head => exact hstays hdoes hlater.2.1
    | tail _ hc' => exact hlater.2.2 c' hc'

/-- What each turn keeps and adds to the memo, and how its result goes with its item, holds for
all items after the loop. -/
theorem mapM_returns {step : γ → Check α} (keeps : Memo → Prop) (adds : Memo → Memo → Prop)
    (fits : Memo → γ → α → Prop) (hrefl : ∀ memo, adds memo memo)
    (htrans : ∀ {a b c}, adds a b → adds b c → adds a c)
    (hstays : ∀ {a b c result}, fits a c result → adds a b → fits b c result) {items : List γ}
    (hturn : ∀ c start finish result, keeps start → Returns (step c) start result finish →
      keeps finish ∧ adds start finish ∧ fits finish c result)
    (hmemo : keeps memo) {results : List α} (h : Returns (items.mapM step) memo results after) :
    keeps after ∧ adds memo after ∧ List.Forall₂ (fits after) items results := by
  induction items generalizing memo results with
  | nil =>
    rw [List.mapM_nil] at h
    obtain ⟨rfl, rfl⟩ := returns_pure.1 h
    exact ⟨hmemo, hrefl memo, .nil⟩
  | cons c items ih =>
    rw [List.mapM_cons] at h
    obtain ⟨first, middle, hfirst, h⟩ := returns_bind.1 h
    obtain ⟨rest, middle', hrest, h⟩ := returns_bind.1 h
    obtain ⟨rfl, rfl⟩ := returns_pure.1 h
    obtain ⟨hmiddle, hadds, hfits⟩ := hturn c memo middle first hmemo hfirst
    obtain ⟨hlast, hadds', hfits'⟩ := ih hmiddle hrest
    exact ⟨hlast, htrans hadds hadds', .cons (hstays hfits hadds') hfits'⟩

end Returns

end Check

end SelectionMerge
