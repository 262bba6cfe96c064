import Mathlib.Logic.Relation
import SelectionMerge.Selection.Resolve

/-!
# Containers that lead to each other

`Spreads` and `Nests` are the two ways from one container to another: the spreads in it, and
the sub-selections of its fields. `Reaches` follows any number of spreads, `LeadsTo` any number
of both. What follows them is one equation for each change that a search makes to the marks
(`Marks.get_set`, `Marks.get_lower`, `Marks.get_close`), and what it means for marks to be
right: spreads of closed containers lead to closed ones (`Marks.Onward`), which list exactly
what they reach (`Marks.Exact`).
-/

namespace SelectionMerge
set_option autoImplicit false

namespace SelectionGraph

variable (graph : SelectionGraph)

/-- The container `a` spreads to `b`. -/
def Spreads (a b : ContainerId) : Prop :=
  b ∈ (graph.container a).spreads

/-- A field in the container `a` has its sub-selections in `b`. -/
def Nests (a b : ContainerId) : Prop :=
  ∃ field ∈ (graph.container a).fields, graph.nested? field = some b

/-- Zero or more spreads lead from one container to another. -/
def Reaches : ContainerId → ContainerId → Prop :=
  Relation.ReflTransGen graph.Spreads

/-- Spreads and sub-selections lead from one container to another. -/
def LeadsTo : ContainerId → ContainerId → Prop :=
  Relation.ReflTransGen fun a b => graph.Spreads a b ∨ graph.Nests a b

/-- Every spread is a container of the graph. -/
def SpreadsInRange : Prop :=
  ∀ {a b}, graph.Spreads a b → b < graph.containers.size

/-- Every spread and every sub-selection is a container of the graph. -/
structure InRange : Prop where
  spreads : ∀ {a b}, graph.Spreads a b → b < graph.containers.size
  nests : ∀ {a b}, graph.Nests a b → b < graph.containers.size

variable {graph}

/-- A graph is in range if the lists of its containers are. -/
theorem inRange_of_forall
    (h : ∀ c ∈ graph.containers, (∀ b ∈ c.spreads, b < graph.containers.size) ∧
      ∀ field ∈ c.fields, ∀ b ∈ graph.nested? field, b < graph.containers.size) :
    graph.InRange := by
  have hmem : ∀ a, graph.container a = Container.empty ∨ graph.container a ∈ graph.containers := by
    intro a
    unfold container
    cases hget : graph.containers[a]? with
    | none => exact .inl rfl
    | some c => exact .inr (Array.mem_of_getElem? hget)
  refine ⟨fun {a b} hb => ?_, fun {a b} hb => ?_⟩
  · unfold Spreads at hb
    rcases hmem a with ha | ha
    · rw [ha] at hb
      simp [Container.empty] at hb
    · exact (h _ ha).1 b hb
  · obtain ⟨field, hfield, hnested⟩ := hb
    rcases hmem a with ha | ha
    · rw [ha] at hfield
      simp [Container.empty] at hfield
    · exact (h _ ha).2 field hfield b hnested

theorem Spreads.reaches {a b : ContainerId} (h : graph.Spreads a b) : graph.Reaches a b :=
  Relation.ReflTransGen.single h

theorem Reaches.refl (a : ContainerId) : graph.Reaches a a :=
  Relation.ReflTransGen.refl

theorem Reaches.trans {a b c : ContainerId} (hab : graph.Reaches a b) (hbc : graph.Reaches b c) :
    graph.Reaches a c :=
  Relation.ReflTransGen.trans hab hbc

theorem Reaches.leadsTo {a b : ContainerId} (h : graph.Reaches a b) : graph.LeadsTo a b :=
  Relation.ReflTransGen.mono (fun _ _ => Or.inl) _ _ h

/-- A set of containers that no spread leaves has all that its members reach. -/
theorem Reaches.mem_of_closed {P : ContainerId → Prop} {a b : ContainerId}
    (h : graph.Reaches a b) (ha : P a) (closed : ∀ {x y}, P x → graph.Spreads x y → P y) : P b := by
  induction h with
  | refl => exact ha
  | tail _ hxy ih => exact closed ih hxy

theorem Reaches.lt_size {a b : ContainerId} (h : graph.Reaches a b) (range : graph.InRange)
    (ha : a < graph.containers.size) : b < graph.containers.size :=
  h.mem_of_closed (P := fun c => c < graph.containers.size) ha fun _ => range.spreads

end SelectionGraph

namespace Marks

variable {marks : Marks}

/-- The container is on the stack of components. -/
def IsOpen (marks : Marks) (id : ContainerId) : Prop :=
  ∃ order lowest, marks.get id = .opened order lowest

/-- The container is finished. -/
def IsClosed (marks : Marks) (id : ContainerId) : Prop :=
  ∃ reached, marks.get id = .closed reached

/-- The number of an open container. -/
def order (marks : Marks) (id : ContainerId) : Nat :=
  match marks.get id with
  | .opened order _ => order
  | _ => 0

/-- The lowest number known to be reachable from an open container. -/
def lowest (marks : Marks) (id : ContainerId) : Nat :=
  match marks.get id with
  | .opened _ lowest => lowest
  | _ => 0

theorem order_eq {id order lowest : Nat} (h : marks.get id = .opened order lowest) :
    marks.order id = order := by
  simp only [Marks.order, h]

theorem lowest_eq {id order lowest : Nat} (h : marks.get id = .opened order lowest) :
    marks.lowest id = lowest := by
  simp only [Marks.lowest, h]

theorem IsOpen.get_eq {id : ContainerId} (h : marks.IsOpen id) :
    marks.get id = .opened (marks.order id) (marks.lowest id) := by
  obtain ⟨order, lowest, h⟩ := h
  rw [order_eq h, lowest_eq h, h]

theorem IsOpen.not_isClosed {id : ContainerId} (h : marks.IsOpen id) : ¬ marks.IsClosed id := by
  rintro ⟨reached, hclosed⟩
  rw [h.get_eq] at hclosed
  cases hclosed

theorem IsClosed.visited {id : ContainerId} (h : marks.IsClosed id) : marks.get id ≠ .unvisited := by
  obtain ⟨reached, h⟩ := h
  rw [h]
  exact Mark.noConfusion

theorem IsOpen.visited {id : ContainerId} (h : marks.IsOpen id) : marks.get id ≠ .unvisited := by
  rw [h.get_eq]
  exact Mark.noConfusion

theorem isUnvisited_iff {id : ContainerId} : marks.isUnvisited id = true ↔ marks.get id = .unvisited := by
  unfold isUnvisited
  split <;> simp_all

/-- A container is unvisited, open or closed. -/
theorem trichotomy (marks : Marks) (id : ContainerId) :
    marks.get id = .unvisited ∨ marks.IsOpen id ∨ marks.IsClosed id := by
  cases h : marks.get id with
  | unvisited => exact .inl rfl
  | opened order lowest => exact .inr (.inl ⟨order, lowest, h⟩)
  | closed reached => exact .inr (.inr ⟨reached, h⟩)

theorem lt_size_of_get {id : ContainerId} (h : marks.get id ≠ .unvisited) : id < marks.size := by
  rcases Nat.lt_or_ge id marks.size with hlt | hge
  · exact hlt
  · exact absurd (by simp [Marks.get, Array.getElem?_eq_none hge]) h

theorem reach_eq {id : ContainerId} {reached : List ContainerId} (h : marks.get id = .closed reached) :
    marks.reach id = reached := by
  simp only [reach, h]

theorem closedReach_eq {id : ContainerId} {reached : List ContainerId}
    (h : marks.get id = .closed reached) : marks.closedReach id = reached := by
  simp only [closedReach, h]

theorem isClosed_of_mem_closedReach {id x : ContainerId} (h : x ∈ marks.closedReach id) :
    marks.IsClosed id := by
  unfold closedReach at h
  split at h
  next reached hclosed => exact ⟨reached, hclosed⟩
  next => cases h

/-- Setting one mark leaves the others. -/
theorem get_set {id : ContainerId} (hid : id < marks.size) (mark : Mark) (c : ContainerId) :
    Marks.get (marks.setIfInBounds id mark) c = if id = c then mark else marks.get c := by
  unfold Marks.get
  rw [Array.getElem?_setIfInBounds]
  by_cases heq : id = c
  · rw [if_pos heq, if_pos heq, if_pos hid]
    rfl
  · rw [if_neg heq, if_neg heq]

theorem size_lower (id : ContainerId) (bound : Nat) : Array.size (marks.lower id bound) = marks.size := by
  unfold lower
  split
  · exact Array.size_setIfInBounds
  · rfl

/-- Lowering changes the lowest number of one open container, and nothing else. -/
theorem get_lower {id : ContainerId} (hid : marks.IsOpen id) (bound : Nat) (c : ContainerId) :
    (marks.lower id bound).get c =
      if id = c then .opened (marks.order id) (min (marks.lowest id) bound) else marks.get c := by
  have hlt : id < marks.size := lt_size_of_get hid.visited
  unfold lower
  rw [hid.get_eq]
  exact get_set hlt _ c

/-- Lowering to a bound that is no lower changes nothing. -/
theorem get_lower_of_le {id : ContainerId} (hid : marks.IsOpen id) {bound : Nat}
    (h : marks.lowest id ≤ bound) (c : ContainerId) : (marks.lower id bound).get c = marks.get c := by
  rw [get_lower hid]
  split
  next heq => rw [← heq, Nat.min_eq_left h, hid.get_eq]
  next => rfl

theorem isOpen_lower {id : ContainerId} (hid : marks.IsOpen id) (bound : Nat) (c : ContainerId) :
    (marks.lower id bound).IsOpen c ↔ marks.IsOpen c := by
  have hget := get_lower hid bound c
  by_cases heq : id = c
  · subst heq
    exact ⟨fun _ => hid, fun _ => ⟨_, _, hget.trans (if_pos rfl)⟩⟩
  · unfold IsOpen
    rw [hget, if_neg heq]

theorem isClosed_lower {id : ContainerId} (hid : marks.IsOpen id) (bound : Nat) (c : ContainerId) :
    (marks.lower id bound).IsClosed c ↔ marks.IsClosed c := by
  have hget := get_lower hid bound c
  by_cases heq : id = c
  · subst heq
    have hopen : (marks.lower id bound).IsOpen id := (isOpen_lower hid bound id).2 hid
    exact ⟨fun h => absurd h hopen.not_isClosed, fun h => absurd h hid.not_isClosed⟩
  · unfold IsClosed
    rw [hget, if_neg heq]

theorem get_of_lower_closed {id : ContainerId} (hid : marks.IsOpen id) {bound : Nat} {c : ContainerId}
    {reached : List ContainerId} (h : (marks.lower id bound).get c = .closed reached) :
    marks.get c = .closed reached := by
  have hne : id ≠ c := by
    rintro rfl
    exact hid.not_isClosed ((isClosed_lower hid bound id).1 ⟨reached, h⟩)
  rwa [get_lower hid, if_neg hne] at h

theorem order_lower {id : ContainerId} (hid : marks.IsOpen id) (bound : Nat) (c : ContainerId) :
    (marks.lower id bound).order c = marks.order c := by
  have hget := get_lower hid bound c
  by_cases heq : id = c
  · subst heq
    exact order_eq (hget.trans (if_pos rfl))
  · unfold order
    rw [hget, if_neg heq]

theorem lowest_lower {id : ContainerId} (hid : marks.IsOpen id) (bound : Nat) :
    (marks.lower id bound).lowest id = min (marks.lowest id) bound :=
  lowest_eq ((get_lower hid bound id).trans (if_pos rfl))

theorem size_close (members reached : List ContainerId) :
    Array.size (marks.close members reached) = marks.size := by
  induction members generalizing marks with
  | nil => rfl
  | cons member members ih =>
    have hrest := @ih (marks.setIfInBounds member (.closed reached))
    exact hrest.trans Array.size_setIfInBounds

/-- Closing changes the marks of the members, and nothing else. -/
theorem get_close {members : List ContainerId} (hmembers : ∀ m ∈ members, m < marks.size)
    (reached : List ContainerId) (c : ContainerId) :
    (marks.close members reached).get c = if c ∈ members then .closed reached else marks.get c := by
  induction members generalizing marks with
  | nil => rfl
  | cons member members ih =>
    have hrest : ∀ m ∈ members, m < Array.size (marks.setIfInBounds member (.closed reached)) := by
      intro m hm
      rw [Array.size_setIfInBounds]
      exact hmembers m (.tail _ hm)
    have hget := get_set (hmembers member (.head _)) (.closed reached) c
    have : marks.close (member :: members) reached =
        Marks.close (marks.setIfInBounds member (.closed reached)) members reached := rfl
    rw [this, ih hrest, hget]
    by_cases hc : c ∈ members
    · rw [if_pos hc, if_pos (.tail _ hc)]
    · rw [if_neg hc]
      by_cases heq : member = c
      · rw [if_pos heq, if_pos (heq ▸ .head _)]
      · have : c ∉ member :: members := by simp [hc, Ne.symm heq]
        rw [if_neg heq, if_neg this]

/-- Spreads of closed containers lead to closed ones. -/
def Onward (graph : SelectionGraph) (marks : Marks) : Prop :=
  ∀ {a b : ContainerId}, marks.IsClosed a → graph.Spreads a b → marks.IsClosed b

/-- Closed containers list what they reach, in ascending order. -/
def Exact (graph : SelectionGraph) (marks : Marks) : Prop :=
  ∀ {a : ContainerId} {reached : List ContainerId}, marks.get a = .closed reached →
    reached.Pairwise (· < ·) ∧ ∀ x, x ∈ reached ↔ graph.Reaches a x

theorem Onward.isClosed {graph : SelectionGraph} (h : marks.Onward graph) {a b : ContainerId}
    (ha : marks.IsClosed a) (hab : graph.Reaches a b) : marks.IsClosed b :=
  hab.mem_of_closed ha h

theorem Exact.mem_closedReach {graph : SelectionGraph} (h : marks.Exact graph) {a x : ContainerId} :
    x ∈ marks.closedReach a ↔ marks.IsClosed a ∧ graph.Reaches a x := by
  constructor
  · intro hx
    obtain ⟨reached, ha⟩ := isClosed_of_mem_closedReach hx
    rw [closedReach_eq ha] at hx
    exact ⟨⟨reached, ha⟩, ((h ha).2 x).1 hx⟩
  · rintro ⟨⟨reached, ha⟩, hx⟩
    rw [closedReach_eq ha]
    exact ((h ha).2 x).2 hx

end Marks

end SelectionMerge
