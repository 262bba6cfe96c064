import SelectionMerge.Selection.Resolve

/-!
# Groups of fields

A list of fields is grouped by a key in the order in which the keys first appear; its layout
is the groups one after the other, so that fields of one key stand together and each key is
next to the one before it. Fields that can stand in one response object are those of one
object type together with all that are not selected on an object type.
-/

namespace SelectionMerge
set_option autoImplicit false

section Classes

variable {α κ : Type} [DecidableEq κ]

/-- The keys in order of first appearance, each once. -/
def firstKeys : List κ → List κ
  | [] => []
  | k :: ks => k :: (firstKeys ks).filter (· ≠ k)

/-- The elements of each key, in order of first appearance of the key. -/
def classes (key : α → κ) (as : List α) : List (List α) :=
  let keyed := as.map fun a => (key a, a)
  (firstKeys (keyed.map Prod.fst)).map fun k =>
    (keyed.filter fun entry => entry.1 = k).map Prod.snd

/-- The classes are the fibres of the key, one for each key. -/
theorem classes_eq (key : α → κ) (as : List α) :
    classes key as = (firstKeys (as.map key)).map fun k => as.filter fun a => key a = k := by
  simp only [classes, List.map_map, List.filter_map, Function.comp_def, List.map_id']

/-- The elements arranged so that those of one key stand together. -/
def layout (key : α → κ) (as : List α) : List α :=
  (classes key as).flatten

/-- Each element with the one after it. -/
def neighbours (as : List α) : List (α × α) :=
  as.zip as.tail

theorem mem_firstKeys {k : κ} {ks : List κ} : k ∈ firstKeys ks ↔ k ∈ ks := by
  induction ks with
  | nil => simp [firstKeys]
  | cons l ks ih =>
    by_cases h : k = l <;> simp [firstKeys, ih, h]

theorem nodup_firstKeys (ks : List κ) : (firstKeys ks).Nodup := by
  induction ks with
  | nil => exact .nil
  | cons k ks ih =>
    refine List.nodup_cons.2 ⟨?_, ih.filter _⟩
    simp

/-- Each class is the fibre of the key of an element. -/
theorem mem_classes {key : α → κ} {as c : List α} :
    c ∈ classes key as ↔ ∃ a ∈ as, c = as.filter fun b => key b = key a := by
  simp only [classes_eq, List.mem_map, mem_firstKeys]
  constructor
  · rintro ⟨_, ⟨a, ha, rfl⟩, rfl⟩
    exact ⟨a, ha, rfl⟩
  · rintro ⟨a, ha, rfl⟩
    exact ⟨_, ⟨a, ha, rfl⟩, rfl⟩

/-- Each element is in the class of its key. -/
theorem mem_class_of_mem {key : α → κ} {as : List α} {a : α} (ha : a ∈ as) :
    ∃ c ∈ classes key as, a ∈ c :=
  ⟨_, mem_classes.2 ⟨a, ha, rfl⟩, List.mem_filter.2 ⟨ha, by simp⟩⟩

/-- A layout has the elements that it arranges. -/
theorem mem_layout {key : α → κ} {as : List α} {a : α} : a ∈ layout key as ↔ a ∈ as := by
  simp only [layout, List.mem_flatten]
  constructor
  · rintro ⟨c, hc, ha⟩
    obtain ⟨b, -, rfl⟩ := mem_classes.1 hc
    exact (List.mem_filter.1 ha).1
  · exact mem_class_of_mem

end Classes

namespace ResolvedGraph

/-- The response key of a field. -/
def responseKey? (resolved : ResolvedGraph) (id : FieldId) : Option Name :=
  (resolved.field? id).map SelectedField.responseKey

/-- The name and arguments of a field. -/
def call? (resolved : ResolvedGraph) (id : FieldId) : Option FieldCall :=
  (resolved.field? id).map SelectedField.call

/-- The object type that a field is selected on. -/
def objectParent? (resolved : ResolvedGraph) (id : FieldId) : Option Name :=
  (resolved.field? id).bind SelectedField.objectParent?

/-- The shape of a field, if its type is known. -/
def shape (resolved : ResolvedGraph) (id : FieldId) : Except Defect (Option Shape) :=
  match resolved.field? id with
  | some selected => selected.shape
  | none => .ok none

/-- The shape of a field, if its type is known and an output type. -/
def shape? (resolved : ResolvedGraph) (id : FieldId) : Option Shape :=
  (resolved.shape id).toOption.join

/-- The fields of a set that share a response key, key by key. -/
def keyGroups (resolved : ResolvedGraph) (fields : List FieldId) : List (List FieldId) :=
  classes resolved.responseKey? fields

/-- The fields of a set that can stand in one response object: for each object type, those
selected on it and those that may apply to any object. A set with no field selected on an
object type is one group, unless it is empty. -/
def parentGroups (resolved : ResolvedGraph) (fields : List FieldId) : List (List FieldId) :=
  match firstKeys (fields.filterMap resolved.objectParent?) with
  | [] => if fields.isEmpty then [] else [fields]
  | parents => parents.map fun parent =>
    fields.filter fun id => (resolved.objectParent? id).all (· = parent)

/-- The neighbours of different known shapes in the layout of a group by shape. -/
def shapePairs (resolved : ResolvedGraph) (group : List FieldId) : List (FieldId × FieldId) :=
  (neighbours (layout resolved.shape? group)).filter fun (a, b) =>
    match resolved.shape? a, resolved.shape? b with
    | some s, some t => s ≠ t
    | _, _ => false

/-- The neighbours in the layout of a group by name and arguments. -/
def callPairs (resolved : ResolvedGraph) (group : List FieldId) : List (FieldId × FieldId) :=
  neighbours (layout resolved.call? group)

end ResolvedGraph

end SelectionMerge
