import Mathlib.Data.List.Nodup
import Mathlib.Logic.Relation
import SelectionMerge.Proofs.Build.Assembly
import SelectionMerge.Proofs.Check.Deepening
import SelectionMerge.Proofs.Check.Transparency
import SelectionMerge.Proofs.Expansion.Exactness
import SelectionMerge.Proofs.Merge.Renumbering

/-!
# How deep a check nests

The calls of a pass nest along chains of sets, each the merged sub-selections of a group of the one before.
Where no field stands below itself, a chain picks fields that lie below each other, each with a container of
its own, so it has one set more than the graph has containers, at most. Circles of fragments can be longer
than that: `helix_outgrows_containers` has two that a set of fields goes round at once, out of step. What
bounds the chains of every document is the number of sets that a root leads to, which is no more than the
number of sets of containers. Both bounds are in `nesting_bounded`.
-/

namespace SelectionMerge
set_option autoImplicit false

/-- The nested calls of a pass from a set stay within a bound: chains of calls on different sets are no
longer, and the pass does not use up a depth of that many turns, whatever the memo holds. -/
structure ResolvedGraph.NestsWithin (resolved : ResolvedGraph) (pass : Pass) (set : List FieldId)
    (bound : Nat) : Prop where
  chains : ∀ rest, (set :: rest).IsChain (resolved.LeadsOn pass) → (set :: rest).Nodup →
    (set :: rest).length ≤ bound
  depth : ∀ (memo : Memo) (id : SetId), memo.Arises resolved → memo.fields? id = some set →
    ((Check.followPass resolved pass bound id).runOn memo).1 ≠ .error .depthExhausted

/-- No field selection stands below itself, fragments expanded. -/
def Unwinding (schema : Schema) (definitions : List Definition) : Prop :=
  ∀ i, ¬ Relation.TransGen (ExpandsBelow schema definitions) i i

/-- No field stands below itself if fields stand below fields of smaller numbers only. -/
theorem unwinding_of_lt {schema : Schema} {definitions : List Definition}
    (h : ∀ above i, ExpandsBelow schema definitions above i → above < i) : Unwinding schema definitions := by
  have hpath : ∀ {i j}, Relation.TransGen (ExpandsBelow schema definitions) i j → i < j := by
    intro i j hpath
    induction hpath with
    | single hstep => exact h _ _ hstep
    | tail _ hstep ih => exact Nat.lt_trans ih (h _ _ hstep)
  exact fun i hcircle => Nat.lt_irrefl i (hpath hcircle)

section Chains

variable {α : Type} {relation : α → α → Prop}

/-- All elements of a chain but the last have one behind them. -/
theorem exists_next_of_mem_dropLast {items : List α} (h : items.IsChain relation) :
    ∀ a ∈ items.dropLast, ∃ b, relation a b := by
  induction h with
  | nil => simp
  | singleton => simp
  | @cons_cons a b items hab _ ih =>
    intro x hx
    rw [List.dropLast_cons_cons] at hx
    rcases List.mem_cons.1 hx with rfl | hx
    · exact ⟨b, hab⟩
    · exact ih x hx

/-- A chain of a relation without circles has no element twice. -/
theorem nodup_of_isChain (hcircle : ∀ a, ¬ Relation.TransGen relation a a) {items : List α}
    (h : items.IsChain relation) : items.Nodup := by
  have htrans : items.IsChain (Relation.TransGen relation) := h.imp fun _ _ => .single
  apply (List.isChain_iff_pairwise.1 htrans).imp
  rintro a b hab rfl
  exact hcircle a hab

end Chains

namespace ResolvedGraph

variable {resolved : ResolvedGraph} {pass : Pass}

/-- Nothing goes on from a set without fields. -/
theorem ne_nil_of_leadsOn {set next : List FieldId} (h : resolved.LeadsOn pass set next) : set ≠ [] := by
  rintro rfl
  obtain ⟨group, hgroup, -⟩ := h
  obtain ⟨fields, hfields, -⟩ := mem_groups.1 hgroup
  cases hfields

/-- Along a chain of sets run fields that lie below each other, one from each set, if the last one has
any. -/
theorem exists_fields_of_chain {below : FieldId → FieldId → Prop}
    (hbelow : ∀ fields i, i ∈ resolved.children fields → ∃ above ∈ fields, below above i)
    {set : List FieldId} {rest : List (List FieldId)} (h : (set :: rest).IsChain (resolved.LeadsOn pass))
    (hlast : (set :: rest).getLast (List.cons_ne_nil _ _) ≠ []) :
    ∃ first ∈ set, ∃ later : List FieldId, later.length = rest.length ∧ (first :: later).IsChain below := by
  induction rest generalizing set with
  | nil =>
    obtain ⟨first, hfirst⟩ := List.exists_mem_of_ne_nil _ hlast
    exact ⟨first, hfirst, [], rfl, List.isChain_singleton _⟩
  | cons next rest ih =>
    obtain ⟨⟨group, hgroup, rfl⟩, hrest⟩ := List.isChain_cons_cons.1 h
    obtain ⟨i, hi, later, hlength, hchain⟩ := ih hrest (by rwa [List.getLast_cons_cons] at hlast)
    obtain ⟨above, habove, hstep⟩ := hbelow group i hi
    refine ⟨above, (mem_group hgroup habove).1, i :: later, ?_, List.isChain_cons_cons.2 ⟨hstep, hchain⟩⟩
    rw [List.length_cons, List.length_cons, hlength]

end ResolvedGraph

namespace SelectionGraph

variable {schema : Schema} {definitions : List Definition} {graph : SelectionGraph}

/-- The container of a fragment is found by its name. -/
theorem Built.exists_fragment (h : graph.Built schema definitions) {c : ContainerId}
    (hc : c ∈ graph.fragmentContainers) : ∃ name, graph.fragment? name = some c := by
  obtain ⟨⟨name, _⟩, hentry, rfl⟩ := List.mem_map.1 hc
  cases hfind : graph.fragments.find? fun entry => entry.1 == name with
  | none => exact absurd (beq_self_eq_true name) (List.find?_eq_none.1 hfind _ hentry)
  | some entry =>
    have hname : (entry.1 == name) = true := by
      have hfound := List.find?_some hfind
      exact hfound
    have hsame := List.inj_on_of_nodup_map h.namedOnce (List.mem_of_find?_eq_some hfind) hentry (eq_of_beq hname)
    refine ⟨name, ?_⟩
    rw [fragment?, hfind, hsame]
    rfl

/-- Roots have no field above them: they are containers of fragments, or referenced as a root already. -/
theorem nested?_ne_root (hgraph : ofDocument schema definitions = .ok graph) {root : ContainerId}
    (hroot : root ∈ graph.roots) (i : FieldId) : graph.nested? i ≠ some root := by
  have h := Built.ofDocument hgraph
  intro hnested
  by_cases hfragment : root ∈ graph.fragmentContainers
  · obtain ⟨name, hname⟩ := h.exists_fragment hfragment
    obtain ⟨content, hrooted⟩ := exists_rooted hgraph
    obtain ⟨occurrence, -, hcontent⟩ := hrooted.labelled.nested hnested
    exact Content.noConfusion ((hrooted.labelled.fragments.1 hname).2.symm.trans hcontent)
  · have hcount := h.referenced root (h.roots_lt root hroot) hfragment
    obtain ⟨selected, hselected, hcontainer⟩ := nested?_eq_some.1 hnested
    have hbelow : root ∈ graph.fields.toList.filterMap SelectedField.container? :=
      List.mem_filterMap.2 ⟨selected, Array.mem_toList_iff.2 (Array.mem_of_getElem? hselected), hcontainer⟩
    have hone := List.count_pos_iff.2 hroot
    have htwo := List.count_pos_iff.2 hbelow
    rw [references, List.count_append, List.count_append] at hcount
    omega

/-- Fields that have sub-selections are no more than the containers besides a root. -/
theorem length_lt_of_nested (hgraph : ofDocument schema definitions = .ok graph) {root : ContainerId}
    (hroot : root ∈ graph.roots) {fields : List FieldId} (hnodup : fields.Nodup)
    (hnested : ∀ i ∈ fields, ∃ c, graph.nested? i = some c) : fields.length < graph.containers.size := by
  have hbuilt := Built.ofDocument hgraph
  obtain ⟨content, hrooted⟩ := exists_rooted hgraph
  have hinj : ∀ i j c, graph.nested? i = some c → graph.nested? j = some c → i = j := by
    intro i j c hi hj
    obtain ⟨first, -, hfirst⟩ := hrooted.labelled.nested hi
    obtain ⟨second, -, hsecond⟩ := hrooted.labelled.nested hj
    exact Nat.succ.inj (Content.selections.inj (hfirst.symm.trans hsecond)).1
  have hle : fields.toFinset.card ≤ ((Finset.range graph.containers.size).erase root).card := by
    refine Finset.card_le_card_of_injOn (fun i => (graph.nested? i).getD 0) (fun i hi => ?_) fun i hi j hj heq => ?_
    · obtain ⟨c, hc⟩ := hnested i (List.mem_toFinset.1 hi)
      simp only [hc, Option.getD_some]
      refine Finset.mem_coe.2 (Finset.mem_erase.2 ⟨?_, Finset.mem_range.2 (hbuilt.nested_lt i c hc)⟩)
      rintro rfl
      exact nested?_ne_root hgraph hroot i hc
    · obtain ⟨c, hc⟩ := hnested i (List.mem_toFinset.1 hi)
      obtain ⟨d, hd⟩ := hnested j (List.mem_toFinset.1 hj)
      simp only [hc, hd, Option.getD_some] at heq
      exact hinj i j c hc (heq ▸ hd)
  rw [List.toFinset_card_of_nodup hnodup, Finset.card_erase_of_mem (Finset.mem_range.2 (hbuilt.roots_lt root hroot)),
    Finset.card_range] at hle
  exact Nat.lt_of_le_pred (Nat.zero_lt_of_lt (hbuilt.roots_lt root hroot)) hle

/-- Where no field stands below itself, a chain from a root that ends in a set with fields is no longer
than the graph has containers. -/
theorem length_chain_le (hgraph : ofDocument schema definitions = .ok graph)
    (hunwinding : Unwinding schema definitions) {pass : Pass} {root : ContainerId} (hroot : root ∈ graph.roots)
    {rest : List (List FieldId)}
    (h : (graph.resolved.fieldSet root :: rest).IsChain (graph.resolved.LeadsOn pass))
    (hlast : (graph.resolved.fieldSet root :: rest).getLast (List.cons_ne_nil _ _) ≠ []) :
    rest.length < graph.containers.size := by
  have hexpanded := expanded_ofDocument hgraph
  obtain ⟨first, -, later, hlength, hchain⟩ :=
    ResolvedGraph.exists_fields_of_chain (fun fields i => (hexpanded.children fields i).1) h hlast
  have hnodup := (nodup_of_isChain hunwinding hchain).sublist (List.dropLast_sublist _)
  have hlt := length_lt_of_nested hgraph hroot hnodup fun i hi => by
    obtain ⟨j, hbelow⟩ := exists_next_of_mem_dropLast hchain i hi
    have hj : j ∈ graph.resolved.children [i] := (hexpanded.children [i] j).2 ⟨i, List.mem_singleton.2 rfl, hbelow⟩
    obtain ⟨_, hi', c, hc, -⟩ := ResolvedGraph.mem_children.1 hj
    exact ⟨c, List.mem_singleton.1 hi' ▸ hc⟩
  rw [List.length_dropLast, List.length_cons, Nat.add_sub_cancel] at hlt
  omega

/-- Where no field stands below itself, a chain from a root has one set more than the graph has
containers, at most: the last one may be without fields. -/
theorem length_chain_le_succ (hgraph : ofDocument schema definitions = .ok graph)
    (hunwinding : Unwinding schema definitions) {pass : Pass} {root : ContainerId} (hroot : root ∈ graph.roots)
    {rest : List (List FieldId)}
    (h : (graph.resolved.fieldSet root :: rest).IsChain (graph.resolved.LeadsOn pass)) :
    rest.length ≤ graph.containers.size := by
  rcases rest.eq_nil_or_concat with rfl | ⟨front, last, rfl⟩
  · exact Nat.zero_le _
  · rw [List.concat_eq_append] at h ⊢
    rw [← List.cons_append] at h
    obtain ⟨hfront, -, hstep⟩ := List.isChain_append.1 h
    have hne := ResolvedGraph.ne_nil_of_leadsOn
      (hstep _ (List.getLast_mem_getLast? (List.cons_ne_nil _ _)) last rfl)
    have hlt := length_chain_le hgraph hunwinding hroot hfront hne
    rw [List.length_append, List.length_singleton]
    omega

/-- A bound for the chains of calls on different sets, but for the last, bounds how calls nest. -/
theorem Represents.nestsWithin (h : Represents schema definitions graph) {pass : Pass} {set : List FieldId}
    {bound : Nat}
    (hbound : ∀ rest, (set :: rest).IsChain (graph.resolved.LeadsOn pass) → (set :: rest).dropLast.Nodup →
      (set :: rest).length ≤ bound) : graph.resolved.NestsWithin pass set bound where
  chains rest hchain hnodup := hbound rest hchain (hnodup.sublist (List.dropLast_sublist _))
  depth memo id harises hset := by
    rw [Check.followPass_eq]
    intro hfails
    obtain ⟨i, hshape⟩ | ⟨-, rest, hlength, hchain, hnodup, -⟩ := Check.follow_stops harises hset hfails
    · exact h.shape_ne_depthExhausted i hshape
    · have hle := hbound rest hchain hnodup
      omega

end SelectionGraph

/-- **Nesting.** However the fragments of a document contain each other, the calls of a pass nest no deeper
than the number of sets that the root leads to and one more; there are finitely many, no more than sets of
containers. Where no field stands below itself, they nest no deeper than the number of containers and one
more. -/
theorem nesting_bounded (schema : Schema) (definitions : List Definition) :
    ∃ graph, SelectionGraph.ofDocument schema definitions = .ok graph ∧
      ∀ (pass : Pass), ∀ root ∈ graph.roots,
        (graph.resolved.reachedSets pass (graph.resolved.fieldSet root)).Finite ∧
        (graph.resolved.reachedSets pass (graph.resolved.fieldSet root)).ncard ≤ 2 ^ graph.containers.size ∧
        graph.resolved.NestsWithin pass (graph.resolved.fieldSet root)
          ((graph.resolved.reachedSets pass (graph.resolved.fieldSet root)).ncard + 1) ∧
        (Unwinding schema definitions →
          graph.resolved.NestsWithin pass (graph.resolved.fieldSet root) (graph.containers.size + 1)) := by
  have hgraph := SelectionGraph.ofDocument_eq schema definitions
  have hrepresents := SelectionGraph.represents_ofDocument hgraph
  refine ⟨_, hgraph, fun pass root hroot => ⟨?_, ?_, ?_, fun hunwinding => ?_⟩⟩
  · exact ResolvedGraph.finite_reachedSets hrepresents.wellFormed pass _
  · exact ResolvedGraph.ncard_reachedSets_fieldSet_le _ pass root
  · apply hrepresents.nestsWithin
    intro rest hchain hnodup
    have hle := ResolvedGraph.length_le_ncard hrepresents.wellFormed hnodup fun set hset =>
      ResolvedGraph.reached_of_chain hchain set (List.mem_of_mem_dropLast hset)
    rw [List.length_dropLast] at hle
    omega
  · apply hrepresents.nestsWithin
    intro rest hchain _
    rw [List.length_cons]
    exact Nat.succ_le_succ (SelectionGraph.length_chain_le_succ hgraph hunwinding hroot hchain)

/-- A schema whose queries lead to further queries under two names. -/
def helixSchema : Schema where
  types := [
    ⟨⟨"Query", Eq.refl true⟩, .object []
      [⟨⟨"a", Eq.refl true⟩, .named ⟨"Query", Eq.refl true⟩ false⟩,
       ⟨⟨"b", Eq.refl true⟩, .named ⟨"Query", Eq.refl true⟩ false⟩]⟩]
  roots := [(.query, ⟨"Query", Eq.refl true⟩)]

/-- The field `a` with sub-selections. -/
def helixField (selections : List Selection) : Selection :=
  .field ⟨none, ⟨"a", Eq.refl true⟩, [], none⟩ selections

/-- A fragment that is selected below two fields, and leads two fields further down. -/
def stairsDocument : List Definition :=
  [.operation ⟨.query, none,
    [helixField [.spread ⟨"F", Eq.refl true⟩],
     .field ⟨none, ⟨"b", Eq.refl true⟩, [], none⟩ [.spread ⟨"F", Eq.refl true⟩]]⟩,
   .fragment ⟨⟨"F", Eq.refl true⟩, ⟨"Query", Eq.refl true⟩, [helixField [helixField []]]⟩]

theorem stairs_unwinding : Unwinding helixSchema stairsDocument := by
  have hall : (SelectionGraph.ofDocument helixSchema stairsDocument).toOption.any (fun graph =>
      decide (∀ above ∈ List.range 4, ∀ i ∈ graph.resolved.children [above], above < i)) = true := by
    decide +kernel
  obtain ⟨graph, hgraph, hless⟩ := SelectionGraph.exists_ofDocument hall
  refine unwinding_of_lt fun above i hbelow => ?_
  obtain ⟨occurrence, hoccurrence, -⟩ := id hbelow
  have hi : i ∈ graph.resolved.children [above] :=
    ((SelectionGraph.expanded_ofDocument hgraph).children [above] i).2 ⟨above, List.mem_singleton.2 rfl, hbelow⟩
  exact hless above (List.mem_range.2 (List.getElem?_eq_some_iff.1 hoccurrence).1) i hi

/-- The document has five containers, and no pass nests more than six calls. -/
theorem stairs_nest_within : ∃ graph, SelectionGraph.ofDocument helixSchema stairsDocument = .ok graph ∧
    Unwinding helixSchema stairsDocument ∧ graph.containers.size = 5 ∧ graph.roots ≠ [] ∧
    ∀ (pass : Pass), ∀ root ∈ graph.roots,
      graph.resolved.NestsWithin pass (graph.resolved.fieldSet root) 6 := by
  have hall : (SelectionGraph.ofDocument helixSchema stairsDocument).toOption.any (fun graph =>
      decide (graph.containers.size = 5 ∧ graph.roots ≠ [])) = true := by
    decide +kernel
  obtain ⟨graph, hgraph, hsize, hroots⟩ := SelectionGraph.exists_ofDocument hall
  obtain ⟨graph', hgraph', hbounded⟩ := nesting_bounded helixSchema stairsDocument
  obtain rfl := Except.ok.inj (hgraph.symm.trans hgraph')
  refine ⟨graph, hgraph, stairs_unwinding, hsize, hroots, fun pass root hroot => ?_⟩
  have hnests := (hbounded pass root hroot).2.2.2 stairs_unwinding
  rw [hsize] at hnests
  exact hnests

instance (resolved : ResolvedGraph) (pass : Pass) (set next : List FieldId) :
    Decidable (resolved.LeadsOn pass set next) :=
  inferInstanceAs (Decidable (∃ group ∈ resolved.groups pass set, next = resolved.children group))

/-- Two fragments that lead into each other, one of them through five fields and the other through one.
Both are selected at once, so that a set of two fields goes round until they meet under `b`. -/
def helixDocument : List Definition :=
  [.operation ⟨.query, none, [.spread ⟨"F", Eq.refl true⟩, .spread ⟨"G", Eq.refl true⟩]⟩,
   .fragment ⟨⟨"F", Eq.refl true⟩, ⟨"Query", Eq.refl true⟩, [helixField [.spread ⟨"G", Eq.refl true⟩]]⟩,
   .fragment ⟨⟨"G", Eq.refl true⟩, ⟨"Query", Eq.refl true⟩,
    [helixField [helixField [helixField [helixField
      [.field ⟨none, ⟨"b", Eq.refl true⟩, [], none⟩ [.spread ⟨"F", Eq.refl true⟩]]]]]]⟩]

/-- Nine containers, and yet each pass nests eleven calls on different sets and uses up a depth of ten
turns. -/
theorem helix_outgrows_containers :
    ∃ graph, SelectionGraph.ofDocument helixSchema helixDocument = .ok graph ∧ graph.containers.size = 9 ∧
      ∃ root ∈ graph.roots, ∀ pass : Pass,
        (∃ rest, (graph.resolved.fieldSet root :: rest).IsChain (graph.resolved.LeadsOn pass) ∧
          (graph.resolved.fieldSet root :: rest).Nodup ∧ (graph.resolved.fieldSet root :: rest).length = 11) ∧
        ((do
          let id ← Check.lookup (graph.resolved.fieldSet root)
          Check.followPass graph.resolved pass 10 id : Check Unit).runOn Memo.empty).1 =
            .error .depthExhausted := by
  let rest : List (List FieldId) := [[1, 2], [2, 3], [3, 4], [4, 5], [5], [0], [1], [2], [3], [4]]
  obtain ⟨graph, hgraph, hsize, hroot, hpasses⟩ : ∃ graph,
      SelectionGraph.ofDocument helixSchema helixDocument = .ok graph ∧ graph.containers.size = 9 ∧
      0 ∈ graph.roots ∧ ∀ pass ∈ [Pass.shapes, Pass.calls],
        ((graph.resolved.fieldSet 0 :: rest).IsChain (graph.resolved.LeadsOn pass) ∧
          (graph.resolved.fieldSet 0 :: rest).Nodup ∧ (graph.resolved.fieldSet 0 :: rest).length = 11) ∧
        ((do
          let id ← Check.lookup (graph.resolved.fieldSet 0)
          Check.followPass graph.resolved pass 10 id : Check Unit).runOn Memo.empty).1 =
            .error .depthExhausted := by
    apply SelectionGraph.exists_ofDocument
    decide +kernel
  refine ⟨graph, hgraph, hsize, 0, hroot, fun pass => ?_⟩
  obtain ⟨hchain, hdepth⟩ := hpasses pass (by cases pass <;> simp)
  exact ⟨⟨rest, hchain⟩, hdepth⟩

end SelectionMerge
