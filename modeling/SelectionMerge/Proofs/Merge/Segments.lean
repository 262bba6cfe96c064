import SelectionMerge.Proofs.Check.Preserves
import SelectionMerge.Proofs.Merge.Attribution
import Mathlib.Data.Prod.Lex

/-!
# The order of what is reported

A check reports one segment for each root. A conflict stands in the segment of the first root from
which a pass has to compare its fields, whatever the memo says by then: a pair that an earlier root
leads to was found there, and no step finds a pair twice (`Memo.FindsOnce`). So each segment is known
from its root and the roots before it (`Segment`), and with the order of the document the whole list
is (`conflicts_are_segmented`).
-/

namespace SelectionMerge
set_option autoImplicit false

namespace Finding

/-- The fields of a finding. -/
def pair (finding : Finding) : FieldId × FieldId :=
  (finding.first, finding.second)

/-- Findings are in the lexicographic order of their fields. -/
theorem before_iff {x y : Finding} : x.before y = true ↔ toLex x.pair < toLex y.pair := by
  simp [before, pair, Prod.Lex.toLex_lt_toLex]

theorem before_trans (x y z : Finding) (hxy : x.before y = true) (hyz : y.before z = true) :
    x.before z = true :=
  before_iff.2 (lt_trans (before_iff.1 hxy) (before_iff.1 hyz))

theorem before_or_before {x y : Finding} (h : x.pair ≠ y.pair) :
    x.before y = true ∨ y.before x = true := by
  rw [before_iff, before_iff]
  exact lt_or_gt_of_ne h

end Finding

namespace Memo

/-- The findings are the conflicts among the pairs that were compared, each of them once. -/
structure FindsOnce (resolved : ResolvedGraph) (found : List Finding) (memo : Memo) : Prop where
  finds : memo.Finds resolved (found ++ memo.findings)
  nodup : (found ++ memo.findings).Nodup

variable {resolved : ResolvedGraph} {memo after : Memo} {found : List Finding}

/-- The fields of a finding determine its reason. -/
theorem Finds.eq_of_pair {findings : List Finding} (h : memo.Finds resolved findings) {x y : Finding}
    (hx : x ∈ findings) (hy : y ∈ findings) (hpair : x.pair = y.pair) : x = y := by
  obtain ⟨a, b, reason⟩ := x
  obtain ⟨a', b', reason'⟩ := y
  obtain ⟨rfl, rfl⟩ := Prod.mk.inj hpair
  have hreason := ((h _ _ _).1 hx).2.symm.trans ((h _ _ _).1 hy).2
  rw [Option.some.inj hreason]

theorem FindsOnce.congr (h : memo.FindsOnce resolved found) (hpartners : after.partners = memo.partners)
    (hfindings : after.findings = memo.findings) : after.FindsOnce resolved found := by
  refine ⟨fun a b reason => ?_, ?_⟩
  · rw [hfindings, compared_congr hpartners]
    exact h.finds a b reason
  · rw [hfindings]
    exact h.nodup

end Memo

/-- Comparing two fields finds one conflict at most. -/
theorem ResolvedGraph.nodup_findings (resolved : ResolvedGraph) (a b : FieldId) :
    (resolved.findings a b).Nodup := by
  unfold findings
  cases resolved.conflict? a b <;> simp

namespace Check

variable {resolved : ResolvedGraph} {memo after : Memo} {found : List Finding}

/-- A pair whose conflict was found counts as compared, so it is not found again. -/
theorem preserves_comparePair (a b : FieldId) :
    Preserves (Memo.FindsOnce resolved found) (comparePair resolved a b) := by
  intro memo _ after hmemo h
  refine ⟨(comparePair_returns h).2.2 hmemo.finds, ?_⟩
  obtain ⟨rfl, -⟩ | ⟨-, hnew, log, rfl⟩ := comparePair_cases h
  · exact hmemo.nodup
  · change (found ++ (memo.findings ++ resolved.findings _ _)).Nodup
    rw [← List.append_assoc]
    refine hmemo.nodup.append (resolved.nodup_findings _ _) fun finding hold hfound => ?_
    obtain ⟨-, hfirst, hsecond⟩ := ResolvedGraph.mem_findings.1 hfound
    have hcompared := ((hmemo.finds _ _ _).1 hold).1
    rw [hfirst, hsecond] at hcompared
    exact hnew hcompared

theorem preserves_compareGroup (pass : Pass) (id : SetId) :
    Preserves (Memo.FindsOnce resolved found) (compareGroup resolved pass id) := by
  unfold compareGroup
  refine (preserves_entry id).bind fun entry => ?_
  split
  · exact preserves_pure ()
  refine Preserves.bind ?_ fun _ => Preserves.bind ?_ fun _ => Preserves.bind ?_ fun _ => ?_
  · exact preserves_modify fun _ hmemo => hmemo.congr rfl rfl
  · exact preserves_modify fun _ hmemo => hmemo.congr rfl rfl
  · intro memo _ after hmemo h
    rw [readGroup_returns h]
    exact hmemo
  · exact Preserves.forM (fun (pair : FieldId × FieldId) => preserves_comparePair pair.1 pair.2) _

/-- No pass finds a pair twice, nor one that was found under an earlier root. -/
theorem findsOnce_follow (pass : Pass) (depth : Nat) (id : SetId) :
    Preserves (Memo.FindsOnce resolved found) (follow resolved pass depth id) := by
  refine preserves_follow ⟨fun set => ?_, fun id change _ _ _ => ?_⟩ (fun id => ?_)
    (preserves_compareGroup pass) depth id
  · exact preserves_lookup (fun _ hmemo => hmemo.congr rfl rfl) fun _ _ hmemo => hmemo.congr rfl rfl
  · exact preserves_modify fun _ hmemo => hmemo.congr rfl rfl
  · exact preserves_modify fun _ hmemo => hmemo.congr rfl rfl

/-- What is found under a root is new, and it is in the order of the document. -/
theorem checkRoot_sorted {roots : List ContainerId} {root : ContainerId} {new : List Finding}
    (hmemo : memo.Checked resolved roots found) (hfound : found.Nodup)
    (h : Returns (checkRoot resolved root) memo new after) :
    (found ++ new).Nodup ∧ new.Pairwise fun x y => x.before y = true := by
  obtain ⟨id, looked, middle, hlookup, hshapes, hcalls, rfl⟩ := checkRoot_cases h
  have hnone : Memo.Checked resolved roots found { memo.note (.checking root) with findings := [] } :=
    hmemo.congr rfl rfl
  have hstart : Memo.FindsOnce resolved found { memo.note (.checking root) with findings := [] } :=
    ⟨(hnone.exact rfl).finds, by simpa using hfound⟩
  have hlooked : looked.FindsOnce resolved found :=
    preserves_lookup (fun _ hmemo => hmemo.congr rfl rfl) (fun _ _ hmemo => hmemo.congr rfl rfl)
      _ _ _ hstart hlookup
  have hfinal := findsOnce_follow _ _ _ _ _ _ (findsOnce_follow _ _ _ _ _ _ hlooked hshapes) hcalls
  refine ⟨(perm_sortBy.append_left found).nodup_iff.2 hfinal.nodup, ?_⟩
  apply pairwise_sortBy Finding.before_trans
  refine hfinal.nodup.of_append_right.imp_of_mem fun {x y} hx hy hne => Finding.before_or_before fun hpair => hne ?_
  exact hfinal.finds.eq_of_pair (List.mem_append_right found hx) (List.mem_append_right found hy) hpair

end Check

/-- What is reported under a root that is checked after those `before`: in the order of the document, what is
found from this root and from none before it. -/
structure Segment {ρ : Type} (finds : ρ → Finding → Prop) (before : List ρ) (root : ρ)
    (segment : List Finding) : Prop where
  sorted : segment.Pairwise fun x y => toLex x.pair < toLex y.pair
  mem_iff : ∀ finding, finding ∈ segment ↔ finds root finding ∧ ∀ earlier ∈ before, ¬ finds earlier finding

/-- What is reported under roots that are checked one after the other, after those `before`. -/
inductive Segments {ρ : Type} (finds : ρ → Finding → Prop) : List ρ → List ρ → List (List Finding) → Prop where
  | nil {before : List ρ} : Segments finds before [] []
  | cons {before roots : List ρ} {root : ρ} {segment : List Finding} {segments : List (List Finding)} :
    Segment finds before root segment → Segments finds (before ++ [root]) roots segments →
      Segments finds before (root :: roots) (segment :: segments)

/-- Roots from which the same is found have the same segments. -/
theorem Segments.transfer {ρ ρ' : Type} {finds : ρ → Finding → Prop} {finds' : ρ' → Finding → Prop}
    {before roots : List ρ} {before' roots' : List ρ'} {segments : List (List Finding)}
    (h : Segments finds' before' roots' segments)
    (hbefore : List.Forall₂ (fun root root' => ∀ finding, finds root finding ↔ finds' root' finding) before before')
    (hroots : List.Forall₂ (fun root root' => ∀ finding, finds root finding ↔ finds' root' finding) roots roots') :
    Segments finds before roots segments := by
  induction h generalizing before roots with
  | nil =>
    obtain rfl := List.forall₂_nil_right_iff.1 hroots
    exact .nil
  | cons hsegment _ ih =>
    obtain ⟨root, rest, hroot, hrest, rfl⟩ := List.forall₂_cons_right_iff.1 hroots
    refine .cons ⟨hsegment.sorted, fun finding => ?_⟩ (ih (List.rel_append hbefore (.cons hroot .nil)) hrest)
    have hearlier := exists_mem_iff_of_forall₂ (hbefore.imp fun _ _ hsame => hsame finding)
    rw [hsegment.mem_iff, hroot]
    refine and_congr_right fun _ => ?_
    constructor
    · intro hnone earlier hmem hfinds
      obtain ⟨earlier', hmem', hfinds'⟩ := hearlier.1 ⟨earlier, hmem, hfinds⟩
      exact hnone earlier' hmem' hfinds'
    · intro hnone earlier hmem hfinds
      obtain ⟨earlier', hmem', hfinds'⟩ := hearlier.2 ⟨earlier, hmem, hfinds⟩
      exact hnone earlier' hmem' hfinds'

namespace Memo.Checked

variable {resolved : ResolvedGraph} {memo after : Memo} {found new : List Finding}
variable {roots : List ContainerId} {root : ContainerId}

/-- What a root adds is found under no root before, so it is the segment of the root. -/
theorem segment (h : memo.Checked resolved roots found)
    (hafter : after.Checked resolved (roots ++ [root]) (found ++ new)) (hnodup : (found ++ new).Nodup)
    (hsorted : new.Pairwise fun x y => x.before y = true) : Segment resolved.Finds roots root new := by
  refine ⟨hsorted.imp Finding.before_iff.1, fun finding => ?_⟩
  have hall := hafter.mem_iff finding
  rw [List.mem_append, Check.exists_root_append] at hall
  constructor
  · intro hnew
    have hnot : finding ∉ found := fun hfound => List.disjoint_of_nodup_append hnodup hfound hnew
    have hnone : ¬ ∃ earlier ∈ roots, resolved.Finds earlier finding :=
      fun hearlier => hnot ((h.mem_iff finding).2 hearlier)
    exact ⟨(hall.1 (.inr hnew)).resolve_left hnone, fun earlier hmem hfinds => hnone ⟨earlier, hmem, hfinds⟩⟩
  · rintro ⟨hfinds, hnone⟩
    refine (hall.2 (.inr hfinds)).resolve_left fun hfound => ?_
    obtain ⟨earlier, hmem, hearlier⟩ := (h.mem_iff finding).1 hfound
    exact hnone earlier hmem hearlier

end Memo.Checked

namespace Check

variable {resolved : ResolvedGraph} {memo after : Memo} {found : List Finding}

/-- Roots that are checked one after the other report their segments. -/
theorem mapM_checkRoot_segments {checked roots : List ContainerId} {results : List (List Finding)}
    (hmemo : memo.Checked resolved checked found) (hfound : found.Nodup)
    (h : Returns (roots.mapM (checkRoot resolved)) memo results after) :
    Segments resolved.Finds checked roots results ∧ (found ++ results.flatten).Nodup := by
  induction roots generalizing memo checked found results with
  | nil =>
    rw [List.mapM_nil] at h
    obtain ⟨rfl, rfl⟩ := returns_pure.1 h
    exact ⟨.nil, by simpa using hfound⟩
  | cons root roots ih =>
    rw [List.mapM_cons] at h
    obtain ⟨new, middle, hfirst, h⟩ := returns_bind.1 h
    obtain ⟨rest, final, hrest, h⟩ := returns_bind.1 h
    obtain ⟨rfl, rfl⟩ := returns_pure.1 h
    have hmiddle := checkRoot_returns hmemo hfirst
    obtain ⟨hnodup, hsorted⟩ := checkRoot_sorted hmemo hfound hfirst
    obtain ⟨hsegments, hlater⟩ := ih hmiddle hnodup hrest
    refine ⟨.cons (hmemo.segment hmiddle hnodup hsorted) hsegments, ?_⟩
    rw [List.flatten_cons, ← List.append_assoc]
    exact hlater

end Check

/-- A check that no defect stops reports the segments of the roots, and no pair of fields twice. -/
theorem ResolvedGraph.check_segments {resolved : ResolvedGraph} {segments : List (List Finding)}
    (h : resolved.check.1 = .ok segments) :
    Segments resolved.Finds [] resolved.graph.roots segments ∧ (segments.flatten.map Finding.pair).Nodup := by
  obtain ⟨after, hroots⟩ := ResolvedGraph.exists_returns_of_check h
  obtain ⟨hsegments, hnodup⟩ := Check.mapM_checkRoot_segments resolved.checked_opening .nil hroots
  have hchecked := Check.mapM_checkRoot_returns resolved.checked_opening hroots
  exact ⟨hsegments, hnodup.map_on fun x hx y hy => hchecked.finds.eq_of_pair hx hy⟩

/-- **Order and attribution.** The conflicts of a document report what its check finds, and these are the
segments of its roots, one after the other: the roots are the operations and the fragments in the order of the
document, each fragment where it is first defined. A segment is in the order of the document, by the first
field of a conflict, which precedes the second, and then by the second; and it has the conflicts that its root
is the first to lead to, without memo and marks. No two fields are reported twice, and both have the response
key that is reported. -/
theorem conflicts_are_segmented {schema : Schema} {definitions : List Definition}
    {conflicts : List Conflict} (h : validate schema definitions = .ok conflicts) :
    ∃ graph segments, SelectionGraph.ofDocument schema definitions = .ok graph ∧
      graph.resolved.check.1 = .ok segments ∧
      List.Forall₂ (Conflict.Reports (occurrences schema definitions)) conflicts segments.flatten ∧
      Segments (Content.Finds schema definitions) [] (documentRoots definitions) segments ∧
      (segments.flatten.map Finding.pair).Nodup := by
  obtain ⟨graph, segments, memo, hgraph, hfound, -, hreports⟩ := validate_attributed h
  have hexpanded := SelectionGraph.expanded_ofDocument hgraph
  obtain ⟨hsegments, hnodup⟩ := ResolvedGraph.check_segments hfound
  exact ⟨graph, segments, hgraph, hfound, hreports, hsegments.transfer .nil hexpanded.forall₂_finds, hnodup⟩

/-- A fragment that selects `a` and `b` as `x`, and a query that spreads it and selects `next` as `x`
besides. -/
def sharedDocument : List Definition :=
  [.fragment ⟨⟨"F", Eq.refl true⟩, ⟨"Query", Eq.refl true⟩,
    [.field ⟨some ⟨"x", Eq.refl true⟩, ⟨"a", Eq.refl true⟩, [], none⟩ [],
     .field ⟨some ⟨"x", Eq.refl true⟩, ⟨"b", Eq.refl true⟩, [], none⟩ []]⟩,
   .operation ⟨.query, none,
    [.spread ⟨"F", Eq.refl true⟩,
     .field ⟨some ⟨"x", Eq.refl true⟩, ⟨"next", Eq.refl true⟩, [], none⟩ []]⟩]

/-- The query leads to both conflicts, and the one within the fragment is reported under the fragment. -/
theorem shared_conflict_in_first_segment : ∃ conflicts, ∃ segments : List (List Finding),
    validate loopSchema sharedDocument = .ok conflicts ∧
    List.Forall₂ (Conflict.Reports (occurrences loopSchema sharedDocument)) conflicts segments.flatten ∧
    Segments (Content.Finds loopSchema sharedDocument) [] (documentRoots sharedDocument) segments ∧
    segments = [[⟨0, 1, .differentFieldName⟩], [⟨1, 2, .differentFieldName⟩]] := by
  have hlength : (validate loopSchema sharedDocument).toOption.map List.length = some 2 := by
    decide +kernel
  have hcheck : (SelectionGraph.ofDocument loopSchema sharedDocument).toOption.bind
      (fun graph => graph.resolved.check.1.toOption) =
        some [[⟨0, 1, .differentFieldName⟩], [⟨1, 2, .differentFieldName⟩]] := by
    decide +kernel
  obtain ⟨conflicts, hvalidate, -⟩ := exists_validate_eq hlength
  obtain ⟨graph, segments, hgraph, hfound, hreports, hsegments, -⟩ := conflicts_are_segmented hvalidate
  refine ⟨conflicts, segments, hvalidate, hreports, hsegments, ?_⟩
  rw [hgraph] at hcheck
  change graph.resolved.check.1.toOption = _ at hcheck
  rw [hfound] at hcheck
  exact Option.some.inj hcheck

end SelectionMerge
