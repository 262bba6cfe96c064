import SelectionMerge.Proofs.Check.Deepening
import SelectionMerge.Proofs.Merge.Renumbering
import SelectionMerge.Proofs.Reach.Turns

/-!
# Checks come to an end

Fragments may contain themselves below a field, and then the selections that a document stands for never
end. The work of a check does: roots are resolved by worklists that come to their end, and the passes come
to a result whatever the memo holds when they begin. No set is expanded twice in a phase and no group
compared twice, which the journal of the whole check says. The main statement is `document_terminates`.
-/

namespace SelectionMerge
set_option autoImplicit false

namespace SelectionGraph

/-- What a pass comes to on a memo does not depend on how deep it may go: it has one result at all depths
from a certain one on, and there it has not run out of depth. -/
def Settles (pass : Nat → SetId → Check Unit) (id : SetId) (memo : Memo) : Prop :=
  ∃ (enough : Nat) (result : Except Defect Unit × Memo), result.1 ≠ .error .depthExhausted ∧
    ∀ depth, enough ≤ depth → (pass depth id).runOn memo = result

/-- The journal of the whole check of a graph. -/
structure Accounted (resolved : ResolvedGraph) (journal : Journal) : Prop where
  /-- The check with this journal is the check itself. -/
  runs : (Journaled.checkRoots resolved).runOn Memo.empty Journal.empty =
    (resolved.check.1, resolved.check.2, journal)
  /-- Each set is expanded once in a phase, at most. -/
  expandedOnce : journal.expanded.Nodup
  /-- Each group is compared once in a phase, at most. -/
  comparedOnce : journal.compared.Nodup
  /-- The calls begin with sets that were looked up, in memos that arise. -/
  calls : ∀ call ∈ journal.calls, call.2.Arises resolved ∧ ∃ set, call.2.fields? call.1 = some set

/-- The work on a graph comes to an end. -/
structure Terminates (graph : SelectionGraph) : Prop where
  /-- Whatever was resolved before, the worklist of a container is emptied. -/
  resolves : ∀ (earlier : List ContainerId) (root : ContainerId),
    (∀ id ∈ earlier, id < graph.containers.size) → root < graph.containers.size →
      Empties graph [root] (graph.marksAfter earlier) (graph.resolve (graph.marksAfter earlier) root)
  /-- Each pass comes to a result from every set that was looked up, in every memo that arises. -/
  passes : ∀ (pass : Pass) (memo : Memo) (id : SetId) (set : List FieldId), memo.Arises graph.resolved →
    memo.fields? id = some set → Settles (Check.followPass graph.resolved pass) id memo
  /-- The check itself does not run out of depth. -/
  check : graph.resolved.check.1 ≠ .error .depthExhausted
  accounted : ∃ journal, Accounted graph.resolved journal

variable {graph : SelectionGraph} {schema : Schema} {definitions : List Definition}

theorem Represents.settles (h : Represents schema definitions graph) (pass : Pass) {memo : Memo} {id : SetId}
    {set : List FieldId} (harises : memo.Arises graph.resolved) (hset : memo.fields? id = some set) :
    Settles (Check.followPass graph.resolved pass) id memo := by
  rw [Check.followPass_eq]
  exact ⟨_, Check.exists_follow_eq h.wellFormed h.shape_ne_depthExhausted harises hset pass⟩

/-- A check keeps a journal in which nothing is done twice. -/
theorem WellFormed.exists_accounted {resolved : ResolvedGraph} (h : resolved.graph.WellFormed) :
    ∃ journal, Accounted resolved journal := by
  have hfollows := Journaled.checkRoots_follows resolved Memo.empty Journal.empty
  have hright := (Journaled.safe_checkRoots h (Journal.right_empty .empty)).right
  rcases hrun : (Journaled.checkRoots resolved).runOn Memo.empty Journal.empty with ⟨result, memo, journal⟩
  rw [hrun] at hfollows hright
  have hresult : result = resolved.check.1 := congrArg Prod.fst hfollows
  have hmemo : memo = resolved.check.2 := congrArg Prod.snd hfollows
  refine ⟨journal, ?_, hright.expanded, hright.compared, hright.calls⟩
  rw [hrun, hresult, hmemo]

/-- **Termination.** Every document has a graph on which all work comes to an end, on circles of fragments
as well: resolving any container after any others, each pass from any set in any memo that arises, and the
whole check, which expands no set and compares no group twice in a phase. -/
theorem document_terminates (schema : Schema) (definitions : List Definition) :
    ∃ graph, ofDocument schema definitions = .ok graph ∧ graph.Terminates := by
  have hgraph := ofDocument_eq schema definitions
  have hrepresents := represents_ofDocument hgraph
  refine ⟨_, hgraph, ?_⟩
  exact {
    resolves := fun _ _ hearlier hroot => resolve_empties hrepresents.wellFormed.inRange hearlier hroot
    passes := fun pass _ _ _ harises hset => hrepresents.settles pass harises hset
    check := hrepresents.check_ne_depthExhausted
    accounted := WellFormed.exists_accounted hrepresents.wellFormed
  }

end SelectionGraph

end SelectionMerge
