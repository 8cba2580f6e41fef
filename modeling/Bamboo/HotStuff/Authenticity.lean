import Bamboo.HotStuff.Record
import Bamboo.HotStuff.Range

/-! What the blocks that get a vote are. Between the arrival of a proposal and the
vote for its block only the leader is checked with an effect: the proposer's
signature is verified but the result is not used, the identifier is not computed
again, and nothing compares the block's parent with the block its certificate is
for. The results therefore need these facts of the blocks themselves. They are about
runs whose views stay below the largest `int64`, where no view wraps around and the
checks against the current view mean what they say. -/
namespace Bamboo

open Library

/-- The identifier that `MakeID` gives to a proposal with the block's fields. -/
def Block.makeID (hash : RawProposal → Identifier) (block : Block) : Identifier :=
  hash {
    view := block.view, qc := block.qc, proposer := block.proposer,
    payload := block.payload.generateHashList, prevID := block.prevID }

/-- The block has the identifier of its contents, signed by its proposer. -/
def Block.Authentic (cfg : Config) (block : Block) : Prop :=
  cfg.keys.Valid block.sig block.id block.proposer ∧ block.id = block.makeID cfg.hash

instance (cfg : Config) (block : Block) : Decidable (block.Authentic cfg) :=
  inferInstanceAs (Decidable (_ ∧ _))

namespace HotStuff

/-- If every call of a run is for a block above all earlier votes, or cannot
vote, then the views of the votes are strictly increasing. -/
theorem votes_strictly_increasing (cfg : Config) (id : NodeID) (n : Nat) (events : List Event)
    (hs : HotStuff) (hRun : run (step cfg) (new id false n) events = .ok hs)
    (hRange : ∀ e ∈ events, e.InRange) (hCalls : ∀ call ∈ hs.calls, call.Fresh cfg) :
    hs.votedViews.Pairwise (· < ·) ∧ hs.pm.curView < maxInt64 := by
  have hRecorded := run_recorded hRun
  refine ⟨?_, run_curView hRange hRun⟩
  unfold votedViews
  rw [List.pairwise_map, List.pairwise_iff_getElem]
  intro i j hi hj hij
  -- split the log at the later vote
  have hSplit : hs.voteLog = hs.voteLog.take j ++ hs.voteLog[j] :: hs.voteLog.drop (j + 1) := by
    rw [List.getElem_cons_drop, List.take_append_drop]
  refine hRecorded.fresh hCalls hSplit _ ?_
  exact List.mem_take_iff_getElem.mpr ⟨i, by omega, rfl⟩

theorem votes_strictly_increasing_two_views :
    ∃ hs, run (step (Scenario.config fun _ => "1")) (new "2" false 4)
        [.block (Scenario.block 1 1 0), .block (Scenario.block 2 2 1)] = .ok hs ∧
      hs.votedViews = [1, 2] ∧ hs.votedViews.Pairwise (· < ·) := by
  obtain ⟨hs, hRun, hCalls, hViews⟩ := Outcome.of_test
    (x := run (step (Scenario.config fun _ => "1")) (new "2" false 4)
      [.block (Scenario.block 1 1 0), .block (Scenario.block 2 2 1)])
    (P := fun hs => (∀ call ∈ hs.calls, call.Fresh (Scenario.config fun _ => "1")) ∧
      hs.votedViews = [1, 2]) (by decide)
  exact ⟨hs, hRun, hViews, (votes_strictly_increasing _ _ _ _ hs hRun (by decide) hCalls).1⟩

/-- The leader of view 1 sends two blocks, and both are voted for. -/
theorem equivocation_gets_two_votes :
    ∃ hs, run (step (Scenario.config fun _ => "1")) (new "2" false 4)
        [.block (Scenario.block 1 1 0), .block (Scenario.block 2 1 0)] = .ok hs ∧
      ¬hs.votedViews.Pairwise (· < ·) :=
  Outcome.of_test (by decide)

/-- If every block that gets as far as the voting rule is authentic, then so is
every block that is voted for, and its proposer leads its view. -/
theorem votes_authentic (cfg : Config) (id : NodeID) (n : Nat) (events : List Event)
    (hs : HotStuff) (hRun : run (step cfg) (new id false n) events = .ok hs)
    (hRange : ∀ e ∈ events, e.InRange)
    (hCalls : ∀ call ∈ hs.calls, call.block.Authentic cfg ∨ call.Stopped cfg) :
    (∀ record ∈ hs.voteLog,
      cfg.election.isLeader record.block.proposer record.block.view = true ∧
        cfg.keys.Valid record.block.sig record.block.id record.block.proposer ∧
        record.block.id = record.block.makeID cfg.hash) ∧
      hs.pm.curView < maxInt64 := by
  have hRecorded := run_recorded hRun
  refine ⟨?_, run_curView hRange hRun⟩
  intro record hRecord
  obtain ⟨call, hCall, hBlock, _, hPassed⟩ := hRecorded.vote_call hRecord
  have hLeader := (hRecorded.sound record hRecord).leader
  rcases hCalls call hCall with hAuthentic | hStopped
  · rw [hBlock] at hAuthentic
    exact ⟨hLeader, hAuthentic⟩
  · exact absurd hStopped hPassed

theorem votes_authentic_one_block :
    ∃ hs, run (step (Scenario.config fun _ => "1")) (new "2" false 4)
        [.block (Scenario.block 1 1 0)] = .ok hs ∧
      hs.votedViews = [1] ∧ ∀ record ∈ hs.voteLog,
        (Scenario.config fun _ => "1").election.isLeader record.block.proposer
          record.block.view = true ∧
        Scenario.keys.Valid record.block.sig record.block.id record.block.proposer ∧
        record.block.id = record.block.makeID (Scenario.config fun _ => "1").hash := by
  obtain ⟨hs, hRun, hCalls, hViews⟩ := Outcome.of_test
    (x := run (step (Scenario.config fun _ => "1")) (new "2" false 4)
      [.block (Scenario.block 1 1 0)])
    (P := fun hs => (∀ call ∈ hs.calls, call.block.Authentic (Scenario.config fun _ => "1") ∨
      call.Stopped (Scenario.config fun _ => "1")) ∧ hs.votedViews = [1]) (by decide)
  exact ⟨hs, hRun, hViews, (votes_authentic _ _ _ _ hs hRun (by decide) hCalls).1⟩

/-- A block with the leader's name and a signature that nobody made gets a vote. -/
theorem forged_signature_gets_vote :
    ∃ hs, run (step (Scenario.config fun _ => "1")) (new "2" false 4)
        [.block { Scenario.block 1 1 0 with sig := [[9], [9]] }] = .ok hs ∧
      ∃ record ∈ hs.voteLog,
        ¬Scenario.keys.Valid record.block.sig record.block.id record.block.proposer :=
  Outcome.of_test (by decide)

end HotStuff

/-- The parent that `GetParentBlock` finds for an identifier. -/
def Snapshot.parent (s : Snapshot) (id : Identifier) : Option BlockContainer :=
  (s.forest.getVertex id).bind fun own => s.forest.getVertex own.block.prevID

/-- The block points to the block its certificate is for, and when the call is
entered, what is stored under the identifiers of the two agrees with that: a
parent is in the certificate's view or below the lock, a block of the same
identifier has the same parent, and a block that is its own parent is in its
certificate's view. -/
def Call.Extends (call : Call) : Prop :=
  ∀ qc ∈ call.block.qc, call.block.prevID = qc.blockID ∧
    (∀ parent ∈ call.entry.forest.getVertex call.block.prevID,
      parent.block.view = qc.view ∨ parent.block.view < call.entry.preferredView) ∧
    (∀ own ∈ call.entry.forest.getVertex call.block.id,
      own.block.prevID = call.block.prevID) ∧
    (call.block.prevID = call.block.id → call.block.view = qc.view)

instance (call : Call) : Decidable call.Extends :=
  inferInstanceAs (Decidable (∀ qc ∈ call.block.qc, _))

/-- The vote is for a block on top of the block its certificate is for: it points
to that block, and the parent stored when the vote is made is in its view. -/
def VoteRecord.Extends (r : VoteRecord) : Prop :=
  ∃ qc ∈ r.block.qc, r.block.prevID = qc.blockID ∧
    ∃ parent ∈ r.cast.parent r.block.id, parent.block.view = qc.view

instance (r : VoteRecord) : Decidable r.Extends :=
  inferInstanceAs (Decidable (∃ qc ∈ r.block.qc, _))

/-- What was stored at the entry decides which parent the vote is based on. -/
theorem VoteRecord.Sound.extends {cfg : Config} {id : NodeID} {r : VoteRecord} {call : Call}
    (h : r.Sound cfg id) (hBlock : call.block = r.block) (hEntry : call.entry = r.entry)
    (hView : 2 < r.block.view) (hExtends : call.Extends) : r.Extends := by
  obtain ⟨qc, hQC⟩ := h.certified
  unfold Call.Extends at hExtends
  rw [hBlock, hEntry] at hExtends
  obtain ⟨hPrev, hParents, hOwns, hLoop⟩ := hExtends qc hQC
  obtain ⟨own, parent, hOwn, hParent, hLock⟩ := h.rule hView
  have hSame : own.block.prevID = r.block.prevID := by
    rcases h.kept _ own hOwn with hOld | ⟨_, hNew⟩
    · exact hOwns own hOld
    · rw [hNew]
  have hParentView : parent.block.view = qc.view := by
    rw [hSame] at hParent
    rcases h.kept _ parent hParent with hOld | ⟨hId, hNew⟩
    · have hLe : r.entry.preferredView ≤ r.cast.preferredView :=
        h.entry_accept.lock_le.trans h.accept_cast.lock_le
      rcases hParents parent hOld with hEq | hBelow
      · exact hEq
      · exact absurd (hLe.trans hLock) (not_le.mpr hBelow)
    · rw [hNew]
      exact hLoop hId
  exact ⟨qc, hQC, hPrev, parent, Option.bind_eq_some_iff.mpr ⟨own, hOwn, hParent⟩, hParentView⟩

namespace HotStuff

/-- If every block above view 2 that gets as far as the voting rule extends the
block its certificate is for, then so does every such block that is voted for. -/
theorem votes_extend_certified (cfg : Config) (id : NodeID) (n : Nat) (events : List Event)
    (hs : HotStuff) (hRun : run (step cfg) (new id false n) events = .ok hs)
    (hRange : ∀ e ∈ events, e.InRange)
    (hCalls : ∀ call ∈ hs.calls, call.Extends ∨ call.block.view ≤ 2 ∨ call.Stopped cfg) :
    (∀ record ∈ hs.voteLog, 2 < record.block.view → record.Extends) ∧
      hs.pm.curView < maxInt64 := by
  have hRecorded := run_recorded hRun
  refine ⟨?_, run_curView hRange hRun⟩
  intro record hRecord hView
  obtain ⟨call, hCall, hBlock, hEntry, hPassed⟩ := hRecorded.vote_call hRecord
  have hSound := hRecorded.sound record hRecord
  rcases hCalls call hCall with hExtends | hEarly | hStopped
  · exact hSound.extends hBlock hEntry hView hExtends
  · rw [hBlock] at hEarly
    exact absurd hView (not_lt.mpr hEarly)
  · exact absurd hStopped hPassed

theorem votes_extend_certified_three_views :
    ∃ hs, run (step (Scenario.config fun _ => "1")) (new "2" false 4)
        [.block (Scenario.block 1 1 0), .block (Scenario.block 2 2 1),
          .block (Scenario.block 3 3 2)] = .ok hs ∧
      hs.votedViews = [1, 2, 3] ∧
      ∀ record ∈ hs.voteLog, 2 < record.block.view → record.Extends := by
  obtain ⟨hs, hRun, hCalls, hViews⟩ := Outcome.of_test
    (x := run (step (Scenario.config fun _ => "1")) (new "2" false 4)
      [.block (Scenario.block 1 1 0), .block (Scenario.block 2 2 1),
        .block (Scenario.block 3 3 2)])
    (P := fun hs => (∀ call ∈ hs.calls, call.Extends ∨ call.block.view ≤ 2 ∨
      call.Stopped (Scenario.config fun _ => "1")) ∧ hs.votedViews = [1, 2, 3]) (by decide)
  exact ⟨hs, hRun, hViews, (votes_extend_certified _ _ _ _ hs hRun (by decide) hCalls).1⟩

/-- A block of view 3 with the certificate of the block of view 2 is voted for
although it is built on the block of view 1. -/
theorem fork_behind_certificate_gets_vote :
    ∃ hs, run (step (Scenario.config fun _ => "1")) (new "2" false 4)
        [.block (Scenario.block 1 1 0), .block (Scenario.block 2 2 1),
          .block { Scenario.block 3 3 2 with prevID := 1 }] = .ok hs ∧
      ∃ record ∈ hs.voteLog, 2 < record.block.view ∧ ¬record.Extends :=
  Outcome.of_test (by decide)

end HotStuff
end Bamboo
