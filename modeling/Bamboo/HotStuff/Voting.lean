import Bamboo.HotStuff.Frame

/-! `ProcessBlock` and the votes it makes. One pass through the handler, without
its call to itself, is a `Turn`; a whole call is a sequence of turns, and invariants
are proved by induction over it. The main result is `vote_sound`, which says what
a vote was based on. -/
namespace Bamboo

open Library LockedVoting

namespace HotStuff

theorem processBlockQC_quiet {cfg : Config} {hs hs' : HotStuff} {block : Block} {qc : QC}
    (h : hs.processBlockQC cfg block qc = .ok hs') : hs.Quiet hs' := by
  unfold processBlockQC at h
  split_ifs at h
  · cases Outcome.pure_eq_ok.mp h
    exact updateHighQC_quiet hs qc
  · exact (updateHighQC_quiet hs qc).trans (processCertificate_quiet h)

/-- Storing a block adds it and then at most processes the certificate that has
been waiting for it. -/
theorem storeBlock_spec {cfg : Config} {hs hs' : HotStuff} {container : BlockContainer}
    (h : hs.storeBlock cfg container = .ok hs') :
    ∃ middle, (middle = { hs with bc := hs.bc.addBlock container } ∨
        ∃ qc, hs.bufferedQCs.lookup container.block.id = some qc ∧
          processCertificate cfg { hs with bc := hs.bc.addBlock container } qc = .ok middle) ∧
      hs' = { middle with bufferedQCs := hs'.bufferedQCs } ∧
      ∀ id qc, hs'.bufferedQCs.lookup id = some qc → middle.bufferedQCs.lookup id = some qc := by
  unfold storeBlock at h
  dsimp only at h
  split at h
  · cases Outcome.pure_eq_ok.mp h
    exact ⟨_, Or.inl rfl, rfl, fun _ _ hLookup => hLookup⟩
  · next qc hBuffered =>
      obtain ⟨middle, hCertificate, hDone⟩ := Outcome.bind_eq_ok.mp h
      cases Outcome.pure_eq_ok.mp hDone
      exact ⟨middle, Or.inr ⟨qc, hBuffered, hCertificate⟩, rfl, fun _ _ hLookup =>
        Table.of_lookup_erase hLookup⟩

theorem storeBlock_quiet {cfg : Config} {hs hs' : HotStuff} {container : BlockContainer}
    (h : hs.storeBlock cfg container = .ok hs') :
    Quiet { hs with bc := hs.bc.addBlock container } hs' := by
  obtain ⟨middle, hMiddle, hFrame, _⟩ := storeBlock_spec h
  have hLast : middle.Quiet hs' := by
    rw [hFrame]
    exact ⟨⟨rfl, .refl _, .refl _, fun h => h, rfl⟩, .refl _, rfl⟩
  rcases hMiddle with rfl | ⟨qc, _, hCertificate⟩
  · exact hLast
  · exact (processCertificate_quiet hCertificate).trans hLast

/-- The ways in which the part of `ProcessBlock` before the vote can end. -/
theorem takeUp_cases {cfg : Config} {hs hs' : HotStuff} {block : Block} {verdict : Verdict}
    (h : hs.takeUp cfg block = .ok (hs', verdict)) :
    (hs.pm.curView + 1 < block.view ∧ (∃ result, verdict = .returns result) ∧
      hs' = { hs with bufferedBlocks := hs.bufferedBlocks.insert (block.view - 1) block }) ∨
    (block.view ≤ hs.pm.curView + 1 ∧ block.qc = none ∧ (∃ result, verdict = .returns result) ∧
      hs' = hs) ∨
    ∃ qc, ∃ hQC : block.qc = some qc, block.view ≤ hs.pm.curView + 1 ∧
      ∃ admitted, hs.processBlockQC cfg block qc = .ok admitted ∧
        (((∃ result, verdict = .returns result) ∧ hs' = admitted) ∨
          (admitted.pm.curView ≤ block.view ∧
            cfg.election.isLeader block.proposer block.view = true ∧
            admitted.storeBlock cfg ⟨block, qc, hQC⟩ = .ok hs' ∧
            ((∃ result, verdict = .returns result) ∨
              (verdict = .votes admitted.snapshot ∧ hs'.votingRule block = some true)))) := by
  obtain ⟨_, _, hRest⟩ := Outcome.bind_eq_ok.mp h
  by_cases hAhead : hs.pm.curView + 1 < block.view
  · rw [if_pos hAhead] at hRest
    cases Outcome.pure_eq_ok.mp hRest
    exact Or.inl ⟨hAhead, ⟨_, rfl⟩, rfl⟩
  rw [if_neg hAhead] at hRest
  refine Or.inr ?_
  split at hRest
  · next hQC =>
      cases Outcome.pure_eq_ok.mp hRest
      exact Or.inl ⟨not_lt.mp hAhead, hQC, ⟨_, rfl⟩, rfl⟩
  next qc hQC =>
    refine Or.inr ⟨qc, hQC, not_lt.mp hAhead, ?_⟩
    obtain ⟨admitted, hAdmitted, hRest⟩ := Outcome.bind_eq_ok.mp hRest
    refine ⟨admitted, hAdmitted, ?_⟩
    by_cases hStale : block.view < admitted.pm.curView
    · rw [if_pos hStale] at hRest
      cases Outcome.pure_eq_ok.mp hRest
      exact Or.inl ⟨⟨_, rfl⟩, rfl⟩
    rw [if_neg hStale] at hRest
    by_cases hLeader : cfg.election.isLeader block.proposer block.view = false
    · rw [if_pos hLeader] at hRest
      cases Outcome.pure_eq_ok.mp hRest
      exact Or.inl ⟨⟨_, rfl⟩, rfl⟩
    rw [if_neg hLeader] at hRest
    obtain ⟨stored, hStored, hRest⟩ := Outcome.bind_eq_ok.mp hRest
    refine Or.inr ⟨not_lt.mp hStale, by simpa using hLeader, ?_⟩
    split at hRest
    · cases Outcome.pure_eq_ok.mp hRest
      exact ⟨hStored, Or.inl ⟨_, rfl⟩⟩
    · cases Outcome.pure_eq_ok.mp hRest
      exact ⟨hStored, Or.inl ⟨_, rfl⟩⟩
    · next hRule =>
        cases Outcome.pure_eq_ok.mp hRest
        exact ⟨hStored, Or.inr ⟨rfl, hRule⟩⟩

/-- One pass through `ProcessBlock`, up to its call to itself. -/
inductive Turn (cfg : Config) (hs : HotStuff) (block : Block) : HotStuff → Prop
  | returned {hs' : HotStuff} {result : Except BlockError Unit}
      (hTaken : (hs.logCall block).takeUp cfg block = .ok (hs', .returns result)) :
      Turn cfg hs block hs'
  | voted {taken hs' : HotStuff} {accept : Snapshot}
      (hTaken : (hs.logCall block).takeUp cfg block = .ok (taken, .votes accept))
      (hCast : taken.castVote cfg
        { block, entry := hs.snapshot, accept, cast := taken.snapshot } = .ok hs') :
      Turn cfg hs block hs'

/-- A whole call of `ProcessBlock`: a turn, followed by the call for the block
that was waiting for the next view. -/
inductive Turns (cfg : Config) : HotStuff → Block → HotStuff → Prop
  | last {hs hs' : HotStuff} {block : Block} (hTurn : Turn cfg hs block hs') :
      Turns cfg hs block hs'
  | nested {hs voted last : HotStuff} {block next : Block} (hTurn : Turn cfg hs block voted)
      (hNext : voted.bufferedBlocks.lookup block.view = some next)
      (hRest : Turns cfg voted next last) :
      Turns cfg hs block { last with bufferedBlocks := last.bufferedBlocks.erase block.view }

theorem processBlockDepth_turns {cfg : Config} {depth : Nat} {hs hs' : HotStuff} {block : Block}
    {result : Except BlockError Unit}
    (h : processBlockDepth cfg depth hs block = .ok (hs', result)) : Turns cfg hs block hs' := by
  induction depth generalizing hs hs' block result with
  | zero => cases h
  | succ depth ih =>
      obtain ⟨⟨taken, verdict⟩, hTaken, hRest⟩ := Outcome.bind_eq_ok.mp h
      cases verdict with
      | returns =>
          cases Outcome.pure_eq_ok.mp hRest
          exact .last (.returned hTaken)
      | votes accept =>
          obtain ⟨voted, hCast, hRest⟩ := Outcome.bind_eq_ok.mp hRest
          split at hRest
          · cases Outcome.pure_eq_ok.mp hRest
            exact .last (.voted hTaken hCast)
          · next next hNext =>
              obtain ⟨⟨last, _⟩, hNested, hDone⟩ := Outcome.bind_eq_ok.mp hRest
              cases Outcome.pure_eq_ok.mp hDone
              exact .nested (.voted hTaken hCast) hNext (ih hNested)

theorem processBlock_turns {cfg : Config} {hs hs' : HotStuff} {block : Block}
    {result : Except BlockError Unit} (h : hs.processBlock cfg block = .ok (hs', result)) :
    Turns cfg hs block hs' :=
  processBlockDepth_turns h

/-- What casting a vote does besides making it. -/
theorem castVote_spec {cfg : Config} {hs hs' : HotStuff} {record : VoteRecord}
    (h : hs.castVote cfg record = .ok hs') :
    ∃ vote, (vote.voter = hs.id ∧ vote.view = record.block.view ∧
        vote.blockID = record.block.id) ∧
      (processVote cfg { hs with voteLog := hs.voteLog ++ [record] } vote = .ok hs' ∨
        ∃ recipient, hs' = send { hs with voteLog := hs.voteLog ++ [record] }
          (.vote recipient vote)) := by
  obtain ⟨vote, hVote, hRest⟩ := Outcome.bind_eq_ok.mp h
  obtain ⟨hView, hVoter, hBlock⟩ := makeVote_ok hVote
  refine ⟨vote, ⟨hVoter, hView, hBlock⟩, ?_⟩
  dsimp only at hRest
  split_ifs at hRest
  · exact Or.inl hRest
  · cases Outcome.pure_eq_ok.mp hRest
    exact Or.inr ⟨_, rfl⟩

end HotStuff

/-- The certificate of a block is not skipped by the replica `id` in state `s`. -/
def Snapshot.Processes (cfg : Config) (id : NodeID) (s : Snapshot) (block : Block) (qc : QC) :
    Prop :=
  block.proposer ≠ id ∧ s.curView ≤ qc.view ∧ cfg.Accepts id qc

/-- What a vote of the replica `id` was based on. -/
structure VoteRecord.Sound (cfg : Config) (id : NodeID) (r : VoteRecord) : Prop where
  reached : r.block.view ≤ r.entry.curView + 1
  current : r.accept.curView ≤ r.block.view
  leader : cfg.election.isLeader r.block.proposer r.block.view = true
  certified : ∃ qc, r.block.qc = some qc
  entry_accept : r.entry.stamp.Precedes r.accept.stamp
  accept_cast : r.accept.stamp.Precedes r.cast.stamp
  kept : ∀ vid v, r.cast.forest.getVertex vid = some v →
    r.entry.forest.getVertex vid = some v ∨ (vid = r.block.id ∧ v.block = r.block)
  rule : 2 < r.block.view → ∃ own parent, r.cast.forest.getVertex r.block.id = some own ∧
    r.cast.forest.getVertex own.block.prevID = some parent ∧
    r.cast.preferredView ≤ parent.block.view
  locked : ∀ qc, r.block.qc = some qc → r.entry.Processes cfg id r.block qc → 2 < qc.view →
    ∀ parent grandparent, r.entry.forest.getVertex qc.blockID = some parent →
      r.entry.forest.getVertex parent.block.prevID = some grandparent →
      grandparent.block.view ≤ r.accept.preferredView

namespace HotStuff

/-- A processed certificate raises the lock to its block's parent. -/
theorem processBlockQC_locks {cfg : Config} {hs admitted : HotStuff} {block : Block} {qc : QC}
    (hHonest : hs.isByz = false) (h : hs.processBlockQC cfg block qc = .ok admitted)
    (hProcesses : hs.snapshot.Processes cfg hs.id block qc) (hView : 2 < qc.view)
    {parent grandparent : BlockContainer}
    (hParent : hs.bc.forrest.getVertex qc.blockID = some parent)
    (hGrandparent : hs.bc.forrest.getVertex parent.block.prevID = some grandparent) :
    grandparent.block.view ≤ admitted.preferredView := by
  obtain ⟨hProposer, hCurrent, hAccepts⟩ := hProcesses
  have hFound : hs.bc.getParentBlock qc.blockID = some grandparent.block := by
    refine BlockChain.getParentBlock_eq_some.mpr ⟨parent.block, ?_, ?_⟩
    · exact BlockChain.getBlockByID_eq_some.mpr ⟨parent, hParent, rfl⟩
    · exact BlockChain.getBlockByID_eq_some.mpr ⟨grandparent, hGrandparent, rfl⟩
  unfold processBlockQC at h
  rw [if_neg hProposer, updateHighQC_eq] at h
  refine processCertificate_locks ?_ h hCurrent hAccepts hView hFound
  exact hHonest

theorem votingRule_eq_true {hs : HotStuff} {block : Block}
    (h : hs.votingRule block = some true) (hView : 2 < block.view) :
    ∃ own parent, hs.bc.forrest.getVertex block.id = some own ∧
      hs.bc.forrest.getVertex own.block.prevID = some parent ∧
      hs.preferredView ≤ parent.block.view := by
  unfold votingRule at h
  rw [if_neg (not_le.mpr hView)] at h
  split at h
  · cases h
  · next parent hParent =>
      have hRule := of_decide_eq_true (Option.some.inj h)
      obtain ⟨own, hOwn, hLink⟩ := BlockChain.getParentBlock_eq_some.mp hParent
      obtain ⟨ownVertex, hOwnVertex, rfl⟩ := BlockChain.getBlockByID_eq_some.mp hOwn
      obtain ⟨parentVertex, hParentVertex, rfl⟩ := BlockChain.getBlockByID_eq_some.mp hLink
      refine ⟨ownVertex, parentVertex, hOwnVertex, hParentVertex, ?_⟩
      exact not_lt.mp (fun hLow => hRule (Or.inr hLow))

/-- Storing a block keeps nothing but old vertices and the block itself. -/
theorem storeBlock_kept {cfg : Config} {hs hs' : HotStuff} {container : BlockContainer}
    (hKeyed : hs.bc.forrest.WellKeyed) (h : hs.storeBlock cfg container = .ok hs')
    {vid : Identifier} {v : BlockContainer} (hv : hs'.bc.forrest.getVertex vid = some v) :
    hs.bc.forrest.getVertex vid = some v ∨ (vid = container.block.id ∧ v = container) := by
  have hAdded := (storeBlock_quiet h).within vid v hv
  obtain ⟨_, _, hVertex⟩ := LevelledForest.addVertex_spec hKeyed container
  have hEq := (hVertex vid).symm.trans hAdded
  split_ifs at hEq with hNew
  · cases hEq
    exact Or.inr ⟨hNew.1, rfl⟩
  · exact Or.inl hEq

/-- The record of a vote is sound when it is made. -/
theorem vote_sound {cfg : Config} {hs taken : HotStuff} {block : Block} {accept : Snapshot}
    (hHonest : hs.isByz = false) (hKeyed : hs.bc.forrest.WellKeyed)
    (h : hs.takeUp cfg block = .ok (taken, .votes accept)) :
    VoteRecord.Sound cfg hs.id
      { block, entry := hs.snapshot, accept, cast := taken.snapshot } := by
  rcases takeUp_cases h with ⟨_, ⟨_, hVerdict⟩, _⟩ | ⟨_, _, ⟨_, hVerdict⟩, _⟩ | hRest
  · cases hVerdict
  · cases hVerdict
  obtain ⟨qc, hQC, hReached, admitted, hAdmitted, hEnd⟩ := hRest
  rcases hEnd with ⟨⟨_, hVerdict⟩, _⟩ | ⟨hCurrent, hLeader, hStored, ⟨_, hVerdict⟩ | hVotes⟩
  · cases hVerdict
  · cases hVerdict
  obtain ⟨hVerdict, hRule⟩ := hVotes
  cases hVerdict
  have hQuiet := processBlockQC_quiet hAdmitted
  exact {
    reached := hReached
    current := hCurrent
    leader := hLeader
    certified := ⟨qc, hQC⟩
    entry_accept := hQuiet.stamp
    accept_cast := (storeBlock_quiet hStored).stamp
    kept := fun vid v hv => by
      rcases storeBlock_kept (hQuiet.keyed hKeyed) hStored hv with hOld | ⟨hNew, rfl⟩
      · exact Or.inl (hQuiet.within vid v hOld)
      · exact Or.inr ⟨hNew, rfl⟩
    rule := votingRule_eq_true hRule
    locked := fun qc' hQC' hProcesses hView parent grandparent hParent hGrandparent => by
      cases hQC.symm.trans hQC'
      exact processBlockQC_locks hHonest hAdmitted hProcesses hView hParent hGrandparent }

end HotStuff
end Bamboo
