import Bamboo.HotStuff.NetworkInvariant

/-! Agreement of the replicas of a network. A reachable state is a history of
locked three-chain voting, provided that no call of `ProcessBlock` skips a
certificate whose block it then votes for; the agreement theorem of the library
does the rest. Where a certificate is skipped, agreement fails. -/
namespace Bamboo

open Library LockedVoting

namespace Network

/-- Proposals have pairwise different identifiers, and none has the identifier
that stands for the start. -/
def CollisionFree (net : Network) : Prop :=
  (net.headers.map BlockHeader.id).Nodup ∧ 0 ∉ net.headers.map BlockHeader.id

instance (net : Network) : Decidable net.CollisionFree :=
  inferInstanceAs (Decidable (_ ∧ _))

/-- `parent` is the proposal that `block` points to. -/
def Parent (net : Network) (block parent : BlockHeader) : Prop :=
  block ∈ net.headers ∧ parent ∈ net.headers ∧ parent.id = block.prevID

/-- `ancestor` is reached from `block` along `PrevID`, or equal to it. -/
def Extends (net : Network) : BlockHeader → BlockHeader → Prop :=
  Relation.ReflTransGen net.Parent

end Network

/-- The call does not lead to a vote past its certificate: the certificate is
exempt, or the block is old or has no parent to be voted for, or both ancestors
are stored and the lock is high enough or about to be raised. -/
def Call.LockReady (cfg : Config) (id : NodeID) (call : Call) : Prop :=
  ∀ qc ∈ call.block.qc, qc.view ≤ 2 ∨ call.block.view < call.entry.curView ∨
    (2 < call.block.view ∧ call.entry.forest.getVertex call.block.prevID = none) ∨
    ∃ g ∈ call.entry.grandparent call.block,
      g.block.view ≤ call.entry.preferredView ∨ call.entry.Processes cfg id call.block qc

instance (cfg : Config) (id : NodeID) (call : Call) : Decidable (call.LockReady cfg id) :=
  inferInstanceAs (Decidable (∀ qc ∈ call.block.qc, _))

def VoteRecord.ballot (r : VoteRecord) : Ballot BlockHeader where
  block := r.block.toBlockHeader
  entry := r.entry.stamp
  accept := r.accept.stamp
  cast := r.cast.stamp

namespace Network

/-- The voting history that a state of the network stands for. -/
def history (net : Network) (peers : Finset NodeID) : History NodeID BlockHeader where
  voters := peers
  view := BlockHeader.view
  parent := net.Parent
  rank := fun h => net.headers.idxOf h
  ballots := fun r => (net.replicas r).voteLog.map VoteRecord.ballot

section

variable {cfg : Config} {peers : Finset NodeID} {net : Network}
  (hInv : net.Invariant cfg peers) (hIds : net.CollisionFree)

include hIds in
theorem header_unique {h h' : BlockHeader} (hh : h ∈ net.headers) (hh' : h' ∈ net.headers)
    (hEq : h.id = h'.id) : h = h' :=
  List.inj_on_of_nodup_map hIds.1 hh hh' hEq

include hInv in
theorem record_header {r : NodeID} {record : VoteRecord}
    (hRecord : record ∈ (net.replicas r).voteLog) : record.block.toBlockHeader ∈ net.headers :=
  ((hInv.replica r).covers.recorded record hRecord).1

/-- The certificate in a proposal, and the parent it is for. -/
theorem header_certificate {h : BlockHeader} (hInv : net.Invariant cfg peers)
    (hh : h ∈ net.headers) : ∃ qc, h.qc = some qc ∧ h.prevID = qc.blockID ∧
      (net.origins peers).qc qc := by
  obtain ⟨before, after, hSplit⟩ := List.append_of_mem hh
  obtain ⟨qc, hQC, hPrev, hKnown, _⟩ := hInv.built before h after hSplit
  exact ⟨qc, hQC, hPrev, hKnown⟩

include hInv hIds in
/-- A known certificate for a proposal is a quorum of votes for it, in its view. -/
theorem certified_of_qc {qc : QC} {h : BlockHeader} (hQC : (net.origins peers).qc qc)
    (hh : h ∈ net.headers) (hId : h.id = qc.blockID) :
    (net.history peers).Certified h ∧ h.view = qc.view := by
  rcases hQC with ⟨_, hGenesis⟩ | ⟨⟨signers, hSub, hCard, hVotes⟩, s, _, record, hRecord, hBoth⟩
  · exact absurd (List.mem_map.mpr ⟨h, hh, hId.trans hGenesis⟩) hIds.2
  · constructor
    · refine ⟨signers, hSub, hCard, fun s hs => ?_⟩
      obtain ⟨record, hRecord, hRecordId⟩ := hVotes s hs
      refine ⟨record.ballot, List.mem_map_of_mem hRecord, ?_⟩
      exact header_unique hIds (record_header hInv hRecord) hh (hRecordId.trans hId.symm)
    · have hEq : record.block.toBlockHeader = h :=
        header_unique hIds (record_header hInv hRecord) hh (hBoth.1.trans hId.symm)
      rw [← hEq]
      exact hBoth.2

include hInv hIds in
theorem parent_certified {block parent : BlockHeader} (hParent : net.Parent block parent) :
    (net.history peers).Certified parent ∧ ∃ qc, block.qc = some qc ∧
      block.prevID = qc.blockID ∧ parent.view = qc.view := by
  obtain ⟨hBlock, hKnown, hId⟩ := hParent
  obtain ⟨qc, hQC, hPrev, hOrigin⟩ := header_certificate hInv hBlock
  obtain ⟨hCertified, hView⟩ := certified_of_qc hInv hIds hOrigin hKnown (hId.trans hPrev)
  exact ⟨hCertified, qc, hQC, hPrev, hView⟩

include hInv in
theorem certified_header {h : BlockHeader} (hCertified : (net.history peers).Certified h) :
    h ∈ net.headers := by
  obtain ⟨signers, _, hCard, hBallots⟩ := hCertified
  have hSome : 0 < signers.card := by omega
  obtain ⟨s, hs⟩ := Finset.card_pos.mp hSome
  obtain ⟨ballot, hBallot, rfl⟩ := hBallots s hs
  obtain ⟨record, hRecord, rfl⟩ := List.mem_map.mp hBallot
  exact record_header hInv hRecord

include hInv hIds in
theorem parent_rank {block parent : BlockHeader} (hParent : net.Parent block parent) :
    net.headers.idxOf parent < net.headers.idxOf block := by
  obtain ⟨hBlock, hKnown, hId⟩ := hParent
  have hNodup : net.headers.Nodup := List.Nodup.of_map _ hIds.1
  obtain ⟨before, after, hSplit⟩ := List.append_of_mem hBlock
  obtain ⟨qc, _, hPrev, _, hEarlier⟩ := hInv.built before block after hSplit
  rcases hEarlier with ⟨_, hGenesis⟩ | ⟨p, hp, hpId⟩
  · exact absurd (List.mem_map.mpr ⟨parent, hKnown, hId.trans (hPrev.trans hGenesis)⟩) hIds.2
  · have hpKnown : p ∈ net.headers := hSplit ▸ List.mem_append_left _ hp
    have hEq : p = parent := header_unique hIds hpKnown hKnown (hpId.trans (hPrev.symm.trans hId.symm))
    have hNotBefore : block ∉ before := by
      intro hMem
      rw [hSplit] at hNodup
      exact List.disjoint_of_nodup_append hNodup hMem List.mem_cons_self
    rw [hSplit, List.idxOf_append_of_notMem hNotBefore, List.idxOf_append_of_mem (hEq ▸ hp),
      List.idxOf_cons_self]
    exact List.idxOf_lt_length_of_mem (hEq ▸ hp)

include hInv hIds in
/-- A vote above the exempt views was for a block whose parent the replica held,
at or above its lock. -/
theorem vote_safe_parent {r : NodeID} {record : VoteRecord}
    (hRecord : record ∈ (net.replicas r).voteLog) (hView : 2 < record.block.view) :
    ∃ parent, record.cast.forest.getVertex record.block.prevID = some parent ∧
      net.Parent record.block.toBlockHeader parent.block.toBlockHeader ∧
      record.cast.preferredView ≤ parent.block.view := by
  have hLocal := hInv.replica r
  obtain ⟨hVoted, _, hCast⟩ := hLocal.covers.recorded record hRecord
  obtain ⟨own, parent, hOwn, hParent, hLock⟩ := (hLocal.recorded.sound record hRecord).rule hView
  obtain ⟨hOwnKnown, hOwnId⟩ := hCast _ own hOwn
  obtain ⟨hParentKnown, hParentId⟩ := hCast _ parent hParent
  have hSame : own.block.toBlockHeader = record.block.toBlockHeader :=
    header_unique hIds hOwnKnown hVoted hOwnId
  have hPrev : own.block.prevID = record.block.prevID := congrArg BlockHeader.prevID hSame
  rw [hPrev] at hParent hParentId
  exact ⟨parent, hParent, ⟨hVoted, hParentKnown, hParentId⟩, hLock⟩

include hInv hIds in
/-- When no certificate is skipped, a vote comes with the lock on the block two
steps below. -/
theorem vote_locked {r : NodeID} {record : VoteRecord}
    (hRecord : record ∈ (net.replicas r).voteLog)
    (hReady : ∀ call ∈ (net.replicas r).calls, call.LockReady cfg r) {parent grandparent : BlockHeader}
    (hParent : net.Parent record.block.toBlockHeader parent)
    (hGrandparent : net.Parent parent grandparent) (hView : 2 < parent.view) :
    grandparent.view ≤ record.accept.preferredView := by
  have hLocal := hInv.replica r
  have hSound := hLocal.recorded.sound record hRecord
  rw [hLocal.id_eq] at hSound
  have hEntryView : record.entry.curView ≤ record.accept.curView := hSound.entry_accept.view_le
  have hEntryLock : record.entry.preferredView ≤ record.accept.preferredView :=
    hSound.entry_accept.lock_le
  obtain ⟨_, hEntry, _⟩ := hLocal.covers.recorded record hRecord
  obtain ⟨_, qc, hQC, hPrev, hParentView⟩ := parent_certified hInv hIds hParent
  obtain ⟨before, after, hSplit⟩ := List.append_of_mem hRecord
  obtain ⟨call, hCall, hCallBlock, hCallEntry, _⟩ :=
    hLocal.recorded.called before record after hSplit
  have hCallReady := hReady call hCall
  unfold Call.LockReady at hCallReady
  rw [hCallBlock, hCallEntry] at hCallReady
  rcases hCallReady qc hQC with hExempt | hStale | ⟨hAbove, hMissing⟩ | ⟨g, hg, hLock⟩
  · lia
  · exact absurd (hEntryView.trans hSound.current) (not_le.mpr hStale)
  · -- the parent was stored when the vote was made, and it is not the block itself
    obtain ⟨stored, hStored, hStoredParent, _⟩ := vote_safe_parent hInv hIds hRecord hAbove
    rcases hSound.kept _ stored hStored with hOld | ⟨_, hSelf⟩
    · rw [hMissing] at hOld
      cases hOld
    · rw [hSelf] at hStoredParent
      exact absurd (parent_rank hInv hIds hStoredParent) (lt_irrefl _)
  · obtain ⟨p, hp, hpg⟩ := Snapshot.grandparent_eq_some.mp hg
    obtain ⟨hpKnown, hpId⟩ := hEntry _ p hp
    obtain ⟨hgKnown, hgId⟩ := hEntry _ g hpg
    have hpEq : p.block.toBlockHeader = parent :=
      header_unique hIds hpKnown hParent.2.1 (hpId.trans hParent.2.2.symm)
    have hPrevEq : p.block.prevID = parent.prevID := congrArg BlockHeader.prevID hpEq
    have hgEq : g.block.toBlockHeader = grandparent :=
      header_unique hIds hgKnown hGrandparent.2.1
        (hgId.trans (hPrevEq.trans hGrandparent.2.2.symm))
    rw [← hgEq]
    rcases hLock with hHigh | hProcesses
    · exact hHigh.trans hEntryLock
    · refine hSound.locked qc hQC hProcesses (hParentView ▸ hView) p g ?_ hpg
      exact hPrev ▸ hp

include hInv hIds in
/-- A state in which no certificate was skipped is a disciplined history. -/
theorem history_disciplined
    (hReady : ∀ r ∈ peers, ∀ call ∈ (net.replicas r).calls, call.LockReady cfg r) :
    (net.history peers).Disciplined 2 := by
  have hSound : ∀ r, ∀ record ∈ (net.replicas r).voteLog, record.Sound cfg r := by
    intro r record hRecord
    have hRecordSound := (hInv.replica r).recorded.sound record hRecord
    rwa [(hInv.replica r).id_eq] at hRecordSound
  refine ⟨?_, ?_, ?_, ?_, ?_, ?_, ?_, ?_, ?_, ?_, ?_⟩
  · intro r _
    exact List.pairwise_map.mpr (hInv.replica r).recorded.ordered
  · intro r _ ballot hBallot
    obtain ⟨record, hRecord, rfl⟩ := List.mem_map.mp hBallot
    exact (hSound r record hRecord).entry_accept
  · intro r _ ballot hBallot
    obtain ⟨record, hRecord, rfl⟩ := List.mem_map.mp hBallot
    exact ⟨(hSound r record hRecord).current, (hSound r record hRecord).reached⟩
  · intro r _ ballot hBallot
    obtain ⟨record, hRecord, rfl⟩ := List.mem_map.mp hBallot
    exact (hSound r record hRecord).accept_cast
  · intro r _ ballot hBallot hView
    obtain ⟨record, hRecord, rfl⟩ := List.mem_map.mp hBallot
    obtain ⟨parent, _, hParent, hLock⟩ := vote_safe_parent hInv hIds hRecord hView
    exact ⟨parent.block.toBlockHeader, hParent, hLock⟩
  · intro r hr ballot hBallot parent grandparent hParent hGrandparent hView
    obtain ⟨record, hRecord, rfl⟩ := List.mem_map.mp hBallot
    exact vote_locked hInv hIds hRecord (hReady r hr) hParent hGrandparent hView
  · intro block parent parent' hParent hParent'
    exact header_unique hIds hParent.2.1 hParent'.2.1 (hParent.2.2.trans hParent'.2.2.symm)
  · intro block parent hParent
    exact parent_rank hInv hIds hParent
  · intro block parent _ hParent
    exact (parent_certified hInv hIds hParent).1
  · intro first second hFirst hSecond hView
    exact List.inj_on_of_nodup_map hInv.oneView (certified_header hInv hFirst)
      (certified_header hInv hSecond) hView
  · intro block hBlock
    have hPos := (hInv.proposed block (certified_header hInv hBlock)).2.1
    change (2 : Int) ≤ block.view + 1
    lia

include hInv hIds in
/-- What a replica commits is committed by a three-chain of the history. -/
theorem committed_in_history {r : NodeID} {b : Block} (hb : b ∈ (net.replicas r).committedBlocks) :
    (net.history peers).Committed b.toBlockHeader := by
  obtain ⟨qc, last, parent, head, hQC, _, hLast, hLastId, hParent, hHead, hFirst, hSecond, hReach⟩ :=
    (hInv.replica r).covers.committed b hb
  obtain ⟨hCertified, hLastView⟩ := certified_of_qc hInv hIds hQC hLast hLastId
  refine ⟨head.toBlockHeader, parent.toBlockHeader, last.toBlockHeader, ?_, ?_⟩
  · exact {
      middle_parent := ⟨hParent.1, hHead.1, hHead.2⟩
      last_parent := ⟨hLast, hParent.1, hParent.2⟩
      middle_view := hFirst.symm
      last_view := hLastView.trans hSecond.symm
      certified := hCertified }
  · have hPath : b.toBlockHeader ∈ net.headers ∧
        (net.history peers).Extends head.toBlockHeader b.toBlockHeader := by
      clear hb
      induction hReach with
      | refl => exact ⟨hHead.1, Relation.ReflTransGen.refl⟩
      | tail _ hStep ih => exact ⟨hStep.1, ih.2.tail ⟨ih.1, hStep.1, hStep.2⟩⟩
    exact hPath.2

end

/-- Agreement: in every run in which no call of `ProcessBlock` votes past its
certificate, any two committed blocks lie on one branch. -/
theorem committed_on_one_branch (cfg : Config) (peers : Finset NodeID) (events : List Event)
    (net : Network) (hElection : cfg.election.Consistent)
    (hRun : run (step cfg peers) (new peers.card) events = .ok net) (hIds : net.CollisionFree)
    (hReady : ∀ r ∈ peers, ∀ call ∈ (net.replicas r).calls, call.LockReady cfg r) :
    ∀ r ∈ peers, ∀ b ∈ (net.replicas r).committedBlocks, ∀ r' ∈ peers,
      ∀ b' ∈ (net.replicas r').committedBlocks,
      net.Extends b.toBlockHeader b'.toBlockHeader ∨
        net.Extends b'.toBlockHeader b.toBlockHeader := by
  intro r _ b hb r' _ b' hb'
  have hInv := run_network_invariant hElection hRun
  exact (history_disciplined hInv hIds hReady).agreement (committed_in_history hInv hIds hb)
    (committed_in_history hInv hIds hb')

end Network

namespace Scenario

/-- The signature of a replica on the proposal of a view. -/
def signature (leader : View → NodeID) (id : NodeID) (view : Nat) : Signature :=
  (config leader).keys.sign ((node id).toNat - 1) (BitVec.ofNat 256 view)

/-- The certificate for the proposal of a view that its collector has built. -/
def collected (leader : View → NodeID) (collector : NodeID) (view : Nat) (signers : List NodeID) :
    QC where
  leader := collector
  view
  blockID := BitVec.ofNat 256 view
  signers
  aggSig := signers.map fun id => signature leader id view

/-- The proposal of a view on top of a certificate, as its leader broadcasts it. -/
def proposal (leader : View → NodeID) (view : Nat) (qc : QC) : Message :=
  .proposal {
    view
    qc := some qc
    proposer := leader view
    prevID := qc.blockID
    sig := signature leader (leader view) view
    id := BitVec.ofNat 256 view }

/-- A vote for the proposal of a view, sent to the leader of the next one. -/
def vote (leader : View → NodeID) (voter : NodeID) (view : Nat) : Message :=
  .vote (leader (view + 1)) {
    view
    voter
    blockID := BitVec.ofNat 256 view
    signature := signature leader voter view }

def peers : Finset NodeID := {"1", "2", "3", "4"}

/-- Two replicas take up a proposal and their votes reach the collector. -/
def supported (leader : View → NodeID) (view : Nat) (qc : QC) (first second collector : NodeID) :
    List Network.Event :=
  [.deliver first (proposal leader view qc) {}, .deliver second (proposal leader view qc) {},
    .deliver collector (vote leader first view) {}, .deliver collector (vote leader second view) {}]

/-- Replica 1 leads four views, and its proposals are delivered in time. -/
def steadyRun : List Network.Event :=
  let leader : View → NodeID := fun _ => "1"
  [.kickOff "1", .newView "1" {}] ++ supported leader 1 .initial "2" "3" "1" ++
  [.newView "1" {}] ++ supported leader 2 (collected leader "1" 1 ["3", "2", "1"]) "2" "3" "1" ++
  [.newView "1" {}] ++ supported leader 3 (collected leader "1" 2 ["3", "2", "1"]) "2" "3" "1" ++
  [.newView "1" {}] ++ supported leader 4 (collected leader "1" 3 ["3", "2", "1"]) "2" "3" "1"

/-- Replica 1 leads the first three views, replica 4 the next two, replica 3 the
others. -/
def splitLeader (view : View) : NodeID :=
  if view ≤ 3 then "1" else if view ≤ 5 then "4" else "3"

/-- Replicas 1 and 2 leave view 3 by a timeout, so that they vote for the proposal
of view 4 without taking its lock; replica 3 has not seen that branch, proposes a
block on top of the first one in view 6, and finds their support. -/
def splitRun : List Network.Event :=
  let first := collected splitLeader "1" 1 ["3", "2", "1"]
  [.kickOff "1", .newView "1" {}, .deliver "4" (proposal splitLeader 1 .initial) {}] ++
  supported splitLeader 1 .initial "2" "3" "1" ++
  [.newView "1" {}, .deliver "4" (proposal splitLeader 2 first) {}] ++
  supported splitLeader 2 first "2" "3" "1" ++
  [.newView "1" {}, .deliver "2" (proposal splitLeader 3 (collected splitLeader "1" 2 ["3", "2", "1"])) {},
    .deliver "4" (proposal splitLeader 3 (collected splitLeader "1" 2 ["3", "2", "1"])) {},
    .deliver "4" (vote splitLeader "1" 3) {}, .deliver "4" (vote splitLeader "2" 3) {},
    .newView "4" {}, .newView "4" {}, .newView "4" {}, .newView "4" {},
    .localTmo "1" 3, .localTmo "2" 3] ++
  supported splitLeader 4 (collected splitLeader "4" 3 ["2", "1", "4"]) "1" "2" "4" ++
  [.localTmo "3" 2, .localTmo "3" 3, .localTmo "3" 4, .localTmo "3" 5,
    .newView "3" {}, .newView "3" {}, .newView "3" {}, .newView "3" {}, .newView "3" {},
    .newView "3" {}, .localTmo "1" 4, .localTmo "1" 5, .localTmo "2" 4, .localTmo "2" 5] ++
  supported splitLeader 6 first "1" "2" "3" ++ [.newView "3" {}] ++
  supported splitLeader 7 (collected splitLeader "3" 6 ["2", "1", "3"]) "1" "2" "3" ++
  [.newView "3" {}] ++
  supported splitLeader 8 (collected splitLeader "3" 7 ["2", "1", "3"]) "1" "2" "3"

end Scenario

namespace Network

/-- A set of headers that holds the parents of its members. -/
def ParentClosed (net : Network) (set : List BlockHeader) : Prop :=
  ∀ h ∈ set, ∀ p ∈ net.headers, p.id = h.prevID → p ∈ set

instance (net : Network) (set : List BlockHeader) : Decidable (net.ParentClosed set) :=
  inferInstanceAs (Decidable (∀ h ∈ set, _))

theorem ParentClosed.not_extends {net : Network} {set : List BlockHeader}
    (hClosed : net.ParentClosed set) {block other : BlockHeader} (hBlock : block ∈ set)
    (hOther : other ∉ set) : ¬net.Extends block other := by
  intro hExtends
  have hIn : other ∈ set := by
    clear hOther
    induction hExtends with
    | refl => exact hBlock
    | tail _ hStep ih => exact hClosed _ ih _ hStep.2.1 hStep.2.2
  exact hOther hIn

theorem committed_on_one_branch_steady :
    ∃ net, run (step (Scenario.config fun _ => "1") Scenario.peers) (new 4) Scenario.steadyRun =
        .ok net ∧
      ((net.replicas "1").committedBlocks.map fun b => b.view) = [1, 2] ∧
      ((net.replicas "2").committedBlocks.map fun b => b.view) = [1] ∧
      ∀ b ∈ (net.replicas "1").committedBlocks, ∀ b' ∈ (net.replicas "2").committedBlocks,
        net.Extends b.toBlockHeader b'.toBlockHeader ∨
          net.Extends b'.toBlockHeader b.toBlockHeader := by
  obtain ⟨net, hRun, hIds, hReady, hFirst, hSecond⟩ := Outcome.of_test
    (x := run (step (Scenario.config fun _ => "1") Scenario.peers) (new 4) Scenario.steadyRun)
    (P := fun net => net.CollisionFree ∧
      (∀ r ∈ Scenario.peers, ∀ call ∈ (net.replicas r).calls,
        call.LockReady (Scenario.config fun _ => "1") r) ∧
      ((net.replicas "1").committedBlocks.map fun b => b.view) = [1, 2] ∧
      ((net.replicas "2").committedBlocks.map fun b => b.view) = [1]) (by decide +kernel)
  refine ⟨net, hRun, hFirst, hSecond, fun b hb b' hb' => ?_⟩
  exact committed_on_one_branch (Scenario.config fun _ => "1") Scenario.peers Scenario.steadyRun net
    (fun id view => by simp [Scenario.config]) hRun hIds hReady "1" (by decide) b hb "2" (by decide)
    b' hb'

/-- With the certificate of view 4's proposal skipped at two replicas, replica 3
commits a block that conflicts with one replica 4 has committed. -/
theorem conflicting_commits :
    ∃ net, run (step (Scenario.config Scenario.splitLeader) Scenario.peers) (new 4)
        Scenario.splitRun = .ok net ∧ net.CollisionFree ∧
      ∃ b ∈ (net.replicas "3").committedBlocks, ∃ b' ∈ (net.replicas "4").committedBlocks,
        ¬(net.Extends b.toBlockHeader b'.toBlockHeader ∨
          net.Extends b'.toBlockHeader b.toBlockHeader) := by
  obtain ⟨net, hRun, hIds, hLate, hEarly, b, hb, b', hb', hIn, hOut, hIn', hOut'⟩ := Outcome.of_test
    (x := run (step (Scenario.config Scenario.splitLeader) Scenario.peers) (new 4)
      Scenario.splitRun)
    (P := fun net => net.CollisionFree ∧
      net.ParentClosed (net.headers.filter fun h => h.view = 6 ∨ h.view = 1) ∧
      net.ParentClosed (net.headers.filter fun h => h.view = 2 ∨ h.view = 1) ∧
      ∃ b ∈ (net.replicas "3").committedBlocks, ∃ b' ∈ (net.replicas "4").committedBlocks,
        b.toBlockHeader ∈ net.headers.filter (fun h => h.view = 6 ∨ h.view = 1) ∧
        b'.toBlockHeader ∉ net.headers.filter (fun h => h.view = 6 ∨ h.view = 1) ∧
        b'.toBlockHeader ∈ net.headers.filter (fun h => h.view = 2 ∨ h.view = 1) ∧
        b.toBlockHeader ∉ net.headers.filter (fun h => h.view = 2 ∨ h.view = 1))
    (by decide +kernel)
  refine ⟨net, hRun, hIds, b, hb, b', hb', ?_⟩
  rintro (hExtends | hExtends)
  · exact hLate.not_extends hIn hOut hExtends
  · exact hEarly.not_extends hIn' hOut' hExtends

end Network
end Bamboo
