import Bamboo.Blockchain.Spine
import Bamboo.HotStuff.Network

/-! The proposals of a run in which every message arrives before a timer fires, and the state
of a replica in such a run. The leader of a view builds on the certificate of the view before
and every replica votes; the leader of the next view collects the votes, its own first, until
they are a quorum. -/
namespace Bamboo

open Library

/-- A group of replicas that follow the protocol. What is free is who leads a view, what each
replica knows as the payload of its proposal, in which order the proposal of a view reaches the
replicas, and in which order their votes arrive. -/
structure FaultFree where
  cfg : Config
  peers : Finset NodeID
  payload : Nat → NodeID → Payload
  order : Nat → List NodeID
  tally : Nat → List NodeID
  leader_mem : ∀ view, cfg.election.findLeaderFor view ∈ peers
  isLeader_iff : ∀ r ∈ peers, ∀ view,
    cfg.election.isLeader r view = true ↔ r = cfg.election.findLeaderFor view
  position : ∀ r ∈ peers, 1 ≤ node r ∧ node r ≤ cfg.keys.size
  verifies : ∀ r ∈ peers, ∀ data, 2 ≤ (cfg.keys.sign (node r - 1).toNat data).length ∧
    cfg.keys.verify (node r - 1).toNat (cfg.keys.sign (node r - 1).toNat data) data = true
  mem_order : ∀ view r, r ∈ order view ↔ r ∈ peers
  nodup_order : ∀ view, (order view).Nodup
  mem_tally : ∀ view r, r ∈ tally view ↔ r ∈ peers
  nodup_tally : ∀ view, (tally view).Nodup

/-- When `ProcessBlock` gets to the vote. -/
theorem HotStuff.takeUp_votes {cfg : Config} {hs admitted stored : HotStuff} {block : Block}
    {qc : QC} (hQC : block.qc = some qc) (hSignature : hs.checkSignature cfg block = .ok ())
    (hNear : block.view ≤ hs.pm.curView + 1)
    (hAdmit : hs.processBlockQC cfg block qc = .ok admitted)
    (hCurrent : admitted.pm.curView ≤ block.view)
    (hLeader : cfg.election.isLeader block.proposer block.view = true)
    (hStore : admitted.storeBlock cfg ⟨block, qc, hQC⟩ = .ok stored)
    (hRule : stored.votingRule block = some true) :
    hs.takeUp cfg block = .ok (stored, .votes admitted.snapshot) := by
  unfold takeUp
  rw [hSignature, Outcome.ok_bind, if_neg (not_lt.mpr hNear)]
  split
  · rename_i hNone
    rw [hNone] at hQC
    cases hQC
  · rename_i found hFound
    cases hQC.symm.trans hFound
    rw [hAdmit, Outcome.ok_bind, if_neg (not_lt.mpr hCurrent), if_neg (by simp [hLeader]), hStore,
      Outcome.ok_bind, hRule]
    rfl

/-- When `ProcessBlock` drops a block of an earlier view. -/
theorem HotStuff.takeUp_stale {cfg : Config} {hs admitted : HotStuff} {block : Block} {qc : QC}
    (hQC : block.qc = some qc) (hSignature : hs.checkSignature cfg block = .ok ())
    (hNear : block.view ≤ hs.pm.curView + 1)
    (hAdmit : hs.processBlockQC cfg block qc = .ok admitted)
    (hStale : block.view < admitted.pm.curView) :
    hs.takeUp cfg block = .ok (admitted, .returns (.ok ())) := by
  unfold takeUp
  rw [hSignature, Outcome.ok_bind, if_neg (not_lt.mpr hNear)]
  split
  · rename_i hNone
    rw [hNone] at hQC
    cases hQC
  · rename_i found hFound
    cases hQC.symm.trans hFound
    rw [hAdmit, Outcome.ok_bind, if_pos hStale]
    rfl

namespace FaultFree

variable (s : FaultFree)

def leader (view : Nat) : NodeID := s.cfg.election.findLeaderFor view

def signature (r : NodeID) (data : Identifier) : Signature :=
  s.cfg.keys.sign (node r - 1).toNat data

/-- How many votes the collector of a view needs. -/
def quorum : Nat := s.peers.card * 2 / 3 + 1

/-- Who votes in a view, in the order in which the next leader counts the votes. -/
def voters (view : Nat) : List NodeID :=
  s.leader (view + 1) :: (s.tally view).filter (· ≠ s.leader (view + 1))

/-- The certificate for the proposal of a view. The votes are listed newest first. -/
def certify (view : Nat) (id : Identifier) : QC where
  leader := s.leader (view + 1)
  view
  blockID := id
  signers := ((s.voters view).take s.quorum).reverse
  aggSig := (((s.voters view).take s.quorum).reverse).map fun voter => s.signature voter id

/-- The proposal of a view on top of a certificate. -/
def propose (view : Nat) (qc : QC) : Proposal :=
  let payload := s.payload view (s.leader view)
  let id := s.cfg.hash {
    view, qc := some qc, proposer := s.leader view, payload := payload.generateHashList,
    prevID := qc.blockID }
  { view
    qc := some qc
    proposer := s.leader view
    prevID := qc.blockID
    sig := s.signature (s.leader view) id
    id
    hashList := payload.generateHashList
    txNums := payload.txNums
    groupList := payload.generateGroupList
    ackNode := payload.ackNode
    mbTime := payload.generateTimeList }

/-- The certificate that ends a view. -/
def certified : Nat → QC
  | 0 => .initial
  | view + 1 => s.certify (view + 1) (s.propose (view + 1) (certified view)).id

/-- The identifier of a view's proposal; the start stands at view zero. -/
def ident (view : Nat) : Identifier := (s.certified view).blockID

def proposal (view : Nat) : Proposal := s.propose view (s.certified (view - 1))

/-- The block that a replica makes of a view's proposal. -/
def block (r : NodeID) (view : Nat) : Block := buildBlock (s.proposal view) (s.payload view r)

def container (r : NodeID) (view : Nat) : BlockContainer :=
  ⟨s.block r view, s.certified (view - 1), rfl⟩

/-- The vote of a replica in a view. -/
def ballot (view : Nat) (voter : NodeID) : Vote where
  view
  voter
  blockID := s.ident view
  signature := s.signature voter (s.ident view)

/-- The proposals of the first `last` views have different identifiers. -/
def Distinct (last : Nat) : Prop :=
  ∀ j k, j ≤ last → k ≤ last → s.ident j = s.ident k → j = k

variable {s}

@[simp] theorem certified_view (k : Nat) : (s.certified k).view = k := by
  cases k <;> rfl

theorem proposal_id {k : Nat} (h : 1 ≤ k) : (s.proposal k).id = s.ident k := by
  cases k with
  | zero => omega
  | succ k => rfl

theorem certified_eq {k : Nat} (h : 1 ≤ k) : s.certified k = s.certify k (s.ident k) := by
  cases k with
  | zero => omega
  | succ k => rfl

theorem consecutive {last : Nat} (hDistinct : s.Distinct last) (r : NodeID) :
    Consecutive s.ident (s.container r) last where
  view k _ _ := rfl
  id k hOne _ := proposal_id hOne
  parent k _ _ := by
    change (s.ident (k - 1), levelOf (s.certified (k - 1)).view) = _
    rw [certified_view, levelOf_natCast]
  distinct := hDistinct

theorem leader_mem_peers (view : Nat) : s.leader view ∈ s.peers := s.leader_mem view

theorem privSign_eq {r : NodeID} (hr : r ∈ s.peers) (data : Identifier) :
    s.cfg.keys.privSign data r = .ok (s.signature r data) := by
  rw [KeyRing.privSign, KeyRing.position, if_pos (s.position r hr)]
  rfl

theorem pubVerify_eq {r : NodeID} (hr : r ∈ s.peers) (data : Identifier) :
    s.cfg.keys.pubVerify (s.signature r data) data r = .ok true := by
  obtain ⟨hLength, hVerify⟩ := s.verifies r hr data
  have hParts : ¬(s.signature r data).length < 2 := not_lt.mpr hLength
  rw [KeyRing.pubVerify, KeyRing.position, if_pos (s.position r hr)]
  simp only [pure_bind]
  rw [if_neg hParts]
  exact congrArg Except.ok hVerify

theorem voters_mem {view : Nat} {r : NodeID} : r ∈ s.voters view ↔ r ∈ s.peers := by
  unfold voters
  by_cases h : r = s.leader (view + 1)
  · simp [h, leader, s.leader_mem]
  · simp [h, s.mem_tally]

theorem voters_nodup (view : Nat) : (s.voters view).Nodup := by
  apply List.nodup_cons.mpr
  constructor
  · simp
  · exact (s.nodup_tally view).filter _

theorem voters_length (view : Nat) : (s.voters view).length = s.peers.card := by
  rw [← List.toFinset_card_of_nodup (voters_nodup view)]
  congr 1
  ext r
  rw [List.mem_toFinset, voters_mem]

theorem quorum_le : s.quorum ≤ s.peers.card := by
  have hPositive : 0 < s.peers.card := Finset.card_pos.mpr ⟨_, s.leader_mem 0⟩
  unfold quorum
  omega

/-- A list of signatures of replicas is accepted. -/
theorem verifyQuorumSignature_eq (data : Identifier) {signers : List NodeID}
    (h : ∀ r ∈ signers, r ∈ s.peers) :
    s.cfg.keys.verifyQuorumSignature data (signers.map fun r => s.signature r data) signers =
      .ok true := by
  induction signers with
  | nil => rfl
  | cons r signers ih =>
      rw [List.map_cons, KeyRing.verifyQuorumSignature, pubVerify_eq (h r List.mem_cons_self)]
      exact ih fun r' hr' => h r' (List.mem_cons_of_mem r hr')

theorem certificateVerified_eq (hs : HotStuff) (k : Nat) :
    hs.certificateVerified s.cfg (s.certified k) = .ok true := by
  unfold HotStuff.certificateVerified
  split_ifs
  · rfl
  · cases k with
    | zero => rfl
    | succ k =>
        apply verifyQuorumSignature_eq
        intro r hr
        exact voters_mem.mp (List.mem_of_mem_take (List.mem_reverse.mp hr))

variable (s) in
/-- The votes of some replicas in a view have been counted, until they were enough. -/
def Tallies (view : Nat) (done : List NodeID) (q : Quorum) : Prop :=
  (q.votesFor (s.ident view)).entries =
    ((done.take s.quorum).map fun voter => ⟨voter, s.ballot view voter⟩).reverse

theorem Tallies.superMajority_iff {view : Nat} {done : List NodeID} {q : Quorum}
    (h : s.Tallies view done q) (hTotal : q.total = s.peers.card) :
    q.superMajority (s.ident view) = true ↔ s.quorum ≤ done.length := by
  have hSize : q.size (s.ident view) = min s.quorum done.length := by
    rw [Quorum.size, AList.keys, List.keys, List.length_map, show _ = _ from h]
    simp
  rw [Quorum.superMajority, hSize, hTotal, decide_eq_true_iff]
  unfold quorum
  omega

/-- One more vote. The certificate is built with the vote that makes them enough. -/
theorem Tallies.add {view : Nat} {done : List NodeID} {q : Quorum} (h : s.Tallies view done q)
    (hTotal : q.total = s.peers.card) (hView : 1 ≤ view) {voter : NodeID}
    (hNext : done ++ [voter] <+: s.voters view) :
    s.Tallies view (done ++ [voter]) (q.add (s.ballot view voter)).1 ∧
      (q.add (s.ballot view voter)).2 = (if done.length + 1 = s.quorum
        then some { s.certified view with leader := "" } else none) ∧
      ∀ id, id ≠ s.ident view →
        (q.add (s.ballot view voter)).1.votesFor id = q.votesFor id := by
  have hMajority := h.superMajority_iff hTotal
  have hBlock : (s.ballot view voter).blockID = s.ident view := rfl
  unfold Quorum.add
  rw [hBlock]
  by_cases hEnough : s.quorum ≤ done.length
  · rw [if_pos (hMajority.mpr hEnough), if_neg (by omega)]
    refine ⟨?_, rfl, fun _ _ => rfl⟩
    unfold Tallies
    rw [List.take_append_of_le_length hEnough]
    exact h
  · have hFew : ¬q.superMajority (s.ident view) = true := fun hAll => hEnough (hMajority.mp hAll)
    have hTake : (done ++ [voter]).take s.quorum = done.take s.quorum ++ [voter] := by
      rw [List.take_of_length_le (by simp; omega), List.take_of_length_le (by omega)]
    have hNew : voter ∉ q.votesFor (s.ident view) := by
      have hNodup := (voters_nodup view).sublist hNext.sublist
      have hDone := List.disjoint_of_nodup_append hNodup
      rw [AList.mem_keys, AList.keys, List.keys, show _ = _ from h]
      intro hMem
      simp only [List.map_reverse, List.map_map, List.mem_reverse, List.mem_map] at hMem
      obtain ⟨_, hVoter, rfl⟩ := hMem
      exact hDone (List.mem_of_mem_take hVoter) List.mem_cons_self
    have hRecorded : s.Tallies view (done ++ [voter]) (q.record (s.ballot view voter)) := by
      unfold Tallies
      rw [Quorum.votesFor_record, if_pos hBlock.symm,
        AList.entries_insert_of_notMem (show (s.ballot view voter).voter ∉ _ from hNew),
        show _ = _ from h, hTake]
      simp [ballot]
    have hOther : ∀ id, id ≠ s.ident view →
        (q.record (s.ballot view voter)).votesFor id = q.votesFor id := by
      intro id hId
      rw [Quorum.votesFor_record, hBlock, if_neg hId]
    have hMajority' := hRecorded.superMajority_iff hTotal
    rw [if_neg hFew]
    by_cases hLast : done.length + 1 = s.quorum
    · rw [if_pos (hMajority'.mpr (by simp [hLast])), if_pos hLast]
      refine ⟨hRecorded, ?_, hOther⟩
      have hVoters : (s.voters view).take s.quorum = (done ++ [voter]).take s.quorum := by
        obtain ⟨rest, hRest⟩ := hNext
        rw [← hRest, List.take_append_of_le_length (by simp [hLast])]
      have hSigs : (q.record (s.ballot view voter)).getSigs (s.ident view) =
          ((((s.voters view).take s.quorum).reverse).map fun r => s.signature r (s.ident view),
            ((s.voters view).take s.quorum).reverse) := by
        unfold Quorum.getSigs
        rw [show _ = _ from hRecorded, hVoters]
        simp [Function.comp_def, ballot]
      rw [Quorum.certificate, hBlock, hSigs, certified_eq hView]
      rfl
    · rw [if_neg (fun hAll => hLast ?_), if_neg hLast]
      · exact ⟨hRecorded, rfl, hOther⟩
      · have := hMajority'.mp hAll
        simp only [List.length_append, List.length_singleton] at this
        omega

variable (s) in
/-- A replica that has seen the proposals up to view `seen` and the certificates before view
`current`, and has committed what these certify. The blocks in `waiting` are buffered. -/
structure Aligned (last : Nat) (waiting : Table View Block) (r : NodeID) (current seen : Nat)
    (hs : HotStuff) : Prop where
  id : hs.id = r
  honest : hs.isByz = false
  curView : hs.pm.curView = current
  lastVotedView : hs.lastVotedView = 0
  preferredView : hs.preferredView ≤ (current - 1 : Nat)
  forrest : hs.bc.forrest.Spine s.ident (s.container r) last (current - 3) seen
  committedBlocks : hs.committedBlocks = (List.range' 1 (current - 3)).map (s.block r)
  forkedBlocks : hs.forkedBlocks = []
  bufferedQCs : hs.bufferedQCs = ∅
  bufferedBlocks : hs.bufferedBlocks = waiting
  total : hs.bc.quorum.total = s.peers.card
  unvoted : ∀ k, seen < k → k ≤ last → hs.bc.quorum.votesFor (s.ident k) = ∅

variable (s) in
/-- Moreover it holds the certificate before its view as the highest. -/
structure InStep (last : Nat) (waiting : Table View Block) (r : NodeID) (current seen : Nat)
    (hs : HotStuff) : Prop extends s.Aligned last waiting r current seen hs where
  highQC : hs.highQC = s.certified (current - 1)

theorem new_inStep (last : Nat) (r : NodeID) :
    s.InStep last ∅ r 0 0 (.new r false s.peers.card) where
  id := rfl
  honest := rfl
  curView := rfl
  lastVotedView := rfl
  preferredView := le_refl _
  highQC := rfl
  forrest := LevelledForest.new_spine _ _ _
  committedBlocks := rfl
  forkedBlocks := rfl
  bufferedQCs := rfl
  bufferedBlocks := rfl
  total := rfl
  unvoted _ _ _ := rfl

section Replica

variable {last : Nat} {waiting : Table View Block} {r : NodeID} {current seen : Nat} {hs : HotStuff}

/-- The lock stays below the certified view. -/
theorem Aligned.updatePreferredView (hDistinct : s.Distinct last)
    (h : s.Aligned last waiting r current seen hs) (hSeen : current ≤ seen) (hLast : seen ≤ last) :
    ∃ view : View, view ≤ current ∧
      hs.updatePreferredView (s.certified current) = some { hs with preferredView := view } := by
  have hOld := h.preferredView
  unfold HotStuff.updatePreferredView
  rw [certified_view]
  by_cases hFirst : (current : View) ≤ 2
  · rw [if_pos hFirst]
    exact ⟨hs.preferredView, by lia, rfl⟩
  · obtain ⟨k, rfl⟩ : ∃ k, current = k + 1 := ⟨current - 1, by lia⟩
    have hBlock := BlockChain.spine_getBlockByID h.forrest (k := k + 1) (by lia) (by lia) hSeen
    have hParent := BlockChain.spine_getParentBlock (consecutive hDistinct r) h.forrest hLast
      (k := k) (by lia) (by lia) hSeen
    rw [if_neg hFirst, show (s.certified (k + 1)).blockID = s.ident (k + 1) from rfl, hBlock, hParent]
    have hView : (s.container r k).block.view = k := rfl
    dsimp only
    rw [hView]
    split_ifs
    · exact ⟨k, by lia, rfl⟩
    · exact ⟨hs.preferredView, by lia, rfl⟩

/-- Three certified blocks in a row commit the first of them. -/
theorem spine_commitRule (hDistinct : s.Distinct last) {bc : BlockChain} {low : Nat}
    (h : bc.forrest.Spine s.ident (s.container r) last low seen) (hLast : seen ≤ last)
    (hSeen : low + 3 ≤ seen) (hs : HotStuff) (hChain : hs.bc = bc) :
    hs.commitRule (s.certified (low + 3)) = some (s.block r (low + 1)) := by
  have hParent := BlockChain.spine_getParentBlock (consecutive hDistinct r) h hLast
    (k := low + 2) (by lia) (by lia) hSeen
  have hGrandParent := BlockChain.spine_getParentBlock (consecutive hDistinct r) h hLast
    (k := low + 1) (by lia) (by lia) (by lia)
  unfold HotStuff.commitRule
  rw [hChain, show (s.certified (low + 3)).blockID = s.ident (low + 2 + 1) from rfl, hParent]
  dsimp only
  rw [show (s.container r (low + 2)).block.id = s.ident (low + 1 + 1) from rfl, hGrandParent]
  dsimp only
  rw [certified_view, if_pos]
  · rfl
  · constructor
    · change ((low + 1 : Nat) : View) + 1 = (low + 2 : Nat)
      lia
    · change ((low + 2 : Nat) : View) + 1 = (low + 3 : Nat)
      lia

variable (s) in
/-- The replica that leaves a view for its certificate, before it commits anything. -/
def entered (hs : HotStuff) (current : Nat) (preferredView : View) : HotStuff :=
  { hs with
    preferredView
    pm := { hs.pm with
      curView := current + 1
      newViewChan := hs.pm.newViewChan ++ [(current + 1 : View)] }
    highQC := s.certified current }

theorem Aligned.advance (h : s.Aligned last waiting r current seen hs)
    (hHigh : hs.highQC = s.certified (current - 1) ∨ hs.highQC = s.certified current)
    (preferredView : View) :
    (HotStuff.advanceView { hs with preferredView } (s.certified current).view).updateHighQC
      (s.certified current) = s.entered hs current preferredView := by
  unfold HotStuff.updateHighQC HotStuff.advanceView Pacemaker.advanceView
  rw [certified_view, if_neg (not_lt.mpr h.curView.le)]
  dsimp only
  split_ifs with hLater
  · rfl
  · have hSame : hs.highQC = s.certified current := by
      rcases hHigh with hOld | hNew
      · rw [hOld, certified_view] at hLater
        rw [hOld, show current - 1 = current by lia]
      · exact hNew
    unfold entered
    rw [← hSame]

/-- The certificate of the current view takes the replica to the next one. -/
theorem Aligned.processCertificate (hDistinct : s.Distinct last)
    (h : s.Aligned last waiting r current seen hs)
    (hHigh : hs.highQC = s.certified (current - 1) ∨ hs.highQC = s.certified current)
    (hSeen : current ≤ seen) (hLast : seen ≤ last) :
    ∃ hs', hs.processCertificate s.cfg (s.certified current) = .ok hs' ∧
      s.InStep last waiting r (current + 1) seen hs' ∧
      hs'.pm.newViewChan = hs.pm.newViewChan ++ [(current + 1 : View)] ∧
      hs'.outbox = hs.outbox ∧ ∀ k, current ≤ k → k ≤ last →
        hs'.bc.quorum.votesFor (s.ident k) = hs.bc.quorum.votesFor (s.ident k) := by
  obtain ⟨view, hView, hLock⟩ := h.updatePreferredView hDistinct hSeen hLast
  have hCertificate : hs.processCertificate s.cfg (s.certified current) =
      ({ hs with preferredView := view } : HotStuff).applyCertificate (s.certified current) := by
    rw [HotStuff.processCertificate, certified_view, if_neg (not_lt.mpr h.curView.le),
      certificateVerified_eq, Outcome.ok_bind, if_neg (by decide), if_neg (by simp [h.honest]), hLock]
  rw [hCertificate, HotStuff.applyCertificate, h.advance hHigh, certified_view]
  by_cases hFew : (current : View) < 3
  · refine ⟨s.entered hs current view, if_pos hFew, ?_, rfl, rfl, fun _ _ _ => rfl⟩
    have hNone : current + 1 - 3 = current - 3 := by lia
    exact { h with
      curView := by simp [entered]
      preferredView := hView
      highQC := rfl
      forrest := hNone ▸ h.forrest
      committedBlocks := hNone ▸ h.committedBlocks }
  · obtain ⟨low, rfl⟩ : ∃ low, current = low + 3 := ⟨current - 3, by lia⟩
    have hForrest : (s.entered hs (low + 3) view).bc.forrest.Spine s.ident (s.container r) last low
        seen := h.forrest
    obtain ⟨bc', hCommit, hSpine, hQuorum⟩ := BlockChain.spine_commitBlock
      (consecutive hDistinct r) hForrest (by lia) hLast (s.entered hs (low + 3) view).pm.curView
    have hRule := spine_commitRule hDistinct hForrest hLast hSeen _ rfl
    refine ⟨{ s.entered hs (low + 3) view with
      bc := bc'
      committedBlocks := hs.committedBlocks ++ [s.block r (low + 1)]
      forkedBlocks := hs.forkedBlocks ++ [] }, ?_, ?_, rfl, rfl, ?_⟩
    · rw [if_neg hFew, hRule]
      dsimp only
      rw [HotStuff.commit, show (s.block r (low + 1)).id = s.ident (low + 1) from rfl]
      exact Outcome.bind_eq_ok.mpr ⟨_, hCommit, rfl⟩
    · have hBlocks : hs.committedBlocks ++ [s.block r (low + 1)] =
          (List.range' 1 (low + 1)).map (s.block r) := by
        rw [h.committedBlocks, List.range'_1_concat, List.map_append, Nat.add_comm 1 low]
        rfl
      exact { h with
        curView := by simp [entered]
        preferredView := hView
        highQC := rfl
        forrest := hSpine
        committedBlocks := hBlocks
        forkedBlocks := by rw [h.forkedBlocks]; rfl
        total := by rw [hQuorum]; exact h.total
        unvoted := fun k hk hk' => by
          rw [hQuorum, Quorum.votesFor_forget]
          split_ifs
          · rfl
          · exact h.unvoted k hk hk' }
    · intro k hk hk'
      rw [hQuorum, Quorum.votesFor_forget, if_neg]
      · rfl
      · intro hSame
        have := hDistinct k (low + 1) hk' (by lia) hSame
        omega

theorem checkSignature_eq (hs : HotStuff) (view : Nat) (h : 1 ≤ view) :
    hs.checkSignature s.cfg (s.block r view) = .ok () := by
  unfold HotStuff.checkSignature
  split_ifs
  · rfl
  · cases view with
    | zero => omega
    | succ view =>
        have hVerify := pubVerify_eq (s.leader_mem (view + 1 : Nat)) (s.ident (view + 1))
        exact Outcome.bind_eq_ok.mpr ⟨true, hVerify, rfl⟩

/-- The certificate in the next proposal. Its proposer has processed it before; the others
enter the view with it. -/
theorem InStep.processBlockQC (hDistinct : s.Distinct last)
    (h : s.InStep last waiting r current seen hs)
    (hTurn : current = if r = s.leader (seen + 1) then seen + 1 else seen) (hLast : seen ≤ last) :
    ∃ hs', hs.processBlockQC s.cfg (s.block r (seen + 1)) (s.certified seen) = .ok hs' ∧
      s.InStep last waiting r (seen + 1) seen hs' ∧
      hs'.pm.newViewChan = hs.pm.newViewChan ++
        (if r = s.leader (seen + 1) then [] else [(seen + 1 : View)]) ∧
      hs'.outbox = hs.outbox := by
  unfold HotStuff.processBlockQC
  have hProposer : (s.block r (seen + 1)).proposer = s.leader (seen + 1) := rfl
  rw [hProposer, h.id]
  by_cases hOwn : r = s.leader (seen + 1)
  · rw [if_pos hOwn] at hTurn
    subst hTurn
    rw [if_pos hOwn.symm, if_pos hOwn]
    refine ⟨hs, ?_, h, by simp, rfl⟩
    rw [HotStuff.updateHighQC, h.highQC, Nat.add_sub_cancel, if_neg (lt_irrefl _)]
    rfl
  · rw [if_neg hOwn] at hTurn
    subst hTurn
    rw [if_neg (Ne.symm hOwn), if_neg hOwn]
    have hHigh : hs.updateHighQC (s.certified current) = { hs with
        highQC := s.certified current } := by
      unfold HotStuff.updateHighQC
      split_ifs with hLater
      · rfl
      · rw [h.highQC, certified_view, certified_view] at hLater
        rw [show current = current - 1 by lia, ← h.highQC]
    rw [hHigh]
    have hAligned : s.Aligned last waiting r current current
        { hs with highQC := s.certified current } := { h.toAligned with }
    obtain ⟨hs', hCertificate, hStep, hChan, hOutbox, _⟩ :=
      hAligned.processCertificate hDistinct (Or.inr rfl) (le_refl _) hLast
    exact ⟨hs', hCertificate, hStep, hChan, hOutbox⟩

/-- The latest proposal may be voted for. -/
theorem InStep.votingRule (hDistinct : s.Distinct last) (h : s.InStep last waiting r seen seen hs)
    (hOne : 1 ≤ seen) (hLast : seen ≤ last) : hs.votingRule (s.block r seen) = some true := by
  have hView : (s.block r seen).view = (seen : Nat) := rfl
  unfold HotStuff.votingRule
  split_ifs with hFirst
  · rfl
  · obtain ⟨k, rfl⟩ : ∃ k, seen = k + 1 := ⟨seen - 1, by omega⟩
    have hParent := BlockChain.spine_getParentBlock (consecutive hDistinct r) h.forrest
      hLast (k := k) (by lia) (by omega) (le_refl _)
    have hLock := h.preferredView
    rw [show (s.block r (k + 1)).id = s.ident (k + 1) from rfl,
      show hs.bc.getParentBlock (s.ident (k + 1)) = some (s.block r k) from hParent]
    simp only [Option.some.injEq, decide_eq_true_eq, not_or, not_le, not_lt]
    constructor
    · rw [h.lastVotedView, hView]
      lia
    · exact hLock

/-- The next proposal is stored, and the replica votes for it. -/
theorem InStep.takeUp (hDistinct : s.Distinct last) (h : s.InStep last waiting r current seen hs)
    (hTurn : current = if r = s.leader (seen + 1) then seen + 1 else seen)
    (hLast : seen + 1 ≤ last) :
    ∃ taken accept, hs.takeUp s.cfg (s.block r (seen + 1)) = .ok (taken, .votes accept) ∧
      s.InStep last waiting r (seen + 1) (seen + 1) taken ∧
      taken.pm.newViewChan = hs.pm.newViewChan ++
        (if r = s.leader (seen + 1) then [] else [(seen + 1 : View)]) ∧
      taken.outbox = hs.outbox ∧ taken.bc.quorum.votesFor (s.ident (seen + 1)) = ∅ := by
  obtain ⟨admitted, hAdmit, hStep, hChan, hOutbox⟩ :=
    h.processBlockQC hDistinct hTurn (by omega)
  have hStored := hStep.forrest.addVertex (consecutive hDistinct r) (by omega) hLast
  let stored : HotStuff := { admitted with bc := admitted.bc.addBlock (s.container r (seen + 1)) }
  have hTaken : s.InStep last waiting r (seen + 1) (seen + 1) stored :=
    { hStep with
      forrest := hStored
      unvoted := fun k hk hk' => hStep.unvoted k (by omega) hk' }
  refine ⟨stored, admitted.snapshot, ?_, hTaken, hChan, hOutbox,
    hStep.unvoted _ (Nat.lt_succ_self seen) hLast⟩
  have hCurrent := h.curView
  have hEntered := hStep.curView
  have hView : (s.block r (seen + 1)).view = (seen + 1 : Nat) := rfl
  refine HotStuff.takeUp_votes rfl (checkSignature_eq hs (seen + 1) (by omega)) ?_ hAdmit ?_ ?_ ?_ ?_
  · split_ifs at hTurn <;> lia
  · exact hEntered.le
  · exact (s.isLeader_iff _ (s.leader_mem _) _).mpr rfl
  · have hNone : admitted.bufferedQCs.lookup (s.block r (seen + 1)).id = none := by
      rw [hStep.bufferedQCs, Finmap.lookup_empty]
    unfold HotStuff.storeBlock
    dsimp only
    rw [hNone]
    rfl
  · exact hTaken.votingRule hDistinct (by omega) hLast

variable (s) in
/-- The next leader while it collects the votes of a view. With the last one that it needs it
enters the next view and announces it. -/
structure Collects (last : Nat) (waiting : Table View Block) (view : Nat) (done : List NodeID)
    (announced : List View) (hs : HotStuff) : Prop where
  inStep : s.InStep last waiting (s.leader (view + 1))
    (if done.length < s.quorum then view else view + 1) view hs
  tallies : s.Tallies view done hs.bc.quorum
  newViewChan : hs.pm.newViewChan =
    announced ++ if done.length < s.quorum then [] else [(view + 1 : View)]

theorem voteVerified_eq (hs : HotStuff) {view : Nat} {voter : NodeID} (h : voter ∈ s.peers) :
    hs.voteVerified s.cfg (s.ballot view voter) = .ok true := by
  unfold HotStuff.voteVerified
  split_ifs
  · rfl
  · exact pubVerify_eq h (s.ident view)

theorem Collects.processVote {view : Nat} {done : List NodeID} {announced : List View}
    {voter : NodeID} (hDistinct : s.Distinct last)
    (h : s.Collects last waiting view done announced hs)
    (hView : 1 ≤ view) (hLast : view ≤ last) (hNext : done ++ [voter] <+: s.voters view) :
    ∃ hs', hs.processVote s.cfg (s.ballot view voter) = .ok hs' ∧
      s.Collects last waiting view (done ++ [voter]) announced hs' ∧ hs'.outbox = hs.outbox := by
  have hVoter : voter ∈ s.peers := voters_mem.mp (hNext.subset (by simp))
  have hTotal := h.inStep.total
  obtain ⟨hTallies, hBuilt, hOther⟩ := h.tallies.add hTotal hView hNext
  have hLength : (done ++ [voter]).length = done.length + 1 := by simp
  let counted : HotStuff := { hs with bc := (hs.bc.addVote (s.ballot view voter)).1 }
  have hCounted : ∀ current, s.InStep last waiting (s.leader (view + 1)) current view hs →
      s.InStep last waiting (s.leader (view + 1)) current view counted := fun current hStep =>
    { hStep with
      total := (Quorum.add_total _ _).trans hTotal
      unvoted := fun k hk hk' => by
        have hId : s.ident k ≠ s.ident view := by
          intro hSame
          have := hDistinct k view hk' hLast hSame
          omega
        exact (hOther _ hId).trans (hStep.unvoted k hk hk') }
  have hAdded : (hs.bc.addVote (s.ballot view voter)).2 =
      if done.length + 1 = s.quorum then some { s.certified view with leader := "" } else none :=
    hBuilt
  unfold HotStuff.processVote
  rw [voteVerified_eq hs hVoter, Outcome.ok_bind, if_neg (by decide)]
  dsimp only
  rw [hAdded]
  by_cases hEnough : done.length + 1 = s.quorum
  · rw [if_pos hEnough]
    have hStep := h.inStep
    rw [if_pos (by omega)] at hStep
    have hBlock : counted.bc.getBlockByID (s.ident view) = some (s.block (s.leader (view + 1)) view) :=
      BlockChain.spine_getBlockByID hStep.forrest hView (by omega) (le_refl _)
    have hLeader : ({ s.certified view with leader := hs.id } : QC) = s.certified view := by
      rw [hStep.id, certified_eq hView]
      rfl
    have hSame := hCounted view hStep
    obtain ⟨hs', hCertificate, hEntered, hChan, hOutbox, hVotes⟩ :=
      hSame.toAligned.processCertificate hDistinct (Or.inl hSame.highQC) (le_refl _) hLast
    refine ⟨hs', ?_, ⟨?_, ?_, ?_⟩, hOutbox⟩
    · have hFound : (hs.bc.addVote (s.ballot view voter)).1.getBlockByID (s.certified view).blockID =
          some (s.block (s.leader (view + 1)) view) := hBlock
      dsimp only
      rw [hLeader, hFound]
      exact hCertificate
    · rw [if_neg (by omega)]
      exact hEntered
    · unfold Tallies
      rw [hVotes view (le_refl _) hLast]
      exact hTallies
    · rw [hChan, if_neg (by omega)]
      change hs.pm.newViewChan ++ _ = _
      rw [h.newViewChan, if_pos (by omega), List.append_nil]
  · rw [if_neg hEnough]
    have hSame : (if (done ++ [voter]).length < s.quorum then view else view + 1) =
        if done.length < s.quorum then view else view + 1 := by
      split_ifs <;> omega
    refine ⟨counted, rfl, ⟨?_, hTallies, ?_⟩, rfl⟩
    · rw [hSame]
      exact hCounted _ h.inStep
    · change hs.pm.newViewChan = _
      rw [h.newViewChan]
      congr 1
      split_ifs <;> first | rfl | omega

variable (s) in
/-- A replica after its vote in a view. The next leader has counted its own vote. -/
def Voted (last : Nat) (waiting : Table View Block) (view : Nat) (r : NodeID)
    (announced : List View) (hs : HotStuff) : Prop :=
  if r = s.leader (view + 1) then s.Collects last waiting view [r] announced hs
  else s.InStep last waiting r view view hs ∧ hs.pm.newViewChan = announced

/-- The vote of a replica on its way to the next leader. -/
def votesSent (s : FaultFree) (view : Nat) (r : NodeID) : List Message :=
  if r = s.leader (view + 1) then [] else [.vote (s.leader (view + 1)) (s.ballot view r)]

theorem InStep.castVote {view : Nat} (hDistinct : s.Distinct last)
    (h : s.InStep last waiting r view view hs) (hr : r ∈ s.peers) (hView : 1 ≤ view)
    (hLast : view ≤ last)
    (hUnvoted : r = s.leader (view + 1) → hs.bc.quorum.votesFor (s.ident view) = ∅)
    (record : VoteRecord) (hRecord : record.block = s.block r view) :
    ∃ hs', hs.castVote s.cfg record = .ok hs' ∧ s.Voted last waiting view r hs.pm.newViewChan hs' ∧
      hs'.outbox = hs.outbox ++ s.votesSent view r := by
  have hId : (s.block r view).id = s.ident view := proposal_id hView
  have hNextView : (s.block r view).view + 1 = (view + 1 : Nat) := rfl
  have hVote : makeVote s.cfg.keys (s.block r view).view hs.id (s.block r view).id =
      .ok (s.ballot view r) := by
    rw [makeVote, h.id, hId, privSign_eq hr]
    rfl
  unfold HotStuff.castVote
  dsimp only
  rw [hRecord, hVote, Outcome.ok_bind, hNextView]
  unfold Voted votesSent
  have hLogged : s.InStep last waiting r view view { hs with voteLog := hs.voteLog ++ [record] } :=
    { h with }
  by_cases hCollector : r = s.leader (view + 1)
  · have hCollects : s.Collects last waiting view [] hs.pm.newViewChan
        { hs with voteLog := hs.voteLog ++ [record] } := by
      refine ⟨?_, ?_, ?_⟩
      · rw [if_pos (by simp [quorum]), ← hCollector]
        exact hLogged
      · unfold Tallies
        rw [show _ = _ from hUnvoted hCollector]
        simp
      · rw [if_pos (by simp [quorum]), List.append_nil]
    obtain ⟨hs', hProcess, hDone, hOutbox⟩ := hCollects.processVote hDistinct hView hLast
      (show [] ++ [r] <+: s.voters view by simp [voters, hCollector])
    refine ⟨hs', ?_, ?_, ?_⟩
    · exact (if_pos (h.id.trans hCollector).symm).trans hProcess
    · rw [if_pos hCollector]
      exact hDone
    · rw [if_pos hCollector, List.append_nil]
      exact hOutbox
  · refine ⟨_, if_neg fun hSame => hCollector (h.id.symm.trans hSame.symm), ?_, ?_⟩
    · rw [if_neg hCollector]
      exact ⟨{ hLogged with }, rfl⟩
    · rw [if_neg hCollector]
      rfl

/-- A replica that is given the next proposal votes for it. -/
theorem InStep.votes (hDistinct : s.Distinct last)
    (h : s.InStep last waiting r current seen hs)
    (hTurn : current = if r = s.leader (seen + 1) then seen + 1 else seen) (hr : r ∈ s.peers)
    (hLast : seen + 1 ≤ last) :
    ∃ taken accept voted,
      (hs.logCall (s.block r (seen + 1))).takeUp s.cfg (s.block r (seen + 1)) =
        .ok (taken, .votes accept) ∧
      taken.castVote s.cfg ⟨s.block r (seen + 1), hs.snapshot, accept, taken.snapshot⟩ =
        .ok voted ∧
      s.Voted last waiting (seen + 1) r (hs.pm.newViewChan ++
        if r = s.leader (seen + 1) then [] else [(seen + 1 : View)]) voted ∧
      voted.outbox = hs.outbox ++ s.votesSent (seen + 1) r := by
  have hLogged : s.InStep last waiting r current seen (hs.logCall (s.block r (seen + 1))) :=
    { h with }
  obtain ⟨taken, accept, hTakeUp, hStep, hChan, hOutbox, hUnvoted⟩ :=
    hLogged.takeUp hDistinct hTurn hLast
  obtain ⟨voted, hCast, hVoted, hSent⟩ := hStep.castVote hDistinct hr (by omega) hLast
    (fun _ => hUnvoted)
    ⟨s.block r (seen + 1), hs.snapshot, accept, taken.snapshot⟩ rfl
  refine ⟨taken, accept, voted, hTakeUp, hCast, ?_, ?_⟩
  · rw [hChan] at hVoted
    exact hVoted
  · rw [hSent, hOutbox]
    rfl

theorem Voted.bufferedBlocks {view : Nat} {announced : List View}
    (h : s.Voted last waiting view r announced hs) : hs.bufferedBlocks = waiting := by
  unfold Voted at h
  split_ifs at h
  · exact h.inStep.bufferedBlocks
  · exact h.1.bufferedBlocks

theorem InStep.processBlock (hDistinct : s.Distinct last) (h : s.InStep last ∅ r current seen hs)
    (hTurn : current = if r = s.leader (seen + 1) then seen + 1 else seen) (hr : r ∈ s.peers)
    (hLast : seen + 1 ≤ last) :
    ∃ hs', hs.processBlock s.cfg (s.block r (seen + 1)) = .ok (hs', .ok ()) ∧
      s.Voted last ∅ (seen + 1) r (hs.pm.newViewChan ++
        if r = s.leader (seen + 1) then [] else [(seen + 1 : View)]) hs' ∧
      hs'.outbox = hs.outbox ++ s.votesSent (seen + 1) r := by
  obtain ⟨taken, accept, voted, hTakeUp, hCast, hVoted, hSent⟩ :=
    h.votes hDistinct hTurn hr hLast
  refine ⟨voted, ?_, hVoted, hSent⟩
  rw [HotStuff.processBlock, h.bufferedBlocks, Finmap.keys_empty, Finset.card_empty,
    HotStuff.processBlockDepth, hTakeUp, Outcome.ok_bind]
  dsimp only
  rw [hCast, Outcome.ok_bind, hVoted.bufferedBlocks, Finmap.lookup_empty]
  rfl

theorem InStep.makeProposal (h : s.InStep last waiting (s.leader (seen + 1)) (seen + 1) seen hs) :
    hs.makeProposal s.cfg (seen + 1 : Nat)
      (s.payload (seen + 1) (s.leader (seen + 1))).generateHashList
      (s.payload (seen + 1) (s.leader (seen + 1))).generateGroupList
      (s.payload (seen + 1) (s.leader (seen + 1))).ackNode
      (s.payload (seen + 1) (s.leader (seen + 1))).generateTimeList
      (s.payload (seen + 1) (s.leader (seen + 1))).txNums = .ok (s.proposal (seen + 1)) := by
  rw [HotStuff.makeProposal, HotStuff.forkChoice, if_pos (Or.inl h.honest), pure_bind, h.highQC,
    h.id]
  exact Outcome.bind_eq_ok.mpr ⟨_, privSign_eq (leader_mem_peers (seen + 1)) _, rfl⟩

end Replica

end FaultFree

end Bamboo
