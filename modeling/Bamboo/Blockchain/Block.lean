import Bamboo.Blockchain.Quorum

/-! Microblocks, proposals and blocks. Times are kept where a modelled function
copies or compares them; measurement fields are left out. -/
namespace Bamboo

open Library

structure Transaction where
  id : String := ""
  timestamp : Int
deriving DecidableEq

structure MicroBlock where
  groupId : Int := 0
  hash : Identifier
  txns : List Transaction := []
  timestamp : Int := 0
  sender : NodeID := ""
  /-- Only a shell, whose content has not been received. -/
  isFake : Bool := false
  isRequested : Bool := false
  isForward : Bool := false
  hops : Int := 0
  committedNo : Int := 0
  generateNodeList : Finset NodeID := ∅
  createTimeStamp : Int := 0
deriving DecidableEq

/-- `NewMicroblock`. Its hash and its group are inputs of the model. -/
def newMicroblock (hash : Identifier) (groupId : Int) (txns : List Transaction) (now : Int) :
    MicroBlock :=
  { groupId, hash, txns, timestamp := now, createTimeStamp := now }

/-- A record for which the node `id` asks nobody: it has content, or the node is
not named as a holder. -/
def MicroBlock.Inert (id : NodeID) (mb : MicroBlock) : Prop :=
  mb.isFake = true → id ∉ mb.generateNodeList

structure BlockHeader where
  view : View
  qc : Option QC
  proposer : NodeID
  prevID : Identifier
  sig : Signature := []
  id : Identifier
deriving DecidableEq

structure Payload where
  microblockList : List MicroBlock := []
  /-- Signatures of acks that arrived before their microblock. -/
  sigMap : Table Identifier (Listing NodeID Signature) := ∅
  ackNode : List (Finset NodeID) := []
  txNums : List Int := []
deriving DecidableEq

namespace Payload

def generateHashList (payload : Payload) : List Identifier :=
  payload.microblockList.map MicroBlock.hash

def generateGroupList (payload : Payload) : List Int :=
  payload.microblockList.map MicroBlock.groupId

def generateTimeList (payload : Payload) : List Int :=
  payload.microblockList.map MicroBlock.timestamp

end Payload

structure Block extends BlockHeader where
  payload : Payload := {}
deriving DecidableEq

structure Proposal extends BlockHeader where
  hashList : List Identifier := []
  txNums : List Int := []
  groupList : List Int := []
  ackNode : List (Finset NodeID) := []
  mbTime : List Int := []
deriving DecidableEq

/-- A proposal whose microblocks are being collected. -/
structure PendingBlock where
  payload : Payload
  proposal : Proposal
  missingMap : Finset Identifier := ∅
deriving DecidableEq

/-- The fields a proposal's identifier is computed from. -/
structure RawProposal where
  view : View
  qc : Option QC
  proposer : NodeID
  payload : List Identifier
  prevID : Identifier

/-- The block a proposal is completed to. -/
def buildBlock (proposal : Proposal) (payload : Payload) : Block :=
  { proposal.toBlockHeader with payload }

/-- The block, once nothing is missing. -/
def PendingBlock.completeBlock (pd : PendingBlock) : Option Block :=
  if pd.missingMap.card = 0 then some (buildBlock pd.proposal pd.payload) else none

/-- A microblock arrives. One that is not missing is ignored; the block is returned once
nothing is missing. -/
def PendingBlock.addMicroblock (pd : PendingBlock) (mb : MicroBlock) :
    PendingBlock × Option Block :=
  let pd := if mb.hash ∈ pd.missingMap then
      { pd with
        payload := { pd.payload with microblockList := pd.payload.microblockList ++ [mb] }
        missingMap := pd.missingMap.erase mb.hash }
    else pd
  (pd, pd.completeBlock)

theorem PendingBlock.completeBlock_eq {pd : PendingBlock} {block : Block}
    (h : pd.completeBlock = some block) : block = buildBlock pd.proposal pd.payload := by
  unfold PendingBlock.completeBlock at h
  split_ifs at h
  exact (Option.some.inj h).symm

theorem PendingBlock.completeBlock_payload {pd : PendingBlock} {block : Block}
    (h : pd.completeBlock = some block) : block.payload = pd.payload := by
  rw [completeBlock_eq h]
  rfl

/-- `Proposal.makeID`; `hash` stands for the encoding and hashing of `MakeID`. -/
def Proposal.makeID (keys : KeyRing) (hash : RawProposal → Identifier) (p : Proposal)
    (nodeID : NodeID) : Outcome Proposal := do
  let id := hash {
    view := p.view, qc := p.qc, proposer := p.proposer, payload := p.hashList, prevID := p.prevID }
  let sig ← keys.privSign id nodeID
  pure { p with id, sig }

/-- A signed proposal on top of the block `prevID`. -/
def buildProposal (keys : KeyRing) (hash : RawProposal → Identifier) (view : View) (qc : QC)
    (prevID : Identifier) (payload : List Identifier) (groupList : List Int)
    (ackNode : List (Finset NodeID)) (mbTime : List Int) (proposer : NodeID) (txNums : List Int) :
    Outcome Proposal :=
  Proposal.makeID keys hash
    { view, qc := some qc, proposer, prevID, id := 0, hashList := payload, groupList, ackNode,
      mbTime, txNums } proposer

/-- What a built proposal says about its position in the chain. -/
theorem buildProposal_ok {keys : KeyRing} {hash : RawProposal → Identifier} {view : View} {qc : QC}
    {prevID : Identifier} {payload : List Identifier} {groupList : List Int}
    {ackNode : List (Finset NodeID)} {mbTime : List Int} {proposer : NodeID} {txNums : List Int}
    {p : Proposal} (h : buildProposal keys hash view qc prevID payload groupList ackNode mbTime
      proposer txNums = .ok p) :
    p.view = view ∧ p.qc = some qc ∧ p.proposer = proposer ∧ p.prevID = prevID ∧
      p.hashList = payload ∧ p.id = hash { view, qc := some qc, proposer, payload, prevID } := by
  obtain ⟨sig, _, hProposal⟩ := Outcome.bind_eq_ok.mp h
  cases Outcome.pure_eq_ok.mp hProposal
  exact ⟨rfl, rfl, rfl, rfl, rfl, rfl⟩

/-- The proposal that `proposeBlock` makes of a payload. The consensus protocol
chooses the certificate. -/
def Payload.toProposal (keys : KeyRing) (hash : RawProposal → Identifier) (view : View) (qc : QC)
    (proposer : NodeID) (payload : Payload) : Outcome Proposal :=
  buildProposal keys hash view qc qc.blockID payload.generateHashList payload.generateGroupList
    payload.ackNode payload.generateTimeList proposer payload.txNums

/-- A proposal carries the lists of its payload. -/
theorem Payload.toProposal_lists {keys : KeyRing} {hash : RawProposal → Identifier} {view : View}
    {qc : QC} {proposer : NodeID} {payload : Payload} {p : Proposal}
    (h : payload.toProposal keys hash view qc proposer = .ok p) :
    p.hashList = payload.generateHashList ∧ p.groupList = payload.generateGroupList ∧
      p.mbTime = payload.generateTimeList ∧ p.ackNode = payload.ackNode ∧
      p.txNums = payload.txNums := by
  obtain ⟨sig, _, hProposal⟩ := Outcome.bind_eq_ok.mp h
  cases Outcome.pure_eq_ok.mp hProposal
  exact ⟨rfl, rfl, rfl, rfl, rfl⟩

end Bamboo
