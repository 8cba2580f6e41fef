import Bamboo.Blockchain.Chain
import Bamboo.Pacemaker

/-! The HotStuff replica. A handler maps the state before the call to the state
after it; what it puts on a channel or hands to the network is appended to a
list of the state. Calls are atomic: they happen one after the other. In the code
`ListenLocalEvent` calls `ProcessLocalTmo` in a goroutine of its own, beside the
event loop, and no lock keeps the two apart. `calls` and `voteLog` are history variables which no handler
reads: they record every entry into `ProcessBlock`, nested ones included, and
every vote, together with the moments of the call the vote was made in. -/
namespace Bamboo

open Library

/-- Who leads a view, as the two methods of the election answer it. -/
structure Election where
  isLeader : NodeID → View → Bool
  findLeaderFor : View → NodeID

/-- The two methods agree, so that every view has one leader. -/
def Election.Consistent (e : Election) : Prop :=
  ∀ id view, e.isLeader id view = true ↔ id = e.findLeaderFor view

/-- What the replicas share: the keys, the election, the Byzantine strategy of
the configuration and the hash that identifies proposals. -/
structure Config where
  keys : KeyRing
  election : Election
  forkStrategy : Bool := false
  hash : RawProposal → Identifier

/-- What a replica hands to the network. Proposals and timeouts are broadcast. -/
inductive Message where
  | proposal (p : Proposal)
  | vote (recipient : NodeID) (vote : Vote)
  | tmo (tmo : TMO)
deriving DecidableEq

/-- The part of a replica's state that a vote depends on. -/
structure Snapshot where
  curView : View
  preferredView : View
  forest : LevelledForest

/-- An entry into `ProcessBlock`, with the views of the votes made before it. -/
structure Call where
  block : Block
  entry : Snapshot
  votedViews : List View

/-- A vote: the state when its call was entered, when the block was found to be
current, and when the vote was made. -/
structure VoteRecord where
  block : Block
  entry : Snapshot
  accept : Snapshot
  cast : Snapshot

structure HotStuff where
  id : NodeID
  isByz : Bool
  pm : Pacemaker
  lastVotedView : View
  preferredView : View
  highQC : QC
  bc : BlockChain
  committedBlocks : List Block
  forkedBlocks : List Block
  bufferedQCs : Table Identifier QC
  bufferedBlocks : Table View Block
  outbox : List Message
  calls : List Call
  voteLog : List VoteRecord

/-- The errors `ProcessBlock` returns. -/
inductive BlockError where
  | missingQC
  | invalidLeader
  | cannotVote
deriving DecidableEq, Repr

/-- How the part of `ProcessBlock` before the vote ends. -/
inductive Verdict where
  | returns (result : Except BlockError Unit)
  | votes (accept : Snapshot)

namespace HotStuff

def new (id : NodeID) (isByz : Bool) (n : Nat) : HotStuff where
  id
  isByz
  pm := .new n
  lastVotedView := 0
  preferredView := 0
  highQC := .initial
  bc := .new n
  committedBlocks := []
  forkedBlocks := []
  bufferedQCs := ∅
  bufferedBlocks := ∅
  outbox := []
  calls := []
  voteLog := []

def snapshot (hs : HotStuff) : Snapshot :=
  { curView := hs.pm.curView, preferredView := hs.preferredView, forest := hs.bc.forrest }

def send (hs : HotStuff) (message : Message) : HotStuff :=
  { hs with outbox := hs.outbox ++ [message] }

def advanceView (hs : HotStuff) (view : View) : HotStuff :=
  { hs with pm := hs.pm.advanceView view }

def bufferQC (hs : HotStuff) (qc : QC) : HotStuff :=
  { hs with bufferedQCs := hs.bufferedQCs.insert qc.blockID qc }

def updateHighQC (hs : HotStuff) (qc : QC) : HotStuff :=
  if hs.highQC.view < qc.view then { hs with highQC := qc } else hs

/-- The lock moves to the view of the certified block's parent, when that view
is higher; `none` is the error for a block or parent that is not stored. -/
def updatePreferredView (hs : HotStuff) (qc : QC) : Option HotStuff :=
  if qc.view ≤ 2 then some hs
  else
    match hs.bc.getBlockByID qc.blockID, hs.bc.getParentBlock qc.blockID with
    | some _, some grandParent =>
        some (if hs.preferredView < grandParent.view
          then { hs with preferredView := grandParent.view } else hs)
    | _, _ => none

/-- The block that a certificate commits: its block's grandparent, when the
three are in consecutive views. -/
def commitRule (hs : HotStuff) (qc : QC) : Option Block :=
  match hs.bc.getParentBlock qc.blockID with
  | none => none
  | some parent =>
      match hs.bc.getParentBlock parent.id with
      | none => none
      | some grandParent =>
          if grandParent.view + 1 = parent.view ∧ parent.view + 1 = qc.view
          then some grandParent else none

/-- Whether to vote; `none` is the error for a parent that is not stored. -/
def votingRule (hs : HotStuff) (block : Block) : Option Bool :=
  if block.view ≤ 2 then some true
  else
    match hs.bc.getParentBlock block.id with
    | none => none
    | some parent =>
        some (decide ¬(block.view ≤ hs.lastVotedView ∨ parent.view < hs.preferredView))

/-- `CommitBlock` and the two channels its result is sent on. -/
def commit (hs : HotStuff) (block : Block) : Outcome HotStuff := do
  let (bc, result) ← hs.bc.commitBlock block.id hs.pm.curView
  match result with
  | none => pure { hs with bc }
  | some (committed, forked) =>
      pure { hs with
        bc
        committedBlocks := hs.committedBlocks ++ committed
        forkedBlocks := hs.forkedBlocks ++ forked }

/-- The signature check of `processCertificate`, skipped for a certificate that
names this replica as its leader. -/
def certificateVerified (cfg : Config) (hs : HotStuff) (qc : QC) : Outcome Bool :=
  if qc.leader = hs.id then pure true
  else cfg.keys.verifyQuorumSignature qc.blockID qc.aggSig qc.signers

/-- The part of `processCertificate` after the lock has been updated. -/
def applyCertificate (hs : HotStuff) (qc : QC) : Outcome HotStuff :=
  let hs := (hs.advanceView qc.view).updateHighQC qc
  if qc.view < 3 then pure hs
  else
    match hs.commitRule qc with
    | none => pure hs
    | some block => hs.commit block

def processCertificate (cfg : Config) (hs : HotStuff) (qc : QC) : Outcome HotStuff :=
  if qc.view < hs.pm.curView then pure hs
  else do
    let verified ← hs.certificateVerified cfg qc
    if verified = false then pure hs
    else if hs.isByz ∧ cfg.forkStrategy ∧ cfg.election.isLeader hs.id (qc.view + 1) then
      pure (hs.advanceView qc.view)
    else
      match hs.updatePreferredView qc with
      | none => pure (hs.bufferQC qc)
      | some locked => locked.applyCertificate qc

/-- The signature check of `ProcessVote`, skipped for the replica's own votes. -/
def voteVerified (cfg : Config) (hs : HotStuff) (vote : Vote) : Outcome Bool :=
  if vote.voter = hs.id then pure true
  else cfg.keys.pubVerify vote.signature vote.blockID vote.voter

def processVote (cfg : Config) (hs : HotStuff) (vote : Vote) : Outcome HotStuff := do
  let verified ← hs.voteVerified cfg vote
  if verified = false then pure hs
  else
    let added := hs.bc.addVote vote
    let hs := { hs with bc := added.1 }
    match added.2 with
    | none => pure hs
    | some qc =>
        let qc := { qc with leader := hs.id }
        match hs.bc.getBlockByID qc.blockID with
        | none => pure (hs.bufferQC qc)
        | some _ => hs.processCertificate cfg qc

/-- The signature check of `ProcessBlock`. Its result is only logged, but it
reads the proposer's key and the signature's components. -/
def checkSignature (cfg : Config) (hs : HotStuff) (block : Block) : Outcome Unit :=
  if block.proposer = hs.id then pure ()
  else do
    let _ ← cfg.keys.pubVerify block.sig block.id block.proposer
    pure ()

/-- The certificate of a block, which its own proposer does not process. -/
def processBlockQC (cfg : Config) (hs : HotStuff) (block : Block) (qc : QC) : Outcome HotStuff :=
  if block.proposer = hs.id then pure (hs.updateHighQC qc)
  else (hs.updateHighQC qc).processCertificate cfg qc

/-- Add a block to the chain and process the certificate that waits for it. -/
def storeBlock (cfg : Config) (hs : HotStuff) (container : BlockContainer) : Outcome HotStuff :=
  let hs := { hs with bc := hs.bc.addBlock container }
  match hs.bufferedQCs.lookup container.block.id with
  | none => pure hs
  | some qc => do
      let hs ← hs.processCertificate cfg qc
      pure { hs with bufferedQCs := hs.bufferedQCs.erase container.block.id }

/-- `ProcessBlock` up to the decision whether to vote. -/
def takeUp (cfg : Config) (hs : HotStuff) (block : Block) : Outcome (HotStuff × Verdict) := do
  hs.checkSignature cfg block
  if hs.pm.curView + 1 < block.view then
    pure ({ hs with bufferedBlocks := hs.bufferedBlocks.insert (block.view - 1) block },
      .returns (.ok ()))
  else
    match hQC : block.qc with
    | none => pure (hs, .returns (.error .missingQC))
    | some qc => do
        let admitted ← hs.processBlockQC cfg block qc
        if block.view < admitted.pm.curView then pure (admitted, .returns (.ok ()))
        else if cfg.election.isLeader block.proposer block.view = false then
          pure (admitted, .returns (.error .invalidLeader))
        else do
          let stored ← admitted.storeBlock cfg ⟨block, qc, hQC⟩
          match stored.votingRule block with
          | none => pure (stored, .returns (.error .cannotVote))
          | some false => pure (stored, .returns (.ok ()))
          | some true => pure (stored, .votes admitted.snapshot)

/-- Make the vote and send it to the leader of the next view. -/
def castVote (cfg : Config) (hs : HotStuff) (record : VoteRecord) : Outcome HotStuff := do
  let block := record.block
  let vote ← makeVote cfg.keys block.view hs.id block.id
  let hs := { hs with voteLog := hs.voteLog ++ [record] }
  let voteAggregator := cfg.election.findLeaderFor (block.view + 1)
  if voteAggregator = hs.id then hs.processVote cfg vote
  else pure (hs.send (.vote voteAggregator vote))

def logCall (hs : HotStuff) (block : Block) : HotStuff :=
  { hs with calls := hs.calls ++ [{
      block, entry := hs.snapshot, votedViews := hs.voteLog.map fun record => record.block.view }] }

/-- `ProcessBlock` with a bound on the depth of its calls to itself. -/
def processBlockDepth (cfg : Config) : Nat → HotStuff → Block →
    Outcome (HotStuff × Except BlockError Unit)
  | 0, _, _ => throw .diverges
  | depth + 1, hs, block => do
      let (taken, verdict) ← (hs.logCall block).takeUp cfg block
      match verdict with
      | .returns result => pure (taken, result)
      | .votes accept => do
          let voted ← taken.castVote cfg
            { block, entry := hs.snapshot, accept, cast := taken.snapshot }
          match voted.bufferedBlocks.lookup block.view with
          | none => pure (voted, .ok ())
          | some next => do
              let (last, _) ← processBlockDepth cfg depth voted next
              pure ({ last with bufferedBlocks := last.bufferedBlocks.erase block.view }, .ok ())

/-- Each nested call takes a block from the buffer of a higher view. -/
def processBlock (cfg : Config) (hs : HotStuff) (block : Block) :
    Outcome (HotStuff × Except BlockError Unit) :=
  processBlockDepth cfg (hs.bufferedBlocks.keys.card + 1) hs block

def processTC (hs : HotStuff) (tc : TC) : HotStuff :=
  if tc.view < hs.pm.curView then hs else hs.advanceView tc.view

def processRemoteTmo (cfg : Config) (hs : HotStuff) (tmo : TMO) : Outcome HotStuff :=
  match tmo.highQC with
  | none => throw .nilDereference
  | some qc => do
      let hs ← hs.processCertificate cfg qc
      let processed := hs.pm.processRemoteTmo tmo
      let hs := { hs with pm := processed.1 }
      match processed.2 with
      | none => pure hs
      | some tc => pure (hs.processTC tc)

def processLocalTmo (cfg : Config) (hs : HotStuff) (view : View) : Outcome HotStuff :=
  let hs := hs.advanceView view
  let tmo : TMO := { view := view + 1, nodeID := hs.id, highQC := some hs.highQC }
  (hs.send (.tmo tmo)).processRemoteTmo cfg tmo

/-- `forkChoice`. A Byzantine replica under the fork strategy goes back to the
certificate of the block its highest certificate is for. -/
def forkChoice (cfg : Config) (hs : HotStuff) : Outcome QC :=
  if hs.isByz = false ∨ cfg.forkStrategy = false then pure hs.highQC
  else
    match (hs.bc.getBlockByID hs.highQC.blockID).bind fun block => block.qc with
    | none => throw .nilDereference
    | some qc =>
        let choice := if qc.view < hs.preferredView then hs.highQC else qc
        pure { choice with view := hs.pm.curView - 1 }

def makeProposal (cfg : Config) (hs : HotStuff) (view : View) (payload : List Identifier)
    (groupList : List Int) (ackNode : List (Finset NodeID)) (mbTime : List Int)
    (txNums : List Int) : Outcome Proposal := do
  let qc ← hs.forkChoice cfg
  buildProposal cfg.keys cfg.hash view qc qc.blockID payload groupList ackNode mbTime hs.id txNums

/-- `kickOff`: the leader of the first view leaves view zero. -/
def kickOff (cfg : Config) (hs : HotStuff) : HotStuff :=
  if hs.pm.curView = 0 ∧ cfg.election.isLeader hs.id 1 then hs.advanceView 0 else hs

/-- What the event loop of one replica can be given. -/
inductive Event where
  | block (block : Block)
  | vote (vote : Vote)
  | tmo (tmo : TMO)
  | localTmo (view : View)
  | kickOff

def step (cfg : Config) (hs : HotStuff) : Event → Outcome HotStuff
  | .block block => do
      let (hs, _) ← hs.processBlock cfg block
      pure hs
  | .vote vote => hs.processVote cfg vote
  | .tmo tmo => hs.processRemoteTmo cfg tmo
  | .localTmo view => hs.processLocalTmo cfg view
  | .kickOff => pure (hs.kickOff cfg)

/-- `proposeBlock`: broadcast a proposal and process the own block. -/
def proposeBlock (cfg : Config) (hs : HotStuff) (view : View) (payload : Payload) :
    Outcome HotStuff := do
  let proposal ← hs.makeProposal cfg view payload.generateHashList payload.generateGroupList
    payload.ackNode payload.generateTimeList payload.txNums
  (hs.send (.proposal proposal)).step cfg (.block (buildBlock proposal payload))

def processNewView (cfg : Config) (hs : HotStuff) (newView : View) (payload : Payload) :
    Outcome HotStuff :=
  if cfg.election.isLeader hs.id newView then hs.proposeBlock cfg newView payload else pure hs

end HotStuff

/-! A concrete configuration, on which later modules evaluate the handlers. -/
namespace Scenario

/-- Four replicas with ideal signatures under a given assignment of leaders; a
proposal is identified by its view. -/
def config (leader : View → NodeID) : Config where
  keys
  election := { isLeader := fun id view => id = leader view, findLeaderFor := leader }
  hash := fun raw => BitVec.ofNat 256 raw.view.toNat

/-- The certificate of three of the four replicas for a block. -/
def certificate (view : View) (id : Identifier) : QC where
  leader := "1"
  view
  blockID := id
  signers := ["1", "2", "3"]
  aggSig := [0, 1, 2].map fun i => keys.sign i id

/-- A block of replica 1 on top of the block that is named by its own view;
view zero stands for the start. -/
def block (id : Identifier) (view : View) (parent : Nat) : Block where
  view
  qc := some (if parent = 0 then .initial else certificate parent (BitVec.ofNat 256 parent))
  proposer := "1"
  prevID := BitVec.ofNat 256 parent
  sig := keys.sign 0 id
  id

end Scenario

end Bamboo
