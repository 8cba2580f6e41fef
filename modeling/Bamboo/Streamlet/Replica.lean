import Bamboo.HotStuff.Model
import Bamboo.Streamlet.Notarization

/-! The Streamlet replica. Its handlers call each other: a block is voted for, the vote may
complete a certificate, and a certificate releases blocks and certificates that have waited
for it. So that the states inside a handler are states of the system too, what is left to
do is kept as a stack of frames. A handler is cut where it calls another one and where it
reads the notarized chain. What the event loop hands over waits below the call that is being
executed, and a new view that a timeout certificate announces is set by a goroutine at some
later moment. -/
namespace Bamboo

open Library

/-- What a replica broadcasts. -/
inductive StreamletMessage where
  | block (container : BlockContainer)
  | vote (vote : Vote)
  | tmo (tmo : TMO)

/-- The errors `ProcessBlock` returns. Its nested calls ignore them. -/
inductive StreamletError where
  /-- "received a stale block" -/
  | staleBlock
  /-- "received a proposal (%v) from an invalid leader (%v)" -/
  | invalidLeader (view : View) (proposer : NodeID)
deriving DecidableEq

/-- Blocks carry a certificate, of which only the view is read, as the parent's level. -/
structure Streamlet where
  id : NodeID
  pm : Pacemaker
  bc : BlockChain
  notarization : Notarization := {}
  bufferedBlocks : Table Identifier BlockContainer := ∅
  bufferedQCs : Table Identifier QC := ∅
  echoedBlock : Finset Identifier := ∅
  committedBlocks : List Block := []
  forkedBlocks : List Block := []
  outbox : List StreamletMessage := []
  /-- The views that goroutines started by `processTC` are about to leave. -/
  goroutines : List View := []

/-- A call to be made, or what is left of one that waits for the calls above it. -/
inductive StreamletFrame where
  | processBlock (container : BlockContainer)
  /-- `ProcessBlock` from the voting rule on. -/
  | votingRule (container : BlockContainer)
  /-- `ProcessBlock` after the replica has processed its own vote. -/
  | voted (container : BlockContainer) (vote : Vote)
  /-- The block that waits for its parent. -/
  | bufferedBlock (id : Identifier)
  | processVote (vote : Vote)
  | processCertificate (qc : QC)
  /-- `processCertificate` from the update of the notarized chain on. -/
  | updateNotarizedChain (qc : QC)
  /-- `processCertificate` from the commit rule on. -/
  | commitRule (qc : QC)
  | deleteBufferedBlock (id : Identifier)
  /-- The certificate that waits for the notarization of its block's parent. -/
  | bufferedNotarizedBlock (id : Identifier)
  | deleteBufferedQC (id : Identifier)
  | processRemoteTmo (tmo : TMO)
  | processLocalTmo (view : View)

namespace Streamlet

def new (id : NodeID) (n : Nat) : Streamlet :=
  { id, pm := (Pacemaker.new n).advanceView 0, bc := .new n }

def broadcast (sl : Streamlet) (message : StreamletMessage) : Streamlet :=
  { sl with outbox := sl.outbox ++ [message] }

/-- Broadcast what is seen for the first time for a block. -/
def echo (sl : Streamlet) (id : Identifier) (message : StreamletMessage) : Streamlet :=
  if id ∈ sl.echoedBlock then sl
  else { sl with echoedBlock := insert id sl.echoedBlock }.broadcast message

def bufferBlock (sl : Streamlet) (container : BlockContainer) : Streamlet :=
  { sl with bufferedBlocks := sl.bufferedBlocks.insert container.block.prevID container }

/-- The signature check of `ProcessBlock`, whose result is only logged. -/
def checkSignature (cfg : Config) (sl : Streamlet) (block : Block) : Outcome Unit :=
  if block.proposer = sl.id then pure ()
  else do
    let _ ← cfg.keys.pubVerify block.sig block.id block.proposer
    pure ()

/-- `ProcessBlock` up to the voting rule. -/
def processBlock (cfg : Config) (sl : Streamlet) (container : BlockContainer) :
    Outcome (Streamlet × Except StreamletError (List StreamletFrame)) :=
  let block := container.block
  if (sl.bc.getBlockByID block.id).isSome then pure (sl, .ok [])
  else if block.view < sl.pm.curView then pure (sl, .error .staleBlock)
  else if sl.bc.getBlockByID block.prevID = none ∧ 1 < block.view then
    pure (sl.bufferBlock container, .ok [])
  else if cfg.election.isLeader block.proposer block.view = false then
    pure (sl, .error (.invalidLeader block.view block.proposer))
  else do
    sl.checkSignature cfg block
    let sl := sl.echo block.id (.block container)
    pure ({ sl with bc := sl.bc.addBlock container }, .ok [.votingRule container])

/-- A block that is not voted for is buffered, although it is stored. -/
def vote (cfg : Config) (sl : Streamlet) (container : BlockContainer) :
    Outcome (Streamlet × List StreamletFrame) := do
  let shouldVote ← sl.notarization.votingRule container.block
  if shouldVote then
    let vote ← makeVote cfg.keys container.block.view sl.id container.block.id
    pure (sl, [.processVote vote, .voted container vote])
  else pure (sl.bufferBlock container, [])

/-- The end of `ProcessBlock`. The buffered certificate stays in its buffer. -/
def voted (sl : Streamlet) (container : BlockContainer) (vote : Vote) :
    Streamlet × List StreamletFrame :=
  let certificates := (sl.bufferedQCs.lookup container.block.id).toList
  (sl.broadcast (.vote vote),
    certificates.map .processCertificate ++ [.bufferedBlock container.block.id])

/-- The signature check of `ProcessVote`, skipped for the replica's own votes. -/
def voteVerified (cfg : Config) (sl : Streamlet) (vote : Vote) : Outcome Bool :=
  if vote.voter = sl.id then pure true
  else cfg.keys.pubVerify vote.signature vote.blockID vote.voter

def processVote (cfg : Config) (sl : Streamlet) (vote : Vote) :
    Outcome (Streamlet × List StreamletFrame) := do
  let verified ← sl.voteVerified cfg vote
  if verified = false then pure (sl, [])
  else
    let sl := sl.echo vote.blockID (.vote vote)
    let added := sl.bc.addVote vote
    pure ({ sl with bc := added.1 }, added.2.toList.map .processCertificate)

/-- The signature check of `processCertificate`. A certificate that the replica has built
itself names no leader, so it is checked too. -/
def certificateVerified (cfg : Config) (sl : Streamlet) (qc : QC) : Outcome Bool :=
  if qc.leader = sl.id then pure true
  else cfg.keys.verifyQuorumSignature qc.blockID qc.aggSig qc.signers

/-- `processCertificate` up to the update of the notarized chain. -/
def processCertificate (cfg : Config) (sl : Streamlet) (qc : QC) :
    Outcome (Streamlet × List StreamletFrame) :=
  if qc.view < sl.pm.curView then pure (sl, [])
  else if sl.bc.getBlockByID qc.blockID = none ∧ 1 < qc.view then
    pure ({ sl with bufferedQCs := sl.bufferedQCs.insert qc.blockID qc }, [])
  else do
    let verified ← sl.certificateVerified cfg qc
    if verified = false then pure (sl, []) else pure (sl, [.updateNotarizedChain qc])

def updateNotarizedChain (sl : Streamlet) (qc : QC) :
    Outcome (Streamlet × List StreamletFrame) := do
  let (notarization, error) ← sl.notarization.updateNotarizedChain sl.bc qc
  let sl := { sl with notarization }
  if error.isSome then pure (sl, [])
  else
    let sl := { sl with pm := sl.pm.advanceView qc.view }
    if qc.view < 3 then pure (sl, []) else pure (sl, [.commitRule qc])

/-- The end of `processCertificate`, which is left early when nothing is committed. -/
def commit (sl : Streamlet) (qc : QC) : Outcome (Streamlet × List StreamletFrame) := do
  let some block ← sl.notarization.commitRule | pure (sl, [])
  let (bc, result) ← sl.bc.commitBlock block.id sl.pm.curView
  let sl := { sl with bc }
  match result with
  | none => pure (sl, [])
  | some (committed, forked) =>
      let sl := { sl with
        committedBlocks := sl.committedBlocks ++ committed
        echoedBlock := sl.echoedBlock \ (committed.map (·.id)).toFinset
        forkedBlocks := sl.forkedBlocks ++ forked }
      let waiting := (sl.bufferedBlocks.lookup qc.blockID).toList
      pure (sl, waiting.flatMap (fun container =>
        [.processBlock container, .deleteBufferedBlock qc.blockID]) ++
          [.bufferedNotarizedBlock qc.blockID])

/-- A certificate that is taken up again is deleted from the other buffer. -/
def takeNotarized (sl : Streamlet) (id : Identifier) : List StreamletFrame :=
  (sl.notarization.bufferedNotarizedBlock.lookup id).toList.flatMap fun qc =>
    [.processCertificate qc, .deleteBufferedQC qc.blockID]

def processRemoteTmo (sl : Streamlet) (tmo : TMO) : Streamlet :=
  let processed := sl.pm.processRemoteTmo tmo
  let sl := { sl with pm := processed.1 }
  match processed.2 with
  | none => sl
  | some tc =>
      if tc.view < sl.pm.curView then sl
      else { sl with goroutines := sl.goroutines ++ [tc.view] }

def processLocalTmo (sl : Streamlet) (view : View) : Streamlet :=
  let tmo : TMO := { view, nodeID := sl.id, highQC := none }
  (sl.broadcast (.tmo tmo)).processRemoteTmo tmo

/-- Execute a frame. The result is the state and the frames to be executed next. -/
def perform (cfg : Config) (sl : Streamlet) :
    StreamletFrame → Outcome (Streamlet × List StreamletFrame)
  | .processBlock container => do
      let (sl, result) ← sl.processBlock cfg container
      pure (sl, result.toOption.getD [])
  | .votingRule container => sl.vote cfg container
  | .voted container vote => pure (sl.voted container vote)
  | .bufferedBlock id => pure (sl, (sl.bufferedBlocks.lookup id).toList.map .processBlock)
  | .processVote vote => sl.processVote cfg vote
  | .processCertificate qc => sl.processCertificate cfg qc
  | .updateNotarizedChain qc => sl.updateNotarizedChain qc
  | .commitRule qc => sl.commit qc
  | .deleteBufferedBlock id => pure ({ sl with bufferedBlocks := sl.bufferedBlocks.erase id }, [])
  | .bufferedNotarizedBlock id => pure (sl, sl.takeNotarized id)
  | .deleteBufferedQC id => pure ({ sl with bufferedQCs := sl.bufferedQCs.erase id }, [])
  | .processRemoteTmo tmo => pure (sl.processRemoteTmo tmo, [])
  | .processLocalTmo view => pure (sl.processLocalTmo view, [])

end Streamlet

/-- A replica with what it has to do, the innermost call first. -/
structure StreamletRun where
  sl : Streamlet
  stack : List StreamletFrame := []

/-- What can happen: a message or a timeout is handed to the event loop, the goroutine of a
timeout certificate runs, or the replica goes on. -/
inductive StreamletInput where
  | block (container : BlockContainer)
  | vote (vote : Vote)
  | certificate (qc : QC)
  | tmo (tmo : TMO)
  | localTmo (view : View)
  | goroutine (view : View)
  | proceed

namespace StreamletRun

/-- The event loop takes up a frame when everything before it is done. -/
def post (x : StreamletRun) (frame : StreamletFrame) : StreamletRun :=
  { x with stack := x.stack ++ [frame] }

def proceed (cfg : Config) (x : StreamletRun) : Outcome StreamletRun :=
  match x.stack with
  | [] => pure x
  | frame :: rest => do
      let (sl, calls) ← x.sl.perform cfg frame
      pure { sl, stack := calls ++ rest }

def step (cfg : Config) (x : StreamletRun) : StreamletInput → Outcome StreamletRun
  | .block container => pure (x.post (.processBlock container))
  | .vote vote => pure (x.post (.processVote vote))
  | .certificate qc => pure (x.post (.processCertificate qc))
  | .tmo tmo => pure (x.post (.processRemoteTmo tmo))
  | .localTmo view => pure (x.post (.processLocalTmo view))
  | .goroutine view =>
      if view ∈ x.sl.goroutines then
        pure { x with sl := { x.sl with
          pm := x.sl.pm.advanceView view
          goroutines := x.sl.goroutines.erase view } }
      else pure x
  | .proceed => x.proceed cfg

end StreamletRun
end Bamboo
