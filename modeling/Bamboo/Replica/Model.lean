import Bamboo.Execute.Executor
import Bamboo.Mempool.AckMem

/-! A replica outside of the consensus protocol: its mempool, its executor and
what passes between them and the network. Nothing gossips: the loop that would is
not started. The consensus protocol appears as what it does here: it is handed
microblocks by the mempool and commits lists of them. -/
namespace Bamboo

open Library

inductive MempoolMessage where
  | microBlock (mb : MicroBlock)
  | ack (ack : Ack)
  | stable (stable : Stable)
  | missingStableMBRequest (requesterID : NodeID) (mbID : Identifier)
deriving DecidableEq

/-- The three ways to address a message. Only `one` may be the sender itself. -/
inductive Recipients where
  | one (to' : NodeID)
  | members (nodes : Finset NodeID)
  | all

def Recipients.includes (self : NodeID) : Recipients → NodeID → Bool
  | .one to', r => r = to'
  | .members nodes, r => r ≠ self && r ∈ nodes
  | .all, r => r ≠ self

/-- The request of the executor at node `id` as it enters the network. Results are
not followed further. -/
def Outgoing.request (id : NodeID) : Outgoing → Option (Recipients × MempoolMessage)
  | .missingRequest nodes mbID => some (.members nodes, .missingStableMBRequest id mbID)
  | .result _ _ => none

structure Replica where
  sm : AckMem
  ex : Executor
  receivedMBs : Finset Identifier := ∅
  commitedMb : Finset Identifier := ∅
  commitMbNo : Int := 0
  outbox : List (Recipients × MempoolMessage) := []
  /-- Own microblocks that `loadbalance` has not sent yet. -/
  selfMBChan : List MicroBlock := []
  /-- The microblocks that the mempool has handed out in payloads and blocks. -/
  handed : List MicroBlock := []

/-- The loop of `processCommittedBlock`: microblocks that were committed before
are skipped, the others are numbered. -/
def numberCommitted : Finset Identifier → Int → List MicroBlock →
    Finset Identifier × Int × List MicroBlock
  | seen, no, [] => (seen, no, [])
  | seen, no, mb :: rest =>
      if mb.hash ∈ seen then numberCommitted seen no rest
      else
        let (seen, last, deliver) := numberCommitted (insert mb.hash seen) (no + 1) rest
        (seen, last, { mb with committedNo := no + 1 } :: deliver)

namespace Replica

variable (cfg : Settings) (keys : KeyRing)

def new (id : NodeID) : Replica where
  sm := .new cfg id (.new cfg id)
  ex := { id, gm := .new cfg id }

def id (r : Replica) : NodeID :=
  r.sm.id

def send (r : Replica) (recipients : Recipients) (message : MempoolMessage) : Replica :=
  { r with outbox := r.outbox ++ [(recipients, message)] }

/-- Hand the mempool's announcements and the executor's requests to the network. -/
def flush (r : Replica) : Replica :=
  { r with
    sm := { r.sm with outbox := [] }
    ex := { r.ex with outbox := [] }
    outbox := r.outbox ++
      r.sm.outbox.map (fun stable => (.all, .stable stable)) ++
      r.ex.outbox.filterMap (Outgoing.request r.ex.id) }

/-- `processAcks`: acks of others are verified. -/
def processAcks (r : Replica) (ack : Ack) : Outcome Replica :=
  if r.sm.isStable ack.microblockID then pure r
  else if ack.receiver ≠ r.id then do
    let verified ← keys.pubVerify ack.signature ack.microblockID ack.receiver
    pure (if verified then { r with sm := r.sm.addAck cfg ack } else r)
  else pure { r with sm := r.sm.addAck cfg ack }

def handleStable (r : Replica) (now : Int) (stable : Stable) : Outcome Replica := do
  let sm ← r.sm.addStable now stable
  pure { r with sm }

/-- The ack for a microblock that has been added. The mark for another group is
only on the ack a node sends to itself. -/
def acknowledge (r : Replica) (mb : MicroBlock) : Outcome Replica := do
  let ack ← makeAck keys r.id mb.hash
  let outGroup := cfg.broadcastByGroup && !r.sm.gm.isInMyGroup mb.groupId
  if mb.sender ≠ r.id then pure (r.send (.one mb.sender) (.ack ack))
  else r.processAcks cfg keys { ack with outGroup }

/-- A forwarded microblock is sent to all and not looked at. -/
def handleMicroblock (r : Replica) (mb : MicroBlock) : Outcome Replica :=
  if cfg.loadBalance && mb.isForward then
    pure (r.send .all (.microBlock { mb with isForward := false }))
  else if mb.hash ∈ r.receivedMBs then pure r
  else
    let received := { r with receivedMBs := insert mb.hash r.receivedMBs }
    if mb.isRequested then
      pure { received with
        sm := r.sm.handleMissingStableMb mb
        ex := { r.ex with missReceive := r.ex.missReceive ++ [mb] } }
    else do
      let sm ← r.sm.addMicroblock mb
      { received with sm }.acknowledge cfg keys mb

/-- The answer to a request is whatever `FindMicroblock` finds. -/
def handleMissingStableMb (r : Replica) (requesterID : NodeID) (mbID : Identifier) : Replica :=
  match r.sm.findMicroblock mbID with
  | some mb =>
      let mb := { mb with isRequested := true }
      { r with sm := r.sm.store mb }.send (.one requesterID) (.microBlock mb)
  | none => r

def handle (r : Replica) (now : Int) : MempoolMessage → Outcome Replica
  | .microBlock mb => r.handleMicroblock cfg keys mb
  | .ack ack => r.processAcks cfg keys ack
  | .stable stable => r.handleStable now stable
  | .missingStableMBRequest requesterID mbID => pure (r.handleMissingStableMb requesterID mbID)

/-- A microblock made here is added before it is sent. -/
def publish (r : Replica) (mb : MicroBlock) (recipients : Recipients) : Outcome Replica := do
  let sm ← r.sm.addMicroblock mb
  pure ({ r with sm }.send recipients (.microBlock mb))

/-- With load balancing a microblock made here is added and left to `loadbalance`. The
mempool shares the record, in which the hop is counted. -/
def enqueue (r : Replica) (mb : MicroBlock) : Outcome Replica := do
  let mb := { mb with hops := mb.hops + 1 }
  let sm ← r.sm.addMicroblock mb
  pure { r with sm, selfMBChan := r.selfMBChan ++ [mb] }

/-- A turn of `loadbalance`. If the random number is below `ForwardP`, `pick` is the node
that was drawn. -/
def loadbalance (r : Replica) (pick : Option NodeID) : Replica :=
  match r.selfMBChan with
  | [] => r
  | mb :: rest =>
      let r := { r with selfMBChan := rest }
      match pick with
      | some to' =>
          if node r.id ≤ cfg.loadedIndex
          then r.send (.one to') (.microBlock { mb with isForward := true })
          else r.send .all (.microBlock mb)
      | none => r.send .all (.microBlock mb)

/-- The nodes a microblock is sent to when it is not sent to all. -/
def groupOf (r : Replica) (mb : MicroBlock) : Outcome Recipients := do
  let nodes ← r.sm.gm.getGroupListByGroupId mb.groupId
  pure (.members nodes)

/-- A turn of `observePool` that finds enough transactions; `sample` are the
nodes drawn at random. -/
def observePool (r : Replica) (mb : MicroBlock) (sample : Finset NodeID) : Outcome Replica :=
  if r.sm.memsize ≤ r.sm.remainingMB then pure r
  else
    let mb := { mb with sender := r.id }
    if cfg.loadBalance then r.enqueue mb
    else if cfg.broadcastByGroup then do
      let recipients ← r.groupOf mb
      r.publish mb recipients
    else if cfg.broadcastBySample then
      let targetMember := insert r.id sample
      r.publish { mb with generateNodeList := targetMember } (.members targetMember)
    else r.publish mb .all

/-- `handleTxn`, for a transaction that completes a microblock. -/
def handleTxn (r : Replica) (mb : MicroBlock) : Outcome Replica :=
  let mb := { mb with sender := r.id }
  if cfg.loadBalance then r.enqueue mb
  else if cfg.broadcastByGroup then do
    let recipients ← r.groupOf mb
    r.publish mb recipients
  else r.publish mb .all

/-- The payload of an own proposal. -/
def generatePayload (sort : GroupSort) (r : Replica) : Outcome Replica := do
  let (sm, payload) ← r.sm.generatePayload cfg sort
  pure { r with sm, handed := r.handed ++ payload.microblockList }

/-- `HandleProposal`: the block of another node's proposal, if nothing is missing. -/
def handleProposal (r : Replica) (now : Int) (p : Proposal) : Outcome Replica := do
  let (sm, pendingBlock) ← r.sm.fetchMB now p
  let mbs := (pendingBlock.completeBlock.map fun block => block.payload.microblockList).getD []
  pure { r with sm, handed := r.handed ++ mbs }

/-- `processCommittedBlock`: what is new in the block goes to the executor. -/
def processCommittedBlock (r : Replica) (mbs : List MicroBlock) : Replica :=
  let (seen, no, deliver) := numberCommitted r.commitedMb r.commitMbNo mbs
  { r with
    commitedMb := seen
    commitMbNo := no
    ex := { r.ex with mbReceive := r.ex.mbReceive ++ [deliver] } }

/-- The executor takes a batch off its channel. -/
def handleBatch (r : Replica) : Outcome Replica :=
  match r.ex.mbReceive with
  | [] => pure r
  | batch :: rest => do
      let ex ← { r.ex with mbReceive := rest }.addMbToExecute cfg keys batch
      pure { r with ex }

/-- The executor takes a retransmitted microblock off its channel. -/
def handleMissing (r : Replica) : Outcome Replica :=
  match r.ex.missReceive with
  | [] => pure r
  | mb :: rest => do
      let ex ← { r.ex with missReceive := rest }.handleMiss cfg keys mb
      pure { r with ex }

def handleResult (r : Replica) (result : ExecuteResult) : Outcome Replica := do
  let ex ← r.ex.handleResult cfg keys result
  pure { r with ex }

end Replica
end Bamboo
