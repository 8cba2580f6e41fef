import Bamboo.Blockchain.Block
import Bamboo.Group

/-! The executor: a queue of committed microblocks, which are executed here or
applied when enough other nodes have reported them executed. Each method holds
the lock, so a call is one step. A `range` loop runs over the queue as it was
when the loop was entered, while its body reslices the queue. -/
namespace Bamboo

open Library

structure ExecuteResult where
  propsalId : NodeID
  sig : Signature
  mb : Identifier
  no : Int
deriving DecidableEq

/-- What the executor hands to the network; `none` stands for all other nodes. -/
inductive Outgoing where
  | missingRequest (recipients : Finset NodeID) (mbID : Identifier)
  | result (recipients : Option (Finset NodeID)) (result : ExecuteResult)

/-- A microblock with its content when it was applied, and how it was. -/
inductive Applied where
  | executed (mb : MicroBlock)
  | updated (mb : MicroBlock)

def Applied.microblock : Applied → MicroBlock
  | .executed mb | .updated mb => mb

structure Executor where
  id : NodeID
  gm : GroupManager
  /-- The queue `mbPending.mbs`. -/
  mbs : List MicroBlock := []
  /-- For each commit number, the nodes that reported it or a later one done. -/
  done : Table Int (Table NodeID Signature) := ∅
  state : Table String Int := ∅
  executedTxsTotal : Int := 0
  mbReceive : List (List MicroBlock) := []
  missReceive : List MicroBlock := []
  outbox : List Outgoing := []
  /-- Everything passed to `AddMbToExecute`, and everything applied, in order. -/
  delivered : List MicroBlock := []
  applied : List Applied := []

/-- The last position from `index` on at which `p` holds, or else `found`. -/
def lastIndexWhere (p : MicroBlock → Bool) : List MicroBlock → Int → Int → Int
  | [], _, found => found
  | mb :: rest, index, found => lastIndexWhere p rest (index + 1) (if p mb then index else found)

namespace Executor

variable (cfg : Settings) (keys : KeyRing)

def send (e : Executor) (message : Outgoing) : Executor :=
  { e with outbox := e.outbox ++ [message] }

/-- Add one to an account of the world state. -/
def credit (e : Executor) (account : String) : Executor :=
  { e with state := e.state.insert account ((e.state.lookup account).getD 0 + 1) }

def countTx (e : Executor) : Executor :=
  { e with executedTxsTotal := e.executedTxsTotal + 1 }

def execute (e : Executor) (mb : MicroBlock) : Executor :=
  let e := mb.txns.foldl (fun e _ => ((e.credit "1").credit "2").countTx) e
  { e with applied := e.applied ++ [.executed mb] }

/-- Take over the effect of a microblock that others executed. -/
def updateState (e : Executor) (mb : MicroBlock) : Executor :=
  let e := mb.txns.foldl (fun e _ => e.countTx) e
  { e with applied := e.applied ++ [.updated mb] }

def generateExecuteResult (e : Executor) (mb : MicroBlock) : Outcome ExecuteResult := do
  let sig ← keys.privSign mb.hash e.id
  pure { propsalId := e.id, sig, mb := mb.hash, no := mb.committedNo }

/-- Send a result to those who need it for the next microblock, or to all after
the last one. `members` gives the nodes that hold a microblock. -/
def stateBroadcast (members : MicroBlock → Outcome (Finset NodeID)) (e : Executor)
    (curIndex : Nat) (result : ExecuteResult) : Outcome Executor := do
  let currentMb ← Outcome.index e.mbs curIndex
  if (curIndex : Int) ≠ e.mbs.length - 1 then
    let nextMb ← Outcome.index e.mbs (curIndex + 1)
    let current ← members currentMb
    let next ← members nextMb
    pure (e.send (.result (some (next \ current)) result))
  else pure (e.send (.result none result))

def stateBroadcastByGroup (e : Executor) : Nat → ExecuteResult → Outcome Executor :=
  e.stateBroadcast fun mb => e.gm.getGroupListByGroupId mb.groupId

def stateBroadcastBySample (e : Executor) : Nat → ExecuteResult → Outcome Executor :=
  e.stateBroadcast fun mb => pure mb.generateNodeList

/-- The loop of `ExecuteThread` with groups. It stops at the first microblock that
is another group's or is not here, and returns the number of executed ones. The
request for a missing microblock goes to an empty list of nodes. -/
def executeGroup (e : Executor) (curIndex successNum : Nat) :
    List MicroBlock → Outcome (Executor × Nat)
  | [] => pure (e, successNum)
  | mb :: rest =>
      if e.gm.isInMyGroup mb.groupId then
        if mb.isFake then pure (e.send (.missingRequest ∅ mb.hash), successNum)
        else do
          let e := e.execute mb
          let result ← e.generateExecuteResult keys mb
          let e ← e.stateBroadcastByGroup curIndex result
          executeGroup e (curIndex + 1) (successNum + 1) rest
      else pure (e, successNum)

/-- The loop with sampling. Placeholders of others are passed over. -/
def executeSample (e : Executor) (curIndex successNum : Nat) :
    List MicroBlock → Outcome (Executor × Nat)
  | [] => pure (e, successNum)
  | mb :: rest =>
      if mb.isFake then
        if e.id ∈ mb.generateNodeList then
          pure (e.send (.missingRequest mb.generateNodeList mb.hash), successNum)
        else executeSample e (curIndex + 1) successNum rest
      else do
        let e := e.execute mb
        let result ← e.generateExecuteResult keys mb
        let e ← e.stateBroadcastBySample curIndex result
        executeSample e (curIndex + 1) (successNum + 1) rest

/-- The loop without groups and sampling, which shortens the queue as it goes. -/
def executePlain (e : Executor) : List MicroBlock → Executor
  | [] => e
  | mb :: rest =>
      if mb.isFake then e
      else
        let e := e.execute mb
        executePlain { e with mbs := e.mbs.drop 1 } rest

def executeThread (e : Executor) : Outcome Executor :=
  if cfg.broadcastByGroup then do
    let (e, successNum) ← e.executeGroup keys 0 0 e.mbs
    pure { e with mbs := e.mbs.drop successNum }
  else if cfg.broadcastBySample then do
    let (e, successNum) ← e.executeSample keys 0 0 e.mbs
    pure { e with mbs := e.mbs.drop successNum }
  else pure (e.executePlain e.mbs)

/-- `updateState` on the first microblocks of the queue. -/
def applyHeads : Nat → Executor → Outcome Executor
  | 0, e => pure e
  | count + 1, e =>
      match e.mbs with
      | [] => throw .outOfRange
      | mb :: rest => applyHeads count { e.updateState mb with mbs := rest }

def doneCount (e : Executor) (no : Int) : Nat :=
  ((e.done.lookup no).getD ∅).keys.card

/-- Whether enough nodes reported the microblock done before it came here. -/
def checkResult (e : Executor) (mb : MicroBlock) : Bool :=
  cfg.q ≤ e.doneCount mb.committedNo

def enqueue (e : Executor) (batch : List MicroBlock) : Executor :=
  { e with mbs := e.mbs ++ batch, delivered := e.delivered ++ batch }

/-- With groups, apply everything up to the last microblock that is already done. -/
def applyConfirmed (e : Executor) : Outcome Executor :=
  if cfg.broadcastByGroup then
    e.applyHeads (lastIndexWhere (e.checkResult cfg) e.mbs 0 (-1) + 1).toNat
  else pure e

def addMbToExecute (e : Executor) (batch : List MicroBlock) : Outcome Executor := do
  let e ← (e.enqueue batch).applyConfirmed cfg
  e.executeThread cfg keys

/-- The confirmed prefix ends at the microblock with number `commitNo`. -/
def mbReady (e : Executor) (commitNo : Int) : Outcome Executor := do
  let e ← e.applyHeads
    (lastIndexWhere (fun mb => mb.committedNo = commitNo) e.mbs 0 (-1) + 1).toNat
  e.executeThread cfg keys

/-- The loop of `HandleResult`: `count` numbers from `i` on are recorded; the last
one that enough nodes reported is returned with the executor. -/
def recordDone (result : ExecuteResult) : Nat → Int → Executor → Int → Executor × Int
  | 0, _, e, high => (e, high)
  | count + 1, i, e, high =>
      let record := ((e.done.lookup i).getD ∅).insert result.propsalId result.sig
      let e := { e with done := e.done.insert i record }
      recordDone result count (i + 1) e (if cfg.q ≤ e.doneCount i then i else high)

def handleResult (e : Executor) (result : ExecuteResult) : Outcome Executor :=
  let (e, high) := recordDone cfg result result.no.toNat 1 e 0
  if high ≠ 0 then e.mbReady cfg keys high else pure e

/-- A placeholder in the queue for a retransmitted microblock. -/
def isMissing (mb mbp : MicroBlock) : Bool :=
  mbp.hash = mb.hash && mbp.isFake

/-- The retransmitted microblock takes the place of its placeholders. -/
def replaceMissing (e : Executor) (mb : MicroBlock) : Executor :=
  { e with mbs := e.mbs.map fun mbp => if isMissing mb mbp then mb else mbp }

def handleMiss (e : Executor) (mb : MicroBlock) : Outcome Executor :=
  if e.mbs.any (isMissing mb) then (e.replaceMissing mb).executeThread cfg keys
  else pure e

end Executor
end Bamboo
