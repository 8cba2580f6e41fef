import Bamboo.Blockchain.Block
import Bamboo.Group
import Mathlib.Data.List.Sort

/-! The shared mempool with acks. A microblock is pending until enough acks for
it have been counted or a `Stable` message arrives; stable microblocks wait in a
queue for the next proposal. Placeholders (`isFake`) stand for microblocks whose
content is not here. Each method holds the lock, so a call is one step. -/
namespace Bamboo

open Library

structure PendingMicroblock where
  microblock : MicroBlock
  /-- Who has sent acks. -/
  ackMap : Finset NodeID
  ackNum : Int
  ackInGroup : List NodeID
  ackOutGroup : List NodeID

structure AckMem where
  id : NodeID
  gm : GroupManager
  stableMicroblocks : List MicroBlock := []
  microblockMap : Table Identifier MicroBlock := ∅
  pendingMicroblocks : Table Identifier PendingMicroblock := ∅
  /-- Acks that arrived before their microblock. -/
  ackBuffer : Table Identifier (Listing NodeID Signature) := ∅
  stableMBs : Finset Identifier := ∅
  stableBuffer : Table Identifier Stable := ∅
  bsize : Int
  memsize : Int
  threshhold : Int
  totalStableMbs : Int := 0
  /-- Broadcast `Stable` messages, oldest first. -/
  outbox : List Stable := []

/-- `sort.Slice` by group number. Nothing is known about the order in a group. -/
structure GroupSort where
  sort : List MicroBlock → List MicroBlock
  perm : ∀ mbs, (sort mbs).Perm mbs
  sorted : ∀ mbs, (sort mbs).Pairwise fun a b => a.groupId ≤ b.groupId

/-- The largest capacity that `make` takes for a slice of pointers: a slice has at most
`2 ^ 48` bytes. Whether the memory of the machine is large enough is not modelled. -/
def maxTxns : Int := 2 ^ 45

/-- The transactions of a placeholder; `make` panics for a capacity out of range. -/
def fakeTxns (now count : Int) : Outcome (List Transaction) :=
  if count < 0 ∨ maxTxns < count then throw .outOfRange
  else pure (List.replicate count.toNat { timestamp := now })

namespace PendingMicroblock

/-- A microblock counts as acked by its sender. -/
def new (mb : MicroBlock) (inGroup : Bool) : PendingMicroblock where
  microblock := mb
  ackMap := {mb.sender}
  ackNum := 1
  ackInGroup := if inGroup then [mb.sender] else []
  ackOutGroup := if inGroup then [] else [mb.sender]

/-- Count one node. The counter moves for every call, the set only for new nodes. -/
def count (pm : PendingMicroblock) (node : NodeID) : PendingMicroblock :=
  { pm with
    ackMap := insert node pm.ackMap
    ackNum := pm.ackNum + 1
    ackInGroup := pm.ackInGroup ++ [node] }

/-- An ack for a pending microblock. With groups, one from outside is not counted. -/
def addAck (cfg : Settings) (pm : PendingMicroblock) (ack : Ack) : PendingMicroblock :=
  if cfg.broadcastByGroup && ack.outGroup then
    { pm with
      ackMap := insert ack.receiver pm.ackMap
      ackOutGroup := pm.ackOutGroup ++ [ack.receiver] }
  else pm.count ack.receiver

/-- The announcement built when the count is reached. -/
def toStable (pm : PendingMicroblock) (id : NodeID) : Stable where
  ackInGroup := pm.ackInGroup
  ackOutGroup := pm.ackOutGroup
  ackNodeList := pm.ackMap
  microblockID := pm.microblock.hash
  sender := id
  groupId := pm.microblock.groupId
  mbCreationTime := pm.microblock.timestamp
  txNums := pm.microblock.txns.length

end PendingMicroblock

namespace AckMem

def new (cfg : Settings) (id : NodeID) (gm : GroupManager) : AckMem :=
  { id, gm, bsize := cfg.bsize, memsize := cfg.memsize, threshhold := cfg.q }

def store (am : AckMem) (mb : MicroBlock) : AckMem :=
  { am with microblockMap := am.microblockMap.insert mb.hash mb }

def setPending (am : AckMem) (h : Identifier) (pm : PendingMicroblock) : AckMem :=
  { am with pendingMicroblocks := am.pendingMicroblocks.insert h pm }

def dropPending (am : AckMem) (h : Identifier) : AckMem :=
  { am with pendingMicroblocks := am.pendingMicroblocks.erase h }

/-- Queue a microblock and count it as stable. -/
def markStable (am : AckMem) (mb : MicroBlock) : AckMem :=
  { am with
    stableMicroblocks := am.stableMicroblocks ++ [mb]
    stableMBs := insert mb.hash am.stableMBs
    totalStableMbs := am.totalStableMbs + 1 }

def isStable (am : AckMem) (h : Identifier) : Bool :=
  h ∈ am.stableMBs

/-- Whether the content of a microblock is here. -/
def hasContent (am : AckMem) (h : Identifier) : Bool :=
  match am.microblockMap.lookup h with
  | some mb => !mb.isFake
  | none => false

def remainingMB (am : AckMem) : Int :=
  am.pendingMicroblocks.keys.card + am.stableMicroblocks.length

/-- A microblock that was not known, with the acks that arrived before it. -/
def addFresh (am : AckMem) (mb : MicroBlock) (pm : PendingMicroblock) : AckMem :=
  match am.ackBuffer.lookup mb.hash with
  | none => (am.store mb).setPending mb.hash pm
  | some buffer =>
      let pm := buffer.keys.foldl .count pm
      if am.threshhold ≤ pm.ackNum then
        if mb.hash ∈ am.stableMBs then am.store mb
        else ((am.store mb).markStable mb).dropPending mb.hash
      else (am.store mb).setPending mb.hash pm

def addMicroblock (am : AckMem) (mb : MicroBlock) : Outcome AckMem :=
  match am.microblockMap.lookup mb.hash with
  | some old => pure (if old.isFake then am.store mb else am)
  | none => do
      let inGroup ← am.gm.isInGroup mb.groupId am.id
      pure (am.addFresh mb (.new mb inGroup))

/-- Remember an ack whose microblock is not pending. -/
def bufferAck (am : AckMem) (ack : Ack) : AckMem :=
  let buffer := (am.ackBuffer.lookup ack.microblockID).getD ∅
  let buffer := buffer.insert ack.receiver ack.signature
  { am with ackBuffer := am.ackBuffer.insert ack.microblockID buffer }

/-- Keep an announcement. -/
def note (am : AckMem) (stable : Stable) : AckMem :=
  { am with stableBuffer := am.stableBuffer.insert stable.microblockID stable }

/-- The count of a pending microblock is reached: queue it and tell the others. -/
def announce (am : AckMem) (h : Identifier) (pm : PendingMicroblock) : AckMem :=
  let stable := pm.toStable am.id
  { ((am.markStable pm.microblock).dropPending h).note stable with
    outbox := am.outbox ++ [stable] }

def addAck (cfg : Settings) (am : AckMem) (ack : Ack) : AckMem :=
  match am.pendingMicroblocks.lookup ack.microblockID with
  | some target =>
      let target := target.addAck cfg ack
      if am.threshhold ≤ target.ackNum ∧ target.microblock.hash ∉ am.stableMBs then
        (am.setPending ack.microblockID target).announce ack.microblockID target
      else am.setPending ack.microblockID target
  | none => if ack.outGroup then am else am.bufferAck ack

/-- The placeholder for a microblock that is only known from its announcement. -/
def announced (stable : Stable) (txns : List Transaction) : MicroBlock where
  isFake := true
  hash := stable.microblockID
  groupId := stable.groupId
  createTimeStamp := stable.mbCreationTime
  txns
  generateNodeList := stable.ackNodeList

def addStable (am : AckMem) (now : Int) (stable : Stable) : Outcome AckMem :=
  if stable.microblockID ∈ am.stableMBs then pure am
  else
    let noted := match am.pendingMicroblocks.lookup stable.microblockID with
      | some target =>
          ((am.note stable).markStable target.microblock).dropPending stable.microblockID
      | none => am.note stable
    if stable.microblockID ∈ am.microblockMap then pure noted
    else do
      let txns ← fakeTxns now stable.txNums
      let mb := announced stable txns
      pure ((noted.store mb).markStable mb)

def handleMissingStableMb (am : AckMem) (mb : MicroBlock) : AckMem :=
  am.store mb

/-- Take the first microblock off the queue. -/
def front (am : AckMem) : Option (MicroBlock × AckMem) :=
  match am.stableMicroblocks with
  | [] => none
  | mb :: rest => some (mb, { am with stableMicroblocks := rest })

def generateAckNodeList (am : AckMem) (mb : MicroBlock) : Finset NodeID :=
  match am.stableBuffer.lookup mb.hash with
  | some stable => stable.ackInGroup.toFinset
  | none => ∅

/-- Up to `Q` of the buffered signatures, in one order of the buffer. -/
def signaturesFor (cfg : Settings) (am : AckMem) (h : Identifier) : Listing NodeID Signature :=
  let buffer := (am.ackBuffer.lookup h).getD ∅
  if 0 < cfg.q then (buffer.entries.take cfg.q.toNat).toAList else buffer

/-- The loop of `GeneratePayload`. -/
def takeBatch (cfg : Settings) : Nat → AckMem → Payload → AckMem × Payload
  | 0, am, payload => (am, payload)
  | count + 1, am, payload =>
      match am.front with
      | none => (am, payload)
      | some (mb, am) =>
          takeBatch cfg count am
            { microblockList := payload.microblockList ++ [mb]
              sigMap := payload.sigMap.insert mb.hash (am.signaturesFor cfg mb.hash)
              ackNode := payload.ackNode ++ [am.generateAckNodeList mb]
              txNums := payload.txNums ++ [(mb.txns.length : Int)] }

/-- The next payload. A node that only works for others never returns from here. -/
def generatePayload (cfg : Settings) (sort : GroupSort) (am : AckMem) :
    Outcome (AckMem × Payload) :=
  if cfg.onlyworker then throw .diverges
  else
    let am := if cfg.broadcastByGroup
      then { am with stableMicroblocks := sort.sort am.stableMicroblocks } else am
    let batchSize := if am.bsize ≤ am.stableMicroblocks.length then am.bsize
      else am.stableMicroblocks.length
    pure (am.takeBatch cfg batchSize.toNat {})

/-- `FindMicroblock` as it is: real content is reported as not found. -/
def findMicroblock (am : AckMem) (h : Identifier) : Option MicroBlock :=
  match am.microblockMap.lookup h with
  | some mb => if mb.isFake then some mb else none
  | none => none

/-- Remove an identifier from the pending microblocks and its first entry from
the queue. -/
def forget (am : AckMem) (h : Identifier) : AckMem :=
  { am.dropPending h with
    stableMicroblocks := am.stableMicroblocks.eraseP fun mb => mb.hash = h }

/-- The microblock that a block carries for the identifier at `index`: what is
known here, or a placeholder made from the proposal. -/
def fetched (am : AckMem) (now : Int) (p : Proposal) (index : Nat) (h : Identifier) :
    Outcome MicroBlock :=
  match am.microblockMap.lookup h with
  | some mb => pure mb
  | none => do
      let txns ← fakeTxns now (← Outcome.index p.txNums index)
      let groupId ← Outcome.index p.groupList index
      let timestamp ← Outcome.index p.mbTime index
      pure { isFake := true, hash := h, groupId, timestamp, txns }

/-- The loop of `FetchMB`, from `index` on. -/
def fetchAll (now : Int) (p : Proposal) : AckMem → Nat → List Identifier →
    Outcome (AckMem × List MicroBlock)
  | am, _, [] => pure (am, [])
  | am, index, h :: rest => do
      let am := am.forget h
      let mb ← am.fetched now p index h
      let (am, mbs) ← fetchAll now p am (index + 1) rest
      pure (am, mb :: mbs)

def fetchMB (am : AckMem) (now : Int) (p : Proposal) : Outcome (AckMem × PendingBlock) := do
  let (am, existing) ← fetchAll now p am 0 p.hashList
  pure (am, { payload := { microblockList := existing }, proposal := p })

/-- The records of an identifier among the pending and the queued microblocks. -/
def found (am : AckMem) (h : Identifier) : List MicroBlock :=
  ((am.pendingMicroblocks.lookup h).map PendingMicroblock.microblock).toList ++
    (am.stableMicroblocks.find? fun mb => mb.hash = h).toList

/-- The loop of the `FillProposal` variants. -/
def fillAll : AckMem → List Identifier → AckMem × List MicroBlock × Finset Identifier
  | am, [] => (am, [], ∅)
  | am, h :: rest =>
      let existing := am.found h
      let (am, later, missing) := fillAll (am.forget h) rest
      (am, existing ++ later, if existing.isEmpty then insert h missing else missing)

def fillProposal (am : AckMem) (p : Proposal) : AckMem × PendingBlock :=
  let (am, existing, missing) := am.fillAll p.hashList
  (am, { payload := { microblockList := existing }, proposal := p, missingMap := missing })

/-- The two group variants do not record what is missing. -/
def fillWithoutMissing (am : AckMem) (p : Proposal) : AckMem × PendingBlock :=
  let (am, existing, _) := am.fillAll p.hashList
  (am, { payload := { microblockList := existing }, proposal := p })

def fillProposalFromGroup (am : AckMem) (p : Proposal) : AckMem × PendingBlock :=
  am.fillWithoutMissing p

def fillProposalByGroup (am : AckMem) (p : Proposal) : AckMem × PendingBlock :=
  am.fillWithoutMissing p

/-- The calls the mempool receives. -/
inductive Call where
  | addMicroblock (mb : MicroBlock)
  | addAck (ack : Ack)
  | addStable (now : Int) (stable : Stable)
  | handleMissingStableMb (mb : MicroBlock)
  | generatePayload
  | fetchMB (now : Int) (p : Proposal)
  | fillProposal (p : Proposal)
  | fillProposalFromGroup (p : Proposal)
  | fillProposalByGroup (p : Proposal)

/-- A mempool together with the payloads it has returned, oldest first. -/
structure Trace where
  mem : AckMem
  payloads : List Payload := []

namespace Trace

def new (cfg : Settings) (id : NodeID) (gm : GroupManager) : Trace :=
  { mem := .new cfg id gm }

def step (cfg : Settings) (sort : GroupSort) (t : Trace) : Call → Outcome Trace
  | .addMicroblock mb => do
      let mem ← t.mem.addMicroblock mb
      pure { t with mem }
  | .addAck ack => pure { t with mem := t.mem.addAck cfg ack }
  | .addStable now stable => do
      let mem ← t.mem.addStable now stable
      pure { t with mem }
  | .handleMissingStableMb mb => pure { t with mem := t.mem.handleMissingStableMb mb }
  | .generatePayload => do
      let (mem, payload) ← t.mem.generatePayload cfg sort
      pure { mem, payloads := t.payloads ++ [payload] }
  | .fetchMB now p => do
      let (mem, _) ← t.mem.fetchMB now p
      pure { t with mem }
  | .fillProposal p => pure { t with mem := (t.mem.fillProposal p).1 }
  | .fillProposalFromGroup p => pure { t with mem := (t.mem.fillProposalFromGroup p).1 }
  | .fillProposalByGroup p => pure { t with mem := (t.mem.fillProposalByGroup p).1 }

end Trace
end AckMem

namespace Scenario

/-- An insertion sort by group. -/
def sortByGroup : GroupSort where
  sort mbs := mbs.insertionSort fun a b => a.groupId ≤ b.groupId
  perm mbs := List.perm_insertionSort _ mbs
  sorted mbs :=
    haveI : Std.Total fun a b : MicroBlock => a.groupId ≤ b.groupId :=
      ⟨fun a b => le_total a.groupId b.groupId⟩
    haveI : IsTrans MicroBlock fun a b => a.groupId ≤ b.groupId :=
      ⟨fun _ _ _ => le_trans⟩
    List.pairwise_insertionSort _ mbs

/-- Four nodes, three acks, two microblocks in a proposal. -/
def pool : Settings := { n := 4, q := 3, bsize := 2, memsize := 100 }

def groups : GroupManager := { groupList := [{"1", "2", "3"}, {"2", "3", "4"}], myGroup := {0} }

def microblock (hash : Identifier) (sender : NodeID) : MicroBlock := { hash, sender }

def ack (hash : Identifier) (receiver : NodeID) : Ack := { microblockID := hash, receiver }

/-- A proposal for the microblocks 1 and 2. -/
def twoHashes : Proposal where
  view := 1
  qc := some .initial
  proposer := "2"
  prevID := 0
  id := 9
  hashList := [1, 2]
  txNums := [0, 0]
  groupList := [0, 0]
  mbTime := [0, 0]

end Scenario
end Bamboo
