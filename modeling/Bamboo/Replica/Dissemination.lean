import Bamboo.Replica.Model
import Mathlib.Data.Multiset.Filter

/-! Replicas that spread microblocks over a network. A message in flight may be
delivered at any later moment or never, in any order, but only once. What the
consensus protocol does is free as far as the mempool can tell: proposals may
name any microblocks, and any of the microblocks that the mempool has handed out
may be committed. -/
namespace Bamboo

open Library

structure Dissemination where
  replicas : NodeID → Replica
  /-- The messages in flight with their addressees. -/
  flight : Multiset (NodeID × MempoolMessage)
  /-- Who made each microblock. A hash is used once. -/
  creator : Table Identifier NodeID

/-- The copies of a replica's messages that enter the network. -/
def post (peers : Finset NodeID) (self : NodeID) :
    List (Recipients × MempoolMessage) → Multiset (NodeID × MempoolMessage)
  | [] => 0
  | (recipients, message) :: rest =>
      (peers.filter fun to' => recipients.includes self to').val.map (fun to' => (to', message)) +
        post peers self rest

theorem mem_post {peers : Finset NodeID} {self to' : NodeID}
    {out : List (Recipients × MempoolMessage)} {message : MempoolMessage} :
    (to', message) ∈ post peers self out ↔
      ∃ recipients, (recipients, message) ∈ out ∧ to' ∈ peers ∧
        recipients.includes self to' = true := by
  induction out with
  | nil => simp [post]
  | cons first rest ih =>
      obtain ⟨recipients, sent⟩ := first
      simp only [post, Multiset.mem_add, Multiset.mem_map, Finset.mem_val, Finset.mem_filter, ih,
        Prod.mk.injEq, List.mem_cons]
      constructor
      · rintro (⟨node, ⟨hPeer, hIncludes⟩, rfl, rfl⟩ | ⟨found, hMem, hRest⟩)
        · exact ⟨recipients, Or.inl ⟨rfl, rfl⟩, hPeer, hIncludes⟩
        · exact ⟨found, Or.inr hMem, hRest⟩
      · rintro ⟨found, ⟨rfl, rfl⟩ | hMem, hPeer, hIncludes⟩
        · exact Or.inl ⟨to', ⟨hPeer, hIncludes⟩, rfl, rfl⟩
        · exact Or.inr ⟨found, hMem, hPeer, hIncludes⟩

namespace Dissemination

def new (cfg : Settings) : Dissemination :=
  { replicas := .new cfg, flight := 0, creator := ∅ }

/-- What can happen at a replica. -/
inductive Event where
  | observePool (hash : Identifier) (groupId : Int) (txns : List Transaction) (now : Int)
      (sample : Finset NodeID)
  | handleTxn (hash : Identifier) (groupId : Int) (txns : List Transaction) (now : Int)
  | balance (pick : Option NodeID)
  | deliver (now : Int) (message : MempoolMessage)
  | propose
  | proposal (now : Int) (p : Proposal)
  | commit (mbs : List MicroBlock)
  | batch
  | missing
  | result (result : ExecuteResult)

/-- The identifier and the group of the microblock that an event makes. -/
def Event.makes : Event → Option (Identifier × Int)
  | .observePool hash groupId _ _ _ | .handleTxn hash groupId _ _ => some (hash, groupId)
  | _ => none

/-- Whether the event can happen at the replica. -/
def enabled (net : Dissemination) (r : NodeID) : Event → Bool
  | .observePool hash _ _ _ _ => hash ∉ net.creator
  | .handleTxn hash _ _ _ => hash ∉ net.creator
  | .deliver _ message => (r, message) ∈ net.flight
  | .commit mbs => mbs.all fun mb => mb ∈ (net.replicas r).handed
  | .balance _ | .propose | .proposal _ _ | .batch | .missing | .result _ => true

/-- What the network and the use of hashes have to do with the event. -/
def register (net : Dissemination) (r : NodeID) : Event → Dissemination
  | .observePool hash _ _ _ _ => { net with creator := net.creator.insert hash r }
  | .handleTxn hash _ _ _ => { net with creator := net.creator.insert hash r }
  | .deliver _ message => { net with flight := net.flight.erase (r, message) }
  | .balance _ | .propose | .proposal _ _ | .commit _ | .batch | .missing | .result _ => net

end Dissemination

namespace Replica

/-- What the replica does. -/
def handleEvent (cfg : Settings) (keys : KeyRing) (sort : GroupSort) (r : Replica) :
    Dissemination.Event → Outcome Replica
  | .observePool hash groupId txns now sample =>
      r.observePool cfg (newMicroblock hash groupId txns now) sample
  | .handleTxn hash groupId txns now => r.handleTxn cfg (newMicroblock hash groupId txns now)
  | .balance pick => pure (r.loadbalance cfg pick)
  | .deliver now message => r.handle cfg keys now message
  | .propose => r.generatePayload cfg sort
  | .proposal now p => r.handleProposal now p
  | .commit mbs => pure (r.processCommittedBlock mbs)
  | .batch => r.handleBatch cfg keys
  | .missing => r.handleMissing cfg keys
  | .result result => r.handleResult cfg keys result

end Replica

namespace Dissemination

variable (cfg : Settings) (keys : KeyRing) (sort : GroupSort) (peers : Finset NodeID)

/-- A replica has handled an event, and what it sends enters the network. -/
def settle (net : Dissemination) (r : NodeID) (replica : Replica) : Dissemination :=
  { net with
    replicas := Function.update net.replicas r { replica.flush with outbox := [] }
    flight := net.flight + post peers r replica.flush.outbox }

/-- One event at one replica; what is not enabled does not happen. -/
def step (net : Dissemination) (e : NodeID × Event) : Outcome Dissemination :=
  if e.1 ∈ peers ∧ net.enabled e.1 e.2 then do
    let replica ← (net.replicas e.1).handleEvent cfg keys sort e.2
    pure ((net.register e.1 e.2).settle peers e.1 replica)
  else pure net

variable {cfg keys sort peers} in
/-- Nothing happens, or one replica has handled the event. -/
theorem step_cases {net net' : Dissemination} {e : NodeID × Event}
    (h : net.step cfg keys sort peers e = .ok net') :
    net' = net ∨ e.1 ∈ peers ∧ net.enabled e.1 e.2 = true ∧
      ∃ replica, (net.replicas e.1).handleEvent cfg keys sort e.2 = .ok replica ∧
        net' = (net.register e.1 e.2).settle peers e.1 replica := by
  unfold step at h
  by_cases hHappens : e.1 ∈ peers ∧ net.enabled e.1 e.2 = true
  · rw [if_pos hHappens] at h
    obtain ⟨replica, hHandled, hDone⟩ := Outcome.bind_eq_ok.mp h
    exact Or.inr ⟨hHappens.1, hHappens.2, replica, hHandled, (Outcome.pure_eq_ok.mp hDone).symm⟩
  · rw [if_neg hHappens] at h
    exact Or.inl (Outcome.pure_eq_ok.mp h).symm

theorem register_replicas (net : Dissemination) (x : NodeID) (event : Event) :
    (net.register x event).replicas = net.replicas := by
  cases event <;> rfl

theorem settle_self (net : Dissemination) (x : NodeID)
    (replica : Replica) :
    (net.settle peers x replica).replicas x = { replica.flush with outbox := [] } :=
  Function.update_self x _ _

theorem settle_other (net : Dissemination) {x y : NodeID}
    (replica : Replica) (h : y ≠ x) :
    (net.settle peers x replica).replicas y = net.replicas y :=
  Function.update_of_ne h _ _

/-- After an event the replicas are the one that handled it and the untouched rest. -/
theorem settle_cases (net : Dissemination) (x : NodeID)
    (replica : Replica) (y : NodeID) :
    y = x ∧ (net.settle peers x replica).replicas y = { replica.flush with outbox := [] } ∨
      y ≠ x ∧ (net.settle peers x replica).replicas y = net.replicas y := by
  by_cases hSame : y = x
  · exact Or.inl ⟨hSame, hSame ▸ settle_self peers net x replica⟩
  · exact Or.inr ⟨hSame, settle_other peers net replica hSame⟩

/-- The replicas that have the content of a microblock. -/
def holders (net : Dissemination) (h : Identifier) : Finset NodeID :=
  peers.filter fun r => (net.replicas r).sm.hasContent h

end Dissemination
end Bamboo
