import Bamboo.HotStuff.Lock
import Mathlib.Data.Finset.Basic

/-! Replicas in an asynchronous network. Every message that was ever sent may be
delivered at any later moment, any number of times or never, and timers fire at
any moment. A proposal reaches a replica as a block, which the replica completes
with microblocks of its own mempool; any payload is allowed there. Each event is one
atomic call at one replica, that of a timer included: a local timeout that runs beside
a handler of the same replica, as it can in the code, is not covered. -/
namespace Bamboo

open Library LockedVoting

structure Network where
  replicas : NodeID → HotStuff
  /-- Everything handed to the network so far, oldest first. -/
  sent : List Message

namespace Message

/-- Whether the transport hands the message to the replica `r`. -/
def reaches (r : NodeID) : Message → Bool
  | .proposal p => p.proposer ≠ r
  | .vote recipient _ => recipient = r
  | .tmo timeout => timeout.nodeID ≠ r

/-- The event a delivered message becomes. -/
def toEvent (payload : Payload) : Message → HotStuff.Event
  | .proposal p => .block (buildBlock p payload)
  | .vote _ ballot => .vote ballot
  | .tmo timeout => .tmo timeout

/-- The header of the block that a proposal announces. -/
def header : Message → Option BlockHeader
  | .proposal p => some p.toBlockHeader
  | .vote _ _ => none
  | .tmo _ => none

end Message

namespace Network

def new (n : Nat) : Network :=
  { replicas := fun id => HotStuff.new id false n, sent := [] }

def setReplica (net : Network) (r : NodeID) (hs : HotStuff) : Network :=
  { net with replicas := Function.update net.replicas r hs }

/-- The network after a call at a replica: what the replica has sent enters the network. -/
def after (net : Network) (r : NodeID) (hs : HotStuff) : Network :=
  { net.setReplica r { hs with outbox := [] } with sent := net.sent ++ hs.outbox }

theorem after_setReplica (net : Network) (r : NodeID) (hs hs' : HotStuff) :
    (net.setReplica r hs).after r hs' = net.after r hs' := by
  simp [after, setReplica]

/-- A call in which nothing is sent. -/
theorem after_of_drained {net : Network} {r : NodeID} {hs : HotStuff} (h : hs.outbox = []) :
    net.after r hs = net.setReplica r hs := by
  have hSame : { hs with outbox := [] } = hs := by rw [← h]
  rw [after, h, List.append_nil, hSame]
  rfl

/-- A replica handles an event. -/
def react (cfg : Config) (net : Network) (r : NodeID) (e : HotStuff.Event) : Outcome Network := do
  let hs ← (net.replicas r).step cfg e
  pure (net.after r hs)

/-- A replica takes the next announced view off its channel; the leader of the view proposes. -/
def processNewView (cfg : Config) (net : Network) (r : NodeID) (payload : Payload) :
    Outcome Network :=
  let hs := net.replicas r
  match hs.pm.newViewChan with
  | [] => pure net
  | view :: rest => do
      let taken := { hs with pm := { hs.pm with newViewChan := rest } }
      let hs ← taken.processNewView cfg view payload
      pure (net.after r hs)

/-- What can happen at a replica. -/
inductive Event where
  | newView (r : NodeID) (payload : Payload)
  | deliver (r : NodeID) (message : Message) (payload : Payload)
  | localTmo (r : NodeID) (view : View)
  | kickOff (r : NodeID)

def Event.replica : Event → NodeID
  | .newView r _ => r
  | .deliver r _ _ => r
  | .localTmo r _ => r
  | .kickOff r => r

/-- One event of the network; events elsewhere and deliveries of messages that
were not sent to the replica do not happen. -/
def step (cfg : Config) (peers : Finset NodeID) (net : Network) (e : Event) : Outcome Network :=
  if e.replica ∈ peers then
    match e with
    | .newView r payload => net.processNewView cfg r payload
    | .deliver r message payload =>
        if message ∈ net.sent ∧ message.reaches r then
          net.react cfg r (message.toEvent payload)
        else pure net
    | .localTmo r view => net.react cfg r (.localTmo view)
    | .kickOff r => net.react cfg r .kickOff
  else pure net

/-- The headers of all proposals made so far, in the order of their creation. -/
def headers (net : Network) : List BlockHeader :=
  net.sent.filterMap Message.header

end Network
end Bamboo
