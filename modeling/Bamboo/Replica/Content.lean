import Bamboo.Replica.Availability
import Bamboo.Replica.Retransmission

/-! Whether the hash of a microblock can be recomputed from the record. `NewMicroblock`
reads the clock and hashes the transactions with the text of that reading. `handleTxn`
and `observePool` read the clock once more after `AddMicroblock` and write the new
reading into the record, which the mempool shares and which is then broadcast. -/
namespace Bamboo

open Library

/-- `MicroBlock.hash`: what it is computed from are the transactions and a clock reading. -/
abbrev ContentHash := List Transaction → Int → Identifier

/-- Hashing the record's own transactions and time gives its hash. -/
def MicroBlock.Matches (hash : ContentHash) (mb : MicroBlock) : Prop :=
  hash mb.txns mb.timestamp = mb.hash

instance (hash : ContentHash) (mb : MicroBlock) : Decidable (mb.Matches hash) :=
  inferInstanceAs (Decidable (_ = _))

/-- A message as its addressee decodes it. The encoding may not keep all of a clock
reading: the monotonic part, which its text shows, is dropped. -/
def MempoolMessage.decoded (wire : Int → Int) : MempoolMessage → MempoolMessage
  | .microBlock mb =>
      .microBlock { mb with
        timestamp := wire mb.timestamp
        createTimeStamp := wire mb.createTimeStamp }
  | .stable notice => .stable { notice with mbCreationTime := wire notice.mbCreationTime }
  | .ack receipt => .ack receipt
  | .missingStableMBRequest requesterID mbID => .missingStableMBRequest requesterID mbID

namespace Dissemination

/-- The event with the hash that `NewMicroblock` computes when the clock shows `created`. -/
def Event.hashed (hash : ContentHash) (created : Int) : Event → Event
  | .observePool _ groupId txns now sample =>
      .observePool (hash txns created) groupId txns now sample
  | .handleTxn _ groupId txns now => .handleTxn (hash txns created) groupId txns now
  | event => event

def Event.decoded (wire : Int → Int) : Event → Event
  | .deliver now message => .deliver now (message.decoded wire)
  | event => event

/-- The clock reading that a new microblock is sent with. -/
def Event.published : Event → Option Int
  | .observePool _ _ _ now _ | .handleTxn _ _ _ now => some now
  | _ => none

/-- An event at a node, and what the clock showed in `NewMicroblock` if it makes a
microblock. -/
structure Stamped where
  node : NodeID
  event : Event
  created : Int := 0

/-- As `step`, with hashes that are computed and messages that are encoded. Nothing
prevents two microblocks from having the same hash. -/
def stepHashed (hash : ContentHash) (wire : Int → Int) (cfg : Settings) (keys : KeyRing)
    (sort : GroupSort) (peers : Finset NodeID) (net : Dissemination) (e : Stamped) :
    Outcome Dissemination :=
  let event := e.event.hashed hash e.created
  if e.node ∈ peers ∧ (event.makes.isSome || net.enabled e.node event) then do
    let replica ← (net.replicas e.node).handleEvent cfg keys sort (event.decoded wire)
    pure ((net.register e.node event).settle peers e.node replica)
  else pure net

/-- The clock has not moved when a new microblock is sent, and its reading survives the
encoding. -/
def Stamped.Steady (wire : Int → Int) (e : Stamped) : Prop :=
  ∀ now ∈ e.event.published, now = e.created ∧ wire now = now

instance (wire : Int → Int) (e : Stamped) : Decidable (e.Steady wire) :=
  inferInstanceAs (Decidable (∀ now ∈ e.event.published, _))

end Dissemination

/-- The property holds of a record with content. -/
def OfContent (P : MicroBlock → Prop) (mb : MicroBlock) : Prop :=
  mb.isFake = false → P mb

/-- A property of what is hashed and of the time in the record. It survives the encoding of
that time. -/
structure Survives (wire : Int → Int) (P : MicroBlock → Prop) : Prop where
  copied : ∀ mb mb', mb'.hash = mb.hash → mb'.txns = mb.txns → mb'.timestamp = mb.timestamp →
    P mb → P mb'
  decoded : ∀ mb, P mb → P { mb with
    timestamp := wire mb.timestamp
    createTimeStamp := wire mb.createTimeStamp }

theorem Survives.ofContent {wire : Int → Int} {P : MicroBlock → Prop} (hP : Survives wire P) :
    Copied (OfContent P) fun _ => True where
  toStable _ _ _ := trivial
  announced _ _ _ _ _ hReal := by cases hReal
  requested mb h hReal := hP.copied mb _ rfl rfl rfl (h hReal)
  numbered mb _ h hReal := hP.copied mb _ rfl rfl rfl (h hReal)
  forwarded mb _ h hReal := hP.copied mb _ rfl rfl rfl (h hReal)

theorem Survives.message {wire : Int → Int} {P : MicroBlock → Prop} (hP : Survives wire P)
    {message : MempoolMessage} (h : message.Carries (OfContent P) fun _ => True) :
    (message.decoded wire).Carries (OfContent P) fun _ => True := by
  cases message with
  | microBlock mb => exact fun hReal => hP.decoded mb (h hReal)
  | ack receipt => exact trivial
  | stable notice => exact trivial
  | missingStableMBRequest requesterID mbID => exact trivial

namespace Dissemination

variable {hash : ContentHash} {wire : Int → Int} {cfg : Settings} {keys : KeyRing}
  {sort : GroupSort} {peers : Finset NodeID} {net net' : Dissemination} {P : MicroBlock → Prop}

/-- The microblock that an event makes. -/
def Stamped.made (hash : ContentHash) (e : Stamped) : Option MicroBlock :=
  match e.event with
  | .observePool _ groupId txns now _ | .handleTxn _ groupId txns now =>
      some (newMicroblock (hash txns e.created) groupId txns now)
  | _ => none

/-- What an event brings has the property, if the microblock that it makes has it. -/
theorem Stamped.carries (hP : Survives wire P) (h : net.Carries (OfContent P) fun _ => True)
    {e : Stamped} (hMade : ∀ mb ∈ e.made hash, P mb)
    (hEnabled : ((e.event.hashed hash e.created).makes.isSome ||
      net.enabled e.node (e.event.hashed hash e.created)) = true) :
    ((e.event.hashed hash e.created).decoded wire).Carries (OfContent P) fun _ => True := by
  obtain ⟨node, event, created⟩ := e
  have hNew : ∀ groupId txns now,
      newMicroblock (hash txns created) groupId txns now ∈ Stamped.made hash ⟨node, event, created⟩ →
      ∀ id copy, Replica.SentBy id (newMicroblock (hash txns created) groupId txns now) copy →
        OfContent P copy := by
    rintro groupId txns now hMem id _ ⟨list, hops, rfl⟩ -
    exact hP.copied (newMicroblock (hash txns created) groupId txns now) _ rfl rfl rfl (hMade _ hMem)
  cases event with
  | observePool _ groupId txns now sample => exact hNew groupId txns now rfl
  | handleTxn _ groupId txns now => exact hNew groupId txns now rfl
  | deliver now message =>
      have hFlight : (node, message) ∈ net.flight := by simpa [Event.hashed, Event.makes, enabled]
        using hEnabled
      exact hP.message (h.flight node message hFlight)
  | proposal now p =>
      rintro mb ⟨hFake, _⟩ hReal
      cases hFake.symm.trans hReal
  | commit mbs =>
      have hHanded : ∀ mb ∈ mbs, mb ∈ (net.replicas node).handed := by
        simpa [Event.hashed, Event.makes, enabled] using hEnabled
      exact fun mb hMem => (h.replica node).handed mb (hHanded mb hMem)
  | _ => exact trivial

theorem stepHashed_carries (hP : Survives wire P) {e : Stamped}
    (h : net.Carries (OfContent P) fun _ => True) (hMade : ∀ mb ∈ e.made hash, P mb)
    (hStep : net.stepHashed hash wire cfg keys sort peers e = .ok net') :
    net'.Carries (OfContent P) fun _ => True := by
  unfold stepHashed at hStep
  dsimp only at hStep
  by_cases hHappens : e.node ∈ peers ∧ ((e.event.hashed hash e.created).makes.isSome ||
      net.enabled e.node (e.event.hashed hash e.created)) = true
  · rw [if_pos hHappens] at hStep
    obtain ⟨replica, hHandled, hDone⟩ := Outcome.bind_eq_ok.mp hStep
    cases Outcome.pure_eq_ok.mp hDone
    have hReplica := (h.replica e.node).handleEvent hP.ofContent
      (Stamped.carries hP h hMade hHappens.2) hHandled
    exact (h.register e.node _).settle peers e.node hReplica
  · rw [if_neg hHappens] at hStep
    cases Outcome.pure_eq_ok.mp hStep
    exact h

/-- The property holds of all content, if it holds of all microblocks that are made. -/
theorem runHashed_carries (hP : Survives wire P) {events : List Stamped}
    (hMade : ∀ e ∈ events, ∀ mb ∈ e.made hash, P mb)
    (hRun : run (stepHashed hash wire cfg keys sort peers) (new cfg) events = .ok net) :
    net.Carries (OfContent P) fun _ => True := by
  have hGuard : Guarded (stepHashed hash wire cfg keys sort peers)
      (fun _ e => ∀ mb ∈ e.made hash, P mb) (new cfg) events :=
    guarded_of_mem fun _ e hMem => hMade e hMem
  exact guarded_run_invariant
    (fun before e after hBefore hNew hStep => stepHashed_carries hP hBefore hNew hStep)
    hGuard hRun (new_carries cfg)

/-- Content whose hash can be recomputed here and after another transmission. -/
structure Verifiable (hash : ContentHash) (wire : Int → Int) (mb : MicroBlock) : Prop where
  content : mb.Matches hash
  wire : wire mb.timestamp = mb.timestamp

theorem verifiable_survives (hash : ContentHash) (wire : Int → Int) :
    Survives wire (Verifiable hash wire) where
  copied mb mb' hHash hTxns hTime h := by
    obtain ⟨hMatches, hWire⟩ := h
    unfold MicroBlock.Matches at hMatches
    exact ⟨by rw [MicroBlock.Matches, hHash, hTxns, hTime, hMatches], by rw [hTime, hWire]⟩
  decoded mb h := by
    obtain ⟨hMatches, hWire⟩ := h
    refine ⟨?_, congrArg wire hWire⟩
    unfold MicroBlock.Matches
    rw [hWire]
    exact hMatches

/-- A new microblock with a steady clock. -/
theorem Stamped.made_verifiable {e : Stamped} (hSteady : e.Steady wire) {mb : MicroBlock}
    (hMade : mb ∈ e.made hash) : Verifiable hash wire mb := by
  obtain ⟨node, event, created⟩ := e
  have hNew : ∀ groupId txns now, now = created ∧ wire now = now →
      Verifiable hash wire (newMicroblock (hash txns created) groupId txns now) := by
    rintro groupId txns now ⟨rfl, hWire⟩
    exact ⟨rfl, hWire⟩
  cases event with
  | observePool _ groupId txns now sample =>
      cases hMade
      exact hNew groupId txns now (hSteady now rfl)
  | handleTxn _ groupId txns now =>
      cases hMade
      exact hNew groupId txns now (hSteady now rfl)
  | _ => cases hMade

/-- Every hash can be recomputed, from what is stored and from what is on its way, if the
clock stands still from `NewMicroblock` until the microblock is sent and its reading is
encoded in full. -/
theorem content_hashes_match {events : List Stamped}
    (hRun : run (stepHashed hash wire cfg keys sort peers) (new cfg) events = .ok net)
    (hSteady : ∀ e ∈ events, e.Steady wire) :
    (∀ x h mb, (net.replicas x).sm.microblockMap.lookup h = some mb → mb.isFake = false →
      mb.Matches hash) ∧
    ∀ to' mb, (to', .microBlock mb) ∈ net.flight → mb.isFake = false → mb.Matches hash := by
  have hEnd := runHashed_carries (verifiable_survives hash wire)
    (fun e hMem _ hMade => Stamped.made_verifiable (hSteady e hMem) hMade) hRun
  constructor
  · intro x h mb hLookup hReal
    exact ((hEnd.replica x).sm.records mb (.stored hLookup) hReal).content
  · intro to' mb hMem hReal
    exact (hEnd.flight to' _ hMem hReal).content

end Dissemination

namespace Scenario

/-- A stand-in for the hash of the content that shows both of its parts. -/
def contentHash : ContentHash := fun txns time => BitVec.ofInt 256 (100 * txns.length + time)

def oneTransaction : List Transaction := [{ timestamp := 0, id := "a" }]

/-- The microblock that node 1 makes at one time and sends at another. -/
def stamped (created published : Int) : MicroBlock :=
  { newMicroblock (contentHash oneTransaction created) 0 oneTransaction published with
    sender := "1" }

/-- Node 1 makes a microblock and node 2 receives it. -/
def shared (created published : Int) : List Dissemination.Stamped :=
  [{ node := "1", event := .handleTxn 0 0 oneTransaction published, created },
    { node := "2", event := .deliver 0 (.microBlock (stamped created published)) }]

end Scenario

namespace Dissemination

theorem content_hashes_match_shared :
    ∃ net mb, run (stepHashed Scenario.contentHash id Scenario.pool Scenario.keys
        Scenario.sortByGroup Scenario.four) (new Scenario.pool) (Scenario.shared 5 5) = .ok net ∧
      (net.replicas "2").sm.microblockMap.lookup 105 = some mb ∧ mb.isFake = false ∧
      mb.Matches Scenario.contentHash := by
  obtain ⟨net, hRun, hStored⟩ := Outcome.of_test
    (P := fun net : Dissemination =>
      (net.replicas "2").sm.microblockMap.lookup 105 = some (Scenario.stamped 5 5))
    (x := run (stepHashed Scenario.contentHash id Scenario.pool Scenario.keys
      Scenario.sortByGroup Scenario.four) (new Scenario.pool) (Scenario.shared 5 5)) (by decide)
  exact ⟨net, Scenario.stamped 5 5, hRun, hStored, rfl,
    (content_hashes_match hRun (by decide)).1 "2" 105 _ hStored rfl⟩

/-- One tick of the clock between `NewMicroblock` and the broadcast, and the hash fits
neither the record at its maker nor what is on its way. Without the tick, an encoding that
drops the last digit of the reading spoils the record at node 2. -/
theorem content_hash_of_other_time :
    (∃ net mb, run (stepHashed Scenario.contentHash id Scenario.pool Scenario.keys
        Scenario.sortByGroup Scenario.four) (new Scenario.pool) (Scenario.shared 5 6) = .ok net ∧
      (net.replicas "1").sm.microblockMap.lookup 105 = some mb ∧ ("3", .microBlock mb) ∈ net.flight ∧
      mb.isFake = false ∧ ¬ mb.Matches Scenario.contentHash) ∧
    ∃ net mb, run (stepHashed Scenario.contentHash (fun time => time / 10 * 10) Scenario.pool
        Scenario.keys Scenario.sortByGroup Scenario.four) (new Scenario.pool)
        (Scenario.shared 5 5) = .ok net ∧
      (net.replicas "2").sm.microblockMap.lookup 105 = some mb ∧ mb.isFake = false ∧
      ¬ mb.Matches Scenario.contentHash := by
  constructor
  · obtain ⟨net, hRun, hStored, hFlight⟩ := Outcome.of_test
      (P := fun net : Dissemination =>
        (net.replicas "1").sm.microblockMap.lookup 105 = some (Scenario.stamped 5 6) ∧
          ("3", .microBlock (Scenario.stamped 5 6)) ∈ net.flight)
      (x := run (stepHashed Scenario.contentHash id Scenario.pool Scenario.keys
        Scenario.sortByGroup Scenario.four) (new Scenario.pool) (Scenario.shared 5 6)) (by decide)
    exact ⟨net, Scenario.stamped 5 6, hRun, hStored, hFlight, rfl, by decide⟩
  · obtain ⟨net, hRun, hStored⟩ := Outcome.of_test
      (P := fun net : Dissemination => (net.replicas "2").sm.microblockMap.lookup 105 =
        some (Scenario.stamped 5 0))
      (x := run (stepHashed Scenario.contentHash (fun time => time / 10 * 10) Scenario.pool
        Scenario.keys Scenario.sortByGroup Scenario.four) (new Scenario.pool)
        (Scenario.shared 5 5)) (by decide)
    exact ⟨net, _, hRun, hStored, rfl, by decide⟩

end Dissemination
end Bamboo
