import Bamboo.Mempool.Rebuilding
import Bamboo.Replica.Availability
import Bamboo.Replica.Carrying
import Mathlib.Algebra.BigOperators.Group.Finset.Basic
import Mathlib.Algebra.Ring.Int.Defs

/-! The numbers of transactions that honest replicas count. A replica without the content
of a microblock has a placeholder for it with as many empty transactions and the same
group. The numbers travel in microblocks, in announcements and in proposals, and each of
these is made of records that are right already. -/
namespace Bamboo

open Library

/-- The loop of `processCommittedBlock`, as far as `totalTx` is concerned. -/
def committedTxs : Finset Identifier → List MicroBlock → Int
  | _, [] => 0
  | seen, mb :: rest =>
      if mb.hash ∈ seen then committedTxs seen rest
      else mb.txns.length + committedTxs (insert mb.hash seen) rest

/-- `proposeBlock`, with the certificate that the consensus protocol chooses. -/
def Replica.proposeBlock (cfg : Settings) (keys : KeyRing) (sort : GroupSort)
    (hash : RawProposal → Identifier) (r : Replica) (view : View) (qc : QC) :
    Outcome (Replica × Proposal) := do
  let (sm, payload) ← r.sm.generatePayload cfg sort
  let proposal ← payload.toProposal keys hash view qc r.id
  pure ({ r with sm, handed := r.handed ++ payload.microblockList }, proposal)

/-- Replicas whose proposals all come from `proposeBlock`. -/
structure System where
  net : Dissemination
  /-- The proposals that were broadcast. Each can reach each replica at any later time. -/
  proposals : List Proposal := []
  totalTx : NodeID → Int := fun _ => 0

namespace System

inductive Event where
  | proposeBlock (view : View) (qc : QC)
  | other (event : Dissemination.Event)

variable (cfg : Settings) (keys : KeyRing) (sort : GroupSort) (hash : RawProposal → Identifier)
  (peers : Finset NodeID)

def new : System :=
  { net := .new cfg }

/-- Only what was proposed is received as a proposal. -/
def enabled (sys : System) (r : NodeID) (event : Dissemination.Event) : Bool :=
  sys.net.enabled r event &&
    match event with
    | .proposal _ p => p ∈ sys.proposals
    | .propose => false
    | _ => true

/-- What the event adds to the counter of the replica. -/
def counts (sys : System) (r : NodeID) : Dissemination.Event → Int
  | .commit mbs => committedTxs (sys.net.replicas r).commitedMb mbs
  | _ => 0

def step (sys : System) (e : NodeID × Event) : Outcome System :=
  match e.2 with
  | .proposeBlock view qc =>
      if e.1 ∈ peers then do
        let (replica, proposal) ←
          (sys.net.replicas e.1).proposeBlock cfg keys sort hash view qc
        pure { sys with
          net := sys.net.settle peers e.1 replica
          proposals := sys.proposals ++ [proposal] }
      else pure sys
  | .other event =>
      if e.1 ∈ peers ∧ sys.enabled e.1 event then do
        let net ← sys.net.step cfg keys sort peers (e.1, event)
        pure { sys with
          net
          totalTx := Function.update sys.totalTx e.1 (sys.totalTx e.1 + sys.counts e.1 event) }
      else pure sys

/-- The records of microblocks that exist anywhere. -/
inductive Holds (sys : System) : MicroBlock → Prop where
  | mempool {r : NodeID} {mb : MicroBlock} : (sys.net.replicas r).sm.Record mb → Holds sys mb
  /-- In a payload or in a block. -/
  | handed {r : NodeID} {mb : MicroBlock} : mb ∈ (sys.net.replicas r).handed → Holds sys mb
  | committed {r : NodeID} {batch : List MicroBlock} {mb : MicroBlock} :
      batch ∈ (sys.net.replicas r).ex.mbReceive → mb ∈ batch → Holds sys mb
  | executing {r : NodeID} {mb : MicroBlock} : mb ∈ (sys.net.replicas r).ex.mbs → Holds sys mb
  | retransmitted {r : NodeID} {mb : MicroBlock} :
      mb ∈ (sys.net.replicas r).ex.missReceive → Holds sys mb
  | sent {r : NodeID} {mb : MicroBlock} : (r, .microBlock mb) ∈ sys.net.flight → Holds sys mb
  /-- On the way to `loadbalance`. -/
  | waiting {r : NodeID} {mb : MicroBlock} :
      mb ∈ (sys.net.replicas r).selfMBChan → Holds sys mb

end System

/-- The group and the number of transactions of each microblock that was made. -/
abbrev Census := Table Identifier (Int × Nat)

namespace Census

variable {census census' : Census}

def Knows (census : Census) (mb : MicroBlock) : Prop :=
  census.lookup mb.hash = some (mb.groupId, mb.txns.length)

def Announces (census : Census) (stable : Stable) : Prop :=
  ∃ count : Nat, stable.txNums = count ∧
    census.lookup stable.microblockID = some (stable.groupId, count)

def size (census : Census) (h : Identifier) : Nat :=
  match census.lookup h with
  | some (_, count) => count
  | none => 0

theorem Knows.size_eq {mb : MicroBlock} (h : census.Knows mb) :
    census.size mb.hash = mb.txns.length := by
  unfold size
  rw [h]

/-- Copies of a record are right, and so are placeholders made of a right announcement. -/
theorem copied (census : Census) : Copied census.Knows census.Announces where
  toStable pm _ h := ⟨pm.microblock.txns.length, rfl, h⟩
  announced stable now txns h hTxns := by
    obtain ⟨count, hCount, hLookup⟩ := h
    have hLength := length_fakeTxns hTxns
    rw [hCount, Int.natCast_inj] at hLength
    unfold Knows AckMem.announced
    rw [hLength]
    exact hLookup
  requested _ h := h
  numbered _ _ h := h
  forwarded _ _ h := h

/-- A proposal that describes right records mentions right records. -/
theorem mentions {p : Proposal} {leader : AckMem} {mbs : List MicroBlock}
    (hDescribes : p.Describes leader mbs) (h : ∀ mb ∈ mbs, census.Knows mb) {mb : MicroBlock}
    (hMentions : p.Mentions mb) : census.Knows mb := by
  obtain ⟨_, index, hHash, hGroup, hCount⟩ := hMentions
  rw [hDescribes.hashList, List.getElem?_map, Option.map_eq_some_iff] at hHash
  obtain ⟨found, hFound, hHash⟩ := hHash
  rw [hDescribes.groupList, List.getElem?_map, hFound, Option.map_some, Option.some.injEq] at hGroup
  rw [hDescribes.txNums, List.getElem?_map, hFound, Option.map_some, Option.some.injEq,
    Int.natCast_inj] at hCount
  have hKnows := h found (List.mem_of_getElem? hFound)
  unfold Knows at hKnows ⊢
  rw [← hHash, ← hGroup, ← hCount]
  exact hKnows

end Census

/-- A committed block adds the sizes of the microblocks that were not committed before. -/
theorem committedTxs_spec {census : Census} {mbs : List MicroBlock}
    (h : ∀ mb ∈ mbs, census.Knows mb) (seen : Finset Identifier) (no : Int) :
    ∑ hash ∈ (numberCommitted seen no mbs).1, (census.size hash : Int) =
      ∑ hash ∈ seen, (census.size hash : Int) + committedTxs seen mbs := by
  induction mbs generalizing seen no with
  | nil => simp [numberCommitted, committedTxs]
  | cons mb rest ih =>
      have hRest : ∀ later ∈ rest, census.Knows later := fun later hMem =>
        h later (List.mem_cons_of_mem mb hMem)
      unfold numberCommitted committedTxs
      by_cases hSeen : mb.hash ∈ seen
      · rw [if_pos hSeen, if_pos hSeen]
        exact ih hRest seen no
      · rw [if_neg hSeen, if_neg hSeen]
        have hSize := (h mb List.mem_cons_self).size_eq
        have hNext := ih hRest (insert mb.hash seen) (no + 1)
        rw [Finset.sum_insert hSeen, hSize] at hNext
        dsimp only
        omega

namespace Replica

variable {cfg : Settings} {keys : KeyRing} {sort : GroupSort} {r r' : Replica}

theorem commitedMb_of_makesFrom {mb : MicroBlock} (h : MakesFrom cfg mb r r') :
    r'.commitedMb = r.commitedMb := by
  obtain ⟨copy, sm, _, _, ⟨_, recipients, _, rfl⟩ | ⟨_, rfl⟩⟩ := h <;> rfl

theorem commitedMb_of_handle {now : Int} {message : MempoolMessage}
    (h : r.handle cfg keys now message = .ok r') : r'.commitedMb = r.commitedMb := by
  cases message with
  | microBlock mb =>
      rcases handleMicroblock_cases h with ⟨_, rfl⟩ | rfl | ⟨_, ⟨_, rfl⟩ | ⟨_, sm, _, hAck⟩⟩
      · rfl
      · rfl
      · rfl
      · rcases acknowledge_cases hAck with ⟨_, ack, _, _, rfl⟩ | ⟨_, rfl | ⟨ack, rfl⟩⟩ <;> rfl
  | ack ack => rcases processAcks_cases h with rfl | rfl <;> rfl
  | stable stable =>
      obtain ⟨sm, _, hDone⟩ := Outcome.bind_eq_ok.mp h
      cases Outcome.pure_eq_ok.mp hDone
      rfl
  | missingStableMBRequest requesterID mbID =>
      cases Outcome.pure_eq_ok.mp h
      unfold handleMissingStableMb
      split <;> rfl

/-- Only a commit changes what counts as committed. -/
theorem commitedMb_of_handleEvent {event : Dissemination.Event}
    (hEvent : ∀ mbs, event ≠ .commit mbs) (h : r.handleEvent cfg keys sort event = .ok r') :
    r'.commitedMb = r.commitedMb := by
  cases event with
  | observePool hash groupId txns now sample =>
      rcases observePool_makes h with rfl | hMakes
      · rfl
      · exact commitedMb_of_makesFrom hMakes
  | handleTxn hash groupId txns now => exact commitedMb_of_makesFrom (handleTxn_makes h)
  | balance pick =>
      cases Outcome.pure_eq_ok.mp h
      rcases loadbalance_cases cfg r pick with ⟨_, hEq⟩ | ⟨_, _, _, _, _, hEq⟩
      · rw [hEq]
      · rw [hEq]
        rfl
  | deliver now message => exact commitedMb_of_handle h
  | propose =>
      obtain ⟨⟨sm, payload⟩, _, hDone⟩ := Outcome.bind_eq_ok.mp h
      cases Outcome.pure_eq_ok.mp hDone
      rfl
  | proposal now p =>
      obtain ⟨⟨sm, block⟩, _, hDone⟩ := Outcome.bind_eq_ok.mp h
      cases Outcome.pure_eq_ok.mp hDone
      rfl
  | commit mbs => exact absurd rfl (hEvent mbs)
  | batch => rcases handleBatch_cases h with rfl | ⟨_, _, _, _, _, rfl⟩ <;> rfl
  | missing => rcases handleMissing_cases h with rfl | ⟨_, _, _, _, _, rfl⟩ <;> rfl
  | result result =>
      obtain ⟨_, _, rfl⟩ := handleResult_cases h
      rfl

end Replica

namespace System

variable {cfg : Settings} {keys : KeyRing} {sort : GroupSort} {hash : RawProposal → Identifier}
  {peers : Finset NodeID} {census : Census} {sys : System} {x : NodeID} {replica : Replica}

/-- The whole system agrees with the census. -/
structure Consistent (census : Census) (sys : System) : Prop where
  made : ∀ h ∈ census, h ∈ sys.net.creator
  net : sys.net.Carries census.Knows census.Announces
  proposals : ∀ p ∈ sys.proposals, ∀ mb, p.Mentions mb → census.Knows mb
  committed : ∀ r, ∀ h ∈ (sys.net.replicas r).commitedMb, h ∈ census
  total : ∀ r, sys.totalTx r = ∑ h ∈ (sys.net.replicas r).commitedMb, (census.size h : Int)

theorem new_consistent (cfg : Settings) : (new cfg).Consistent ∅ where
  made h hMem := absurd hMem Finmap.notMem_empty
  net := Dissemination.new_carries cfg
  proposals p hMem := by simp [new] at hMem
  committed r h hMem := by simp [new, Dissemination.new, Replica.new] at hMem
  total r := by simp [new, Dissemination.new, Replica.new]

namespace Consistent

/-- A new microblock is entered into the census. -/
theorem create (h : sys.Consistent census) {hash : Identifier} (hNew : hash ∉ sys.net.creator)
    (groupId : Int) (count : Nat) :
    { sys with net := { sys.net with creator := sys.net.creator.insert hash x } }.Consistent
      (census.insert hash (groupId, count)) := by
  have hFresh : hash ∉ census := fun hMem => hNew (h.made hash hMem)
  have hKnows : ∀ mb, census.Knows mb → Census.Knows (census.insert hash (groupId, count)) mb :=
    fun mb hMb => Table.lookup_insert_of_new hFresh hMb
  have hAnnounces : ∀ stable, census.Announces stable →
      Census.Announces (census.insert hash (groupId, count)) stable := by
    rintro stable ⟨n, hCount, hEntry⟩
    exact ⟨n, hCount, Table.lookup_insert_of_new hFresh hEntry⟩
  constructor
  · exact Table.mem_insert_of_forall h.made
  · have hNet := h.net.mono hKnows hAnnounces
    exact ⟨hNet.replica, hNet.flight⟩
  · exact fun p hMem mb hMentions => hKnows mb (h.proposals p hMem mb hMentions)
  · exact fun r h' hMem => Finmap.mem_insert.mpr (Or.inr (h.committed r h' hMem))
  · intro r
    refine (h.total r).trans (Finset.sum_congr rfl fun h' hMem => ?_)
    obtain ⟨entry, hEntry⟩ := Finmap.mem_iff.mp (h.committed r h' hMem)
    unfold Census.size
    rw [hEntry, Table.lookup_insert_of_new hFresh hEntry]

/-- What an event brings agrees with the census, once a new microblock is in it. -/
theorem register (h : sys.Consistent census) {event : Dissemination.Event}
    (hEnabled : sys.enabled x event = true) :
    ∃ census', { sys with net := sys.net.register x event }.Consistent census' ∧
      event.Carries census'.Knows census'.Announces := by
  have hNet : sys.net.enabled x event = true := (Bool.and_eq_true_iff.mp hEnabled).1
  have hMakes : ∀ (hash : Identifier) (groupId : Int) (txns : List Transaction) (now : Int) id copy,
      Replica.SentBy id (newMicroblock hash groupId txns now) copy →
      Census.Knows (census.insert hash (groupId, txns.length)) copy := by
    rintro _ _ _ _ _ _ ⟨list, hops, rfl⟩
    exact Finmap.lookup_insert _
  cases event with
  | observePool hash groupId txns now sample =>
      have hNew : hash ∉ sys.net.creator := by simpa [Dissemination.enabled] using hNet
      exact ⟨_, h.create hNew groupId txns.length, hMakes hash groupId txns now⟩
  | handleTxn hash groupId txns now =>
      have hNew : hash ∉ sys.net.creator := by simpa [Dissemination.enabled] using hNet
      exact ⟨_, h.create hNew groupId txns.length, hMakes hash groupId txns now⟩
  | deliver now message =>
      have hFlight : (x, message) ∈ sys.net.flight := by simpa [Dissemination.enabled] using hNet
      exact ⟨census, { h with net := h.net.register x (.deliver now message) },
        h.net.flight x message hFlight⟩
  | proposal now p =>
      have hProposed : p ∈ sys.proposals := by
        simpa [enabled, Dissemination.enabled] using hEnabled
      exact ⟨census, h, h.proposals p hProposed⟩
  | commit mbs =>
      have hHanded : ∀ mb ∈ mbs, mb ∈ (sys.net.replicas x).handed := by
        simpa [Dissemination.enabled] using hNet
      exact ⟨census, h, fun mb hMem => (h.net.replica x).handed mb (hHanded mb hMem)⟩
  | _ => exact ⟨census, h, trivial⟩

/-- A replica has handled an event, and what it sends enters the network. -/
theorem settle (h : sys.Consistent census) (peers : Finset NodeID) (x : NodeID)
    (hReplica : replica.Carries census.Knows census.Announces) {total : Int}
    (hCommitted : ∀ h ∈ replica.commitedMb, h ∈ census)
    (hTotal : total = ∑ h ∈ replica.commitedMb, (census.size h : Int)) :
    { sys with
      net := sys.net.settle peers x replica
      totalTx := Function.update sys.totalTx x total }.Consistent census := by
  constructor
  · exact h.made
  · exact h.net.settle peers x hReplica
  · exact h.proposals
  · intro r
    rcases Dissemination.settle_cases peers sys.net x replica r with ⟨rfl, hAt⟩ | ⟨_, hAt⟩
    · rw [hAt]
      exact hCommitted
    · rw [hAt]
      exact h.committed r
  · intro r
    rcases Dissemination.settle_cases peers sys.net x replica r with ⟨rfl, hAt⟩ | ⟨hSame, hAt⟩
    · rw [hAt]
      exact (Function.update_self r _ _).trans hTotal
    · rw [hAt]
      exact (Function.update_of_ne hSame _ _).trans (h.total r)

end Consistent

/-- A proposal of an own payload is made of records of the queue. -/
theorem Consistent.proposeBlock (h : sys.Consistent census) {view : View} {qc : QC} {p : Proposal}
    (hStep : (sys.net.replicas x).proposeBlock cfg keys sort hash view qc = .ok (replica, p)) :
    replica.Carries census.Knows census.Announces ∧
      replica.commitedMb = (sys.net.replicas x).commitedMb ∧
      ∀ mb, p.Mentions mb → census.Knows mb := by
  obtain ⟨⟨sm, payload⟩, hPayload, hStep⟩ := Outcome.bind_eq_ok.mp hStep
  obtain ⟨proposal, hProposal, hDone⟩ := Outcome.bind_eq_ok.mp hStep
  cases Outcome.pure_eq_ok.mp hDone
  have hGenerate : (sys.net.replicas x).generatePayload cfg sort =
      .ok { sys.net.replicas x with
        sm, handed := (sys.net.replicas x).handed ++ payload.microblockList } :=
    Outcome.bind_eq_ok.mpr ⟨(sm, payload), hPayload, rfl⟩
  refine ⟨(h.net.replica x).generatePayload hGenerate, rfl, fun mb hMentions => ?_⟩
  exact Census.mentions (AckMem.generatePayload_describes hPayload hProposal)
    ((h.net.replica x).sm.generatePayload hPayload).2 hMentions

theorem Consistent.proposes (h : sys.Consistent census) {view : View} {qc : QC} {p : Proposal}
    (hStep : (sys.net.replicas x).proposeBlock cfg keys sort hash view qc = .ok (replica, p)) :
    { sys with
      net := sys.net.settle peers x replica
      proposals := sys.proposals ++ [p] }.Consistent census := by
  obtain ⟨hReplica, hSame, hMentions⟩ := h.proposeBlock hStep
  have hTotal := h.total x
  rw [← hSame] at hTotal
  have hSettled := h.settle peers x hReplica (hSame ▸ h.committed x) hTotal
  rw [Function.update_eq_self] at hSettled
  refine { hSettled with proposals := fun found hMem => ?_ }
  rcases List.mem_append.mp hMem with hOld | hNew
  · exact h.proposals found hOld
  · cases List.mem_singleton.mp hNew
    exact hMentions

/-- A commit counts what it makes committed, and nothing else counts. -/
theorem handleEvent_counts {event : Dissemination.Event}
    (hEvent : event.Carries census.Knows census.Announces)
    (hStep : (sys.net.replicas x).handleEvent cfg keys sort event = .ok replica) :
    (∀ h ∈ replica.commitedMb, h ∈ (sys.net.replicas x).commitedMb ∨ h ∈ census) ∧
    ∑ h ∈ replica.commitedMb, (census.size h : Int) =
      ∑ h ∈ (sys.net.replicas x).commitedMb, (census.size h : Int) + sys.counts x event := by
  by_cases hCommit : ∃ mbs, event = .commit mbs
  · obtain ⟨mbs, rfl⟩ := hCommit
    cases Outcome.pure_eq_ok.mp hStep
    refine ⟨fun h hMem => ?_, committedTxs_spec hEvent _ _⟩
    rcases (numberCommitted_origin _ _ mbs).2 h hMem with hOld | ⟨mb, hMb, rfl⟩
    · exact Or.inl hOld
    · exact Or.inr (Table.mem_of_lookup (hEvent mb hMb))
  · rw [Replica.commitedMb_of_handleEvent (fun mbs hEq => hCommit ⟨mbs, hEq⟩) hStep]
    refine ⟨fun h hMem => Or.inl hMem, ?_⟩
    cases event with
    | commit mbs => exact absurd ⟨mbs, rfl⟩ hCommit
    | _ => exact (add_zero _).symm

theorem Consistent.handleEvent (h : sys.Consistent census) {event : Dissemination.Event}
    (hEnabled : sys.enabled x event = true)
    (hStep : (sys.net.replicas x).handleEvent cfg keys sort event = .ok replica) :
    ∃ census', { sys with
      net := (sys.net.register x event).settle peers x replica
      totalTx := Function.update sys.totalTx x (sys.totalTx x + sys.counts x event) }.Consistent
        census' := by
  obtain ⟨census', hSys, hEvent⟩ := h.register hEnabled
  have hSame := Dissemination.register_replicas sys.net x event
  have hHere := hSys.net.replica x
  have hBefore := hSys.committed x
  have hTotal := hSys.total x
  dsimp only at hHere hBefore hTotal
  rw [hSame] at hHere hBefore hTotal
  obtain ⟨hCommitted, hCounts⟩ := handleEvent_counts hEvent hStep
  refine ⟨census', hSys.settle peers x (hHere.handleEvent census'.copied hEvent hStep) ?_ ?_⟩
  · exact fun h' hMem => (hCommitted h' hMem).elim (hBefore h') fun hNew => hNew
  · rw [hTotal, hCounts]

theorem step_consistent {sys' : System} {e : NodeID × Event} (h : ∃ census, sys.Consistent census)
    (hStep : sys.step cfg keys sort hash peers e = .ok sys') :
    ∃ census, sys'.Consistent census := by
  obtain ⟨census, h⟩ := h
  obtain ⟨x, event⟩ := e
  cases event with
  | proposeBlock view qc =>
      unfold step at hStep
      dsimp only at hStep
      by_cases hPeer : x ∈ peers
      · rw [if_pos hPeer] at hStep
        obtain ⟨⟨replica, p⟩, hProposed, hDone⟩ := Outcome.bind_eq_ok.mp hStep
        cases Outcome.pure_eq_ok.mp hDone
        exact ⟨census, h.proposes hProposed⟩
      · rw [if_neg hPeer] at hStep
        cases Outcome.pure_eq_ok.mp hStep
        exact ⟨census, h⟩
  | other event =>
      unfold step at hStep
      dsimp only at hStep
      by_cases hHappens : x ∈ peers ∧ sys.enabled x event = true
      · rw [if_pos hHappens] at hStep
        obtain ⟨net, hNet, hDone⟩ := Outcome.bind_eq_ok.mp hStep
        cases Outcome.pure_eq_ok.mp hDone
        have hEnabled : sys.net.enabled x event = true :=
          (Bool.and_eq_true_iff.mp hHappens.2).1
        unfold Dissemination.step at hNet
        rw [if_pos ⟨hHappens.1, hEnabled⟩] at hNet
        obtain ⟨replica, hHandled, hNet⟩ := Outcome.bind_eq_ok.mp hNet
        cases Outcome.pure_eq_ok.mp hNet
        exact h.handleEvent hHappens.2 hHandled
      · rw [if_neg hHappens] at hStep
        cases Outcome.pure_eq_ok.mp hStep
        exact ⟨census, h⟩

theorem run_consistent {events : List (NodeID × Event)}
    (hRun : run (step cfg keys sort hash peers) (new cfg) events = .ok sys) :
    ∃ census, sys.Consistent census :=
  run_invariant (P := fun sys => ∃ census, Consistent census sys)
    (fun _ _ _ h hStep => step_consistent h hStep) hRun ⟨∅, new_consistent cfg⟩

theorem Consistent.holds (h : sys.Consistent census) {mb : MicroBlock} (hHolds : sys.Holds mb) :
    census.Knows mb := by
  cases hHolds with
  | @mempool r _ hRecord => exact (h.net.replica r).sm.records mb hRecord
  | @handed r _ hMem => exact (h.net.replica r).handed mb hMem
  | @committed r batch _ hBatch hMem => exact (h.net.replica r).channel batch hBatch mb hMem
  | @executing r _ hMem => exact (h.net.replica r).queue mb hMem
  | @retransmitted r _ hMem => exact (h.net.replica r).missing mb hMem
  | sent hMem => exact h.net.flight _ _ hMem
  | @waiting r _ hMem => exact (h.net.replica r).selfMBChan mb hMem

/-- In every run of honest replicas, all records of a microblock have the same group and
the same number of transactions, and every replica counts that number when it commits
the microblock. -/
theorem records_agree {events : List (NodeID × Event)}
    (hRun : run (step cfg keys sort hash peers) (new cfg) events = .ok sys) :
    (∀ mb mb', sys.Holds mb → sys.Holds mb' → mb.hash = mb'.hash →
      mb.txns.length = mb'.txns.length ∧ mb.groupId = mb'.groupId) ∧
    ∃ size : Identifier → Nat, (∀ mb, sys.Holds mb → mb.txns.length = size mb.hash) ∧
      ∀ r, sys.totalTx r = ∑ h ∈ (sys.net.replicas r).commitedMb, (size h : Int) := by
  obtain ⟨census, hConsistent⟩ := run_consistent hRun
  refine ⟨fun mb mb' hHolds hHolds' hHash => ?_, census.size, fun mb hHolds => ?_,
    hConsistent.total⟩
  · have hEntry := hConsistent.holds hHolds
    have hEntry' := hConsistent.holds hHolds'
    unfold Census.Knows at hEntry hEntry'
    rw [hHash, hEntry', Option.some.injEq, Prod.mk.injEq] at hEntry
    exact ⟨hEntry.2.symm, hEntry.1.symm⟩
  · exact (hConsistent.holds hHolds).size_eq.symm

end System

namespace Scenario

/-- A microblock with two transactions, as replica 1 sends it. -/
def twoTxns : MicroBlock :=
  { newMicroblock 1 0 [{ timestamp := 0 }, { timestamp := 0 }] 0 with sender := "1" }

/-- The proposal of replica 1 for it. -/
def oneHash : Proposal where
  view := 1
  qc := some .initial
  proposer := "1"
  prevID := QC.initial.blockID
  id := 9
  sig := keys.sign 0 9
  hashList := [1]
  txNums := [2]
  groupList := [0]
  ackNode := [{"2", "3"}]
  mbTime := [0]

/-- Replica 4 has only a placeholder when it commits the microblock. -/
def committedTwice : List (NodeID × System.Event) :=
  [("1", .other (.handleTxn 1 0 twoTxns.txns 0)),
    ("2", .other (.deliver 0 (.microBlock twoTxns))),
    ("3", .other (.deliver 0 (.microBlock twoTxns))),
    ("1", .other (.deliver 0 (.ack (signedAck "2" 1)))),
    ("1", .other (.deliver 0 (.ack (signedAck "3" 2)))),
    ("4", .other (.deliver 0 (.stable { announcement with txNums := 2 }))),
    ("1", .proposeBlock 1 .initial), ("4", .other (.proposal 0 oneHash)),
    ("1", .other (.commit [twoTxns])),
    ("4", .other (.commit [{ twoTxns with
      sender := "", isFake := true, generateNodeList := {"3", "2", "1"} }]))]

end Scenario

namespace System

theorem records_agree_committed :
    ∃ sys, run (step Scenario.pool Scenario.keys Scenario.sortByGroup (fun _ => 9) Scenario.four)
        (new Scenario.pool) Scenario.committedTwice = .ok sys ∧
      (sys.net.replicas "4").sm.hasContent 1 = false ∧
      sys.totalTx "1" = 2 ∧ sys.totalTx "4" = 2 ∧
      ∃ size : Identifier → Nat, (∀ mb, sys.Holds mb → mb.txns.length = size mb.hash) ∧
        ∀ r, sys.totalTx r = ∑ h ∈ (sys.net.replicas r).commitedMb, (size h : Int) := by
  obtain ⟨sys, hRun, hPlaceholder, hOne, hFour⟩ := Outcome.of_test
    (P := fun sys : System => (sys.net.replicas "4").sm.hasContent 1 = false ∧
      sys.totalTx "1" = 2 ∧ sys.totalTx "4" = 2)
    (x := run (step Scenario.pool Scenario.keys Scenario.sortByGroup (fun _ => 9) Scenario.four)
      (new Scenario.pool) Scenario.committedTwice) (by decide)
  exact ⟨sys, hRun, hPlaceholder, hOne, hFour, (records_agree hRun).2⟩

end System
end Bamboo
