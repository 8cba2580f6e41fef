import Bamboo.Replica.Handlers

/-! Provable availability: what any replica calls stable is held by enough
replicas. The invariant relates every mempool and every message in flight to the
replicas that have the content; a node acks a microblock once, after it has
stored it, so that no ack is counted twice. -/
namespace Bamboo

open Library

def MempoolMessage.isAck (h : Identifier) (node : NodeID) : MempoolMessage → Bool
  | .ack receipt => receipt.microblockID = h && receipt.receiver = node
  | .microBlock _ | .stable _ | .missingStableMBRequest _ _ => false

theorem isAck_self (receipt : Ack) :
    (MempoolMessage.ack receipt).isAck receipt.microblockID receipt.receiver = true := by
  simp [MempoolMessage.isAck]

theorem isAck_iff {h : Identifier} {node : NodeID} {message : MempoolMessage} :
    message.isAck h node = true ↔
      ∃ receipt, message = .ack receipt ∧ receipt.microblockID = h ∧ receipt.receiver = node := by
  cases message <;> simp [MempoolMessage.isAck]

/-- Nothing that is posted is an ack of the node, if nothing in the outbox is. -/
theorem countP_post_eq_zero {peers : Finset NodeID} {self : NodeID} {h : Identifier}
    {node : NodeID} {out : List (Recipients × MempoolMessage)}
    (hNone : ∀ entry ∈ out, entry.2.isAck h node = false) :
    (post peers self out).countP (fun e => e.2.isAck h node = true) = 0 := by
  rw [Multiset.countP_eq_zero]
  rintro ⟨to', message⟩ hMem
  obtain ⟨recipients, hOut, _⟩ := mem_post.mp hMem
  simp [hNone _ hOut]

/-- A message to one node is posted at most once. -/
theorem card_post_one (peers : Finset NodeID) (self to' : NodeID) (message : MempoolMessage) :
    (post peers self [(.one to', message)]).card ≤ 1 := by
  have hFilter : (peers.filter fun node => Recipients.includes self (.one to') node = true) ⊆
      {to'} := by
    intro node hMem
    simpa [Recipients.includes] using (Finset.mem_filter.mp hMem).2
  have hCard := Finset.card_le_card hFilter
  rw [Finset.card_singleton] at hCard
  simp only [post, add_zero, Multiset.card_map]
  exact hCard

theorem post_append (peers : Finset NodeID) (self : NodeID)
    (first rest : List (Recipients × MempoolMessage)) :
    post peers self (first ++ rest) = post peers self first + post peers self rest := by
  induction first with
  | nil => simp [post]
  | cons entry first ih => simp [post, ih, add_assoc]

namespace Dissemination

variable {cfg : Settings} {keys : KeyRing} {sort : GroupSort} {peers : Finset NodeID}
  {net : Dissemination} {x : NodeID} {replica : Replica}

/-- Who made what and who has it, in a state of the network. -/
def ledger (peers : Finset NodeID) (net : Dissemination) : Ledger where
  creator := net.creator
  holders := net.holders peers

structure Sound (cfg : Settings) (peers : Finset NodeID) (net : Dissemination) : Prop where
  replica : ∀ r, (net.replicas r).Grounded cfg (net.ledger peers) r
  idle : ∀ r, (net.replicas r).outbox = []
  message : ∀ to' message, (to', message) ∈ net.flight →
    message.Grounded cfg (net.ledger peers) to'
  once : ∀ h node, net.flight.countP (fun e => e.2.isAck h node = true) ≤ 1
  acked : ∀ to' receipt, (to', .ack receipt) ∈ net.flight →
    receipt.microblockID ∈ (net.replicas receipt.receiver).receivedMBs ∧
      receipt.receiver ∉ (net.replicas to').sm.ackMapOf receipt.microblockID
  counted : ∀ h c node, net.creator.lookup h = some c →
    node ∈ (net.replicas c).sm.ackMapOf h → node = c ∨ h ∈ (net.replicas node).receivedMBs

/-- What a replica sends while it handles an event, apart from announcements. -/
inductive Sends (peers : Finset NodeID) (net : Dissemination) (x : NodeID) (replica : Replica) :
    Prop where
  | nothing : replica.outbox = [] → Sends peers net x replica
  | ack (receipt : Ack) (to' : NodeID) :
      replica.outbox = [(.one to', .ack receipt)] → receipt.receiver = x →
      net.creator.lookup receipt.microblockID = some to' → to' ≠ x →
      to' ∈ net.holders peers receipt.microblockID →
      receipt.microblockID ∉ (net.replicas x).receivedMBs →
      receipt.microblockID ∈ replica.receivedMBs →
      replica.sm.hasContent receipt.microblockID = true → Sends peers net x replica
  | microBlock (made mb : MicroBlock) (recipients : Recipients) :
      replica.outbox = [(recipients, .microBlock mb)] →
      (∀ to', recipients.includes x to' = true → to' ≠ x) → Replica.SentBy x made mb →
      made.isFake = false → made.isRequested = false →
      net.creator.lookup made.hash = some x → replica.sm.hasContent made.hash = true →
      Sends peers net x replica

/-- What the network has to know about the replica after an event at `x`. -/
structure Reacts (cfg : Settings) (peers : Finset NodeID) (net : Dissemination) (x : NodeID)
    (replica : Replica) : Prop where
  content : ∀ h, (net.replicas x).sm.hasContent h = true → replica.sm.hasContent h = true
  received : (net.replicas x).receivedMBs ⊆ replica.receivedMBs
  acked : ∀ h node, node ∈ replica.sm.ackMapOf h → node ∈ (net.replicas x).sm.ackMapOf h ∨
    (net.creator.lookup h = some x → (node = x ∨ h ∈ (net.replicas node).receivedMBs) ∧
      ∀ e ∈ net.flight, e.2.isAck h node = false)
  grounded : replica.Grounded cfg ((net.settle peers x replica).ledger peers) x
  sends : Sends peers net x replica

theorem mem_holders {h : Identifier} {y : NodeID} :
    y ∈ net.holders peers h ↔ y ∈ peers ∧ (net.replicas y).sm.hasContent h = true := by
  simp [holders]

theorem settle_grows
    (hContent : ∀ h, (net.replicas x).sm.hasContent h = true → replica.sm.hasContent h = true) :
    (net.ledger peers).Grows ((net.settle peers x replica).ledger peers) where
  creator _ _ hCreator := hCreator
  holders h y hMem := by
    obtain ⟨hPeer, hHas⟩ := mem_holders.mp hMem
    refine mem_holders.mpr ⟨hPeer, ?_⟩
    rcases settle_cases peers net x replica y with ⟨rfl, hAt⟩ | ⟨_, hAt⟩
    · rw [hAt]
      exact hContent h hHas
    · rwa [hAt]

theorem self_mem_holders (hPeer : x ∈ peers) {h : Identifier}
    (hContent : replica.sm.hasContent h = true) :
    x ∈ (net.settle peers x replica).holders peers h := by
  refine mem_holders.mpr ⟨hPeer, ?_⟩
  rw [settle_self]
  exact hContent

/-- The handlers themselves send acks and microblocks. -/
theorem Sends.cases (h : Sends peers net x replica) {recipients : Recipients}
    {message : MempoolMessage} (hMem : (recipients, message) ∈ replica.outbox) :
    (∃ receipt, message = .ack receipt) ∨ ∃ mb, message = .microBlock mb := by
  cases h with
  | nothing hOut => simp [hOut] at hMem
  | ack receipt recipient hOut =>
      rw [hOut, List.mem_singleton] at hMem
      cases hMem
      exact Or.inl ⟨receipt, rfl⟩
  | microBlock made mb others hOut =>
      rw [hOut, List.mem_singleton] at hMem
      cases hMem
      exact Or.inr ⟨mb, rfl⟩

namespace Reacts

variable (hReacts : Reacts cfg peers net x replica)
include hReacts

theorem grows : (net.ledger peers).Grows ((net.settle peers x replica).ledger peers) :=
  settle_grows hReacts.content

theorem receivedMBs_mono (y : NodeID) :
    (net.replicas y).receivedMBs ⊆ ((net.settle peers x replica).replicas y).receivedMBs := by
  rcases settle_cases peers net x replica y with ⟨rfl, hAt⟩ | ⟨_, hAt⟩
  · rw [hAt]
    exact hReacts.received
  · rw [hAt]

theorem ackMapOf_cases {y node : NodeID} {h : Identifier}
    (hMem : node ∈ ((net.settle peers x replica).replicas y).sm.ackMapOf h) :
    node ∈ (net.replicas y).sm.ackMapOf h ∨ y = x ∧
      (net.creator.lookup h = some x → (node = x ∨ h ∈ (net.replicas node).receivedMBs) ∧
        ∀ e ∈ net.flight, e.2.isAck h node = false) := by
  rcases settle_cases peers net x replica y with ⟨rfl, hAt⟩ | ⟨_, hAt⟩
  · rw [hAt] at hMem
    exact (hReacts.acked h node hMem).imp_right fun hNew => ⟨rfl, hNew⟩
  · rw [hAt] at hMem
    exact Or.inl hMem

/-- A message that enters the network is an announcement or the one that the
handler sends. -/
theorem mem_posted {to' : NodeID} {message : MempoolMessage}
    (hMem : (to', message) ∈ post peers x replica.flush.outbox) :
    (∃ stable ∈ replica.sm.outbox, message = .stable stable) ∨
      ∃ recipients, (recipients, message) ∈ replica.outbox ∧
        recipients.includes x to' = true := by
  obtain ⟨recipients, hOut, _, hIncludes⟩ := mem_post.mp hMem
  rcases List.mem_append.mp hOut with hOut | hRequest
  · rcases List.mem_append.mp hOut with hSent | hStable
    · exact Or.inr ⟨recipients, hSent, hIncludes⟩
    · obtain ⟨stable, hOutbox, hEq⟩ := List.mem_map.mp hStable
      cases hEq
      exact Or.inl ⟨stable, hOutbox, rfl⟩
  · obtain ⟨rfl, _⟩ := hReacts.grounded.request_members hRequest
    simp [Recipients.includes] at hIncludes

/-- An ack that enters the network. -/
theorem posted_ack {to' : NodeID} {receipt : Ack}
    (hMem : (to', .ack receipt) ∈ post peers x replica.flush.outbox) :
    receipt.receiver = x ∧ net.creator.lookup receipt.microblockID = some to' ∧ to' ≠ x ∧
      to' ∈ net.holders peers receipt.microblockID ∧
      receipt.microblockID ∉ (net.replicas x).receivedMBs ∧
      receipt.microblockID ∈ replica.receivedMBs ∧
      replica.sm.hasContent receipt.microblockID = true := by
  rcases hReacts.mem_posted hMem with ⟨_, _, hEq⟩ | ⟨recipients, hSent, hIncludes⟩
  · cases hEq
  cases hReacts.sends with
  | nothing hOut => simp [hOut] at hSent
  | microBlock made mb others hOut => simp [hOut] at hSent
  | ack sent recipient hOut hReceiver hCreator hOther hHolder hBefore hAfter hContent =>
      rw [hOut, List.mem_singleton] at hSent
      cases hSent
      have hTo : to' = recipient := by simpa [Recipients.includes] using hIncludes
      subst hTo
      exact ⟨hReceiver, hCreator, hOther, hHolder, hBefore, hAfter, hContent⟩

/-- A microblock that enters the network. -/
theorem posted_microBlock {to' : NodeID} {mb : MicroBlock}
    (hMem : (to', .microBlock mb) ∈ post peers x replica.flush.outbox) :
    to' ≠ x ∧ mb.sender = x ∧ mb.isFake = false ∧ mb.isRequested = false ∧
      net.creator.lookup mb.hash = some x ∧ replica.sm.hasContent mb.hash = true := by
  rcases hReacts.mem_posted hMem with ⟨_, _, hEq⟩ | ⟨recipients, hSent, hIncludes⟩
  · cases hEq
  cases hReacts.sends with
  | nothing hOut => simp [hOut] at hSent
  | ack receipt recipient hOut => simp [hOut] at hSent
  | microBlock made sent others hOut hExclude hCopy hReal hFirst hCreator hContent =>
      rw [hOut, List.mem_singleton] at hSent
      cases hSent
      obtain ⟨list, hops, rfl⟩ := hCopy
      exact ⟨hExclude to' hIncludes, rfl, hReal, hFirst, hCreator, hContent⟩

theorem posted_grounded (hPeer : x ∈ peers) {to' : NodeID} {message : MempoolMessage}
    (hMem : (to', message) ∈ post peers x replica.flush.outbox) :
    message.Grounded cfg ((net.settle peers x replica).ledger peers) to' := by
  cases message with
  | microBlock mb =>
      obtain ⟨hOther, hSender, hReal, hFirst, hCreator, hContent⟩ := hReacts.posted_microBlock hMem
      refine ⟨hReal, hFirst, ?_, ?_, ?_⟩
      · rw [hSender]
        exact hCreator
      · rw [hSender]
        exact self_mem_holders hPeer hContent
      · rw [hSender]
        exact hOther
  | ack receipt =>
      obtain ⟨hReceiver, hCreator, hOther, hHolder, _, _, hContent⟩ := hReacts.posted_ack hMem
      refine ⟨hCreator, ?_, ?_, hReacts.grows.holders _ hHolder⟩
      · rw [hReceiver]
        exact hOther.symm
      · rw [hReceiver]
        exact self_mem_holders hPeer hContent
  | stable notice =>
      rcases hReacts.mem_posted hMem with ⟨_, hOutbox, hEq⟩ | ⟨_, hSent, _⟩
      · cases hEq
        have hSupports := hReacts.grounded.sm.announced notice hOutbox
        rw [hReacts.grounded.threshhold] at hSupports
        exact hSupports
      · rcases hReacts.sends.cases hSent with ⟨_, hEq⟩ | ⟨_, hEq⟩ <;> cases hEq
  | missingStableMBRequest requesterID mbID =>
      rcases hReacts.mem_posted hMem with ⟨_, _, hEq⟩ | ⟨_, hSent, _⟩
      · cases hEq
      · rcases hReacts.sends.cases hSent with ⟨_, hEq⟩ | ⟨_, hEq⟩ <;> cases hEq

/-- At most one ack enters the network, and none for the same node is there. -/
theorem countP_ack (hSound : net.Sound cfg peers) (h : Identifier) (node : NodeID) :
    (net.settle peers x replica).flight.countP (fun e => e.2.isAck h node = true) ≤ 1 := by
  have hStables : (post peers x (replica.sm.outbox.map fun stable =>
      (Recipients.all, MempoolMessage.stable stable))).countP
        (fun e => e.2.isAck h node = true) = 0 := by
    refine countP_post_eq_zero fun entry hMem => ?_
    obtain ⟨stable, _, rfl⟩ := List.mem_map.mp hMem
    rfl
  have hRequests : (post peers x (replica.ex.outbox.filterMap
      (Outgoing.request replica.ex.id))).countP (fun e => e.2.isAck h node = true) = 0 := by
    refine countP_post_eq_zero fun entry hMem => ?_
    obtain ⟨_, mbID, hRequest⟩ := hReacts.grounded.request_members hMem
    rw [hRequest]
    rfl
  have hBefore := hSound.once h node
  simp only [settle, Replica.flush, post_append, Multiset.countP_add, hStables, hRequests,
    Nat.add_zero]
  cases hReacts.sends with
  | nothing hOut => simpa [hOut, post] using hBefore
  | microBlock made mb others hOut =>
      have hNone : (post peers x replica.outbox).countP (fun e => e.2.isAck h node = true) = 0 := by
        refine countP_post_eq_zero fun entry hMem => ?_
        rw [hOut, List.mem_singleton] at hMem
        subst hMem
        rfl
      omega
  | ack receipt recipient hOut hReceiver hCreator hOther hHolder hFresh =>
      by_cases hSame : (MempoolMessage.ack receipt).isAck h node = true
      · have hNone : net.flight.countP (fun e => e.2.isAck h node = true) = 0 := by
          rw [Multiset.countP_eq_zero]
          rintro ⟨to', message⟩ hMem hAck
          obtain ⟨other, rfl, rfl, rfl⟩ := isAck_iff.mp hAck
          obtain ⟨_, hEq, hHash, hNode⟩ := isAck_iff.mp hSame
          cases hEq
          have hSeen := (hSound.acked to' other hMem).1
          rw [← hHash, ← hNode, hReceiver] at hSeen
          exact hFresh hSeen
        have hOne := (Multiset.countP_le_card (fun e => e.2.isAck h node = true)
          (post peers x replica.outbox)).trans (hOut ▸ card_post_one peers x recipient _)
        omega
      · have hNone : (post peers x replica.outbox).countP
            (fun e => e.2.isAck h node = true) = 0 := by
          refine countP_post_eq_zero fun entry hMem => ?_
          rw [hOut, List.mem_singleton] at hMem
          subst hMem
          simpa using hSame
        omega

/-- The invariant after an event at a replica. -/
theorem sound (hSound : net.Sound cfg peers) (hPeer : x ∈ peers) :
    (net.settle peers x replica).Sound cfg peers where
  replica y := by
    rcases settle_cases peers net x replica y with ⟨rfl, hAt⟩ | ⟨_, hAt⟩
    · rw [hAt]
      exact hReacts.grounded.flush
    · rw [hAt]
      exact (hSound.replica y).mono hReacts.grows
  idle y := by
    rcases settle_cases peers net x replica y with ⟨rfl, hAt⟩ | ⟨_, hAt⟩
    · rw [hAt]
    · rw [hAt]
      exact hSound.idle y
  message to' message hMem := by
    rcases Multiset.mem_add.mp hMem with hOld | hNew
    · exact (hSound.message to' message hOld).mono hReacts.grows
    · exact hReacts.posted_grounded hPeer hNew
  once := hReacts.countP_ack hSound
  acked to' receipt hMem := by
    rcases Multiset.mem_add.mp hMem with hOld | hNew
    · obtain ⟨hSeen, hUncounted⟩ := hSound.acked to' receipt hOld
      refine ⟨hReacts.receivedMBs_mono _ hSeen, fun hCounted => ?_⟩
      rcases hReacts.ackMapOf_cases hCounted with hBefore | ⟨rfl, hNow⟩
      · exact hUncounted hBefore
      · -- the acks that are counted now have left the network
        obtain ⟨hCreator, _⟩ := hSound.message _ _ hOld
        have hGone := (hNow hCreator).2 _ hOld
        rw [isAck_self] at hGone
        cases hGone
    · obtain ⟨rfl, hCreator, hOther, _, hFresh, hSeen, _⟩ := hReacts.posted_ack hNew
      rw [settle_self, settle_other peers net replica hOther]
      refine ⟨hSeen, fun hCounted => ?_⟩
      rcases hSound.counted _ _ _ hCreator hCounted with hMaker | hReceived
      · exact hOther hMaker.symm
      · exact hFresh hReceived
  counted h c node hCreator hMem := by
    rcases hReacts.ackMapOf_cases hMem with hBefore | ⟨rfl, hNow⟩
    · exact (hSound.counted h c node hCreator hBefore).imp_right fun hSeen =>
        hReacts.receivedMBs_mono node hSeen
    · exact (hNow hCreator).1.imp_right fun hSeen => hReacts.receivedMBs_mono node hSeen

end Reacts

namespace Sound

theorem new_sound (cfg : Settings) (peers : Finset NodeID) : (new cfg).Sound cfg peers where
  replica r := Replica.new_grounded cfg _ r
  idle _ := rfl
  message to' message hMem := by simp [new] at hMem
  once h node := by simp [new]
  acked to' receipt hMem := by simp [new] at hMem
  counted h c node hCreator := by simp [new] at hCreator

/-- A new hash gets its creator. -/
theorem create (hSound : net.Sound cfg peers) {hash : Identifier} (hNew : hash ∉ net.creator) :
    { net with creator := net.creator.insert hash x }.Sound cfg peers := by
  have hGrows : (net.ledger peers).Grows
      ({ net with creator := net.creator.insert hash x }.ledger peers) :=
    ⟨fun _ _ hCreator => Table.lookup_insert_of_new hNew hCreator, fun _ => Finset.Subset.refl _⟩
  refine ⟨fun r => (hSound.replica r).mono hGrows, hSound.idle, fun to' message hMem =>
    (hSound.message to' message hMem).mono hGrows, hSound.once, hSound.acked, ?_⟩
  intro h c node hCreator hMem
  have hOld : ∃ c', net.creator.lookup h = some c' := by
    obtain ⟨pm, hPending, _⟩ := AckMem.mem_ackMapOf.mp hMem
    exact Finmap.mem_iff.mp ((hSound.replica c).sm.created h pm hPending)
  obtain ⟨c', hC⟩ := hOld
  cases (hGrows.creator h c' hC).symm.trans hCreator
  exact hSound.counted h _ node hC hMem

/-- A message leaves the network. -/
theorem erase (hSound : net.Sound cfg peers) (message : NodeID × MempoolMessage) :
    { net with flight := net.flight.erase message }.Sound cfg peers where
  replica := hSound.replica
  idle := hSound.idle
  message to' sent hMem := hSound.message to' sent (Multiset.mem_of_mem_erase hMem)
  once h node := (Multiset.countP_le_of_le _ (Multiset.erase_le _ _)).trans (hSound.once h node)
  acked to' receipt hMem := hSound.acked to' receipt (Multiset.mem_of_mem_erase hMem)
  counted := hSound.counted

theorem register (hSound : net.Sound cfg peers) {event : Event}
    (hEnabled : net.enabled x event = true) : (net.register x event).Sound cfg peers := by
  cases event with
  | observePool hash groupId txns now sample => exact hSound.create (by simpa [enabled] using hEnabled)
  | handleTxn hash groupId txns now => exact hSound.create (by simpa [enabled] using hEnabled)
  | deliver now message => exact hSound.erase (x, message)
  | balance pick => exact hSound
  | propose => exact hSound
  | proposal now p => exact hSound
  | commit mbs => exact hSound
  | batch => exact hSound
  | missing => exact hSound
  | result result => exact hSound

/-- A handler that sends nothing and counts nothing. -/
theorem reacts_of_keeps (hSound : net.Sound cfg peers)
    (hGround : replica.Grounded cfg (net.ledger peers) x)
    (hKeeps : (net.replicas x).Keeps replica) : Reacts cfg peers net x replica where
  content := hKeeps.content
  received := hKeeps.receivedMBs ▸ Finset.Subset.refl _
  acked h _ hMem := Or.inl (hKeeps.acked h hMem)
  grounded := hGround.mono (settle_grows hKeeps.content)
  sends := .nothing (hKeeps.outbox.trans (hSound.idle x))

/-- A new microblock has its maker as a holder and is sent to others. -/
theorem reacts_of_makes (hSound : net.Sound cfg peers) (hBalance : cfg.loadBalance = false)
    (hPeer : x ∈ peers) {mb : MicroBlock} (hReal : mb.isFake = false)
    (hFirst : mb.isRequested = false) (hCreator : net.creator.lookup mb.hash = some x)
    (hStep : Replica.MakesFrom cfg mb (net.replicas x) replica) :
    Reacts cfg peers net x replica := by
  have hId : (net.replicas x).id = x := (hSound.replica x).smId
  have hPublishes := (hSound.replica x).publishes hBalance hReal hStep
  have hGrows : (net.ledger peers).Grows ((net.settle peers x replica).ledger peers) :=
    settle_grows hPublishes.content
  refine ⟨hPublishes.content, hPublishes.receivedMBs ▸ Finset.Subset.refl _, ?_, ?_, ?_⟩
  · intro h node hMem
    rcases hPublishes.acked h node hMem with hOld | ⟨rfl, rfl⟩
    · exact Or.inl hOld
    · refine Or.inr fun _ => ⟨Or.inl hId, fun e hFlight => ?_⟩
      -- acks for the microblock go to its maker and come from others
      by_contra hAck
      rw [Bool.not_eq_false, isAck_iff] at hAck
      obtain ⟨receipt, hEq, hHash, hReceiver⟩ := hAck
      obtain ⟨to', message⟩ := e
      subst hEq
      obtain ⟨hMaker, hOther, _⟩ := hSound.message to' _ hFlight
      rw [hHash] at hMaker
      cases hCreator.symm.trans hMaker
      exact hOther (hReceiver.trans hId)
  · exact ((hSound.replica x).mono hGrows).makes hBalance hReal (Table.mem_of_lookup hCreator)
      (self_mem_holders hPeer hPublishes.holds) hStep
  · obtain ⟨copy, recipients, hCopy, hExclude, hOut⟩ := hPublishes.outbox
    rw [hId] at hCopy hExclude
    rw [hSound.idle x, List.nil_append] at hOut
    exact .microBlock mb copy recipients hOut hExclude hCopy hReal hFirst hCreator hPublishes.holds

/-- A microblock is stored before it is acked. -/
theorem reacts_of_receives (hSound : net.Sound cfg peers) {mb : MicroBlock}
    (hMessage : (MempoolMessage.microBlock mb).Grounded cfg (net.ledger peers) x)
    (hGround : replica.Grounded cfg (net.ledger peers) x)
    (hReceives : Replica.Receives mb (net.replicas x) replica) : Reacts cfg peers net x replica := by
  obtain ⟨_, _, hCreator, hHolder, hOther⟩ := hMessage
  refine ⟨hReceives.content, ?_, ?_, hGround.mono (settle_grows hReceives.content), ?_⟩
  · rw [hReceives.receivedMBs]
    exact Finset.subset_insert _ _
  · intro h node hMem
    rcases hReceives.acked h node hMem with hOld | ⟨rfl, rfl⟩
    · exact Or.inl hOld
    · refine Or.inr fun hMine => ?_
      cases hCreator.symm.trans hMine
      exact absurd rfl hOther
  · obtain ⟨receipt, hReceiver, hHash, hOut⟩ := hReceives.outbox
    rw [hSound.idle x, List.nil_append] at hOut
    refine .ack receipt mb.sender hOut (hReceiver.trans (hSound.replica x).smId) ?_ hOther.symm
      ?_ ?_ ?_ ?_
    · rw [hHash]
      exact hCreator
    · rw [hHash]
      exact hHolder
    · rw [hHash]
      exact hReceives.fresh
    · rw [hHash, hReceives.receivedMBs]
      exact Finset.mem_insert_self _ _
    · rw [hHash]
      exact hReceives.holds

/-- An ack is counted when it has left the network. -/
theorem reacts_of_ack (hSound : net.Sound cfg peers) {receipt : Ack}
    (hSeen : receipt.microblockID ∈ (net.replicas receipt.receiver).receivedMBs)
    (hGone : ∀ e ∈ net.flight, e.2.isAck receipt.microblockID receipt.receiver = false)
    (hGround : { net.replicas x with sm := (net.replicas x).sm.addAck cfg receipt }.Grounded cfg
      (net.ledger peers) x) :
    Reacts cfg peers net x
      { net.replicas x with sm := (net.replicas x).sm.addAck cfg receipt } := by
  have hContent : ∀ h, (net.replicas x).sm.hasContent h = true →
      ((net.replicas x).sm.addAck cfg receipt).hasContent h = true := by
    intro h hHas
    rwa [AckMem.hasContent, AckMem.microblockMap_addAck]
  refine ⟨hContent, Finset.Subset.refl _, ?_, hGround.mono (settle_grows hContent),
    .nothing (hSound.idle x)⟩
  intro h node hMem
  rcases AckMem.addAck_ackMapOf hMem with hOld | ⟨rfl, rfl⟩
  · exact Or.inl hOld
  · exact Or.inr fun _ => ⟨Or.inr hSeen, hGone⟩

/-- A holder knows the microblock. -/
theorem known_of_holder {h : Identifier} {y : NodeID} (hMem : y ∈ net.holders peers h) :
    h ∈ (net.replicas y).sm.microblockMap := by
  obtain ⟨mb, hStored, _⟩ := AckMem.hasContent_iff.mp (mem_holders.mp hMem).2
  exact Table.mem_of_lookup hStored

/-- The ack that is delivered was the only one of its node for the microblock. -/
theorem gone_of_deliver (hSound : net.Sound cfg peers) {receipt : Ack}
    (hFlight : (x, .ack receipt) ∈ net.flight) :
    ∀ e ∈ net.flight.erase (x, .ack receipt),
      e.2.isAck receipt.microblockID receipt.receiver = false := by
  have hOnce := hSound.once receipt.microblockID receipt.receiver
  rw [← Multiset.cons_erase hFlight] at hOnce
  simp only [Multiset.countP_cons, isAck_self, if_true] at hOnce
  have hNone := Multiset.countP_eq_zero.mp (Nat.le_zero.mp (Nat.le_of_succ_le_succ hOnce))
  intro e hMem
  simpa using hNone e hMem

/-- A message is delivered. -/
theorem deliver (hSound : net.Sound cfg peers) (hBalance : cfg.loadBalance = false) {now : Int} {message : MempoolMessage}
    (hFlight : (x, message) ∈ net.flight)
    (hStep : (net.replicas x).handle cfg keys now message = .ok replica) :
    Reacts cfg peers { net with flight := net.flight.erase (x, message) } x replica := by
  have hLeft := hSound.erase (x, message)
  have hMessage := hSound.message x message hFlight
  cases message with
  | microBlock mb =>
      obtain ⟨hGround, rfl | hReceives⟩ := (hSound.replica x).handleMicroblock hBalance hMessage hStep
      · exact hLeft.reacts_of_keeps hGround (.of_sm rfl rfl rfl)
      · exact hLeft.reacts_of_receives hMessage hGround hReceives
  | ack receipt =>
      obtain ⟨_, _, hHolder, hSelf⟩ := hMessage
      obtain ⟨hSeen, hUncounted⟩ := hSound.acked x receipt hFlight
      obtain ⟨hGround, rfl | rfl⟩ := (hSound.replica x).processAcks hHolder hUncounted
        (known_of_holder hSelf) hStep
      · exact hLeft.reacts_of_keeps hGround (.of_sm rfl rfl rfl)
      · exact hLeft.reacts_of_ack hSeen (hSound.gone_of_deliver hFlight) hGround
  | stable notice =>
      obtain ⟨hGround, hKeeps⟩ := (hSound.replica x).handleStable hMessage
        (fun hUnknown hHolder => hUnknown (known_of_holder hHolder)) hStep
      exact hLeft.reacts_of_keeps hGround hKeeps
  | missingStableMBRequest requesterID mbID => exact hMessage.elim

/-- Every event leaves the replica as the network needs it. -/
theorem reacts (hSound : net.Sound cfg peers) (hBalance : cfg.loadBalance = false)
    (hPeer : x ∈ peers) {event : Event}
    (hEnabled : net.enabled x event = true)
    (hStep : (net.replicas x).handleEvent cfg keys sort event = .ok replica) :
    Reacts cfg peers (net.register x event) x replica := by
  have hHere := hSound.replica x
  cases event with
  | observePool hash groupId txns now sample =>
      have hMade := hSound.create (x := x) (by simpa [enabled] using hEnabled : hash ∉ net.creator)
      rcases Replica.observePool_makes hStep with rfl | hMakes
      · exact hMade.reacts_of_keeps (hMade.replica x) (.of_sm rfl rfl rfl)
      · exact hMade.reacts_of_makes hBalance hPeer rfl rfl (Finmap.lookup_insert _) hMakes
  | handleTxn hash groupId txns now =>
      have hMade := hSound.create (x := x) (by simpa [enabled] using hEnabled : hash ∉ net.creator)
      exact hMade.reacts_of_makes hBalance hPeer rfl rfl (Finmap.lookup_insert _)
        (Replica.handleTxn_makes hStep)
  | balance pick =>
      cases Outcome.pure_eq_ok.mp hStep
      rw [Replica.loadbalance_of_empty cfg hHere.selfMBChan]
      exact hSound.reacts_of_keeps hHere (.of_sm rfl rfl rfl)
  | deliver now message => exact hSound.deliver hBalance (by simpa [enabled] using hEnabled) hStep
  | propose =>
      obtain ⟨hGround, hKeeps⟩ := hHere.generatePayload hStep
      exact hSound.reacts_of_keeps hGround hKeeps
  | proposal now p =>
      obtain ⟨hGround, hKeeps⟩ := hHere.handleProposal hStep
      exact hSound.reacts_of_keeps hGround hKeeps
  | commit mbs =>
      cases Outcome.pure_eq_ok.mp hStep
      obtain ⟨hGround, hKeeps⟩ :=
        hHere.processCommittedBlock (by simpa [enabled] using hEnabled : ∀ mb ∈ mbs, _)
      exact hSound.reacts_of_keeps hGround hKeeps
  | batch =>
      obtain ⟨hGround, hKeeps⟩ := hHere.handleBatch hStep
      exact hSound.reacts_of_keeps hGround hKeeps
  | missing =>
      obtain ⟨hGround, hKeeps⟩ := hHere.handleMissing hStep
      exact hSound.reacts_of_keeps hGround hKeeps
  | result result =>
      obtain ⟨hGround, hKeeps⟩ := hHere.handleResult hStep
      exact hSound.reacts_of_keeps hGround hKeeps

end Sound

theorem step_sound (hBalance : cfg.loadBalance = false) {net' : Dissemination}
    {e : NodeID × Event} (hSound : net.Sound cfg peers)
    (hStep : net.step cfg keys sort peers e = .ok net') : net'.Sound cfg peers := by
  rcases step_cases hStep with rfl | ⟨hPeer, hEnabled, replica, hHandled, rfl⟩
  · exact hSound
  · exact (hSound.reacts hBalance hPeer hEnabled hHandled).sound (hSound.register hEnabled) hPeer

theorem run_sound (hBalance : cfg.loadBalance = false) {events : List (NodeID × Event)}
    (hRun : run (step cfg keys sort peers) (new cfg) events = .ok net) : net.Sound cfg peers :=
  run_invariant (P := fun net => net.Sound cfg peers)
    (fun _ _ _ hSound hStep => step_sound hBalance hSound hStep) hRun (.new_sound cfg peers)

/-- What is stable somewhere has enough holders. -/
theorem Sound.available (hSound : net.Sound cfg peers) {r : NodeID} {h : Identifier}
    (hStable : (net.replicas r).sm.isStable h = true) : cfg.q ≤ (net.holders peers h).card := by
  have hReplica := hSound.replica r
  have hMem : h ∈ (net.replicas r).sm.stableMBs := by
    simpa [AckMem.isStable] using hStable
  have hEnough := hReplica.sm.available h hMem
  rw [hReplica.threshhold] at hEnough
  exact hEnough

/-- In every state that the replicas and the network reach, a microblock that is
stable at some replica is stored with its content at `Q` replicas. -/
theorem stable_microblock_available (_hGroup : cfg.broadcastByGroup = false)
    (hBalance : cfg.loadBalance = false) {events : List (NodeID × Event)}
    (hRun : run (step cfg keys sort peers) (new cfg) events = .ok net)
    {r : NodeID} {h : Identifier} (hStable : (net.replicas r).sm.isStable h = true) :
    cfg.q ≤ (net.holders peers h).card :=
  (run_sound hBalance hRun).available hStable

end Dissemination

namespace Scenario

def four : Finset NodeID := {"1", "2", "3", "4"}

/-- The microblock 1 as replica 1 sends it. -/
def fromOne : MicroBlock := { newMicroblock 1 0 [] 0 with sender := "1" }

def signedAck (receiver : NodeID) (position : Nat) : Ack :=
  { receiver, microblockID := 1, signature := keys.sign position 1 }

/-- What replica 1 announces after the acks of 2 and 3. -/
def announcement : Stable where
  ackInGroup := ["2", "3"]
  ackOutGroup := ["1"]
  ackNodeList := {"3", "2", "1"}
  microblockID := 1
  sender := "1"

/-- Replicas 2 and 3 store the microblock, and replica 4 hears that it is stable. -/
def spread : List (NodeID × Dissemination.Event) :=
  [("1", .handleTxn 1 0 [] 0), ("3", .deliver 0 (.microBlock fromOne)),
    ("2", .deliver 0 (.microBlock fromOne)), ("1", .deliver 0 (.ack (signedAck "2" 1))),
    ("1", .deliver 0 (.ack (signedAck "3" 2))), ("4", .deliver 0 (.stable announcement))]

end Scenario

namespace Dissemination

theorem stable_microblock_available_spread :
    ∃ net, run (step Scenario.pool Scenario.keys Scenario.sortByGroup Scenario.four)
        (new Scenario.pool) Scenario.spread = .ok net ∧
      (net.replicas "4").sm.isStable 1 = true ∧ (net.replicas "4").sm.hasContent 1 = false ∧
      Scenario.pool.q ≤ (net.holders Scenario.four 1).card := by
  obtain ⟨net, hRun, hStable, hPlaceholder⟩ := Outcome.of_test
    (P := fun net : Dissemination => (net.replicas "4").sm.isStable 1 = true ∧
      (net.replicas "4").sm.hasContent 1 = false)
    (x := run (step Scenario.pool Scenario.keys Scenario.sortByGroup Scenario.four)
      (new Scenario.pool) Scenario.spread) (by decide)
  have hHolders := stable_microblock_available rfl rfl hRun hStable
  exact ⟨net, hRun, hStable, hPlaceholder, hHolders⟩

end Dissemination
end Bamboo
