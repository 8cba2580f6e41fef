import Bamboo.Replica.Handlers

/-! What a replica passes on. Its records of microblocks, and the announcements it makes
of them, are copies of what it was given. A property of both that survives copying holds
of everything a replica has, if it holds of everything the replica is given. -/
namespace Bamboo

open Library

/-- A property of microblocks, and one of announcements, that survive copying. -/
structure Copied (P : MicroBlock → Prop) (Q : Stable → Prop) : Prop where
  toStable : ∀ (pm : PendingMicroblock) id, P pm.microblock → Q (pm.toStable id)
  announced : ∀ stable now txns, Q stable → fakeTxns now stable.txNums = .ok txns →
    P (AckMem.announced stable txns)
  requested : ∀ mb, P mb → P { mb with isRequested := true }
  numbered : ∀ mb no, P mb → P { mb with committedNo := no }
  forwarded : ∀ mb isForward, P mb → P { mb with isForward }

/-- A placeholder with an identifier, a group and a number of transactions that a proposal
lists at one position. -/
def Proposal.Mentions (p : Proposal) (mb : MicroBlock) : Prop :=
  mb.isFake = true ∧ ∃ index : Nat, p.hashList[index]? = some mb.hash ∧ p.groupList[index]? = some mb.groupId ∧
    p.txNums[index]? = some (mb.txns.length : Int)

variable {P : MicroBlock → Prop} {Q : Stable → Prop}

theorem length_fakeTxns {now count : Int} {txns : List Transaction}
    (h : fakeTxns now count = .ok txns) : (txns.length : Int) = count := by
  unfold fakeTxns at h
  by_cases hRange : count < 0 ∨ maxTxns < count
  · rw [if_pos hRange] at h
    cases h
  · rw [if_neg hRange] at h
    cases Outcome.pure_eq_ok.mp h
    rw [List.length_replicate]
    omega

namespace AckMem

structure Carries (P : MicroBlock → Prop) (Q : Stable → Prop) (am : AckMem) : Prop where
  wellFormed : ∃ past, am.WellFormed past
  records : ∀ mb, am.Record mb → P mb
  announced : ∀ stable ∈ am.outbox, Q stable

theorem new_carries (cfg : Settings) (id : NodeID) (gm : GroupManager) :
    (new cfg id gm).Carries P Q where
  wellFormed := ⟨[], new_wellFormed cfg id gm⟩
  records mb hRecord := by
    cases hRecord with
    | stored hLookup => simp [new] at hLookup
    | queued hMem => simp [new] at hMem
    | pending hLookup => simp [new] at hLookup
  announced stable hMem := by simp [new] at hMem

namespace Carries

variable {am am' : AckMem}

theorem addMicroblock (h : am.Carries P Q) {mb : MicroBlock} (hMb : P mb)
    (hAdd : am.addMicroblock mb = .ok am') : am'.Carries P Q where
  wellFormed := by
    obtain ⟨past, hWell⟩ := h.wellFormed
    exact ⟨past, hWell.addMicroblock hAdd⟩
  records found hRecord := by
    rcases hRecord.of_addMicroblock hAdd with rfl | hOld
    · exact hMb
    · exact h.records found hOld
  announced stable hMem := by
    refine h.announced stable ?_
    rcases addMicroblock_cases hAdd with ⟨_, _, _, rfl⟩ | ⟨_, _, _, rfl⟩ | ⟨_, inGroup, rfl⟩
    · exact hMem
    · exact hMem
    · rcases addFresh_cases am mb (.new mb inGroup) with hEq | ⟨_, ⟨_, hEq⟩ | ⟨_, hEq⟩⟩ <;>
      · rw [hEq] at hMem
        exact hMem

theorem store (h : am.Carries P Q) {mb : MicroBlock} (hMb : P mb) : (am.store mb).Carries P Q where
  wellFormed := by
    obtain ⟨past, hWell⟩ := h.wellFormed
    exact ⟨past, hWell.store mb⟩
  records found hRecord := by
    rcases hRecord.of_store with rfl | hOld
    · exact hMb
    · exact h.records found hOld
  announced := h.announced

/-- The announcement of a pending microblock is made of its record. -/
theorem addAck (hCopied : Copied P Q) (h : am.Carries P Q) (cfg : Settings) (ack : Ack) :
    (am.addAck cfg ack).Carries P Q where
  wellFormed := by
    obtain ⟨past, hWell⟩ := h.wellFormed
    exact ⟨past, hWell.addAck cfg ack⟩
  records found hRecord := h.records found hRecord.of_addAck
  announced stable hMem := by
    rcases addAck_cases cfg am ack with ⟨target, hTarget, hEq | ⟨_, _, hEq⟩⟩ | ⟨_, hEq | hEq⟩
    · rw [hEq] at hMem
      exact h.announced stable hMem
    · rw [hEq] at hMem
      rcases List.mem_append.mp hMem with hOld | hNew
      · exact h.announced stable hOld
      · cases List.mem_singleton.mp hNew
        apply hCopied.toStable
        rw [microblock_addAck]
        exact h.records _ (.pending hTarget)
    · rw [hEq] at hMem
      exact h.announced stable hMem
    · rw [hEq] at hMem
      exact h.announced stable hMem

theorem addStable (hCopied : Copied P Q) (h : am.Carries P Q) {now : Int} {stable : Stable}
    (hStable : Q stable) (hAdd : am.addStable now stable = .ok am') : am'.Carries P Q := by
  obtain ⟨past, hWell⟩ := h.wellFormed
  refine ⟨⟨past, hWell.addStable hAdd⟩, fun found hRecord => ?_, fun sent hMem => ?_⟩
  · rcases hRecord.of_addStable hWell hAdd with hOld | ⟨txns, hTxns, rfl⟩
    · exact h.records found hOld
    · exact hCopied.announced stable now txns hStable hTxns
  · refine h.announced sent ?_
    rcases addStable_cases hWell.known_of_lookup hAdd with ⟨_, rfl⟩ |
      ⟨_, ⟨_, _, rfl⟩ | ⟨_, _, rfl⟩ | ⟨_, _, _, _, rfl⟩⟩ <;> exact hMem

theorem generatePayload (h : am.Carries P Q) {cfg : Settings} {sort : GroupSort} {payload : Payload}
    (hPayload : am.generatePayload cfg sort = .ok (am', payload)) :
    am'.Carries P Q ∧ ∀ mb ∈ payload.microblockList, P mb := by
  obtain ⟨past, hWell⟩ := h.wellFormed
  obtain ⟨⟨queue, rfl, _⟩, hTaken⟩ := generatePayload_records hPayload
  exact ⟨⟨⟨_, hWell.generatePayload hPayload⟩, fun mb hRecord =>
    h.records mb (hRecord.of_generatePayload hPayload), h.announced⟩, fun mb hMem =>
      h.records mb (.queued (hTaken mb hMem))⟩

theorem forgetAll (h : am.Carries P Q) (hs : List Identifier) : (am.forgetAll hs).Carries P Q where
  wellFormed := by
    obtain ⟨past, hWell⟩ := h.wellFormed
    exact ⟨past, hWell.forgetAll hs⟩
  records mb hRecord := h.records mb hRecord.of_forgetAll
  announced := by
    obtain ⟨_, _, hEq, _, _⟩ := forgetAll_spec am hs
    rw [hEq]
    exact h.announced

/-- What is fetched is stored here or read off the proposal. -/
theorem fetched (h : am.Carries P Q) {now : Int} {p : Proposal} (hProposal : ∀ mb, p.Mentions mb → P mb)
    {index : Nat} {hash : Identifier} {mb : MicroBlock} (hIndex : p.hashList[index]? = some hash)
    (hFetched : am.fetched now p index hash = .ok mb) : P mb := by
  unfold AckMem.fetched at hFetched
  cases hStored : am.microblockMap.lookup hash with
  | some stored =>
      rw [hStored] at hFetched
      cases Outcome.pure_eq_ok.mp hFetched
      exact h.records _ (.stored hStored)
  | none =>
      rw [hStored] at hFetched
      obtain ⟨count, hCount, hFetched⟩ := Outcome.bind_eq_ok.mp hFetched
      obtain ⟨txns, hTxns, hFetched⟩ := Outcome.bind_eq_ok.mp hFetched
      obtain ⟨groupId, hGroup, hFetched⟩ := Outcome.bind_eq_ok.mp hFetched
      obtain ⟨timestamp, _, hFetched⟩ := Outcome.bind_eq_ok.mp hFetched
      cases Outcome.pure_eq_ok.mp hFetched
      refine hProposal _ ⟨rfl, index, hIndex, Outcome.index_eq_ok.mp hGroup, ?_⟩
      rw [length_fakeTxns hTxns]
      exact Outcome.index_eq_ok.mp hCount

theorem fetchAll (h : am.Carries P Q) {now : Int} {p : Proposal} (hProposal : ∀ mb, p.Mentions mb → P mb)
    {index : Nat} {hs : List Identifier} {mbs : List MicroBlock} (hRest : p.hashList.drop index = hs)
    (hFetch : AckMem.fetchAll now p am index hs = .ok (am', mbs)) : ∀ mb ∈ mbs, P mb := by
  induction hs generalizing am am' index mbs with
  | nil =>
      cases Outcome.pure_eq_ok.mp hFetch
      simp
  | cons first rest ih =>
      obtain ⟨mb, hMb, hNext⟩ := Outcome.bind_eq_ok.mp hFetch
      obtain ⟨⟨last, later⟩, hLater, hDone⟩ := Outcome.bind_eq_ok.mp hNext
      cases Outcome.pure_eq_ok.mp hDone
      have hForgot : (am.forget first).Carries P Q := h.forgetAll [first]
      have hIndex : p.hashList[index]? = some first := by
        rw [← List.head?_drop, hRest]
        rfl
      have hTail : p.hashList.drop (index + 1) = rest := by
        rw [← List.drop_drop, hRest]
        rfl
      intro found hMem
      rcases List.mem_cons.mp hMem with rfl | hMem
      · exact hForgot.fetched hProposal hIndex hMb
      · exact ih hForgot hTail hLater found hMem

end Carries
end AckMem

def MempoolMessage.Carries (P : MicroBlock → Prop) (Q : Stable → Prop) : MempoolMessage → Prop
  | .microBlock mb => P mb
  | .stable notice => Q notice
  | .ack _ | .missingStableMBRequest _ _ => True

theorem MempoolMessage.Carries.mono {P' : MicroBlock → Prop} {Q' : Stable → Prop}
    {message : MempoolMessage} (h : message.Carries P Q) (hP : ∀ mb, P mb → P' mb)
    (hQ : ∀ stable, Q stable → Q' stable) : message.Carries P' Q' := by
  cases message with
  | microBlock mb => exact hP mb h
  | stable notice => exact hQ notice h
  | ack ack => exact trivial
  | missingStableMBRequest requesterID mbID => exact trivial

/-- What an event brings from outside. -/
def Dissemination.Event.Carries (P : MicroBlock → Prop) (Q : Stable → Prop) :
    Dissemination.Event → Prop
  | .observePool hash groupId txns now _ | .handleTxn hash groupId txns now =>
      ∀ id copy, Replica.SentBy id (newMicroblock hash groupId txns now) copy → P copy
  | .deliver _ message => message.Carries P Q
  | .proposal _ p => ∀ mb, p.Mentions mb → P mb
  | .commit mbs => ∀ mb ∈ mbs, P mb
  | .balance _ | .propose | .batch | .missing | .result _ => True

namespace Replica

/-- The property holds of everything that the replica has. -/
structure Carries (P : MicroBlock → Prop) (Q : Stable → Prop) (r : Replica) : Prop where
  sm : r.sm.Carries P Q
  handed : ∀ mb ∈ r.handed, P mb
  channel : ∀ batch ∈ r.ex.mbReceive, ∀ mb ∈ batch, P mb
  queue : ∀ mb ∈ r.ex.mbs, P mb
  missing : ∀ mb ∈ r.ex.missReceive, P mb
  outbox : ∀ recipients message, (recipients, message) ∈ r.outbox → message.Carries P Q
  selfMBChan : ∀ mb ∈ r.selfMBChan, P mb

variable {cfg : Settings} {keys : KeyRing} {sort : GroupSort} {r r' : Replica}

theorem new_carries (cfg : Settings) (id : NodeID) : (new cfg id).Carries P Q where
  sm := AckMem.new_carries cfg id _
  handed := by simp [new]
  channel := by simp [new]
  queue := by simp [new]
  missing := by simp [new]
  outbox := by simp [new]
  selfMBChan := by simp [new]

namespace Carries

theorem mono {P' : MicroBlock → Prop} {Q' : Stable → Prop} (h : r.Carries P Q)
    (hP : ∀ mb, P mb → P' mb) (hQ : ∀ stable, Q stable → Q' stable) : r.Carries P' Q' where
  sm := ⟨h.sm.wellFormed, fun mb hRecord => hP mb (h.sm.records mb hRecord),
    fun stable hMem => hQ stable (h.sm.announced stable hMem)⟩
  handed mb hMem := hP mb (h.handed mb hMem)
  channel batch hBatch mb hMem := hP mb (h.channel batch hBatch mb hMem)
  queue mb hMem := hP mb (h.queue mb hMem)
  missing mb hMem := hP mb (h.missing mb hMem)
  outbox recipients message hMem := (h.outbox recipients message hMem).mono hP hQ
  selfMBChan mb hMem := hP mb (h.selfMBChan mb hMem)

/-- Handing the messages over. -/
theorem flush (h : r.Carries P Q) : { r.flush with outbox := [] }.Carries P Q := by
  obtain ⟨past, hWell⟩ := h.sm.wellFormed
  refine { h with
    sm := ⟨⟨past, hWell.of_eq rfl rfl rfl rfl rfl⟩, fun mb hRecord => ?_, ?_⟩
    outbox := fun _ _ hMem => absurd hMem List.not_mem_nil }
  · exact h.sm.records mb (hRecord.of_less rfl (fun _ hMem => hMem) fun _ _ hLookup => hLookup)
  · exact fun _ hMem => absurd hMem List.not_mem_nil

theorem flushed (h : r.Carries P Q) {recipients : Recipients} {message : MempoolMessage}
    (hMem : (recipients, message) ∈ r.flush.outbox) : message.Carries P Q := by
  rcases List.mem_append.mp hMem with hSent | hRequest
  · rcases List.mem_append.mp hSent with hSent | hStable
    · exact h.outbox recipients message hSent
    · obtain ⟨stable, hOutbox, hEq⟩ := List.mem_map.mp hStable
      cases hEq
      exact h.sm.announced stable hOutbox
  · obtain ⟨sent, _, hEq⟩ := List.mem_filterMap.mp hRequest
    cases sent with
    | missingRequest nodes mbID =>
        cases hEq
        exact trivial
    | result others result => cases hEq

theorem withMem (h : r.Carries P Q) {sm : AckMem} (hMem : sm.Carries P Q) :
    { r with sm }.Carries P Q :=
  { h with sm := hMem }

theorem send (h : r.Carries P Q) {recipients : Recipients} {message : MempoolMessage}
    (hMessage : message.Carries P Q) : (r.send recipients message).Carries P Q :=
  { h with
    outbox := fun recipients' message' hMem => by
      rcases List.mem_append.mp hMem with hOld | hNew
      · exact h.outbox recipients' message' hOld
      · cases List.mem_singleton.mp hNew
        exact hMessage }

theorem makesFrom (h : r.Carries P Q) {mb : MicroBlock} (hStep : MakesFrom cfg mb r r')
    (hMb : ∀ id copy, SentBy id mb copy → P copy) : r'.Carries P Q := by
  obtain ⟨copy, sm, hSent, hAdd, hRest⟩ := hStep
  have hCopy := hMb r.id copy hSent
  have hAdded := h.withMem (h.sm.addMicroblock hCopy hAdd)
  rcases hRest with ⟨_, recipients, _, rfl⟩ | ⟨_, rfl⟩
  · exact hAdded.send hCopy
  · refine { hAdded with selfMBChan := fun found hMem => ?_ }
    rcases List.mem_append.mp hMem with hOld | hNew
    · exact h.selfMBChan found hOld
    · cases List.mem_singleton.mp hNew
      exact hCopy

theorem loadbalance (hCopied : Copied P Q) (h : r.Carries P Q) (pick : Option NodeID) :
    (r.loadbalance cfg pick).Carries P Q := by
  rcases loadbalance_cases cfg r pick with ⟨_, hEq⟩ | ⟨mb, rest, recipients, isForward, hChan, hEq⟩
  · rw [hEq]
    exact h
  · have hAll : ∀ found ∈ mb :: rest, P found := hChan ▸ h.selfMBChan
    have hRest : { r with selfMBChan := rest }.Carries P Q :=
      { h with selfMBChan := fun found hMem => hAll found (List.mem_cons_of_mem mb hMem) }
    have hMb := hCopied.forwarded mb isForward (hAll mb List.mem_cons_self)
    rw [hEq]
    exact hRest.send hMb

theorem processAcks (hCopied : Copied P Q) (h : r.Carries P Q) {ack : Ack}
    (hStep : r.processAcks cfg keys ack = .ok r') : r'.Carries P Q := by
  rcases processAcks_cases hStep with rfl | rfl
  · exact h
  · exact h.withMem (h.sm.addAck hCopied cfg ack)

theorem handleMicroblock (hCopied : Copied P Q) (h : r.Carries P Q) {mb : MicroBlock} (hMb : P mb)
    (hStep : r.handleMicroblock cfg keys mb = .ok r') : r'.Carries P Q := by
  rcases handleMicroblock_cases hStep with
    ⟨_, rfl⟩ | rfl | ⟨_, ⟨_, rfl⟩ | ⟨_, sm, hAdd, hAck⟩⟩
  · have hForwarded := hCopied.forwarded mb false hMb
    exact h.send hForwarded
  · exact h
  · refine { h with
      sm := h.sm.store hMb
      missing := fun found hMem => ?_ }
    rcases List.mem_append.mp hMem with hOld | hNew
    · exact h.missing found hOld
    · cases List.mem_singleton.mp hNew
      exact hMb
  · have hAdded : { r with receivedMBs := insert mb.hash r.receivedMBs, sm }.Carries P Q :=
      { h with sm := h.sm.addMicroblock hMb hAdd }
    rcases acknowledge_cases hAck with ⟨_, ack, _, _, rfl⟩ | ⟨_, rfl | ⟨ack, rfl⟩⟩
    · exact hAdded.send trivial
    · exact hAdded
    · exact hAdded.withMem (hAdded.sm.addAck hCopied cfg ack)

theorem handleMissingStableMb (hCopied : Copied P Q) (h : r.Carries P Q) (requesterID : NodeID)
    (mbID : Identifier) : (r.handleMissingStableMb requesterID mbID).Carries P Q := by
  unfold Replica.handleMissingStableMb AckMem.findMicroblock
  cases hStored : r.sm.microblockMap.lookup mbID with
  | none => exact h
  | some mb =>
      by_cases hFake : mb.isFake = true
      · simp only [if_pos hFake]
        have hMb := hCopied.requested mb (h.sm.records mb (.stored hStored))
        exact (h.withMem (h.sm.store hMb)).send hMb
      · simp only [if_neg hFake]
        exact h

theorem handle (hCopied : Copied P Q) (h : r.Carries P Q) {now : Int} {message : MempoolMessage}
    (hMessage : message.Carries P Q) (hStep : r.handle cfg keys now message = .ok r') :
    r'.Carries P Q := by
  cases message with
  | microBlock mb => exact h.handleMicroblock hCopied hMessage hStep
  | ack ack => exact h.processAcks hCopied hStep
  | stable stable =>
      obtain ⟨sm, hAdd, hDone⟩ := Outcome.bind_eq_ok.mp hStep
      cases Outcome.pure_eq_ok.mp hDone
      exact h.withMem (h.sm.addStable hCopied hMessage hAdd)
  | missingStableMBRequest requesterID mbID =>
      cases Outcome.pure_eq_ok.mp hStep
      exact h.handleMissingStableMb hCopied requesterID mbID

theorem generatePayload (h : r.Carries P Q) (hStep : r.generatePayload cfg sort = .ok r') :
    r'.Carries P Q := by
  obtain ⟨⟨sm, payload⟩, hPayload, hDone⟩ := Outcome.bind_eq_ok.mp hStep
  cases Outcome.pure_eq_ok.mp hDone
  obtain ⟨hMem, hTaken⟩ := h.sm.generatePayload hPayload
  refine { h with sm := hMem, handed := fun mb hHanded => ?_ }
  rcases List.mem_append.mp hHanded with hOld | hNew
  · exact h.handed mb hOld
  · exact hTaken mb hNew

theorem handleProposal (h : r.Carries P Q) {now : Int} {p : Proposal}
    (hProposal : ∀ mb, p.Mentions mb → P mb) (hStep : r.handleProposal now p = .ok r') :
    r'.Carries P Q := by
  obtain ⟨⟨sm, pendingBlock⟩, hFetch, hDone⟩ := Outcome.bind_eq_ok.mp hStep
  cases Outcome.pure_eq_ok.mp hDone
  obtain ⟨⟨_, mbs⟩, hAll, hBlock⟩ := Outcome.bind_eq_ok.mp hFetch
  cases Outcome.pure_eq_ok.mp hBlock
  have hMem : sm.Carries P Q := (AckMem.fetchAll_spec hAll).1 ▸ h.sm.forgetAll p.hashList
  refine { h with sm := hMem, handed := fun mb hHanded => ?_ }
  rcases List.mem_append.mp hHanded with hOld | hNew
  · exact h.handed mb hOld
  · exact h.sm.fetchAll hProposal List.drop_zero hAll mb hNew

theorem processCommittedBlock (hCopied : Copied P Q) (h : r.Carries P Q) {mbs : List MicroBlock}
    (hMbs : ∀ mb ∈ mbs, P mb) : (r.processCommittedBlock mbs).Carries P Q := by
  refine { h with channel := fun batch hBatch => ?_ }
  rcases List.mem_append.mp hBatch with hOld | hNew
  · exact h.channel batch hOld
  · cases List.mem_singleton.mp hNew
    intro mb hMem
    obtain ⟨original, hOriginal, number, rfl⟩ := (numberCommitted_origin _ _ mbs).1 mb hMem
    exact hCopied.numbered original number (hMbs original hOriginal)

/-- Only the executor has changed, and its queue has only become shorter. -/
theorem withNarrows (h : r.Carries P Q) {e ex : Executor} (hNarrows : e.Narrows ex)
    (hQueue : ∀ mb ∈ e.mbs, P mb) (hChannel : ∀ batch ∈ e.mbReceive, ∀ mb ∈ batch, P mb)
    (hMissing : ∀ mb ∈ e.missReceive, P mb) : { r with ex }.Carries P Q :=
  { h with
    channel := hNarrows.mbReceive.symm ▸ hChannel
    queue := fun mb hMem => hQueue mb (hNarrows.mbs mb hMem)
    missing := hNarrows.missReceive.symm ▸ hMissing }

theorem handleBatch (h : r.Carries P Q) (hStep : r.handleBatch cfg keys = .ok r') :
    r'.Carries P Q := by
  rcases handleBatch_cases hStep with rfl | ⟨batch, rest, ex, hChannel, hAdd, rfl⟩
  · exact h
  · have hBatches : ∀ b ∈ batch :: rest, ∀ mb ∈ b, P mb := hChannel ▸ h.channel
    refine h.withNarrows (Executor.addMbToExecute_narrows hAdd) (fun mb hMem => ?_)
      (fun b hMem => hBatches b (List.mem_cons_of_mem batch hMem)) h.missing
    rcases List.mem_append.mp hMem with hOld | hNew
    · exact h.queue mb hOld
    · exact hBatches batch List.mem_cons_self mb hNew

/-- A retransmitted microblock replaces placeholders in the queue. -/
theorem handleMissing (h : r.Carries P Q) (hStep : r.handleMissing cfg keys = .ok r') :
    r'.Carries P Q := by
  rcases handleMissing_cases hStep with rfl | ⟨mb, rest, ex, hChannel, hMiss, rfl⟩
  · exact h
  · have hReceived : ∀ found ∈ mb :: rest, P found := hChannel ▸ h.missing
    have hRest : ∀ found ∈ rest, P found := fun found hMem =>
      hReceived found (List.mem_cons_of_mem mb hMem)
    rcases Executor.handleMiss_cases hMiss with hThread | rfl
    · refine h.withNarrows (Executor.loopRelation_narrows.executeThread hThread) (fun found hMem => ?_)
        h.channel hRest
      obtain ⟨old, hOld, rfl⟩ := List.mem_map.mp hMem
      by_cases hMissing : Executor.isMissing mb old = true
      · rw [if_pos hMissing]
        exact hReceived mb List.mem_cons_self
      · rw [if_neg hMissing]
        exact h.queue old hOld
    · exact { h with missing := hRest }

theorem handleEvent (hCopied : Copied P Q) (h : r.Carries P Q) {event : Dissemination.Event}
    (hEvent : event.Carries P Q) (hStep : r.handleEvent cfg keys sort event = .ok r') :
    r'.Carries P Q := by
  cases event with
  | observePool hash groupId txns now sample =>
      rcases observePool_makes hStep with rfl | hMakes
      · exact h
      · exact h.makesFrom hMakes hEvent
  | handleTxn hash groupId txns now => exact h.makesFrom (handleTxn_makes hStep) hEvent
  | balance pick =>
      cases Outcome.pure_eq_ok.mp hStep
      exact h.loadbalance hCopied pick
  | deliver now message => exact h.handle hCopied hEvent hStep
  | propose => exact h.generatePayload hStep
  | proposal now p => exact h.handleProposal hEvent hStep
  | commit mbs =>
      cases Outcome.pure_eq_ok.mp hStep
      exact h.processCommittedBlock hCopied hEvent
  | batch => exact h.handleBatch hStep
  | missing => exact h.handleMissing hStep
  | result result =>
      obtain ⟨ex, hResult, rfl⟩ := handleResult_cases hStep
      exact h.withNarrows (Executor.handleResult_narrows hResult) h.queue h.channel h.missing

end Carries

/-- The property that everything has. -/
theorem copied_true : Copied (fun _ => True) fun _ => True :=
  ⟨fun _ _ _ => trivial, fun _ _ _ _ _ => trivial, fun _ _ => trivial, fun _ _ _ => trivial,
    fun _ _ _ => trivial⟩

theorem event_carries_true (event : Dissemination.Event) :
    event.Carries (fun _ => True) fun _ => True := by
  cases event with
  | deliver now message => cases message <;> exact trivial
  | observePool hash groupId txns now sample => exact fun _ _ _ => trivial
  | handleTxn hash groupId txns now => exact fun _ _ _ => trivial
  | proposal now p => exact fun _ _ => trivial
  | commit mbs => exact fun _ _ => trivial
  | _ => exact trivial

end Replica

namespace Dissemination

/-- The property holds of everything that the replicas have and of what is on its way. -/
structure Carries (P : MicroBlock → Prop) (Q : Stable → Prop) (net : Dissemination) : Prop where
  replica : ∀ x, (net.replicas x).Carries P Q
  flight : ∀ to' message, (to', message) ∈ net.flight → message.Carries P Q

variable {net : Dissemination}

theorem new_carries (cfg : Settings) : (new cfg).Carries P Q where
  replica x := Replica.new_carries cfg x
  flight to' message hMem := by simp [new] at hMem

namespace Carries

theorem mono {P' : MicroBlock → Prop} {Q' : Stable → Prop} (h : net.Carries P Q)
    (hP : ∀ mb, P mb → P' mb) (hQ : ∀ stable, Q stable → Q' stable) : net.Carries P' Q' where
  replica x := (h.replica x).mono hP hQ
  flight to' message hMem := (h.flight to' message hMem).mono hP hQ

theorem register (h : net.Carries P Q) (x : NodeID) (event : Event) :
    (net.register x event).Carries P Q := by
  cases event with
  | deliver now message =>
      exact ⟨h.replica, fun to' sent hMem => h.flight to' sent (Multiset.mem_of_mem_erase hMem)⟩
  | _ => exact ⟨h.replica, h.flight⟩

/-- What a replica sends enters the network. -/
theorem settle (h : net.Carries P Q) (peers : Finset NodeID) (x : NodeID) {replica : Replica}
    (hReplica : replica.Carries P Q) : (net.settle peers x replica).Carries P Q := by
  constructor
  · intro y
    rcases settle_cases peers net x replica y with ⟨rfl, hAt⟩ | ⟨_, hAt⟩
    · rw [hAt]
      exact hReplica.flush
    · rw [hAt]
      exact h.replica y
  · intro to' message hMem
    rcases Multiset.mem_add.mp hMem with hOld | hNew
    · exact h.flight to' message hOld
    · obtain ⟨recipients, hOut, _⟩ := mem_post.mp hNew
      exact hReplica.flushed hOut

end Carries
end Dissemination
end Bamboo
