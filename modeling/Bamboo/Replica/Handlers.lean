import Bamboo.Execute.Requests
import Bamboo.Mempool.Holders
import Bamboo.Replica.Dissemination
import Bamboo.Replica.Inversion

/-! What the handlers of one replica keep, and what they send. -/
namespace Bamboo

open Library

/-- A message that is right for its addressee. -/
def MempoolMessage.Grounded (cfg : Settings) (ledger : Ledger) (to' : NodeID) :
    MempoolMessage → Prop
  | .microBlock mb => mb.isFake = false ∧ mb.isRequested = false ∧
      ledger.creator.lookup mb.hash = some mb.sender ∧
      mb.sender ∈ ledger.holders mb.hash ∧ to' ≠ mb.sender
  | .ack receipt => ledger.creator.lookup receipt.microblockID = some to' ∧
      receipt.receiver ≠ to' ∧ receipt.receiver ∈ ledger.holders receipt.microblockID ∧
      to' ∈ ledger.holders receipt.microblockID
  | .stable notice => ledger.Supports cfg.q notice
  -- nobody asks for anything
  | .missingStableMBRequest _ _ => False

theorem MempoolMessage.Grounded.mono {cfg : Settings} {ledger ledger' : Ledger} {to' : NodeID}
    {message : MempoolMessage} (h : message.Grounded cfg ledger to')
    (hGrows : ledger.Grows ledger') : message.Grounded cfg ledger' to' := by
  cases message with
  | microBlock mb =>
      obtain ⟨hReal, hFirst, hCreator, hHolder, hOther⟩ := h
      exact ⟨hReal, hFirst, hGrows.creator _ _ hCreator, hGrows.holders _ hHolder, hOther⟩
  | ack receipt =>
      obtain ⟨hCreator, hOther, hHolder, hSelf⟩ := h
      exact ⟨hGrows.creator _ _ hCreator, hOther, hGrows.holders _ hHolder, hGrows.holders _ hSelf⟩
  | stable notice => exact Ledger.Supports.mono h hGrows
  | missingStableMBRequest requesterID mbID => exact h

namespace Replica

/-- The mempool is grounded, and no record anywhere makes the replica `id` ask
anybody for content. Its microblocks do not go through `loadbalance`. -/
structure Grounded (cfg : Settings) (ledger : Ledger) (id : NodeID) (r : Replica) : Prop where
  wellFormed : ∃ past, r.sm.WellFormed past
  sm : r.sm.Grounded ledger
  smId : r.sm.id = id
  threshhold : r.sm.threshhold = cfg.q
  exId : r.ex.id = id
  handed : ∀ mb ∈ r.handed, mb.Inert id
  channel : ∀ batch ∈ r.ex.mbReceive, ∀ mb ∈ batch, mb.Inert id
  queue : ∀ mb ∈ r.ex.mbs, mb.Inert id
  quiet : ∀ nodes h, .missingRequest nodes h ∈ r.ex.outbox → nodes = ∅
  missing : r.ex.missReceive = []
  selfMBChan : r.selfMBChan = []

/-- A handler that sends and acknowledges nothing. -/
structure Keeps (r r' : Replica) : Prop where
  content : ∀ h, r.sm.hasContent h = true → r'.sm.hasContent h = true
  receivedMBs : r'.receivedMBs = r.receivedMBs
  acked : ∀ h, r'.sm.ackMapOf h ⊆ r.sm.ackMapOf h
  outbox : r'.outbox = r.outbox

theorem Keeps.of_sm {r r' : Replica} (hMem : r'.sm = r.sm)
    (hReceived : r'.receivedMBs = r.receivedMBs) (hOutbox : r'.outbox = r.outbox) : r.Keeps r' where
  content _ hContent := hMem ▸ hContent
  receivedMBs := hReceived
  acked _ := hMem ▸ Finset.Subset.refl _
  outbox := hOutbox

variable {cfg : Settings} {keys : KeyRing} {sort : GroupSort} {ledger ledger' : Ledger}
  {id : NodeID} {r r' : Replica}

/-- A handler that stores no content and sends nothing. -/
structure Retains (r r' : Replica) : Prop where
  gm : r'.sm.gm = r.sm.gm
  stored : ∀ h mb, r'.sm.microblockMap.lookup h = some mb → mb.isFake = false →
    r.sm.microblockMap.lookup h = some mb
  outbox : r'.outbox = r.outbox
  selfMBChan : r'.selfMBChan = r.selfMBChan

theorem Retains.of_sm (hMem : r'.sm = r.sm) (hOutbox : r'.outbox = r.outbox)
    (hChan : r'.selfMBChan = r.selfMBChan) : r.Retains r' where
  gm := by rw [hMem]
  stored h mb hLookup _ := hMem ▸ hLookup
  outbox := hOutbox
  selfMBChan := hChan

theorem Retains.processAcks {ack : Ack}
    (h : r.processAcks cfg keys ack = .ok r') : r.Retains r' := by
  rcases processAcks_cases h with rfl | rfl
  · exact .of_sm rfl rfl rfl
  · refine ⟨(AckMem.addAck_setup cfg r.sm ack).gm, fun h mb hLookup _ => ?_, rfl, rfl⟩
    rwa [AckMem.microblockMap_addAck] at hLookup

theorem Retains.handleStable {past : List Identifier}
    (hWell : r.sm.WellFormed past) {now : Int} {stable : Stable}
    (h : r.handleStable now stable = .ok r') : r.Retains r' := by
  obtain ⟨sm, hMem, hDone⟩ := Outcome.bind_eq_ok.mp h
  cases Outcome.pure_eq_ok.mp hDone
  refine ⟨(AckMem.addStable_setup hWell.known_of_lookup hMem).gm, fun h mb hLookup hReal => ?_,
    rfl, rfl⟩
  rcases AckMem.lookup_of_addStable hWell hMem hLookup with hFake | hOld
  · rw [hReal] at hFake
    cases hFake
  · exact hOld

theorem Retains.generatePayload (h : r.generatePayload cfg sort = .ok r') :
    r.Retains r' := by
  obtain ⟨⟨sm, payload⟩, hMem, hDone⟩ := Outcome.bind_eq_ok.mp h
  cases Outcome.pure_eq_ok.mp hDone
  obtain ⟨_, _, _, rfl, _⟩ := AckMem.generatePayload_spec hMem
  exact ⟨rfl, fun _ _ hLookup _ => hLookup, rfl, rfl⟩

theorem Retains.handleProposal {now : Int} {p : Proposal}
    (h : r.handleProposal now p = .ok r') : r.Retains r' := by
  obtain ⟨⟨sm, block⟩, hMem, hDone⟩ := Outcome.bind_eq_ok.mp h
  cases Outcome.pure_eq_ok.mp hDone
  obtain ⟨_, _, hEq, _, _⟩ := AckMem.forgetAll_spec r.sm p.hashList
  rw [(AckMem.fetchMB_spec hMem).1, hEq]
  exact ⟨rfl, fun _ _ hLookup _ => hLookup, rfl, rfl⟩

theorem Retains.handleBatch (h : r.handleBatch cfg keys = .ok r') :
    r.Retains r' := by
  rcases handleBatch_cases h with rfl | ⟨_, _, _, _, _, rfl⟩ <;> exact .of_sm rfl rfl rfl

theorem Retains.handleMissing (h : r.handleMissing cfg keys = .ok r') :
    r.Retains r' := by
  rcases handleMissing_cases h with rfl | ⟨_, _, _, _, _, rfl⟩ <;> exact .of_sm rfl rfl rfl

theorem Retains.handleResult {result : ExecuteResult}
    (h : r.handleResult cfg keys result = .ok r') : r.Retains r' := by
  obtain ⟨_, _, rfl⟩ := handleResult_cases h
  exact .of_sm rfl rfl rfl

/-- Content comes from a microblock that is made or received, and microblocks are sent
when one is made, taken from the channel, received to be forwarded or asked for. -/
theorem handleEvent_cases (hWell : ∃ past, r.sm.WellFormed past) {event : Dissemination.Event}
    (h : r.handleEvent cfg keys sort event = .ok r') :
    r.Retains r' ∨
      (∃ hash groupId txns now, event.makes = some (hash, groupId) ∧
        MakesFrom cfg (newMicroblock hash groupId txns now) r r') ∨
      (∃ pick, event = .balance pick ∧ r' = r.loadbalance cfg pick) ∨
      (∃ now mb, event = .deliver now (.microBlock mb) ∧
        r.handleMicroblock cfg keys mb = .ok r') ∨
      ∃ now requesterID mbID, event = .deliver now (.missingStableMBRequest requesterID mbID) ∧
        r' = r.handleMissingStableMb requesterID mbID := by
  cases event with
  | observePool hash groupId txns now sample =>
      rcases observePool_makes h with rfl | hMakes
      · exact Or.inl (.of_sm rfl rfl rfl)
      · exact Or.inr (Or.inl ⟨hash, groupId, txns, now, rfl, hMakes⟩)
  | handleTxn hash groupId txns now =>
      exact Or.inr (Or.inl ⟨hash, groupId, txns, now, rfl, handleTxn_makes h⟩)
  | balance pick =>
      exact Or.inr (Or.inr (Or.inl ⟨pick, rfl, (Outcome.pure_eq_ok.mp h).symm⟩))
  | deliver now message =>
      cases message with
      | microBlock mb => exact Or.inr (Or.inr (Or.inr (Or.inl ⟨now, mb, rfl, h⟩)))
      | ack ack => exact Or.inl (.processAcks h)
      | stable stable =>
          obtain ⟨past, hPast⟩ := hWell
          exact Or.inl (.handleStable hPast h)
      | missingStableMBRequest requesterID mbID =>
          exact Or.inr (Or.inr (Or.inr (Or.inr ⟨now, requesterID, mbID, rfl,
            (Outcome.pure_eq_ok.mp h).symm⟩)))
  | propose => exact Or.inl (.generatePayload h)
  | proposal now p => exact Or.inl (.handleProposal h)
  | commit mbs =>
      cases Outcome.pure_eq_ok.mp h
      exact Or.inl (.of_sm rfl rfl rfl)
  | batch => exact Or.inl (.handleBatch h)
  | missing => exact Or.inl (.handleMissing h)
  | result result => exact Or.inl (.handleResult h)

theorem new_grounded (cfg : Settings) (ledger : Ledger) (id : NodeID) :
    (new cfg id).Grounded cfg ledger id where
  wellFormed := ⟨[], AckMem.new_wellFormed cfg id _⟩
  sm := AckMem.new_grounded cfg id _ ledger
  smId := rfl
  threshhold := rfl
  exId := rfl
  handed := by simp [new]
  channel := by simp [new]
  queue := by simp [new]
  quiet := by simp [new]
  missing := rfl
  selfMBChan := rfl

namespace Grounded

theorem mono (h : r.Grounded cfg ledger id) (hGrows : ledger.Grows ledger') :
    r.Grounded cfg ledger' id :=
  { h with sm := h.sm.mono hGrows }

/-- Only the mempool has changed. -/
theorem withMem (h : r.Grounded cfg ledger id) {sm : AckMem} (receivedMBs : Finset Identifier)
    (outbox : List (Recipients × MempoolMessage)) (hWell : ∃ past, sm.WellFormed past)
    (hGround : sm.Grounded ledger) (hSetup : r.sm.SameSetup sm) :
    { r with sm, receivedMBs, outbox }.Grounded cfg ledger id :=
  { h with
    wellFormed := hWell
    sm := hGround
    smId := hSetup.id.trans h.smId
    threshhold := hSetup.threshhold.trans h.threshhold }

/-- Only the executor has changed, and it asked nobody. -/
theorem withCalm (h : r.Grounded cfg ledger id) {e ex : Executor} (hCalm : e.Calm ex)
    (hId : e.id = r.ex.id) (hQueue : ∀ mb ∈ e.mbs, mb.Inert id)
    (hChannel : ∀ batch ∈ e.mbReceive, ∀ mb ∈ batch, mb.Inert id)
    (hOutbox : e.outbox = r.ex.outbox) (hMissing : e.missReceive = []) :
    { r with ex }.Grounded cfg ledger id :=
  { h with
    exId := hCalm.id.trans (hId.trans h.exId)
    channel := hCalm.mbReceive.symm ▸ hChannel
    queue := fun mb hMem => hQueue mb (hCalm.mbs mb hMem)
    quiet := fun nodes hash hMem => (hCalm.requests nodes hash hMem).elim
      (fun hOld => h.quiet nodes hash (hOutbox ▸ hOld)) fun hNobody => hNobody
    missing := hCalm.missReceive.trans hMissing }

/-- Handing the messages over. -/
theorem flush (h : r.Grounded cfg ledger id) :
    { r.flush with outbox := [] }.Grounded cfg ledger id where
  wellFormed := by
    obtain ⟨past, hWell⟩ := h.wellFormed
    exact ⟨past, hWell.of_eq rfl rfl rfl rfl rfl⟩
  sm := h.sm.tell fun stable hMem => absurd hMem List.not_mem_nil
  smId := h.smId
  threshhold := h.threshhold
  exId := h.exId
  handed := h.handed
  channel := h.channel
  queue := h.queue
  quiet _ _ hMem := absurd hMem List.not_mem_nil
  missing := h.missing
  selfMBChan := h.selfMBChan

/-- Requests go to nobody. -/
theorem request_members (h : r.Grounded cfg ledger id) {recipients : Recipients}
    {message : MempoolMessage}
    (hMem : (recipients, message) ∈ r.ex.outbox.filterMap (Outgoing.request r.ex.id)) :
    recipients = .members ∅ ∧ ∃ mbID, message = .missingStableMBRequest r.ex.id mbID := by
  obtain ⟨sent, hSent, hRequest⟩ := List.mem_filterMap.mp hMem
  cases sent with
  | missingRequest nodes mbID =>
      cases hRequest
      rw [h.quiet nodes mbID hSent]
      exact ⟨rfl, mbID, rfl⟩
  | result recipients result => cases hRequest

/-- The payload of a proposal is taken from the queue. -/
theorem generatePayload (h : r.Grounded cfg ledger id)
    (hStep : r.generatePayload cfg sort = .ok r') :
    r'.Grounded cfg ledger id ∧ r.Keeps r' := by
  obtain ⟨⟨sm, payload⟩, hMem, hDone⟩ := Outcome.bind_eq_ok.mp hStep
  cases Outcome.pure_eq_ok.mp hDone
  obtain ⟨past, hWell⟩ := h.wellFormed
  have hWell' := hWell.generatePayload hMem
  obtain ⟨⟨queue, rfl, hQueue⟩, hPayload⟩ := AckMem.generatePayload_records hMem
  refine ⟨?_, fun _ hContent => hContent, rfl, fun _ => Finset.Subset.refl _, rfl⟩
  have hGround : AckMem.Grounded ledger { r.sm with stableMicroblocks := queue } :=
    h.sm.shrink (fun _ _ hLookup => hLookup) hQueue
  refine { h.withMem r.receivedMBs r.outbox ⟨_, hWell'⟩ hGround
    ⟨rfl, rfl, rfl, rfl, rfl⟩ with handed := fun mb hMem => ?_ }
  rcases List.mem_append.mp hMem with hOld | hNew
  · exact h.handed mb hOld
  · exact h.smId ▸ h.sm.inert mb (.queued (hPayload mb hNew))

theorem handleProposal (h : r.Grounded cfg ledger id) {now : Int} {p : Proposal}
    (hStep : r.handleProposal now p = .ok r') : r'.Grounded cfg ledger id ∧ r.Keeps r' := by
  obtain ⟨⟨sm, pendingBlock⟩, hMem, hDone⟩ := Outcome.bind_eq_ok.mp hStep
  cases Outcome.pure_eq_ok.mp hDone
  obtain ⟨hForget, hFetched⟩ := AckMem.fetchMB_spec hMem
  obtain ⟨past, hWell⟩ := h.wellFormed
  have hWell' := hForget.symm ▸ hWell.forgetAll p.hashList
  obtain ⟨pending, queue, hEq, hPending, hQueue⟩ := AckMem.forgetAll_spec r.sm p.hashList
  rw [hEq] at hForget
  subst hForget
  have hLess : ∀ h pm, pending.lookup h = some pm →
      r.sm.pendingMicroblocks.lookup h = some pm := fun h pm hLookup => (hPending h pm hLookup).1
  refine ⟨?_, fun _ hContent => hContent, rfl,
    fun hash => AckMem.ackMapOf_of_lookup fun pm => hLess hash pm, rfl⟩
  have hGround := h.sm.shrink hLess fun mb hMem => hQueue.subset hMem
  refine { h.withMem r.receivedMBs r.outbox ⟨_, hWell'⟩ hGround ⟨rfl, rfl, rfl, rfl, rfl⟩ with
    handed := fun mb hMem => ?_ }
  rcases List.mem_append.mp hMem with hOld | hNew
  · exact h.handed mb hOld
  · cases hBlock : pendingBlock.completeBlock with
    | none => simp [hBlock] at hNew
    | some block =>
        rw [hBlock, Option.map_some, Option.getD_some,
          PendingBlock.completeBlock_payload hBlock] at hNew
        exact h.smId ▸ h.sm.fetched_inert hFetched mb hNew

theorem processCommittedBlock (h : r.Grounded cfg ledger id) {mbs : List MicroBlock}
    (hHanded : ∀ mb ∈ mbs, mb ∈ r.handed) :
    (r.processCommittedBlock mbs).Grounded cfg ledger id ∧
      r.Keeps (r.processCommittedBlock mbs) := by
  refine ⟨{ h with channel := fun batch hBatch => ?_ }, .of_sm rfl rfl rfl⟩
  rcases List.mem_append.mp hBatch with hOld | hNew
  · exact h.channel batch hOld
  · cases List.mem_singleton.mp hNew
    intro mb hMem
    obtain ⟨original, hOriginal, _, rfl⟩ := (numberCommitted_origin _ _ mbs).1 mb hMem
    exact h.handed original (hHanded original hOriginal)

theorem handleBatch (h : r.Grounded cfg ledger id)
    (hStep : r.handleBatch cfg keys = .ok r') : r'.Grounded cfg ledger id ∧ r.Keeps r' := by
  rcases handleBatch_cases hStep with rfl | ⟨batch, rest, ex, hChannel, hAdd, rfl⟩
  · exact ⟨h, .of_sm rfl rfl rfl⟩
  · have hBatches : ∀ b ∈ batch :: rest, ∀ mb ∈ b, mb.Inert id := hChannel ▸ h.channel
    have hQueue : ∀ mb ∈ r.ex.mbs ++ batch, mb.Inert id := by
      intro mb hMem
      rcases List.mem_append.mp hMem with hOld | hNew
      · exact h.queue mb hOld
      · exact hBatches batch List.mem_cons_self mb hNew
    have hCalm := Executor.addMbToExecute_calm (by rw [h.exId]; exact hQueue) hAdd
    refine ⟨h.withCalm hCalm rfl hQueue (fun b hMem => ?_) rfl h.missing, .of_sm rfl rfl rfl⟩
    exact hBatches b (List.mem_cons_of_mem batch hMem)

/-- Nothing is ever retransmitted. -/
theorem handleMissing (h : r.Grounded cfg ledger id)
    (hStep : r.handleMissing cfg keys = .ok r') : r'.Grounded cfg ledger id ∧ r.Keeps r' := by
  rcases handleMissing_cases hStep with rfl | ⟨mb, rest, _, hChannel, _⟩
  · exact ⟨h, .of_sm rfl rfl rfl⟩
  · rw [h.missing] at hChannel
    cases hChannel

theorem handleResult (h : r.Grounded cfg ledger id) {result : ExecuteResult}
    (hStep : r.handleResult cfg keys result = .ok r') :
    r'.Grounded cfg ledger id ∧ r.Keeps r' := by
  obtain ⟨ex, hResult, rfl⟩ := handleResult_cases hStep
  have hCalm := Executor.handleResult_calm (by rw [h.exId]; exact h.queue) hResult
  exact ⟨h.withCalm hCalm rfl h.queue h.channel rfl h.missing, .of_sm rfl rfl rfl⟩

/-- An announcement arrives. -/
theorem handleStable (h : r.Grounded cfg ledger id) {now : Int} {stable : Stable}
    (hSupports : ledger.Supports cfg.q stable)
    (hSelf : stable.microblockID ∉ r.sm.microblockMap →
      id ∉ ledger.holders stable.microblockID)
    (hStep : r.handleStable now stable = .ok r') : r'.Grounded cfg ledger id ∧ r.Keeps r' := by
  obtain ⟨sm, hMem, hDone⟩ := Outcome.bind_eq_ok.mp hStep
  cases Outcome.pure_eq_ok.mp hDone
  obtain ⟨past, hWell⟩ := h.wellFormed
  have hGround := h.sm.addStable hWell (h.threshhold.symm ▸ hSupports) (h.smId.symm ▸ hSelf) hMem
  refine ⟨h.withMem r.receivedMBs r.outbox ⟨past, hWell.addStable hMem⟩ hGround
    (AckMem.addStable_setup hWell.known_of_lookup hMem), ?_⟩
  exact ⟨fun _ => AckMem.addStable_hasContent hWell hMem, rfl,
    AckMem.addStable_ackMapOf hWell hMem, rfl⟩

/-- An ack arrives; it is counted at most once. -/
theorem processAcks (h : r.Grounded cfg ledger id) {ack : Ack}
    (hHolder : ack.receiver ∈ ledger.holders ack.microblockID)
    (hNew : ack.receiver ∉ r.sm.ackMapOf ack.microblockID)
    (hKnown : ack.microblockID ∈ r.sm.microblockMap)
    (hStep : r.processAcks cfg keys ack = .ok r') :
    r'.Grounded cfg ledger id ∧ (r' = r ∨ r' = { r with sm := r.sm.addAck cfg ack }) := by
  have hCases := processAcks_cases hStep
  refine ⟨?_, hCases⟩
  rcases hCases with rfl | rfl
  · exact h
  · obtain ⟨past, hWell⟩ := h.wellFormed
    exact h.withMem r.receivedMBs r.outbox ⟨past, hWell.addAck cfg ack⟩
      (h.sm.addAck hWell hHolder hNew hKnown) (AckMem.addAck_setup cfg r.sm ack)

end Grounded

/-- What the handler of a microblock does with one that it sees for the first
time: it is stored, then the ack goes to its sender. -/
structure Receives (mb : MicroBlock) (r r' : Replica) : Prop where
  fresh : mb.hash ∉ r.receivedMBs
  receivedMBs : r'.receivedMBs = insert mb.hash r.receivedMBs
  content : ∀ h, r.sm.hasContent h = true → r'.sm.hasContent h = true
  holds : r'.sm.hasContent mb.hash = true
  acked : ∀ h node, node ∈ r'.sm.ackMapOf h →
    node ∈ r.sm.ackMapOf h ∨ h = mb.hash ∧ node = mb.sender
  outbox : ∃ ack : Ack, ack.receiver = r.id ∧ ack.microblockID = mb.hash ∧
    r'.outbox = r.outbox ++ [(.one mb.sender, .ack ack)]

theorem Grounded.handleMicroblock (h : r.Grounded cfg ledger id)
    (hBalance : cfg.loadBalance = false) {mb : MicroBlock}
    (hMessage : (MempoolMessage.microBlock mb).Grounded cfg ledger id)
    (hStep : r.handleMicroblock cfg keys mb = .ok r') :
    r'.Grounded cfg ledger id ∧ (r' = r ∨ Receives mb r r') := by
  obtain ⟨hReal, hFirst, hCreator, hHolder, hOther⟩ := hMessage
  rcases handleMicroblock_cases hStep with
    ⟨hOn, _⟩ | rfl | ⟨hSeen, ⟨hRequested, _⟩ | ⟨_, sm, hMem, hAck⟩⟩
  · rw [hBalance] at hOn
    cases hOn
  · exact ⟨h, Or.inl rfl⟩
  · rw [hFirst] at hRequested
    cases hRequested
  obtain ⟨past, hWell⟩ := h.wellFormed
  have hSetup := AckMem.addMicroblock_setup hMem
  have hGround := h.sm.addMicroblock hReal (Table.mem_of_lookup hCreator) hHolder hMem
  obtain ⟨hHolds, hContent⟩ := h.sm.addMicroblock_hasContent hReal hMem
  rcases acknowledge_cases hAck with ⟨_, ack, hReceiver, hAcked, rfl⟩ | ⟨hSelf, _⟩
  · refine ⟨h.withMem _ _ ⟨past, hWell.addMicroblock hMem⟩ hGround hSetup, Or.inr ?_⟩
    exact ⟨hSeen, rfl, hContent, hHolds, fun _ _ => h.sm.addMicroblock_ackMapOf hMem,
      ack, hReceiver.trans hSetup.id, hAcked, rfl⟩
  · exact absurd (hSelf.trans (hSetup.id.trans h.smId)).symm hOther

/-- What a publishing replica has done. -/
structure Publishes (mb : MicroBlock) (r r' : Replica) : Prop where
  receivedMBs : r'.receivedMBs = r.receivedMBs
  content : ∀ h, r.sm.hasContent h = true → r'.sm.hasContent h = true
  holds : r'.sm.hasContent mb.hash = true
  acked : ∀ h node, node ∈ r'.sm.ackMapOf h → node ∈ r.sm.ackMapOf h ∨ h = mb.hash ∧ node = r.id
  outbox : ∃ copy recipients, SentBy r.id mb copy ∧
    (∀ to', Recipients.includes r.id recipients to' = true → to' ≠ r.id) ∧
    r'.outbox = r.outbox ++ [(recipients, .microBlock copy)]

theorem Grounded.publishes (h : r.Grounded cfg ledger id) (hBalance : cfg.loadBalance = false)
    {mb : MicroBlock} (hReal : mb.isFake = false) (hStep : MakesFrom cfg mb r r') :
    Publishes mb r r' := by
  obtain ⟨copy, sm, hCopy, hMem, ⟨_, recipients, hAddresses, rfl⟩ | ⟨hOn, _⟩⟩ := hStep
  · have hSent := hCopy
    obtain ⟨list, hops, rfl⟩ := hCopy
    obtain ⟨hHolds, hContent⟩ := AckMem.Grounded.addMicroblock_hasContent h.sm (by exact hReal) hMem
    exact ⟨rfl, hContent, hHolds, fun h' node hNode => h.sm.addMicroblock_ackMapOf hMem hNode,
      _, recipients, hSent, hAddresses.others, rfl⟩
  · rw [hBalance] at hOn
    cases hOn

/-- The maker counts as the first holder. -/
theorem Grounded.makes (h : r.Grounded cfg ledger id) (hBalance : cfg.loadBalance = false)
    {mb : MicroBlock} (hReal : mb.isFake = false) (hCreated : mb.hash ∈ ledger.creator)
    (hHolder : id ∈ ledger.holders mb.hash) (hStep : MakesFrom cfg mb r r') :
    r'.Grounded cfg ledger id := by
  obtain ⟨copy, sm, ⟨list, hops, rfl⟩, hMem, ⟨_, recipients, _, rfl⟩ | ⟨hOn, _⟩⟩ := hStep
  · obtain ⟨past, hWell⟩ := h.wellFormed
    have hSender : r.id ∈ ledger.holders mb.hash := by rwa [Replica.id, h.smId]
    have hGround := h.sm.addMicroblock (by exact hReal) (by exact hCreated) (by exact hSender) hMem
    exact h.withMem _ _ ⟨past, hWell.addMicroblock hMem⟩ hGround (AckMem.addMicroblock_setup hMem)
  · rw [hBalance] at hOn
    cases hOn

end Replica
end Bamboo
