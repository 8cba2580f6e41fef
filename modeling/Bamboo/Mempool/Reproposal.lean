import Bamboo.Mempool.Invariant

/-! Whether a microblock of a proposal can be proposed again. `FetchMB` removes
the proposal's identifiers from the pending microblocks and the queue. One whose
microblock is known stays out; one that was not known enters the queue again
with its microblock or its announcement. -/
namespace Bamboo
namespace AckMem

open Library

/-- The calls that bring in microblocks, acks and announcements, and the calls
for a payload. -/
def Call.Arrives : Call → Prop
  | .addMicroblock _ | .addAck _ | .addStable _ _ | .generatePayload => True
  | _ => False

/-- Known, and neither pending nor queued. -/
structure Settled (h : Identifier) (am : AckMem) : Prop where
  known : h ∈ am.microblockMap
  notPending : am.pendingMicroblocks.lookup h = none
  notQueued : ∀ mb ∈ am.stableMicroblocks, mb.hash ≠ h

namespace Settled

variable {h : Identifier} {am : AckMem} {past : List Identifier}

theorem store (hSettled : am.Settled h) (mb : MicroBlock) : (am.store mb).Settled h where
  known := Finmap.mem_insert.mpr (Or.inr hSettled.known)
  notPending := hSettled.notPending
  notQueued := hSettled.notQueued

theorem setPending (hSettled : am.Settled h) {h' : Identifier} (hOther : h ≠ h')
    (pm : PendingMicroblock) : (am.setPending h' pm).Settled h where
  known := hSettled.known
  notPending := by
    simp only [AckMem.setPending, Table.lookup_insert_ite, if_neg hOther]
    exact hSettled.notPending
  notQueued := hSettled.notQueued

theorem dropPending (hSettled : am.Settled h) (h' : Identifier) :
    (am.dropPending h').Settled h where
  known := hSettled.known
  notPending := by
    simp only [AckMem.dropPending, Table.lookup_erase_ite, hSettled.notPending, ite_self]
  notQueued := hSettled.notQueued

theorem markStable (hSettled : am.Settled h) {mb : MicroBlock} (hOther : h ≠ mb.hash) :
    (am.markStable mb).Settled h where
  known := hSettled.known
  notPending := hSettled.notPending
  notQueued queued hQueued := by
    rcases List.mem_append.mp hQueued with hOld | hNew
    · exact hSettled.notQueued queued hOld
    · rw [List.mem_singleton.mp hNew]
      exact hOther.symm

theorem ne_of_unknown (hSettled : am.Settled h) {h' : Identifier} (hUnknown : h' ∉ am.microblockMap) :
    h ≠ h' := by
  rintro rfl
  exact hUnknown hSettled.known

theorem ne_of_pending (hSettled : am.Settled h) {h' : Identifier} {pm : PendingMicroblock}
    (hPending : am.pendingMicroblocks.lookup h' = some pm) : h ≠ h' := by
  rintro rfl
  cases hSettled.notPending.symm.trans hPending

theorem addMicroblock (hSettled : am.Settled h) {am' : AckMem} {mb : MicroBlock}
    (hAdd : am.addMicroblock mb = .ok am') : am'.Settled h := by
  rcases addMicroblock_cases hAdd with ⟨_, _, _, rfl⟩ | ⟨_, _, _, rfl⟩ | ⟨hNew, inGroup, rfl⟩
  · exact hSettled
  · exact hSettled.store mb
  · have hOther := hSettled.ne_of_unknown (Finmap.lookup_eq_none.mp hNew)
    rcases addFresh_cases am mb (.new mb inGroup) with hEq | ⟨_, ⟨_, hEq⟩ | ⟨_, hEq⟩⟩
    · rw [hEq]
      exact (hSettled.store mb).setPending hOther _
    · rw [hEq]
      exact hSettled.store mb
    · rw [hEq]
      exact ((hSettled.store mb).dropPending _).markStable hOther

theorem addAck (hSettled : am.Settled h) (hWell : am.WellFormed past) (cfg : Settings) (ack : Ack) :
    (am.addAck cfg ack).Settled h := by
  rcases addAck_cases cfg am ack with ⟨target, hTarget, hEq | ⟨_, _, hEq⟩⟩ | ⟨_, hEq | hEq⟩
  · rw [hEq]
    exact hSettled.setPending (hSettled.ne_of_pending hTarget) _
  · have hOther := hSettled.ne_of_pending hTarget
    have hHash : h ≠ (target.addAck cfg ack).microblock.hash := by
      rw [microblock_addAck, hWell.pending_hash _ _ hTarget]
      exact hOther
    have hMarked := ((hSettled.setPending hOther (target.addAck cfg ack)).dropPending
      ack.microblockID).markStable hHash
    rw [hEq]
    exact ⟨hMarked.known, hMarked.notPending, hMarked.notQueued⟩
  · rw [hEq]
    exact hSettled
  · rw [hEq]
    exact ⟨hSettled.known, hSettled.notPending, hSettled.notQueued⟩

theorem addStable (hSettled : am.Settled h) (hWell : am.WellFormed past) {am' : AckMem}
    {now : Int} {stable : Stable} (hAdd : am.addStable now stable = .ok am') : am'.Settled h := by
  have hNoted : (am.note stable).Settled h :=
    ⟨hSettled.known, hSettled.notPending, hSettled.notQueued⟩
  rcases addStable_cases hWell.known_of_lookup hAdd with ⟨_, rfl⟩ |
    ⟨_, ⟨target, hTarget, rfl⟩ | ⟨_, _, rfl⟩ | ⟨_, hUnknown, txns, _, rfl⟩⟩
  · exact hSettled
  · refine (hNoted.dropPending _).markStable ?_
    rw [hWell.pending_hash _ _ hTarget]
    exact hSettled.ne_of_pending hTarget
  · exact hNoted
  · exact (hNoted.store _).markStable (hSettled.ne_of_unknown hUnknown)

/-- A payload does not contain it, and it stays settled. -/
theorem generatePayload (hSettled : am.Settled h) {cfg : Settings} {sort : GroupSort}
    {am' : AckMem} {payload : Payload} (hPayload : am.generatePayload cfg sort = .ok (am', payload)) :
    am'.Settled h ∧ h ∉ payload.generateHashList := by
  obtain ⟨_, queue, hPerm, rfl, hTaken⟩ := generatePayload_spec hPayload
  have hQueue : ∀ mb ∈ queue, mb.hash ≠ h := fun mb hMem =>
    hSettled.notQueued mb (hPerm.mem_iff.mp hMem)
  refine ⟨⟨hSettled.known, hSettled.notPending, ?_⟩, ?_⟩
  · exact fun mb hMem => hQueue mb (List.mem_of_mem_drop hMem)
  · intro hMem
    rw [Payload.generateHashList, hTaken] at hMem
    obtain ⟨mb, hTake, hHash⟩ := List.mem_map.mp hMem
    exact hQueue mb (List.mem_of_mem_take hTake) hHash

end Settled

/-- Where identifiers are not repeated, removing the first entry removes all. -/
theorem forget_notQueued {am : AckMem} {h : Identifier}
    (hNodup : (am.stableMicroblocks.map MicroBlock.hash).Nodup) :
    ∀ mb ∈ (am.forget h).stableMicroblocks, mb.hash ≠ h := by
  unfold forget
  dsimp only
  generalize am.stableMicroblocks = queue at hNodup ⊢
  induction queue with
  | nil => simp
  | cons first rest ih =>
      simp only [List.map_cons, List.nodup_cons] at hNodup
      by_cases hFirst : first.hash = h
      · rw [List.eraseP_cons_of_pos (by simpa using hFirst)]
        rintro mb hMem rfl
        exact hNodup.1 (hFirst ▸ List.mem_map_of_mem hMem)
      · rw [List.eraseP_cons_of_neg (by simpa using hFirst)]
        intro mb hMem
        rcases List.mem_cons.mp hMem with rfl | hRest
        · exact hFirst
        · exact ih hNodup.2 mb hRest

theorem forgetAll_notQueued {am : AckMem} {past : List Identifier} (hWell : am.WellFormed past)
    {hs : List Identifier} {h : Identifier} (hMem : h ∈ hs) :
    ∀ mb ∈ (am.forgetAll hs).stableMicroblocks, mb.hash ≠ h := by
  induction hs generalizing am with
  | nil => cases hMem
  | cons first rest ih =>
      rcases List.mem_cons.mp hMem with rfl | hRest
      · have hNodup := (List.nodup_append.mp hWell.queue_nodup).2.1
        obtain ⟨_, queue, hEq, _, hSublist⟩ := forgetAll_spec (am.forget h) rest
        intro mb hQueued
        change mb ∈ ((am.forget h).forgetAll rest).stableMicroblocks at hQueued
        rw [hEq] at hQueued
        exact forget_notQueued hNodup mb (hSublist.subset hQueued)
      · exact ih (hWell.forgetAll [first]) hRest

/-- After `FetchMB` every identifier of the proposal that is known is settled. -/
theorem forgetAll_settled {am : AckMem} {past : List Identifier} (hWell : am.WellFormed past)
    {hs : List Identifier} {h : Identifier} (hMem : h ∈ hs) (hKnown : h ∈ am.microblockMap) :
    (am.forgetAll hs).Settled h := by
  refine ⟨?_, ?_, forgetAll_notQueued hWell hMem⟩
  · obtain ⟨_, _, hEq, _, _⟩ := forgetAll_spec am hs
    rw [hEq]
    exact hKnown
  · obtain ⟨_, _, hEq, hPending, _⟩ := forgetAll_spec am hs
    rw [hEq, Option.eq_none_iff_forall_ne_some]
    intro pm hLookup
    exact (hPending h pm hLookup).2 hMem

namespace Trace

/-- The payloads returned between two states of a run. -/
def payloadsSince (t t' : Trace) : List Payload :=
  t'.payloads.drop t.payloads.length

/-- What an arriving call may add to the payloads: nothing, or one payload with `Q`. -/
def Adds (Q : Payload → Prop) (t t' : Trace) : Prop :=
  t'.payloads = t.payloads ∨ ∃ payload, t'.payloads = t.payloads ++ [payload] ∧ Q payload

/-- When `P` is kept by arriving calls and every payload they return has `Q`, the
payloads of a whole run of them have `Q`. -/
theorem run_payloads {cfg : Settings} {sort : GroupSort} {P : Trace → Prop} {Q : Payload → Prop}
    (hStep : ∀ s call s', P s → call.Arrives → s.step cfg sort call = .ok s' →
      P s' ∧ s.Adds Q s')
    {t t' : Trace} {later : List Call} (hStart : P t) (hLater : ∀ call ∈ later, call.Arrives)
    (hRun : run (step cfg sort) t later = .ok t') : ∀ payload ∈ t.payloadsSince t', Q payload := by
  have hGuard : Guarded (step cfg sort) (fun _ call => call.Arrives) t later :=
    guarded_of_mem fun _ => hLater
  have hEnd := guarded_run_invariant
    (P := fun s : Trace => P s ∧
      ∃ added, s.payloads = t.payloads ++ added ∧ ∀ payload ∈ added, Q payload)
    ?_ hGuard hRun ⟨hStart, [], by simp, by simp⟩
  · obtain ⟨_, added, hAdded, hAll⟩ := hEnd
    rw [payloadsSince, hAdded, List.drop_left]
    exact hAll
  · rintro s call s' ⟨hState, added, hAdded, hAll⟩ hCall hHere
    obtain ⟨hNext, hSame | ⟨payload, hNew, hOne⟩⟩ := hStep s call s' hState hCall hHere
    · exact ⟨hNext, added, hSame ▸ hAdded, hAll⟩
    · refine ⟨hNext, added ++ [payload], by simp [hNew, hAdded], ?_⟩
      intro p hp
      rcases List.mem_append.mp hp with hOld | hLast
      · exact hAll p hOld
      · exact List.mem_singleton.mp hLast ▸ hOne

/-- An arriving call keeps identifiers settled, and a payload leaves them out. -/
theorem step_settled {cfg : Settings} {sort : GroupSort} {t t' : Trace} {call : Call}
    {h : Identifier} (hWell : t.mem.WellFormed t.proposed) (hSettled : t.mem.Settled h)
    (hCall : call.Arrives) (hStep : t.step cfg sort call = .ok t') :
    t'.mem.Settled h ∧ t.Adds (fun payload => h ∉ payload.generateHashList) t' := by
  cases call with
  | addMicroblock mb =>
      obtain ⟨mem, hMem, hDone⟩ := Outcome.bind_eq_ok.mp hStep
      cases Outcome.pure_eq_ok.mp hDone
      exact ⟨hSettled.addMicroblock hMem, Or.inl rfl⟩
  | addAck ack =>
      cases Outcome.pure_eq_ok.mp hStep
      exact ⟨hSettled.addAck hWell cfg ack, Or.inl rfl⟩
  | addStable now stable =>
      obtain ⟨mem, hMem, hDone⟩ := Outcome.bind_eq_ok.mp hStep
      cases Outcome.pure_eq_ok.mp hDone
      exact ⟨hSettled.addStable hWell hMem, Or.inl rfl⟩
  | generatePayload =>
      obtain ⟨⟨mem, payload⟩, hMem, hDone⟩ := Outcome.bind_eq_ok.mp hStep
      cases Outcome.pure_eq_ok.mp hDone
      obtain ⟨hNext, hOut⟩ := hSettled.generatePayload hMem
      exact ⟨hNext, Or.inr ⟨payload, rfl, hOut⟩⟩
  | handleMissingStableMb _ | fetchMB _ _ | fillProposal _ | fillProposalFromGroup _
  | fillProposalByGroup _ => cases hCall

/-- A settled identifier is in no payload of a later run of arriving calls. -/
theorem run_settled {cfg : Settings} {sort : GroupSort} {t t' : Trace} {later : List Call}
    {h : Identifier} (hWell : t.mem.WellFormed t.proposed) (hSettled : t.mem.Settled h)
    (hLater : ∀ call ∈ later, call.Arrives) (hRun : run (step cfg sort) t later = .ok t') :
    ∀ payload ∈ t.payloadsSince t', h ∉ payload.generateHashList := by
  refine run_payloads (P := fun s => s.mem.WellFormed s.proposed ∧ s.mem.Settled h) ?_
    ⟨hWell, hSettled⟩ hLater hRun
  rintro s call s' ⟨hWell, hSettled⟩ hCall hStep
  obtain ⟨hNext, hAdds⟩ := step_settled hWell hSettled hCall hStep
  exact ⟨⟨step_wellFormed hWell hStep, hNext⟩, hAdds⟩

/-- A call for a payload that returns, with what it does to the queue. -/
theorem step_generatePayload {cfg : Settings} (sort : GroupSort) (t : Trace)
    (hWorker : cfg.onlyworker = false) :
    ∃ t' payload, t.step cfg sort .generatePayload = .ok t' ∧
      t.mem.generatePayload cfg sort = .ok (t'.mem, payload) ∧
      t'.payloads = t.payloads ++ [payload] := by
  obtain ⟨mem, payload, hPayload⟩ : ∃ mem payload,
      t.mem.generatePayload cfg sort = .ok (mem, payload) := by
    unfold AckMem.generatePayload
    rw [if_neg (by simp [hWorker])]
    exact ⟨_, _, rfl⟩
  refine ⟨{ mem, payloads := t.payloads ++ [payload] }, payload, ?_, hPayload, rfl⟩
  exact Outcome.bind_eq_ok.mpr ⟨(mem, payload), hPayload, rfl⟩

/-- Everything that is queued is in a payload after enough calls: each payload
takes at least one microblock. -/
theorem drain {cfg : Settings} (sort : GroupSort) (hWorker : cfg.onlyworker = false) (size : Nat)
    {t : Trace} (hSize : t.mem.stableMicroblocks.length = size) (hBatch : 0 < t.mem.bsize)
    {mb : MicroBlock} (hQueued : mb ∈ t.mem.stableMicroblocks) :
    ∃ (count : Nat) (t' : Trace) (added : List Payload),
      run (step cfg sort) t (List.replicate count .generatePayload) = .ok t' ∧
      t'.payloads = t.payloads ++ added ∧
      ∃ payload ∈ added, mb.hash ∈ payload.generateHashList := by
  -- the queue gets shorter with every payload
  induction size using Nat.strongRecOn generalizing t with
  | ind size ih =>
      obtain ⟨t', payload, hStep, hPayload, hPayloads⟩ := t.step_generatePayload sort hWorker
      obtain ⟨_, queue, hPerm, hMem, hTaken⟩ := generatePayload_spec hPayload
      have hSplit : mb ∈ queue.take t.mem.batchSize ∨ mb ∈ queue.drop t.mem.batchSize := by
        rw [← List.mem_append, List.take_append_drop]
        exact hPerm.mem_iff.mpr hQueued
      rcases hSplit with hTake | hDrop
      · refine ⟨1, t', [payload], ?_, hPayloads, payload, by simp, ?_⟩
        · exact Outcome.bind_eq_ok.mpr ⟨t', hStep, rfl⟩
        · rw [Payload.generateHashList, hTaken]
          exact List.mem_map_of_mem hTake
      · have hQueue : t'.mem.stableMicroblocks = queue.drop t.mem.batchSize := by rw [hMem]
        have hShorter : t'.mem.stableMicroblocks.length < size := by
          have hPositive := List.length_pos_of_mem hQueued
          have hLength := hPerm.length_eq
          rw [hQueue, List.length_drop]
          unfold batchSize
          omega
        have hBatch' : 0 < t'.mem.bsize := by
          rw [(generatePayload_setup hPayload).bsize]
          exact hBatch
        obtain ⟨count, last, added, hRun, hAdded, found, hFound, hIn⟩ :=
          ih _ hShorter rfl hBatch' (hQueue ▸ hDrop)
        refine ⟨count + 1, last, payload :: added, ?_, ?_, found, by simp [hFound], hIn⟩
        · exact Outcome.bind_eq_ok.mpr ⟨t', hStep, hRun⟩
        · simp [hAdded, hPayloads]

/-- Arriving calls keep the batch size. -/
theorem step_bsize {cfg : Settings} {sort : GroupSort} {t t' : Trace} {call : Call}
    (hWell : t.mem.WellFormed t.proposed) (hCall : call.Arrives)
    (hStep : t.step cfg sort call = .ok t') : t'.mem.bsize = t.mem.bsize := by
  cases call with
  | addMicroblock mb =>
      obtain ⟨mem, hMem, hDone⟩ := Outcome.bind_eq_ok.mp hStep
      cases Outcome.pure_eq_ok.mp hDone
      exact (addMicroblock_setup hMem).bsize
  | addAck ack =>
      cases Outcome.pure_eq_ok.mp hStep
      exact (addAck_setup cfg t.mem ack).bsize
  | addStable now stable =>
      obtain ⟨mem, hMem, hDone⟩ := Outcome.bind_eq_ok.mp hStep
      cases Outcome.pure_eq_ok.mp hDone
      exact (addStable_setup hWell.known_of_lookup hMem).bsize
  | generatePayload =>
      obtain ⟨⟨mem, payload⟩, hMem, hDone⟩ := Outcome.bind_eq_ok.mp hStep
      cases Outcome.pure_eq_ok.mp hDone
      exact (generatePayload_setup hMem).bsize
  | handleMissingStableMb _ | fetchMB _ _ | fillProposal _ | fillProposalFromGroup _
  | fillProposalByGroup _ => cases hCall

/-- Without room for a microblock, a payload that is returned is empty. -/
theorem step_empty {cfg : Settings} {sort : GroupSort} {t t' : Trace} {call : Call}
    (hNone : cfg.onlyworker = true ∨ t.mem.bsize ≤ 0) (hCall : call.Arrives)
    (hStep : t.step cfg sort call = .ok t') :
    t.Adds (fun payload => payload.generateHashList = []) t' := by
  cases call with
  | addMicroblock mb =>
      obtain ⟨mem, _, hDone⟩ := Outcome.bind_eq_ok.mp hStep
      cases Outcome.pure_eq_ok.mp hDone
      exact Or.inl rfl
  | addAck ack =>
      cases Outcome.pure_eq_ok.mp hStep
      exact Or.inl rfl
  | addStable now stable =>
      obtain ⟨mem, _, hDone⟩ := Outcome.bind_eq_ok.mp hStep
      cases Outcome.pure_eq_ok.mp hDone
      exact Or.inl rfl
  | generatePayload =>
      obtain ⟨⟨mem, payload⟩, hMem, hDone⟩ := Outcome.bind_eq_ok.mp hStep
      cases Outcome.pure_eq_ok.mp hDone
      obtain ⟨hReturns, queue, _, _, hTaken⟩ := generatePayload_spec hMem
      have hBatch : t.mem.batchSize = 0 := by
        rcases hNone with hWorker | hSize
        · simp [hWorker] at hReturns
        · unfold batchSize
          omega
      have hEmpty : payload.generateHashList = [] := by
        rw [Payload.generateHashList, hTaken, hBatch]
        rfl
      exact Or.inr ⟨payload, rfl, hEmpty⟩
  | handleMissingStableMb _ | fetchMB _ _ | fillProposal _ | fillProposalFromGroup _
  | fillProposalByGroup _ => cases hCall

theorem run_empty {cfg : Settings} {sort : GroupSort} {t t' : Trace} {later : List Call}
    (hWell : t.mem.WellFormed t.proposed) (hNone : cfg.onlyworker = true ∨ t.mem.bsize ≤ 0)
    (hLater : ∀ call ∈ later, call.Arrives) (hRun : run (step cfg sort) t later = .ok t') :
    ∀ payload ∈ t.payloadsSince t', payload.generateHashList = [] := by
  refine run_payloads
    (P := fun s => s.mem.WellFormed s.proposed ∧ s.mem.bsize = t.mem.bsize) ?_
    ⟨hWell, rfl⟩ hLater hRun
  rintro s call s' ⟨hWell, hSize⟩ hCall hStep
  refine ⟨⟨step_wellFormed hWell hStep, (step_bsize hWell hCall hStep).trans hSize⟩, ?_⟩
  exact step_empty (hSize ▸ hNone) hCall hStep

/-- The announcement of a microblock that is not known queues a placeholder. -/
theorem step_addStable_unknown (cfg : Settings) (sort : GroupSort) {t : Trace}
    (hWell : t.mem.WellFormed t.proposed) {h : Identifier} (hUnknown : h ∉ t.mem.microblockMap) :
    ∃ t', t.step cfg sort (.addStable 0 { microblockID := h }) = .ok t' ∧
      t'.payloads = t.payloads ∧ t'.mem.bsize = t.mem.bsize ∧
      ∃ mb ∈ t'.mem.stableMicroblocks, mb.hash = h := by
  have hUnstable : h ∉ t.mem.stableMBs := fun hMem => hUnknown (hWell.stable_known h hMem)
  have hPending : t.mem.pendingMicroblocks.lookup h = none :=
    Finmap.lookup_eq_none.mpr fun hMem => hUnknown (hWell.pending_known h hMem)
  obtain ⟨mem, hAdd⟩ : ∃ mem, t.mem.addStable 0 { microblockID := h } = .ok mem := by
    unfold AckMem.addStable
    simp only [hPending]
    rw [if_neg hUnstable, if_neg hUnknown]
    exact ⟨_, rfl⟩
  refine ⟨{ t with mem }, Outcome.bind_eq_ok.mpr ⟨mem, hAdd, rfl⟩, rfl,
    (addStable_setup hWell.known_of_lookup hAdd).bsize, ?_⟩
  rcases addStable_cases hWell.known_of_lookup hAdd with ⟨hMem, _⟩ |
    ⟨_, ⟨_, hTarget, _⟩ | ⟨_, hMem, _⟩ | ⟨_, _, txns, _, rfl⟩⟩
  · exact absurd hMem hUnstable
  · cases hPending.symm.trans hTarget
  · exact absurd hMem hUnknown
  · exact ⟨_, List.mem_append_right _ (List.mem_singleton_self _), rfl⟩

/-- `FetchMB` for a proposal: no payload returned later contains a microblock of
the proposal exactly when all of them were known, or no payload can contain any. -/
theorem not_reproposed_iff {cfg : Settings} {sort : GroupSort} {id : NodeID} {gm : GroupManager}
    {calls : List Call} {t t' : Trace} {now : Int} {p : Proposal}
    (hRun : run (step cfg sort) (new cfg id gm) calls = .ok t)
    (hFetch : t.step cfg sort (.fetchMB now p) = .ok t') :
    (∀ later last, (∀ call ∈ later, call.Arrives) → run (step cfg sort) t' later = .ok last →
        ∀ payload ∈ t'.payloadsSince last, ∀ h ∈ p.hashList, h ∉ payload.generateHashList) ↔
      (∀ h ∈ p.hashList, h ∈ t.mem.microblockMap) ∨ cfg.onlyworker = true ∨ t.mem.bsize ≤ 0 := by
  have hWell := run_wellFormed hRun
  have hWell' := step_wellFormed hWell hFetch
  obtain ⟨⟨mem, block⟩, hMem, hDone⟩ := Outcome.bind_eq_ok.mp hFetch
  cases Outcome.pure_eq_ok.mp hDone
  obtain rfl := (fetchMB_spec hMem).1
  have hMap : (t.mem.forgetAll p.hashList).microblockMap = t.mem.microblockMap := by
    obtain ⟨_, _, hEq, _, _⟩ := forgetAll_spec t.mem p.hashList
    rw [hEq]
  have hSize : (t.mem.forgetAll p.hashList).bsize = t.mem.bsize :=
    (forgetAll_setup t.mem p.hashList).bsize
  constructor
  · -- an identifier that was not known comes back with its announcement
    intro hNever
    by_contra hCondition
    push Not at hCondition
    obtain ⟨⟨h, hInProposal, hUnknown⟩, hWorker, hRoom⟩ := hCondition
    obtain ⟨queued, hStep, hSame, hSize', mb, hQueued, rfl⟩ :=
      step_addStable_unknown cfg sort hWell' (hMap ▸ hUnknown)
    obtain ⟨count, last, added, hDrain, hAdded, payload, hPayload, hIn⟩ :=
      drain sort (by simpa using hWorker) _ rfl (by rw [hSize', hSize]; exact hRoom)
        hQueued
    refine hNever (.addStable 0 { microblockID := mb.hash } :: List.replicate count .generatePayload)
      last ?_ (Outcome.bind_eq_ok.mpr ⟨queued, hStep, hDrain⟩) payload ?_ mb.hash hInProposal hIn
    · intro call hCall
      rcases List.mem_cons.mp hCall with rfl | hCall
      · trivial
      · rw [List.eq_of_mem_replicate hCall]
        trivial
    · rw [payloadsSince, hAdded, hSame, List.drop_left]
      exact hPayload
  · rintro (hKnown | hNone) later last hLater hLast payload hPayload h hInProposal
    · exact run_settled hWell' (forgetAll_settled hWell hInProposal (hKnown h hInProposal)) hLater
        hLast payload hPayload
    · rw [run_empty hWell' (hSize ▸ hNone) hLater hLast payload hPayload]
      exact List.not_mem_nil

/-- A proposal of two known microblocks, of which one was queued and one pending. -/
theorem not_reproposed_known :
    ∃ t t', run (step Scenario.pool Scenario.sortByGroup) (new Scenario.pool "1" Scenario.groups)
        [.addMicroblock (Scenario.microblock 1 "1"), .addAck (Scenario.ack 1 "2"),
          .addAck (Scenario.ack 1 "3"), .addMicroblock (Scenario.microblock 2 "2")] = .ok t ∧
      t.step Scenario.pool Scenario.sortByGroup (.fetchMB 0 Scenario.twoHashes) = .ok t' ∧
      ∀ later last, (∀ call ∈ later, call.Arrives) →
        run (step Scenario.pool Scenario.sortByGroup) t' later = .ok last →
        ∀ payload ∈ t'.payloadsSince last, ∀ h ∈ Scenario.twoHashes.hashList,
          h ∉ payload.generateHashList := by
  obtain ⟨t, hRun, hOne, hTwo⟩ := Outcome.of_test
    (P := fun t : Trace => 1 ∈ t.mem.microblockMap ∧ 2 ∈ t.mem.microblockMap)
    (x := run (step Scenario.pool Scenario.sortByGroup) (new Scenario.pool "1" Scenario.groups)
      [.addMicroblock (Scenario.microblock 1 "1"), .addAck (Scenario.ack 1 "2"),
        .addAck (Scenario.ack 1 "3"), .addMicroblock (Scenario.microblock 2 "2")]) (by decide)
  obtain ⟨t', hAll, _⟩ := Outcome.of_test (P := fun _ : Trace => True)
    (x := run (step Scenario.pool Scenario.sortByGroup) (new Scenario.pool "1" Scenario.groups)
      ([.addMicroblock (Scenario.microblock 1 "1"), .addAck (Scenario.ack 1 "2"),
        .addAck (Scenario.ack 1 "3"), .addMicroblock (Scenario.microblock 2 "2")] ++
        [.fetchMB 0 Scenario.twoHashes])) (by decide)
  obtain ⟨middle, hMiddle, hFetch⟩ := (run_snoc _ _ _ _).mp hAll
  cases hRun.symm.trans hMiddle
  have hKnown : ∀ h ∈ Scenario.twoHashes.hashList, h ∈ t.mem.microblockMap := by
    simp only [Scenario.twoHashes, List.forall_mem_cons]
    exact ⟨hOne, hTwo, by simp⟩
  exact ⟨t, t', hRun, hFetch, (not_reproposed_iff hRun hFetch).mpr (Or.inl hKnown)⟩

/-- The proposal arrives before anything else about its microblocks. Then the
announcement of the first one arrives, and it is proposed again. -/
theorem late_stable_reproposed :
    ∃ t last, (new Scenario.pool "1" Scenario.groups).step Scenario.pool Scenario.sortByGroup
        (.fetchMB 0 Scenario.twoHashes) = .ok t ∧
      run (step Scenario.pool Scenario.sortByGroup) t
        [.addStable 0 { microblockID := 1 }, .generatePayload] = .ok last ∧
      1 ∈ Scenario.twoHashes.hashList ∧
      (t.payloadsSince last).map Payload.generateHashList = [[1]] := by
  obtain ⟨t, hFetch, hEmpty⟩ := Outcome.of_test (P := fun t : Trace => t.payloads = [])
    (x := (new Scenario.pool "1" Scenario.groups).step Scenario.pool Scenario.sortByGroup
      (.fetchMB 0 Scenario.twoHashes)) (by decide)
  obtain ⟨last, hAll, hPayloads⟩ := Outcome.of_test
    (P := fun last : Trace => last.payloads.map Payload.generateHashList = [[1]])
    (x := run (step Scenario.pool Scenario.sortByGroup) (new Scenario.pool "1" Scenario.groups)
      [.fetchMB 0 Scenario.twoHashes, .addStable 0 { microblockID := 1 }, .generatePayload])
    (by decide)
  obtain ⟨middle, hFirst, hLast⟩ := Outcome.bind_eq_ok.mp hAll
  cases hFetch.symm.trans hFirst
  refine ⟨t, last, hFetch, hLast, by decide, ?_⟩
  rw [payloadsSince, hEmpty]
  exact hPayloads

end Trace
end AckMem
end Bamboo
