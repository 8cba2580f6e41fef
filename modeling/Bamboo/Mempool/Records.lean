import Bamboo.Mempool.Invariant

/-! The records of microblocks in a mempool: where they come from, and whether those
that wait are the stored ones. A pending or a queued microblock is put there together
with an entry of `microblockMap`. `AddMicroblock` and `HandleMissingStableMb` may
replace that entry later, and they replace nothing else. -/
namespace Bamboo
namespace AckMem

open Library

theorem lookup_of_store {am : AckMem} {mb found : MicroBlock} {h : Identifier}
    (hLookup : (am.store mb).microblockMap.lookup h = some found) :
    h = mb.hash ∧ found = mb ∨ am.microblockMap.lookup h = some found :=
  Table.of_lookup_insert hLookup

theorem lookup_of_addMicroblock {am am' : AckMem} {mb found : MicroBlock} {h : Identifier}
    (hAdd : am.addMicroblock mb = .ok am') (hLookup : am'.microblockMap.lookup h = some found) :
    h = mb.hash ∧ found = mb ∨ am.microblockMap.lookup h = some found := by
  rcases addMicroblock_cases hAdd with ⟨_, _, _, rfl⟩ | ⟨_, _, _, rfl⟩ | ⟨_, inGroup, rfl⟩
  · exact Or.inr hLookup
  · exact lookup_of_store hLookup
  · rcases addFresh_cases am mb (.new mb inGroup) with hEq | ⟨_, ⟨_, hEq⟩ | ⟨_, hEq⟩⟩ <;>
    · rw [hEq] at hLookup
      exact lookup_of_store hLookup

/-- An announcement stores no content. -/
theorem lookup_of_addStable {am am' : AckMem} {past : List Identifier} (hWell : am.WellFormed past)
    {now : Int} {stable : Stable} {found : MicroBlock} {h : Identifier}
    (hAdd : am.addStable now stable = .ok am') (hLookup : am'.microblockMap.lookup h = some found) :
    found.isFake = true ∨ am.microblockMap.lookup h = some found := by
  rcases addStable_cases hWell.known_of_lookup hAdd with ⟨_, rfl⟩ |
    ⟨_, ⟨_, _, rfl⟩ | ⟨_, _, rfl⟩ | ⟨_, _, txns, _, rfl⟩⟩
  · exact Or.inr hLookup
  · exact Or.inr hLookup
  · exact Or.inr hLookup
  · have hStored : ((am.note stable).store (announced stable txns)).microblockMap.lookup h =
        some found := hLookup
    rcases lookup_of_store hStored with ⟨_, rfl⟩ | hOld
    · exact Or.inl rfl
    · exact Or.inr hOld

/-- The records of microblocks in the mempool. -/
inductive Record (am : AckMem) : MicroBlock → Prop where
  | stored {h : Identifier} {mb : MicroBlock} :
      am.microblockMap.lookup h = some mb → Record am mb
  | queued {mb : MicroBlock} : mb ∈ am.stableMicroblocks → Record am mb
  | pending {h : Identifier} {pm : PendingMicroblock} :
      am.pendingMicroblocks.lookup h = some pm → Record am pm.microblock

/-- No record is new when the map is the same and nothing is added elsewhere. -/
theorem Record.of_less {am am' : AckMem} {mb : MicroBlock} (h : am'.Record mb)
    (hMap : am'.microblockMap = am.microblockMap)
    (hQueue : ∀ mb ∈ am'.stableMicroblocks, mb ∈ am.stableMicroblocks)
    (hPending : ∀ h pm, am'.pendingMicroblocks.lookup h = some pm →
      am.pendingMicroblocks.lookup h = some pm) : am.Record mb := by
  cases h with
  | stored hLookup => exact .stored (hMap ▸ hLookup)
  | queued hMem => exact .queued (hQueue mb hMem)
  | pending hLookup => exact .pending (hPending _ _ hLookup)

namespace Record

variable {am am' : AckMem} {mb found : MicroBlock}

theorem of_store (h : (am.store mb).Record found) : found = mb ∨ am.Record found := by
  cases h with
  | stored hLookup =>
      rcases lookup_of_store hLookup with ⟨_, rfl⟩ | hOld
      · exact Or.inl rfl
      · exact Or.inr (.stored hOld)
  | queued hMem => exact Or.inr (.queued hMem)
  | pending hLookup => exact Or.inr (.pending hLookup)

theorem of_setPending {h : Identifier} {pm : PendingMicroblock}
    (hRecord : (am.setPending h pm).Record found) : found = pm.microblock ∨ am.Record found := by
  cases hRecord with
  | stored hLookup => exact Or.inr (.stored hLookup)
  | queued hMem => exact Or.inr (.queued hMem)
  | pending hLookup =>
      rcases Table.of_lookup_insert hLookup with ⟨_, rfl⟩ | hOld
      · exact Or.inl rfl
      · exact Or.inr (.pending hOld)

theorem of_markStable (h : (am.markStable mb).Record found) : found = mb ∨ am.Record found := by
  cases h with
  | stored hLookup => exact Or.inr (.stored hLookup)
  | queued hMem =>
      rcases List.mem_append.mp hMem with hOld | hNew
      · exact Or.inr (.queued hOld)
      · exact Or.inl (List.mem_singleton.mp hNew)
  | pending hLookup => exact Or.inr (.pending hLookup)

theorem of_dropPending {h : Identifier} (hRecord : (am.dropPending h).Record found) :
    am.Record found :=
  hRecord.of_less rfl (fun _ hMem => hMem) fun _ _ hLookup => Table.of_lookup_erase hLookup

theorem of_addMicroblock (h : am.addMicroblock mb = .ok am') (hRecord : am'.Record found) :
    found = mb ∨ am.Record found := by
  rcases addMicroblock_cases h with ⟨_, _, _, rfl⟩ | ⟨_, _, _, rfl⟩ | ⟨_, inGroup, rfl⟩
  · exact Or.inr hRecord
  · exact hRecord.of_store
  · rcases addFresh_cases am mb (.new mb inGroup) with hEq | ⟨_, ⟨_, hEq⟩ | ⟨_, hEq⟩⟩
    · rw [hEq] at hRecord
      rcases hRecord.of_setPending with hNew | hStored
      · rw [withBuffered, microblock_foldl_count] at hNew
        exact Or.inl hNew
      · exact hStored.of_store
    · rw [hEq] at hRecord
      exact hRecord.of_store
    · rw [hEq] at hRecord
      rcases hRecord.of_markStable with hNew | hOld
      · exact Or.inl hNew
      · exact hOld.of_dropPending.of_store

theorem of_addAck {cfg : Settings} {ack : Ack} (hRecord : (am.addAck cfg ack).Record found) :
    am.Record found := by
  rcases addAck_cases cfg am ack with ⟨target, hTarget, hCases⟩ | ⟨_, hEq | hEq⟩
  · have hSet : (am.setPending ack.microblockID (target.addAck cfg ack)).Record found →
        am.Record found := by
      intro hSet
      rcases hSet.of_setPending with hNew | hOld
      · rw [hNew, microblock_addAck]
        exact .pending hTarget
      · exact hOld
    rcases hCases with hEq | ⟨_, _, hEq⟩
    · rw [hEq] at hRecord
      exact hSet hRecord
    · rw [hEq] at hRecord
      have hMarked : (((am.setPending ack.microblockID (target.addAck cfg ack)).markStable
          (target.addAck cfg ack).microblock).dropPending ack.microblockID).Record found :=
        hRecord.of_less rfl (fun _ hMem => hMem) fun _ _ hLookup => hLookup
      rcases hMarked.of_dropPending.of_markStable with hNew | hOld
      · rw [hNew, microblock_addAck]
        exact .pending hTarget
      · exact hSet hOld
  · rw [hEq] at hRecord
    exact hRecord
  · rw [hEq] at hRecord
    exact hRecord.of_less rfl (fun _ hMem => hMem) fun _ _ hLookup => hLookup

/-- An announcement can add a placeholder. -/
theorem of_addStable {past : List Identifier} (hWell : am.WellFormed past) {now : Int}
    {stable : Stable} (h : am.addStable now stable = .ok am') (hRecord : am'.Record found) :
    am.Record found ∨
      ∃ txns, fakeTxns now stable.txNums = .ok txns ∧ found = announced stable txns := by
  have hNoted : (am.note stable).Record found → am.Record found := fun hOld =>
    hOld.of_less rfl (fun _ hMem => hMem) fun _ _ hLookup => hLookup
  rcases addStable_cases hWell.known_of_lookup h with ⟨_, rfl⟩ |
    ⟨_, ⟨target, hTarget, rfl⟩ | ⟨_, _, rfl⟩ | ⟨_, _, txns, hTxns, rfl⟩⟩
  · exact Or.inl hRecord
  · rcases hRecord.of_markStable with rfl | hOld
    · exact Or.inl (.pending hTarget)
    · exact Or.inl (hNoted hOld.of_dropPending)
  · exact Or.inl (hNoted hRecord)
  · rcases hRecord.of_markStable with hNew | hOld
    · exact Or.inr ⟨txns, hTxns, hNew⟩
    · rcases hOld.of_store with hNew | hOld
      · exact Or.inr ⟨txns, hTxns, hNew⟩
      · exact Or.inl (hNoted hOld)

theorem of_generatePayload {cfg : Settings} {sort : GroupSort} {payload : Payload}
    (h : am.generatePayload cfg sort = .ok (am', payload)) (hRecord : am'.Record found) :
    am.Record found := by
  obtain ⟨_, queue, hPerm, rfl, _⟩ := generatePayload_spec h
  exact hRecord.of_less rfl (fun mb hMem => hPerm.mem_iff.mp (List.mem_of_mem_drop hMem))
    fun _ _ hLookup => hLookup

theorem of_forgetAll {hs : List Identifier} (hRecord : (am.forgetAll hs).Record found) :
    am.Record found := by
  obtain ⟨pending, queue, hEq, hPending, hQueue⟩ := forgetAll_spec am hs
  rw [hEq] at hRecord
  exact hRecord.of_less rfl (fun mb hMem => hQueue.subset hMem) fun h pm hLookup =>
    (hPending h pm hLookup).1

end Record

/-- What waits under an identifier is the record that is stored under it. -/
structure Current (am : AckMem) : Prop where
  pending : ∀ h pm, am.pendingMicroblocks.lookup h = some pm →
    am.microblockMap.lookup h = some pm.microblock
  queued : ∀ mb ∈ am.stableMicroblocks, am.microblockMap.lookup mb.hash = some mb

/-- No other record waits under the identifier of a microblock. -/
def WaitsAlone (am : AckMem) (mb : MicroBlock) : Prop :=
  (∀ pm ∈ am.pendingMicroblocks.lookup mb.hash, pm.microblock = mb) ∧
    ∀ queued ∈ am.stableMicroblocks, queued.hash = mb.hash → queued = mb

instance (am : AckMem) (mb : MicroBlock) : Decidable (am.WaitsAlone mb) :=
  inferInstanceAs (Decidable ((∀ pm ∈ am.pendingMicroblocks.lookup mb.hash, _) ∧
    ∀ queued ∈ am.stableMicroblocks, _))

/-- The record that a call writes over another one. -/
def Call.replaces (am : AckMem) : Call → Option MicroBlock
  | .addMicroblock mb =>
      if (am.microblockMap.lookup mb.hash).any MicroBlock.isFake then some mb else none
  | .handleMissingStableMb mb => some mb
  | _ => none

/-- A record is only replaced where no other one waits. -/
def Call.KeepsCurrent (am : AckMem) (call : Call) : Prop :=
  ∀ mb ∈ call.replaces am, am.WaitsAlone mb

instance (am : AckMem) (call : Call) : Decidable (call.KeepsCurrent am) :=
  inferInstanceAs (Decidable (∀ mb ∈ call.replaces am, _))

theorem new_current (cfg : Settings) (id : NodeID) (gm : GroupManager) : (new cfg id gm).Current where
  pending h pm hLookup := by simp [new] at hLookup
  queued mb hMem := by simp [new] at hMem

namespace Current

variable {past : List Identifier} {am : AckMem}

theorem store (hCurrent : am.Current) {mb : MicroBlock} (hAlone : am.WaitsAlone mb) :
    (am.store mb).Current where
  pending h pm hLookup := by
    simp only [AckMem.store, Table.lookup_insert_ite]
    by_cases hSame : h = mb.hash
    · subst hSame
      rw [if_pos rfl, hAlone.1 pm hLookup]
    · rw [if_neg hSame]
      exact hCurrent.pending h pm hLookup
  queued queued hMem := by
    simp only [AckMem.store, Table.lookup_insert_ite]
    by_cases hSame : queued.hash = mb.hash
    · rw [if_pos hSame, hAlone.2 queued hMem hSame]
    · rw [if_neg hSame]
      exact hCurrent.queued queued hMem

theorem setPending (hCurrent : am.Current) {h : Identifier} {pm : PendingMicroblock}
    (hStored : am.microblockMap.lookup h = some pm.microblock) : (am.setPending h pm).Current where
  pending h' pm' hLookup := by
    rcases Table.of_lookup_insert hLookup with ⟨rfl, rfl⟩ | hOld
    · exact hStored
    · exact hCurrent.pending h' pm' hOld
  queued := hCurrent.queued

theorem markStable (hCurrent : am.Current) {mb : MicroBlock}
    (hStored : am.microblockMap.lookup mb.hash = some mb) : (am.markStable mb).Current where
  pending := hCurrent.pending
  queued queued hMem := by
    rcases List.mem_append.mp hMem with hOld | hNew
    · exact hCurrent.queued queued hOld
    · cases List.mem_singleton.mp hNew
      exact hStored

/-- Less may wait, in any order, over the same map. -/
theorem shrink (hCurrent : am.Current) {am' : AckMem} (hMap : am'.microblockMap = am.microblockMap)
    (hPending : ∀ h pm, am'.pendingMicroblocks.lookup h = some pm →
      am.pendingMicroblocks.lookup h = some pm)
    (hQueue : ∀ mb ∈ am'.stableMicroblocks, mb ∈ am.stableMicroblocks) : am'.Current where
  pending h pm hLookup := by
    rw [hMap]
    exact hCurrent.pending h pm (hPending h pm hLookup)
  queued mb hMem := by
    rw [hMap]
    exact hCurrent.queued mb (hQueue mb hMem)

theorem dropPending (hCurrent : am.Current) (h : Identifier) : (am.dropPending h).Current :=
  hCurrent.shrink rfl (fun _ _ hLookup => Table.of_lookup_erase hLookup) fun _ hMem => hMem

/-- Nothing waits under an identifier that is not known. -/
theorem waitsAlone_of_new (hWell : am.WellFormed past) {mb : MicroBlock}
    (hNew : am.microblockMap.lookup mb.hash = none) : am.WaitsAlone mb := by
  have hUnknown : mb.hash ∉ am.microblockMap := Finmap.lookup_eq_none.mp hNew
  constructor
  · intro pm hLookup
    exact absurd (hWell.known_of_lookup pm hLookup) hUnknown
  · intro queued hMem hSame
    have hStable := hWell.queue_stable queued.hash
      (List.mem_append_right past (List.mem_map_of_mem hMem))
    rw [hSame] at hStable
    exact absurd (hWell.stable_known _ hStable) hUnknown

theorem addMicroblock (hCurrent : am.Current) (hWell : am.WellFormed past) {am' : AckMem}
    {mb : MicroBlock} (hKeeps : (Call.addMicroblock mb).KeepsCurrent am)
    (h : am.addMicroblock mb = .ok am') : am'.Current := by
  rcases addMicroblock_cases h with ⟨_, _, _, rfl⟩ | ⟨old, hOld, hFake, rfl⟩ | ⟨hNew, inGroup, rfl⟩
  · exact hCurrent
  · apply hCurrent.store
    apply hKeeps
    simp [Call.replaces, hOld, hFake]
  · have hStored := hCurrent.store (waitsAlone_of_new hWell hNew)
    have hLookup : (am.store mb).microblockMap.lookup mb.hash = some mb := by simp [AckMem.store]
    rcases addFresh_cases am mb (.new mb inGroup) with hEq | ⟨_, ⟨_, hEq⟩ | ⟨_, hEq⟩⟩
    · rw [hEq]
      apply hStored.setPending
      rw [hLookup, withBuffered, microblock_foldl_count]
      rfl
    · rw [hEq]
      exact hStored
    · rw [hEq]
      exact (hStored.dropPending mb.hash).markStable hLookup

theorem addAck (hCurrent : am.Current) (hWell : am.WellFormed past) (cfg : Settings) (ack : Ack) :
    (am.addAck cfg ack).Current := by
  rcases addAck_cases cfg am ack with ⟨target, hTarget, hEq | ⟨_, _, hEq⟩⟩ | ⟨_, hEq | hEq⟩
  · rw [hEq]
    apply hCurrent.setPending
    rw [microblock_addAck]
    exact hCurrent.pending _ target hTarget
  · have hSame : (target.addAck cfg ack).microblock = target.microblock := microblock_addAck cfg target ack
    have hStored := hCurrent.pending _ target hTarget
    have hSet : (am.setPending ack.microblockID (target.addAck cfg ack)).Current :=
      hCurrent.setPending (hSame ▸ hStored)
    have hHeld : ((am.setPending ack.microblockID (target.addAck cfg ack)).dropPending
        ack.microblockID).microblockMap.lookup (target.addAck cfg ack).microblock.hash =
          some (target.addAck cfg ack).microblock := by
      rw [hSame, hWell.pending_hash _ _ hTarget]
      exact hStored
    have hMarked := (hSet.dropPending ack.microblockID).markStable hHeld
    rw [hEq]
    exact hMarked.shrink rfl (fun h pm hLookup => hLookup) fun mb hMem => hMem
  · rw [hEq]
    exact hCurrent
  · rw [hEq]
    exact hCurrent.shrink rfl (fun h pm hLookup => hLookup) fun mb hMem => hMem

theorem addStable (hCurrent : am.Current) (hWell : am.WellFormed past) {am' : AckMem} {now : Int}
    {stable : Stable} (h : am.addStable now stable = .ok am') : am'.Current := by
  have hNoted : (am.note stable).Current :=
    hCurrent.shrink rfl (fun h pm hLookup => hLookup) fun mb hMem => hMem
  rcases addStable_cases hWell.known_of_lookup h with ⟨_, rfl⟩ |
    ⟨_, ⟨target, hTarget, rfl⟩ | ⟨_, _, rfl⟩ | ⟨_, hUnknown, txns, _, rfl⟩⟩
  · exact hCurrent
  · apply (hNoted.dropPending stable.microblockID).markStable
    rw [hWell.pending_hash _ _ hTarget]
    exact hCurrent.pending _ target hTarget
  · exact hNoted
  · have hNotedWell : (am.note stable).WellFormed past := hWell.of_eq rfl rfl rfl rfl rfl
    have hAlone : (am.note stable).WaitsAlone (announced stable txns) :=
      waitsAlone_of_new hNotedWell (Finmap.lookup_eq_none.mpr hUnknown)
    apply (hNoted.store hAlone).markStable
    simp [AckMem.store]

theorem generatePayload (hCurrent : am.Current) {cfg : Settings} {sort : GroupSort}
    {am' : AckMem} {payload : Payload} (h : am.generatePayload cfg sort = .ok (am', payload)) :
    am'.Current ∧ ∀ mb ∈ payload.microblockList, am.microblockMap.lookup mb.hash = some mb := by
  obtain ⟨_, queue, hPerm, rfl, hPayload⟩ := generatePayload_spec h
  constructor
  · refine hCurrent.shrink rfl (fun h pm hLookup => hLookup) fun mb hMem => ?_
    exact hPerm.mem_iff.mp (List.mem_of_mem_drop hMem)
  · intro mb hMem
    rw [hPayload] at hMem
    exact hCurrent.queued mb (hPerm.mem_iff.mp (List.mem_of_mem_take hMem))

theorem forgetAll (hCurrent : am.Current) (hs : List Identifier) : (am.forgetAll hs).Current := by
  obtain ⟨pending, queue, hEq, hPending, hQueue⟩ := forgetAll_spec am hs
  rw [hEq]
  exact hCurrent.shrink rfl (fun h pm hLookup => (hPending h pm hLookup).1) fun mb hMem =>
    hQueue.subset hMem

end Current

namespace Trace

theorem step_current {cfg : Settings} {sort : GroupSort} {t t' : Trace} {call : Call}
    (hWell : t.mem.WellFormed t.proposed) (hCurrent : t.mem.Current)
    (hKeeps : call.KeepsCurrent t.mem) (h : t.step cfg sort call = .ok t') : t'.mem.Current := by
  cases call with
  | addMicroblock mb =>
      obtain ⟨mem, hMem, hDone⟩ := Outcome.bind_eq_ok.mp h
      cases Outcome.pure_eq_ok.mp hDone
      exact hCurrent.addMicroblock hWell hKeeps hMem
  | addAck ack =>
      cases Outcome.pure_eq_ok.mp h
      exact hCurrent.addAck hWell cfg ack
  | addStable now stable =>
      obtain ⟨mem, hMem, hDone⟩ := Outcome.bind_eq_ok.mp h
      cases Outcome.pure_eq_ok.mp hDone
      exact hCurrent.addStable hWell hMem
  | handleMissingStableMb mb =>
      cases Outcome.pure_eq_ok.mp h
      exact hCurrent.store (hKeeps mb rfl)
  | generatePayload =>
      obtain ⟨⟨mem, payload⟩, hMem, hDone⟩ := Outcome.bind_eq_ok.mp h
      cases Outcome.pure_eq_ok.mp hDone
      exact (hCurrent.generatePayload hMem).1
  | fetchMB now p =>
      obtain ⟨⟨mem, block⟩, hMem, hDone⟩ := Outcome.bind_eq_ok.mp h
      cases Outcome.pure_eq_ok.mp hDone
      rw [(fetchMB_spec hMem).1]
      exact hCurrent.forgetAll p.hashList
  | fillProposal p | fillProposalFromGroup p | fillProposalByGroup p =>
      cases Outcome.pure_eq_ok.mp h
      exact fillAll_spec t.mem p.hashList ▸ hCurrent.forgetAll p.hashList

/-- The queue holds the stored records, and so does every payload, if a record is only
replaced where no other one waits. -/
theorem queue_holds_stored {cfg : Settings} {sort : GroupSort} {id : NodeID} {gm : GroupManager}
    {calls : List Call} {t : Trace} (hRun : run (step cfg sort) (new cfg id gm) calls = .ok t)
    (hKeeps : Guarded (step cfg sort) (fun t call => call.KeepsCurrent t.mem) (new cfg id gm) calls) :
    (∀ mb ∈ t.mem.stableMicroblocks, t.mem.microblockMap.lookup mb.hash = some mb) ∧
    ∀ mem payload, t.mem.generatePayload cfg sort = .ok (mem, payload) →
      ∀ mb ∈ payload.microblockList, t.mem.microblockMap.lookup mb.hash = some mb ∧
        (t.mem.hasContent mb.hash = true → mb.isFake = false) := by
  have hEnd : t.mem.WellFormed t.proposed ∧ t.mem.Current := by
    refine guarded_run_invariant (P := fun t : Trace => t.mem.WellFormed t.proposed ∧ t.mem.Current)
      ?_ hKeeps hRun ⟨new_wellFormed cfg id gm, new_current cfg id gm⟩
    rintro s call s' ⟨hWell, hCurrent⟩ hCall hStep
    exact ⟨step_wellFormed hWell hStep, step_current hWell hCurrent hCall hStep⟩
  refine ⟨hEnd.2.queued, fun mem payload hPayload mb hMem => ?_⟩
  have hStored := (hEnd.2.generatePayload hPayload).2 mb hMem
  refine ⟨hStored, fun hContent => ?_⟩
  unfold hasContent at hContent
  rw [hStored] at hContent
  simpa using hContent

/-- The content arrives after the placeholder has been proposed. -/
theorem queue_holds_stored_proposed :
    ∃ t, run (step Scenario.pool Scenario.sortByGroup) (new Scenario.pool "1" Scenario.groups)
        [.addStable 0 { microblockID := 1 }, .generatePayload,
          .addMicroblock (Scenario.microblock 1 "2"), .addStable 0 { microblockID := 2 }] = .ok t ∧
      t.mem.stableMicroblocks.map MicroBlock.hash = [2] ∧
      ∀ mb ∈ t.mem.stableMicroblocks, t.mem.microblockMap.lookup mb.hash = some mb := by
  obtain ⟨t, hRun, hQueue⟩ := Outcome.of_test
    (P := fun t : Trace => t.mem.stableMicroblocks.map MicroBlock.hash = [2])
    (x := run (step Scenario.pool Scenario.sortByGroup) (new Scenario.pool "1" Scenario.groups)
      [.addStable 0 { microblockID := 1 }, .generatePayload,
        .addMicroblock (Scenario.microblock 1 "2"), .addStable 0 { microblockID := 2 }]) (by decide)
  exact ⟨t, hRun, hQueue, (queue_holds_stored hRun (by decide)).1⟩

/-- The `Stable` message comes before the microblock. The content is stored, and the
payload carries the placeholder. -/
theorem placeholder_proposed :
    ∃ t mem payload, run (step Scenario.pool Scenario.sortByGroup)
        (new Scenario.pool "1" Scenario.groups)
        [.addStable 0 { microblockID := 1 }, .addMicroblock (Scenario.microblock 1 "2")] = .ok t ∧
      (∃ mb ∈ t.mem.stableMicroblocks, t.mem.microblockMap.lookup mb.hash ≠ some mb) ∧
      t.mem.generatePayload Scenario.pool Scenario.sortByGroup = .ok (mem, payload) ∧
      ∃ mb ∈ payload.microblockList, t.mem.hasContent mb.hash = true ∧ mb.isFake = true := by
  obtain ⟨t, hRun, hStale, hPayload⟩ := Outcome.of_test
    (P := fun t : Trace =>
      (∃ mb ∈ t.mem.stableMicroblocks, t.mem.microblockMap.lookup mb.hash ≠ some mb) ∧
      Outcome.test (t.mem.generatePayload Scenario.pool Scenario.sortByGroup) (fun result =>
        ∃ mb ∈ result.2.microblockList, t.mem.hasContent mb.hash = true ∧ mb.isFake = true) = true)
    (x := run (step Scenario.pool Scenario.sortByGroup) (new Scenario.pool "1" Scenario.groups)
      [.addStable 0 { microblockID := 1 }, .addMicroblock (Scenario.microblock 1 "2")]) (by decide)
  obtain ⟨⟨mem, payload⟩, hGenerate, hFake⟩ := Outcome.of_test hPayload
  exact ⟨t, mem, payload, hRun, hStale, hGenerate, hFake⟩

end Trace
end AckMem
end Bamboo
