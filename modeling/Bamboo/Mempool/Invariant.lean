import Bamboo.Mempool.Calls

/-! The joint invariant of the mempool's maps, queue and counter. It is kept by
each small update under the conditions in which the calls make it, then by each
call, then along every run. -/
namespace Bamboo
namespace AckMem

open Library

/-- How the parts of the mempool fit together; `past` are identifiers that have
left the queue in payloads. -/
structure WellFormed (past : List Identifier) (am : AckMem) : Prop where
  stored_hash : ∀ h mb, am.microblockMap.lookup h = some mb → mb.hash = h
  pending_known : ∀ h ∈ am.pendingMicroblocks, h ∈ am.microblockMap
  pending_hash : ∀ h pm, am.pendingMicroblocks.lookup h = some pm → pm.microblock.hash = h
  stable_known : ∀ h ∈ am.stableMBs, h ∈ am.microblockMap
  pending_unstable : ∀ h ∈ am.pendingMicroblocks, h ∉ am.stableMBs
  queue_nodup : (past ++ am.stableMicroblocks.map MicroBlock.hash).Nodup
  queue_stable : ∀ h ∈ past ++ am.stableMicroblocks.map MicroBlock.hash, h ∈ am.stableMBs
  total : am.totalStableMbs = am.stableMBs.card

theorem new_wellFormed (cfg : Settings) (id : NodeID) (gm : GroupManager) :
    (new cfg id gm).WellFormed [] where
  stored_hash h mb hLookup := by simp [new] at hLookup
  pending_known h hMem := absurd hMem Finmap.notMem_empty
  pending_hash h pm hLookup := by simp [new] at hLookup
  stable_known h hMem := by simp [new] at hMem
  pending_unstable h hMem := absurd hMem Finmap.notMem_empty
  queue_nodup := by simp [new]
  queue_stable h hMem := by simp [new] at hMem
  total := rfl

namespace WellFormed

variable {past : List Identifier} {am : AckMem}

theorem store (hWell : am.WellFormed past) (mb : MicroBlock) :
    (am.store mb).WellFormed past where
  stored_hash h old hLookup := by
    rcases Table.of_lookup_insert hLookup with ⟨hSame, rfl⟩ | hOld
    · exact hSame.symm
    · exact hWell.stored_hash h old hOld
  pending_known h hMem := Finmap.mem_insert.mpr (Or.inr (hWell.pending_known h hMem))
  pending_hash := hWell.pending_hash
  stable_known h hMem := Finmap.mem_insert.mpr (Or.inr (hWell.stable_known h hMem))
  pending_unstable := hWell.pending_unstable
  queue_nodup := hWell.queue_nodup
  queue_stable := hWell.queue_stable
  total := hWell.total

theorem setPending (hWell : am.WellFormed past) {h : Identifier} {pm : PendingMicroblock}
    (hKnown : h ∈ am.microblockMap) (hHash : pm.microblock.hash = h) (hUnstable : h ∉ am.stableMBs) :
    (am.setPending h pm).WellFormed past where
  stored_hash := hWell.stored_hash
  pending_known h' hMem := by
    rcases Finmap.mem_insert.mp hMem with rfl | hOld
    · exact hKnown
    · exact hWell.pending_known h' hOld
  pending_hash h' pm' hLookup := by
    rcases Table.of_lookup_insert hLookup with ⟨hSame, rfl⟩ | hOld
    · exact hHash.trans hSame.symm
    · exact hWell.pending_hash h' pm' hOld
  stable_known := hWell.stable_known
  pending_unstable h' hMem := by
    rcases Finmap.mem_insert.mp hMem with rfl | hOld
    · exact hUnstable
    · exact hWell.pending_unstable h' hOld
  queue_nodup := hWell.queue_nodup
  queue_stable := hWell.queue_stable
  total := hWell.total

theorem dropPending (hWell : am.WellFormed past) (h : Identifier) :
    (am.dropPending h).WellFormed past where
  stored_hash := hWell.stored_hash
  pending_known h' hMem := hWell.pending_known h' (Finmap.mem_erase.mp hMem).2
  pending_hash h' pm hLookup := hWell.pending_hash h' pm (Table.of_lookup_erase hLookup)
  stable_known := hWell.stable_known
  pending_unstable h' hMem := hWell.pending_unstable h' (Finmap.mem_erase.mp hMem).2
  queue_nodup := hWell.queue_nodup
  queue_stable := hWell.queue_stable
  total := hWell.total

/-- Queueing a known microblock that is neither pending nor stable. -/
theorem markStable (hWell : am.WellFormed past) {mb : MicroBlock}
    (hKnown : mb.hash ∈ am.microblockMap) (hPending : mb.hash ∉ am.pendingMicroblocks)
    (hUnstable : mb.hash ∉ am.stableMBs) : (am.markStable mb).WellFormed past where
  stored_hash := hWell.stored_hash
  pending_known := hWell.pending_known
  pending_hash := hWell.pending_hash
  stable_known h hMem := by
    rcases Finset.mem_insert.mp hMem with rfl | hOld
    · exact hKnown
    · exact hWell.stable_known h hOld
  pending_unstable h hMem hStable := by
    rcases Finset.mem_insert.mp hStable with rfl | hOld
    · exact hPending hMem
    · exact hWell.pending_unstable h hMem hOld
  queue_nodup := by
    have hNew : mb.hash ∉ past ++ am.stableMicroblocks.map MicroBlock.hash :=
      fun hMem => hUnstable (hWell.queue_stable _ hMem)
    simp only [AckMem.markStable, List.map_append, List.map_cons, List.map_nil,
      ← List.append_assoc]
    exact List.Nodup.append hWell.queue_nodup (List.nodup_singleton _)
      (List.disjoint_singleton.mpr hNew)
  queue_stable h hMem := by
    simp only [AckMem.markStable, List.map_append, List.map_cons, List.map_nil,
      ← List.append_assoc] at hMem
    rcases List.mem_append.mp hMem with hOld | hNew
    · exact Finset.mem_insert_of_mem (hWell.queue_stable h hOld)
    · exact Finset.mem_insert.mpr (Or.inl (List.mem_singleton.mp hNew))
  total := by
    simp only [AckMem.markStable, Finset.card_insert_of_notMem hUnstable, hWell.total]
    simp

/-- Buffers and messages are not constrained. -/
theorem of_eq (hWell : am.WellFormed past) {am' : AckMem}
    (hMap : am'.microblockMap = am.microblockMap)
    (hPending : am'.pendingMicroblocks = am.pendingMicroblocks)
    (hStable : am'.stableMBs = am.stableMBs)
    (hQueue : am'.stableMicroblocks = am.stableMicroblocks)
    (hTotal : am'.totalStableMbs = am.totalStableMbs) : am'.WellFormed past where
  stored_hash := hMap ▸ hWell.stored_hash
  pending_known := hMap ▸ hPending ▸ hWell.pending_known
  pending_hash := hPending ▸ hWell.pending_hash
  stable_known := hMap ▸ hStable ▸ hWell.stable_known
  pending_unstable := hPending ▸ hStable ▸ hWell.pending_unstable
  queue_nodup := hQueue ▸ hWell.queue_nodup
  queue_stable := hQueue ▸ hStable ▸ hWell.queue_stable
  total := by rw [hTotal, hStable, hWell.total]

/-- The queue may lose entries and change its order, and entries may move to the
past. -/
theorem requeue (hWell : am.WellFormed past) {past' : List Identifier} {queue : List MicroBlock}
    (hQueue : (past' ++ queue.map MicroBlock.hash).Subperm
      (past ++ am.stableMicroblocks.map MicroBlock.hash)) :
    WellFormed past' { am with stableMicroblocks := queue } where
  stored_hash := hWell.stored_hash
  pending_known := hWell.pending_known
  pending_hash := hWell.pending_hash
  stable_known := hWell.stable_known
  pending_unstable := hWell.pending_unstable
  queue_nodup := by
    obtain ⟨kept, hPerm, hSublist⟩ := hQueue
    exact hPerm.nodup_iff.mp (hWell.queue_nodup.sublist hSublist)
  queue_stable h hMem := hWell.queue_stable h (hQueue.subset hMem)
  total := hWell.total

/-- A microblock that was not known, whatever was buffered for it. -/
theorem addFresh (hWell : am.WellFormed past) {mb : MicroBlock}
    (hNew : am.microblockMap.lookup mb.hash = none) {pm : PendingMicroblock}
    (hPm : pm.microblock = mb) : (am.addFresh mb pm).WellFormed past := by
  have hUnknown : mb.hash ∉ am.microblockMap := Finmap.lookup_eq_none.mp hNew
  have hUnstable : mb.hash ∉ am.stableMBs := fun h => hUnknown (hWell.stable_known _ h)
  have hKnown : mb.hash ∈ (am.store mb).microblockMap := Finmap.mem_insert.mpr (Or.inl rfl)
  rcases addFresh_cases am mb pm with hEq | ⟨_, ⟨_, hEq⟩ | ⟨_, hEq⟩⟩
  · rw [hEq]
    refine (hWell.store mb).setPending hKnown ?_ hUnstable
    rw [withBuffered, microblock_foldl_count, hPm]
  · rw [hEq]
    exact hWell.store mb
  · rw [hEq]
    exact ((hWell.store mb).dropPending mb.hash).markStable hKnown
      (fun hMem => (Finmap.mem_erase.mp hMem).1 rfl) hUnstable

theorem addMicroblock (hWell : am.WellFormed past) {am' : AckMem} {mb : MicroBlock}
    (h : am.addMicroblock mb = .ok am') : am'.WellFormed past := by
  rcases addMicroblock_cases h with ⟨_, _, _, rfl⟩ | ⟨_, _, _, rfl⟩ | ⟨hNew, inGroup, rfl⟩
  · exact hWell
  · exact hWell.store mb
  · exact hWell.addFresh hNew rfl

theorem addAck (hWell : am.WellFormed past) (cfg : Settings) (ack : Ack) :
    (am.addAck cfg ack).WellFormed past := by
  rcases addAck_cases cfg am ack with ⟨target, hTarget, hEq | ⟨_, hUnstable, hEq⟩⟩ |
    ⟨_, hEq | hEq⟩
  · have hMem := Table.mem_of_lookup hTarget
    rw [hEq]
    refine hWell.setPending (hWell.pending_known _ hMem) ?_ (hWell.pending_unstable _ hMem)
    rw [microblock_addAck]
    exact hWell.pending_hash _ _ hTarget
  · have hMem := Table.mem_of_lookup hTarget
    have hHash : (target.addAck cfg ack).microblock.hash = ack.microblockID := by
      rw [microblock_addAck]
      exact hWell.pending_hash _ _ hTarget
    have hKnown : (target.addAck cfg ack).microblock.hash ∈ am.microblockMap := by
      rw [hHash]
      exact hWell.pending_known _ hMem
    have hSet := hWell.setPending (hWell.pending_known _ hMem) hHash
      (hWell.pending_unstable _ hMem)
    have hMarked := (hSet.dropPending ack.microblockID).markStable hKnown
      (fun h => (Finmap.mem_erase.mp h).1 hHash) hUnstable
    rw [hEq]
    exact hMarked.of_eq rfl rfl rfl rfl rfl
  · rw [hEq]
    exact hWell
  · rw [hEq]
    exact hWell.of_eq rfl rfl rfl rfl rfl

theorem known_of_lookup (hWell : am.WellFormed past) {h : Identifier} (pm : PendingMicroblock)
    (hLookup : am.pendingMicroblocks.lookup h = some pm) : h ∈ am.microblockMap :=
  hWell.pending_known h (Table.mem_of_lookup hLookup)

theorem addStable (hWell : am.WellFormed past) {am' : AckMem} {now : Int} {stable : Stable}
    (h : am.addStable now stable = .ok am') : am'.WellFormed past := by
  have hNoted : (am.note stable).WellFormed past := hWell.of_eq rfl rfl rfl rfl rfl
  rcases addStable_cases hWell.known_of_lookup h with ⟨_, rfl⟩ |
    ⟨hUnstable, ⟨target, hTarget, rfl⟩ | ⟨_, _, rfl⟩ | ⟨hPending, hUnknown, txns, _, rfl⟩⟩
  · exact hWell
  · have hHash : target.microblock.hash = stable.microblockID := hWell.pending_hash _ _ hTarget
    have hKnown : target.microblock.hash ∈ am.microblockMap := by
      rw [hHash]
      exact hWell.known_of_lookup target hTarget
    exact (hNoted.dropPending stable.microblockID).markStable hKnown
      (fun hMem => (Finmap.mem_erase.mp hMem).1 hHash) (hHash ▸ hUnstable)
  · exact hNoted
  · exact (hNoted.store _).markStable (Finmap.mem_insert.mpr (Or.inl rfl))
      (Finmap.lookup_eq_none.mp hPending) hUnstable

theorem generatePayload (hWell : am.WellFormed past) {cfg : Settings} {sort : GroupSort}
    {am' : AckMem} {payload : Payload} (h : am.generatePayload cfg sort = .ok (am', payload)) :
    am'.WellFormed (past ++ payload.generateHashList) := by
  obtain ⟨_, queue, hPerm, rfl, hPayload⟩ := generatePayload_spec h
  refine hWell.requeue (List.Perm.subperm ?_)
  rw [Payload.generateHashList, hPayload, List.append_assoc, ← List.map_append,
    List.take_append_drop]
  exact (hPerm.map _).append_left past

theorem forgetAll (hWell : am.WellFormed past) (hs : List Identifier) :
    (am.forgetAll hs).WellFormed past := by
  obtain ⟨pending, queue, hEq, hPending, hQueue⟩ := forgetAll_spec am hs
  have hOld : ∀ h ∈ pending, h ∈ am.pendingMicroblocks := by
    intro h hMem
    obtain ⟨pm, hLookup⟩ := Option.isSome_iff_exists.mp (Finmap.lookup_isSome.mpr hMem)
    exact Table.mem_of_lookup (hPending h pm hLookup).1
  have hRequeued : WellFormed past { am with stableMicroblocks := queue } :=
    hWell.requeue ((List.Sublist.refl past).append (hQueue.map _)).subperm
  rw [hEq]
  exact {
    stored_hash := hRequeued.stored_hash
    pending_known := fun h hMem => hWell.pending_known h (hOld h hMem)
    pending_hash := fun h pm hLookup => hWell.pending_hash h pm (hPending h pm hLookup).1
    stable_known := hRequeued.stable_known
    pending_unstable := fun h hMem => hWell.pending_unstable h (hOld h hMem)
    queue_nodup := hRequeued.queue_nodup
    queue_stable := hRequeued.queue_stable
    total := hRequeued.total }

end WellFormed

namespace Trace

/-- The identifiers in the payloads returned so far. -/
def proposed (t : Trace) : List Identifier :=
  t.payloads.flatMap Payload.generateHashList

/-- Every call keeps the invariant. -/
theorem step_wellFormed {cfg : Settings} {sort : GroupSort} {t t' : Trace} {call : Call}
    (hWell : t.mem.WellFormed t.proposed) (h : t.step cfg sort call = .ok t') :
    t'.mem.WellFormed t'.proposed := by
  cases call with
  | addMicroblock mb =>
      obtain ⟨mem, hMem, hDone⟩ := Outcome.bind_eq_ok.mp h
      cases Outcome.pure_eq_ok.mp hDone
      exact hWell.addMicroblock hMem
  | addAck ack =>
      cases Outcome.pure_eq_ok.mp h
      exact hWell.addAck cfg ack
  | addStable now stable =>
      obtain ⟨mem, hMem, hDone⟩ := Outcome.bind_eq_ok.mp h
      cases Outcome.pure_eq_ok.mp hDone
      exact hWell.addStable hMem
  | handleMissingStableMb mb =>
      cases Outcome.pure_eq_ok.mp h
      exact hWell.store mb
  | generatePayload =>
      obtain ⟨⟨mem, payload⟩, hMem, hDone⟩ := Outcome.bind_eq_ok.mp h
      cases Outcome.pure_eq_ok.mp hDone
      simpa [proposed] using hWell.generatePayload hMem
  | fetchMB now p =>
      obtain ⟨⟨mem, block⟩, hMem, hDone⟩ := Outcome.bind_eq_ok.mp h
      cases Outcome.pure_eq_ok.mp hDone
      rw [(fetchMB_spec hMem).1]
      exact hWell.forgetAll p.hashList
  | fillProposal p =>
      cases Outcome.pure_eq_ok.mp h
      exact fillAll_spec t.mem p.hashList ▸ hWell.forgetAll p.hashList
  | fillProposalFromGroup p =>
      cases Outcome.pure_eq_ok.mp h
      exact fillAll_spec t.mem p.hashList ▸ hWell.forgetAll p.hashList
  | fillProposalByGroup p =>
      cases Outcome.pure_eq_ok.mp h
      exact fillAll_spec t.mem p.hashList ▸ hWell.forgetAll p.hashList

theorem run_wellFormed {cfg : Settings} {sort : GroupSort} {id : NodeID} {gm : GroupManager}
    {calls : List Call} {t : Trace} (hRun : run (step cfg sort) (new cfg id gm) calls = .ok t) :
    t.mem.WellFormed t.proposed :=
  run_invariant (P := fun t => t.mem.WellFormed t.proposed)
    (fun _ _ _ hWell hStep => step_wellFormed hWell hStep) hRun (new_wellFormed cfg id gm)

/-- The representation invariant of the mempool, in every state a run of calls
reaches, and that no identifier is in two payloads or twice in one. -/
theorem representation_invariant {cfg : Settings} {sort : GroupSort} {id : NodeID}
    {gm : GroupManager} {calls : List Call} {t : Trace}
    (hRun : run (step cfg sort) (new cfg id gm) calls = .ok t) :
    (∀ h ∈ t.mem.pendingMicroblocks, h ∈ t.mem.microblockMap) ∧
      (∀ h ∈ t.mem.stableMBs, h ∈ t.mem.microblockMap) ∧
      (∀ h ∈ t.mem.pendingMicroblocks, h ∉ t.mem.stableMBs) ∧
      (t.mem.stableMicroblocks.map MicroBlock.hash).Nodup ∧
      (∀ mb ∈ t.mem.stableMicroblocks, mb.hash ∈ t.mem.stableMBs) ∧
      t.mem.totalStableMbs = t.mem.stableMBs.card ∧
      (t.payloads.flatMap Payload.generateHashList).Nodup := by
  have hWell := run_wellFormed hRun
  have hQueue := List.nodup_append.mp hWell.queue_nodup
  refine ⟨hWell.pending_known, hWell.stable_known, hWell.pending_unstable, hQueue.2.1, ?_,
    hWell.total, hQueue.1⟩
  intro mb hMem
  exact hWell.queue_stable _ (List.mem_append_right _ (List.mem_map_of_mem hMem))

/-- One microblock becomes stable by acks and is proposed, a second one only by
its announcement; a third is pending. -/
theorem representation_invariant_proposing :
    ∃ t, run (step Scenario.pool Scenario.sortByGroup) (new Scenario.pool "1" Scenario.groups)
        [.addMicroblock (Scenario.microblock 1 "1"), .addAck (Scenario.ack 1 "2"),
          .addAck (Scenario.ack 1 "3"), .generatePayload, .addStable 0 { microblockID := 2 },
          .addMicroblock (Scenario.microblock 3 "2")] = .ok t ∧
      t.proposed = [1] ∧
      (∀ h ∈ t.mem.pendingMicroblocks, h ∈ t.mem.microblockMap) ∧
      (∀ h ∈ t.mem.stableMBs, h ∈ t.mem.microblockMap) ∧
      (∀ h ∈ t.mem.pendingMicroblocks, h ∉ t.mem.stableMBs) ∧
      (t.mem.stableMicroblocks.map MicroBlock.hash).Nodup ∧
      (∀ mb ∈ t.mem.stableMicroblocks, mb.hash ∈ t.mem.stableMBs) ∧
      t.mem.totalStableMbs = t.mem.stableMBs.card ∧
      (t.payloads.flatMap Payload.generateHashList).Nodup := by
  obtain ⟨t, hRun, hProposed⟩ := Outcome.of_test (P := fun t : Trace => t.proposed = [1])
    (x := run (step Scenario.pool Scenario.sortByGroup) (new Scenario.pool "1" Scenario.groups)
      [.addMicroblock (Scenario.microblock 1 "1"), .addAck (Scenario.ack 1 "2"),
        .addAck (Scenario.ack 1 "3"), .generatePayload, .addStable 0 { microblockID := 2 },
        .addMicroblock (Scenario.microblock 3 "2")]) (by decide)
  exact ⟨t, hRun, hProposed, representation_invariant hRun⟩

end Trace
end AckMem
end Bamboo
