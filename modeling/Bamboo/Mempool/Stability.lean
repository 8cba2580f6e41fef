import Bamboo.Mempool.Invariant

/-! What a stable microblock says about its holders. The decision is made on a
counter beside the set of ackers; the counter is bounded by the set as long as
no node is counted twice, and then enough different nodes have acked. -/
namespace Bamboo

open Library

namespace PendingMicroblock

/-- The counter is covered by different nodes out of the sender and `nodes`. -/
structure Backed (nodes : Finset NodeID) (pm : PendingMicroblock) : Prop where
  counted : pm.ackNum ≤ pm.ackMap.card
  acked : pm.ackMap ⊆ insert pm.microblock.sender nodes

theorem new_backed (mb : MicroBlock) (inGroup : Bool) (nodes : Finset NodeID) :
    (new mb inGroup).Backed nodes where
  counted := by simp [new]
  acked := by simp [new]

theorem Backed.mono {nodes nodes' : Finset NodeID} {pm : PendingMicroblock}
    (h : pm.Backed nodes) (hNodes : nodes ⊆ nodes') : pm.Backed nodes' :=
  ⟨h.counted, h.acked.trans (Finset.insert_subset_insert _ hNodes)⟩

theorem Backed.count {nodes : Finset NodeID} {pm : PendingMicroblock} (h : pm.Backed nodes)
    {node : NodeID} (hNode : node ∈ nodes) (hNew : node ∉ pm.ackMap) :
    (pm.count node).Backed nodes where
  counted := by
    have hCounted := h.counted
    simp only [PendingMicroblock.count, Finset.card_insert_of_notMem hNew]
    push_cast
    omega
  acked := Finset.insert_subset (Finset.mem_insert_of_mem hNode) h.acked

/-- Counting a list of different nodes that were not counted before. -/
theorem Backed.foldl_count {nodes : Finset NodeID} (list : List NodeID) {pm : PendingMicroblock}
    (h : pm.Backed nodes) (hList : ∀ node ∈ list, node ∈ nodes) (hNodup : list.Nodup)
    (hNew : ∀ node ∈ list, node ∉ pm.ackMap) :
    (list.foldl PendingMicroblock.count pm).Backed nodes := by
  induction list generalizing pm with
  | nil => exact h
  | cons first rest ih =>
      obtain ⟨hFirst, hRest⟩ := List.nodup_cons.mp hNodup
      refine ih (h.count (hList first (by simp)) (hNew first (by simp)))
        (fun node hMem => hList node (by simp [hMem])) hRest ?_
      intro node hMem hCounted
      rcases Finset.mem_insert.mp hCounted with rfl | hOld
      · exact hFirst hMem
      · exact hNew node (by simp [hMem]) hOld

/-- An ack that is not counted, or is the first one of its node. -/
theorem Backed.addAck {nodes : Finset NodeID} {pm : PendingMicroblock} (h : pm.Backed nodes)
    (cfg : Settings) {ack : Ack} (hNode : ack.receiver ∈ nodes)
    (hNew : (cfg.broadcastByGroup && ack.outGroup) = true ∨ ack.receiver ∉ pm.ackMap) :
    (pm.addAck cfg ack).Backed nodes := by
  unfold PendingMicroblock.addAck
  by_cases hOut : (cfg.broadcastByGroup && ack.outGroup) = true
  · rw [if_pos hOut]
    refine ⟨?_, Finset.insert_subset (Finset.mem_insert_of_mem hNode) h.acked⟩
    have hCard := Finset.card_le_card (Finset.subset_insert ack.receiver pm.ackMap)
    have hCounted := h.counted
    simp only
    omega
  · rw [if_neg hOut]
    exact h.count hNode (hNew.resolve_left hOut)

/-- Enough is counted only when enough different nodes have acked. -/
theorem Backed.quorum {nodes : Finset NodeID} {pm : PendingMicroblock} (h : pm.Backed nodes)
    {threshhold : Int} (hReached : threshhold ≤ pm.ackNum) :
    threshhold ≤ (insert pm.microblock.sender nodes).card := by
  have hCard := Finset.card_le_card h.acked
  have hCounted := h.counted
  omega

end PendingMicroblock

namespace AckMem

/-- The node that a call acks the microblock `h` for. -/
def Call.ackFor (h : Identifier) : Call → Option NodeID
  | .addAck ack => if ack.microblockID = h then some ack.receiver else none
  | _ => none

/-- The receivers of all acks for `h` among the calls. -/
def ackers (calls : List Call) (h : Identifier) : Finset NodeID :=
  (calls.filterMap (Call.ackFor h)).toFinset

theorem ackers_snoc_subset (calls : List Call) (call : Call) (h : Identifier) :
    ackers calls h ⊆ ackers (calls ++ [call]) h := by
  intro node hMem
  simp only [ackers, List.mem_toFinset, List.filterMap_append, List.mem_append] at hMem ⊢
  exact Or.inl hMem

theorem receiver_mem_ackers (calls : List Call) (ack : Ack) :
    ack.receiver ∈ ackers (calls ++ [.addAck ack]) ack.microblockID := by
  simp [ackers, Call.ackFor]

/-- No node is counted twice: the sender of a new microblock is not among its
buffered acks, and an ack that is counted is the first one of its node. -/
def Call.CountsOnce (cfg : Settings) (mem : AckMem) : Call → Prop
  | .addMicroblock mb => mb.hash ∈ mem.microblockMap ∨
      mb.sender ∉ ((mem.ackBuffer.lookup mb.hash).getD ∅).keys
  | .addAck ack => ∀ target ∈ mem.pendingMicroblocks.lookup ack.microblockID,
      (cfg.broadcastByGroup && ack.outGroup) = true ∨ ack.receiver ∉ target.ackMap
  | _ => True

instance (cfg : Settings) (mem : AckMem) : (call : Call) → Decidable (call.CountsOnce cfg mem)
  | .addMicroblock mb => inferInstanceAs (Decidable (mb.hash ∈ mem.microblockMap ∨
      mb.sender ∉ ((mem.ackBuffer.lookup mb.hash).getD ∅).keys))
  | .addAck ack => inferInstanceAs (Decidable
      (∀ target ∈ mem.pendingMicroblocks.lookup ack.microblockID,
        (cfg.broadcastByGroup && ack.outGroup) = true ∨ ack.receiver ∉ target.ackMap))
  | .addStable _ _ | .handleMissingStableMb _ | .generatePayload | .fetchMB _ _
  | .fillProposal _ | .fillProposalFromGroup _ | .fillProposalByGroup _ => .isTrue trivial

/-- All counters are backed by the acks that were processed. -/
structure Counted (calls : List Call) (am : AckMem) : Prop where
  pending : ∀ h pm, am.pendingMicroblocks.lookup h = some pm → pm.Backed (ackers calls h)
  buffered : ∀ h, ∀ node ∈ ((am.ackBuffer.lookup h).getD ∅).keys, node ∈ ackers calls h

theorem lookup_of_dropPending {am : AckMem} {h h' : Identifier} {pm : PendingMicroblock}
    (hLookup : (am.dropPending h).pendingMicroblocks.lookup h' = some pm) :
    am.pendingMicroblocks.lookup h' = some pm :=
  Table.of_lookup_erase hLookup

namespace Counted

variable {calls : List Call} {am : AckMem}

theorem later (hCounted : am.Counted calls) (call : Call) : am.Counted (calls ++ [call]) where
  pending h pm hLookup := (hCounted.pending h pm hLookup).mono (ackers_snoc_subset calls call h)
  buffered h node hMem := ackers_snoc_subset calls call h (hCounted.buffered h node hMem)

theorem setPending (hCounted : am.Counted calls) {h : Identifier} {pm : PendingMicroblock}
    (hBacked : pm.Backed (ackers calls h)) : (am.setPending h pm).Counted calls where
  pending h' pm' hLookup := by
    rcases Table.of_lookup_insert hLookup with ⟨rfl, rfl⟩ | hOld
    · exact hBacked
    · exact hCounted.pending h' pm' hOld
  buffered := hCounted.buffered

/-- Less may be pending. -/
theorem shrink (hCounted : am.Counted calls) {am' : AckMem}
    (hPending : ∀ h pm, am'.pendingMicroblocks.lookup h = some pm →
      am.pendingMicroblocks.lookup h = some pm)
    (hBuffer : am'.ackBuffer = am.ackBuffer) : am'.Counted calls where
  pending h pm hLookup := hCounted.pending h pm (hPending h pm hLookup)
  buffered := hBuffer ▸ hCounted.buffered

theorem bufferAck (hCounted : am.Counted calls) {ack : Ack}
    (hAck : ack.receiver ∈ ackers calls ack.microblockID) : (am.bufferAck ack).Counted calls where
  pending := hCounted.pending
  buffered h node hMem := by
    simp only [AckMem.bufferAck, Table.lookup_insert_ite] at hMem
    by_cases hSame : h = ack.microblockID
    · subst hSame
      rw [if_pos rfl, Option.getD_some, ← AList.mem_keys, AList.mem_insert] at hMem
      rcases hMem with rfl | hOld
      · exact hAck
      · exact hCounted.buffered _ node (AList.mem_keys.mp hOld)
    · rw [if_neg hSame] at hMem
      exact hCounted.buffered h node hMem

/-- A new microblock with its buffered acks. -/
theorem withBuffered (hCounted : am.Counted calls) {mb : MicroBlock} (inGroup : Bool)
    (hSender : mb.sender ∉ ((am.ackBuffer.lookup mb.hash).getD ∅).keys) :
    (am.withBuffered mb.hash (.new mb inGroup)).Backed (ackers calls mb.hash) := by
  refine (PendingMicroblock.new_backed mb inGroup _).foldl_count _
    (hCounted.buffered mb.hash) (AList.keys_nodup _) ?_
  intro node hMem hNew
  rw [Finset.mem_singleton.mp hNew] at hMem
  exact hSender hMem

/-- The sender of a microblock that is not known is not among its buffered acks. -/
theorem sender_unbuffered {cfg : Settings} {mb : MicroBlock}
    (hOnce : (Call.addMicroblock mb).CountsOnce cfg am)
    (hNew : am.microblockMap.lookup mb.hash = none) :
    mb.sender ∉ ((am.ackBuffer.lookup mb.hash).getD ∅).keys :=
  hOnce.resolve_left (Finmap.lookup_eq_none.mp hNew)

theorem addMicroblock (hCounted : am.Counted calls) {cfg : Settings} {am' : AckMem}
    {mb : MicroBlock} (hOnce : (Call.addMicroblock mb).CountsOnce cfg am)
    (h : am.addMicroblock mb = .ok am') : am'.Counted calls := by
  have hStored : (am.store mb).Counted calls := hCounted.shrink (fun _ _ h => h) rfl
  rcases addMicroblock_cases h with ⟨_, _, _, rfl⟩ | ⟨_, _, _, rfl⟩ | ⟨hNew, inGroup, rfl⟩
  · exact hCounted
  · exact hStored
  · rcases addFresh_cases am mb (.new mb inGroup) with hEq | ⟨_, ⟨_, hEq⟩ | ⟨_, hEq⟩⟩
    · rw [hEq]
      exact hStored.setPending (hCounted.withBuffered inGroup (sender_unbuffered hOnce hNew))
    · rw [hEq]
      exact hStored
    · rw [hEq]
      exact hStored.shrink (fun h pm => lookup_of_dropPending) rfl

/-- The updated entry of a pending microblock, after an ack that counts once. -/
theorem target_backed (hCounted : am.Counted calls) {cfg : Settings} {ack : Ack}
    {target : PendingMicroblock} (hOnce : (Call.addAck ack).CountsOnce cfg am)
    (hTarget : am.pendingMicroblocks.lookup ack.microblockID = some target) :
    (target.addAck cfg ack).Backed (ackers (calls ++ [.addAck ack]) ack.microblockID) :=
  ((hCounted.later (.addAck ack)).pending _ _ hTarget).addAck cfg (receiver_mem_ackers calls ack)
    (hOnce target hTarget)

theorem addAck (hCounted : am.Counted calls) {cfg : Settings} {ack : Ack}
    (hOnce : (Call.addAck ack).CountsOnce cfg am) :
    (am.addAck cfg ack).Counted (calls ++ [.addAck ack]) := by
  have hLater := hCounted.later (.addAck ack)
  rcases addAck_cases cfg am ack with ⟨target, hTarget, hEq | ⟨_, _, hEq⟩⟩ | ⟨_, hEq | hEq⟩
  · rw [hEq]
    exact hLater.setPending (hCounted.target_backed hOnce hTarget)
  · rw [hEq]
    exact (hLater.setPending (hCounted.target_backed hOnce hTarget)).shrink
      (fun h pm => lookup_of_dropPending) rfl
  · rw [hEq]
    exact hLater
  · rw [hEq]
    exact hLater.bufferAck (receiver_mem_ackers calls ack)

/-- A microblock that becomes stable when it arrives. -/
theorem addMicroblock_quorum (hCounted : am.Counted calls) {cfg : Settings} {am' : AckMem}
    {mb : MicroBlock} {h : Identifier} (hOnce : (Call.addMicroblock mb).CountsOnce cfg am)
    (hAdd : am.addMicroblock mb = .ok am') (hBefore : h ∉ am.stableMBs)
    (hAfter : h ∈ am'.stableMBs) :
    mb ∈ am'.stableMicroblocks ∧ mb.hash = h ∧
      am'.threshhold ≤ (insert mb.sender (ackers calls h)).card := by
  rcases addMicroblock_cases hAdd with ⟨_, _, _, rfl⟩ | ⟨_, _, _, rfl⟩ | ⟨hNew, inGroup, rfl⟩
  · exact absurd hAfter hBefore
  · exact absurd hAfter hBefore
  · rcases addFresh_cases am mb (.new mb inGroup) with hEq | ⟨hReached, ⟨_, hEq⟩ | ⟨_, hEq⟩⟩
    · rw [hEq] at hAfter
      exact absurd hAfter hBefore
    · rw [hEq] at hAfter
      exact absurd hAfter hBefore
    · rw [hEq] at hAfter ⊢
      obtain rfl := (Finset.mem_insert.mp hAfter).resolve_right hBefore
      refine ⟨List.mem_append_right _ (List.mem_singleton_self mb), rfl, ?_⟩
      have hBacked := hCounted.withBuffered inGroup (sender_unbuffered hOnce hNew)
      have hQuorum := hBacked.quorum hReached
      rw [AckMem.withBuffered, microblock_foldl_count] at hQuorum
      exact hQuorum

/-- A microblock that an ack makes stable. -/
theorem addAck_quorum (hCounted : am.Counted calls) {past : List Identifier}
    (hWell : am.WellFormed past) {cfg : Settings} {ack : Ack} {h : Identifier}
    (hOnce : (Call.addAck ack).CountsOnce cfg am) (hBefore : h ∉ am.stableMBs)
    (hAfter : h ∈ (am.addAck cfg ack).stableMBs) :
    ∃ mb ∈ (am.addAck cfg ack).stableMicroblocks, mb.hash = h ∧
      (am.addAck cfg ack).threshhold ≤
        (insert mb.sender (ackers (calls ++ [.addAck ack]) h)).card := by
  rcases addAck_cases cfg am ack with ⟨target, hTarget, hEq | ⟨hReached, _, hEq⟩⟩ | ⟨_, hEq | hEq⟩
  · rw [hEq] at hAfter
    exact absurd hAfter hBefore
  · have hHash : (target.addAck cfg ack).microblock.hash = ack.microblockID := by
      rw [microblock_addAck]
      exact hWell.pending_hash _ _ hTarget
    rw [hEq] at hAfter ⊢
    obtain rfl := (Finset.mem_insert.mp hAfter).resolve_right hBefore
    refine ⟨_, List.mem_append_right _ (List.mem_singleton_self _), rfl, ?_⟩
    rw [hHash]
    exact (hCounted.target_backed hOnce hTarget).quorum hReached
  · rw [hEq] at hAfter
    exact absurd hAfter hBefore
  · rw [hEq] at hAfter
    exact absurd hAfter hBefore

theorem addStable (hCounted : am.Counted calls) {past : List Identifier}
    (hWell : am.WellFormed past) {am' : AckMem} {now : Int} {stable : Stable}
    (h : am.addStable now stable = .ok am') : am'.Counted calls := by
  rcases addStable_cases hWell.known_of_lookup h with ⟨_, rfl⟩ |
    ⟨_, ⟨_, _, rfl⟩ | ⟨_, _, rfl⟩ | ⟨_, _, _, _, rfl⟩⟩
  · exact hCounted
  · exact hCounted.shrink (fun h pm => lookup_of_dropPending) rfl
  · exact hCounted.shrink (fun _ _ h => h) rfl
  · exact hCounted.shrink (fun _ _ h => h) rfl

theorem forgetAll (hCounted : am.Counted calls) (hs : List Identifier) :
    (am.forgetAll hs).Counted calls := by
  obtain ⟨pending, queue, hEq, hPending, _⟩ := forgetAll_spec am hs
  rw [hEq]
  exact hCounted.shrink (fun h pm hLookup => (hPending h pm hLookup).1) rfl

end Counted

namespace Trace

/-- Every call that counts each node once keeps the counters backed. -/
theorem step_counted {cfg : Settings} {sort : GroupSort} {calls : List Call} {t t' : Trace}
    {call : Call} (hWell : t.mem.WellFormed t.proposed) (hCounted : t.mem.Counted calls)
    (hOnce : call.CountsOnce cfg t.mem) (h : t.step cfg sort call = .ok t') :
    t'.mem.Counted (calls ++ [call]) := by
  cases call with
  | addMicroblock mb =>
      obtain ⟨mem, hMem, hDone⟩ := Outcome.bind_eq_ok.mp h
      cases Outcome.pure_eq_ok.mp hDone
      exact (hCounted.addMicroblock hOnce hMem).later _
  | addAck ack =>
      cases Outcome.pure_eq_ok.mp h
      exact hCounted.addAck hOnce
  | addStable now stable =>
      obtain ⟨mem, hMem, hDone⟩ := Outcome.bind_eq_ok.mp h
      cases Outcome.pure_eq_ok.mp hDone
      exact (hCounted.addStable hWell hMem).later _
  | handleMissingStableMb mb =>
      cases Outcome.pure_eq_ok.mp h
      exact (hCounted.later _).shrink (fun _ _ h => h) rfl
  | generatePayload =>
      obtain ⟨⟨mem, payload⟩, hMem, hDone⟩ := Outcome.bind_eq_ok.mp h
      cases Outcome.pure_eq_ok.mp hDone
      obtain ⟨_, queue, _, rfl, _⟩ := generatePayload_spec hMem
      exact (hCounted.later _).shrink (fun _ _ h => h) rfl
  | fetchMB now p =>
      obtain ⟨⟨mem, block⟩, hMem, hDone⟩ := Outcome.bind_eq_ok.mp h
      cases Outcome.pure_eq_ok.mp hDone
      rw [(fetchMB_spec hMem).1]
      exact (hCounted.later _).forgetAll p.hashList
  | fillProposal p =>
      cases Outcome.pure_eq_ok.mp h
      exact fillAll_spec t.mem p.hashList ▸ (hCounted.later _).forgetAll p.hashList
  | fillProposalFromGroup p =>
      cases Outcome.pure_eq_ok.mp h
      exact fillAll_spec t.mem p.hashList ▸ (hCounted.later _).forgetAll p.hashList
  | fillProposalByGroup p =>
      cases Outcome.pure_eq_ok.mp h
      exact fillAll_spec t.mem p.hashList ▸ (hCounted.later _).forgetAll p.hashList

theorem run_counted {cfg : Settings} {sort : GroupSort} {id : NodeID} {gm : GroupManager}
    {calls : List Call} {t : Trace}
    (hOnce : Guarded (step cfg sort) (fun t call => call.CountsOnce cfg t.mem) (new cfg id gm) calls)
    (hRun : run (step cfg sort) (new cfg id gm) calls = .ok t) : t.mem.Counted calls := by
  have hStart : (new cfg id gm).mem.WellFormed (new cfg id gm).proposed ∧
      (new cfg id gm).mem.Counted [] := by
    refine ⟨new_wellFormed cfg id gm, ?_, ?_⟩
    · intro h pm hLookup
      simp [new, AckMem.new] at hLookup
    · intro h node hMem
      simp [new, AckMem.new] at hMem
  have hEnd := run_history (P := fun calls t => t.mem.WellFormed t.proposed ∧ t.mem.Counted calls)
    (fun calls t call t' hState hCall hStep =>
      ⟨step_wellFormed hState.1 hStep, step_counted hState.1 hState.2 hCall hStep⟩)
    hOnce hRun [] hStart
  simpa using hEnd.2

/-- Stability means a quorum of holders, as long as no node is counted twice: a
microblock that `AddMicroblock` or `AddAck` makes stable has been acked by its
sender and others, at least `threshhold` different nodes. -/
theorem stable_has_quorum {cfg : Settings} {sort : GroupSort} {id : NodeID} {gm : GroupManager}
    {calls : List Call} {call : Call} {t t' : Trace} {h : Identifier}
    (hOnce : Guarded (step cfg sort) (fun t call => call.CountsOnce cfg t.mem) (new cfg id gm)
      (calls ++ [call]))
    (hRun : run (step cfg sort) (new cfg id gm) calls = .ok t)
    (hCall : (∃ mb, call = .addMicroblock mb) ∨ ∃ ack, call = .addAck ack)
    (hStep : t.step cfg sort call = .ok t')
    (hBefore : h ∉ t.mem.stableMBs) (hAfter : h ∈ t'.mem.stableMBs) :
    ∃ mb ∈ t'.mem.stableMicroblocks, mb.hash = h ∧
      t'.mem.threshhold ≤ (insert mb.sender (ackers (calls ++ [call]) h)).card := by
  have hCounted := run_counted hOnce.of_append hRun
  have hHere : call.CountsOnce cfg t.mem := hOnce.last hRun
  rcases hCall with ⟨mb, rfl⟩ | ⟨ack, rfl⟩
  · obtain ⟨mem, hMem, hDone⟩ := Outcome.bind_eq_ok.mp hStep
    cases Outcome.pure_eq_ok.mp hDone
    obtain ⟨hQueued, hHash, hQuorum⟩ :=
      hCounted.addMicroblock_quorum hHere hMem hBefore hAfter
    refine ⟨mb, hQueued, hHash, hQuorum.trans ?_⟩
    exact_mod_cast Finset.card_le_card
      (Finset.insert_subset_insert _ (ackers_snoc_subset calls (.addMicroblock mb) h))
  · cases Outcome.pure_eq_ok.mp hStep
    exact hCounted.addAck_quorum (run_wellFormed hRun) hHere hBefore hAfter

/-- Two different nodes ack a microblock of a third, one of them before it is there. -/
theorem stable_has_quorum_three :
    ∃ t t', run (step Scenario.pool Scenario.sortByGroup) (new Scenario.pool "1" Scenario.groups)
        [.addAck (Scenario.ack 1 "2"), .addMicroblock (Scenario.microblock 1 "1")] = .ok t ∧
      t.step Scenario.pool Scenario.sortByGroup (.addAck (Scenario.ack 1 "3")) = .ok t' ∧
      ∃ mb ∈ t'.mem.stableMicroblocks, mb.hash = 1 ∧
        t'.mem.threshhold ≤ (insert mb.sender (ackers [.addAck (Scenario.ack 1 "2"),
          .addMicroblock (Scenario.microblock 1 "1"), .addAck (Scenario.ack 1 "3")] 1)).card := by
  obtain ⟨t, hRun, hBefore⟩ := Outcome.of_test (P := fun t : Trace => 1 ∉ t.mem.stableMBs)
    (x := run (step Scenario.pool Scenario.sortByGroup) (new Scenario.pool "1" Scenario.groups)
      [.addAck (Scenario.ack 1 "2"), .addMicroblock (Scenario.microblock 1 "1")]) (by decide)
  obtain ⟨t', hAll, hAfter⟩ := Outcome.of_test (P := fun t : Trace => 1 ∈ t.mem.stableMBs)
    (x := run (step Scenario.pool Scenario.sortByGroup) (new Scenario.pool "1" Scenario.groups)
      ([.addAck (Scenario.ack 1 "2"), .addMicroblock (Scenario.microblock 1 "1")] ++
        [.addAck (Scenario.ack 1 "3")])) (by decide)
  obtain ⟨middle, hMiddle, hStep⟩ := (run_snoc _ _ _ _).mp hAll
  cases hRun.symm.trans hMiddle
  have hQuorum := stable_has_quorum (by decide) hRun (Or.inr ⟨_, rfl⟩) hStep hBefore hAfter
  exact ⟨t, t', hRun, hStep, hQuorum⟩

/-- The same node acks twice and is counted twice: the microblock is stable with
two holders where three are asked for. -/
theorem repeated_ack_makes_stable :
    ∃ t t', run (step Scenario.pool Scenario.sortByGroup) (new Scenario.pool "1" Scenario.groups)
        [.addMicroblock (Scenario.microblock 1 "1"), .addAck (Scenario.ack 1 "2")] = .ok t ∧
      t.step Scenario.pool Scenario.sortByGroup (.addAck (Scenario.ack 1 "2")) = .ok t' ∧
      1 ∉ t.mem.stableMBs ∧ 1 ∈ t'.mem.stableMBs ∧
      t'.mem.stableMicroblocks = [Scenario.microblock 1 "1"] ∧
      (insert "1" (ackers [.addMicroblock (Scenario.microblock 1 "1"),
        .addAck (Scenario.ack 1 "2"), .addAck (Scenario.ack 1 "2")] 1)).card = 2 ∧
      t'.mem.threshhold = 3 := by
  obtain ⟨t, hRun, hBefore⟩ := Outcome.of_test (P := fun t : Trace => 1 ∉ t.mem.stableMBs)
    (x := run (step Scenario.pool Scenario.sortByGroup) (new Scenario.pool "1" Scenario.groups)
      [.addMicroblock (Scenario.microblock 1 "1"), .addAck (Scenario.ack 1 "2")]) (by decide)
  obtain ⟨t', hAll, hAfter, hQueue, hThreshhold⟩ := Outcome.of_test
    (P := fun t : Trace => 1 ∈ t.mem.stableMBs ∧
      t.mem.stableMicroblocks = [Scenario.microblock 1 "1"] ∧ t.mem.threshhold = 3)
    (x := run (step Scenario.pool Scenario.sortByGroup) (new Scenario.pool "1" Scenario.groups)
      ([.addMicroblock (Scenario.microblock 1 "1"), .addAck (Scenario.ack 1 "2")] ++
        [.addAck (Scenario.ack 1 "2")])) (by decide)
  obtain ⟨middle, hMiddle, hStep⟩ := (run_snoc _ _ _ _).mp hAll
  cases hRun.symm.trans hMiddle
  exact ⟨t, t', hRun, hStep, hBefore, hAfter, hQueue, by decide, hThreshhold⟩

end Trace
end AckMem
end Bamboo
