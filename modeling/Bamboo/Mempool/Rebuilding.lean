import Bamboo.Mempool.Bounds
import Bamboo.Mempool.Reproposal

/-! From the queue of a leader to the blocks of its followers. A payload leaves the
queue, its proposal carries five lists that are read by position, and a follower looks
up each identifier in its own mempool. -/
namespace Bamboo

open Library

/-- The five lists of a proposal, read off the same microblocks in the same order. -/
structure Proposal.Describes (p : Proposal) (leader : AckMem) (mbs : List MicroBlock) : Prop where
  hashList : p.hashList = mbs.map MicroBlock.hash
  groupList : p.groupList = mbs.map MicroBlock.groupId
  mbTime : p.mbTime = mbs.map MicroBlock.timestamp
  ackNode : p.ackNode = mbs.map leader.generateAckNodeList
  txNums : p.txNums = mbs.map fun mb => (mb.txns.length : Int)

/-- A placeholder can be made for every position of the lists. -/
theorem Proposal.Describes.fills {p : Proposal} {leader : AckMem} {mbs : List MicroBlock}
    (h : p.Describes leader mbs) (hSlices : ∀ mb ∈ mbs, (mb.txns.length : Int) ≤ maxTxns)
    {index : Nat} (hIndex : index < p.hashList.length) : p.Fills index := by
  rw [h.hashList, List.length_map] at hIndex
  have hSlice := hSlices mbs[index] (List.getElem_mem hIndex)
  refine ⟨⟨(mbs[index].txns.length : Int), ?_, Int.natCast_nonneg _, hSlice⟩, ?_, ?_⟩
  · rw [h.txNums, List.getElem?_map, List.getElem?_eq_getElem hIndex, Option.map_some]
  · rw [h.groupList, List.length_map]
    exact hIndex
  · rw [h.mbTime, List.length_map]
    exact hIndex

namespace AckMem

/-- The next payload of a node that proposes. -/
theorem generatePayload_returns {cfg : Settings} (hWorker : cfg.onlyworker = false)
    (sort : GroupSort) (am : AckMem) :
    ∃ payload, am.generatePayload cfg sort =
        .ok ({ am with stableMicroblocks := (am.arranged cfg sort).drop am.batchSize }, payload) ∧
      payload.microblockList = (am.arranged cfg sort).take am.batchSize ∧
      payload.ackNode = payload.microblockList.map am.generateAckNodeList ∧
      payload.txNums = payload.microblockList.map fun mb => (mb.txns.length : Int) := by
  have hQueue := takeBatch_spec cfg am.batchSize
    { am with stableMicroblocks := am.arranged cfg sort } {}
  have hLists := takeBatch_lists cfg am.batchSize
    { am with stableMicroblocks := am.arranged cfg sort } {}
  refine ⟨(takeBatch cfg am.batchSize { am with stableMicroblocks := am.arranged cfg sort } {}).2,
    ?_, ?_, ?_, ?_⟩
  · rw [generatePayload_eq hWorker sort am, ← hQueue.1]
  · simpa using hQueue.2
  · rw [hLists.1, hQueue.2]
    rfl
  · rw [hLists.2, hQueue.2]
    rfl

/-- The proposal of a payload describes its microblocks. -/
theorem generatePayload_describes {cfg : Settings} {sort : GroupSort} {am left : AckMem}
    {payload : Payload} {keys : KeyRing} {hash : RawProposal → Identifier} {view : View} {qc : QC}
    {proposer : NodeID} {p : Proposal} (hPayload : am.generatePayload cfg sort = .ok (left, payload))
    (hProposal : payload.toProposal keys hash view qc proposer = .ok p) :
    p.Describes am payload.microblockList := by
  obtain ⟨hWorker, _⟩ := generatePayload_spec hPayload
  obtain ⟨_, hReturns, _, hAckNode, hTxNums⟩ := generatePayload_returns hWorker sort am
  cases hPayload.symm.trans hReturns
  obtain ⟨hHashes, hGroups, hTimes, hNodes, hCounts⟩ := Payload.toProposal_lists hProposal
  exact ⟨hHashes, hGroups, hTimes, hNodes.trans hAckNode, hCounts.trans hTxNums⟩

theorem length_take_arranged (cfg : Settings) (sort : GroupSort) (am : AckMem) :
    (((am.arranged cfg sort).take am.batchSize).length : Int) =
      max 0 (min am.bsize am.stableMicroblocks.length) := by
  rw [List.length_take, (am.arranged_perm cfg sort).length_eq, batchSize]
  omega

/-- With groups, what is taken comes before what is left. -/
theorem arranged_sorted {cfg : Settings} (hGroup : cfg.broadcastByGroup = true) (sort : GroupSort)
    (am : AckMem) (count : Nat) :
    ((am.arranged cfg sort).take count).Pairwise (fun a b => a.groupId ≤ b.groupId) ∧
      ∀ a ∈ (am.arranged cfg sort).take count, ∀ b ∈ (am.arranged cfg sort).drop count,
        a.groupId ≤ b.groupId := by
  have hSorted : (am.arranged cfg sort).Pairwise fun a b => a.groupId ≤ b.groupId := by
    rw [arranged, if_pos hGroup]
    exact sort.sorted _
  rw [← List.take_append_drop count (am.arranged cfg sort), List.pairwise_append] at hSorted
  exact ⟨hSorted.1, hSorted.2.2⟩

/-- What is fetched for an identifier has it. -/
theorem FetchedFrom.hashes {am : AckMem} {past : List Identifier} (hWell : am.WellFormed past)
    {hs : List Identifier} {mbs : List MicroBlock} (h : List.Forall₂ am.FetchedFrom hs mbs) :
    mbs.map MicroBlock.hash = hs := by
  induction h with
  | nil => rfl
  | cons hFrom _ ih =>
      rw [List.map_cons, ih]
      rcases hFrom with hStored | ⟨_, hHash, _⟩
      · rw [hWell.stored_hash _ _ hStored]
      · rw [hHash]

/-- A follower finds a microblock for every identifier, in the order of the proposal,
and lets go of all of them. -/
theorem fetchMB_rebuilds {p : Proposal} {leader am : AckMem} {mbs : List MicroBlock}
    {past : List Identifier} (hDescribes : p.Describes leader mbs)
    (hSlices : ∀ mb ∈ mbs, (mb.txns.length : Int) ≤ maxTxns) (hWell : am.WellFormed past)
    (now : Int) :
    ∃ am' block, am.fetchMB now p = .ok (am', block) ∧ block.missingMap = ∅ ∧
      block.payload.generateHashList = p.hashList ∧
      ∀ h ∈ p.hashList, h ∉ am'.pendingMicroblocks ∧ ∀ mb ∈ am'.stableMicroblocks, mb.hash ≠ h := by
  have hFills : ∀ index h, p.hashList[index]? = some h → h ∈ am.microblockMap ∨ p.Fills index :=
    fun index h hIndex => Or.inr (hDescribes.fills hSlices (List.getElem?_eq_some_iff.mp hIndex).1)
  obtain ⟨⟨am', block⟩, hFetch⟩ := fetchMB_returns_iff.mpr hFills
  obtain ⟨hForget, hFrom⟩ := fetchMB_spec hFetch
  have hMissing : block.missingMap = ∅ := by rw [(fetchMB_eq_ok.mp hFetch).2.1]
  refine ⟨am', block, hFetch, hMissing, FetchedFrom.hashes hWell hFrom, fun h hMem => ⟨?_, ?_⟩⟩
  · intro hPending
    obtain ⟨pending, queue, hEq, hLeft, _⟩ := forgetAll_spec am p.hashList
    rw [hForget, hEq] at hPending
    obtain ⟨pm, hLookup⟩ := Finmap.mem_iff.mp hPending
    exact (hLeft h pm hLookup).2 hMem
  · rw [hForget]
    exact forgetAll_notQueued hWell hMem

/-- From the queue of a leader to the block at any other node. The transactions of a
microblock are a slice of pointers, which is never longer than `maxTxns`. -/
theorem followers_rebuild_payload {cfg : Settings} (hWorker : cfg.onlyworker = false)
    (sort : GroupSort) (am : AckMem) :
    ∃ left payload, am.generatePayload cfg sort = .ok (left, payload) ∧
      (payload.microblockList.length : Int) = max 0 (min am.bsize am.stableMicroblocks.length) ∧
      (payload.microblockList ++ left.stableMicroblocks).Perm am.stableMicroblocks ∧
      (cfg.broadcastByGroup = false →
        payload.microblockList ++ left.stableMicroblocks = am.stableMicroblocks) ∧
      (cfg.broadcastByGroup = true →
        payload.microblockList.Pairwise (fun a b => a.groupId ≤ b.groupId) ∧
        ∀ a ∈ payload.microblockList, ∀ b ∈ left.stableMicroblocks, a.groupId ≤ b.groupId) ∧
      ∀ keys hash view qc proposer p, payload.toProposal keys hash view qc proposer = .ok p →
        p.Describes am payload.microblockList ∧
        ∀ cfg' sort' id gm calls follower now,
          (∀ mb ∈ payload.microblockList, (mb.txns.length : Int) ≤ maxTxns) →
          run (Trace.step cfg' sort') (Trace.new cfg' id gm) calls = .ok follower →
          ∃ mem block, follower.mem.fetchMB now p = .ok (mem, block) ∧ block.missingMap = ∅ ∧
            block.payload.generateHashList = p.hashList ∧
            ∀ h ∈ p.hashList, h ∉ mem.pendingMicroblocks ∧
              ∀ mb ∈ mem.stableMicroblocks, mb.hash ≠ h := by
  obtain ⟨payload, hPayload, hTaken, _⟩ := generatePayload_returns hWorker sort am
  have hSplit := List.take_append_drop am.batchSize (am.arranged cfg sort)
  refine ⟨_, payload, hPayload, ?_, ?_, ?_, ?_, ?_⟩
  · rw [hTaken]
    exact length_take_arranged cfg sort am
  · rw [hTaken, hSplit]
    exact arranged_perm cfg sort am
  · intro hGroup
    rw [hTaken, hSplit, arranged, if_neg (by simp [hGroup])]
  · intro hGroup
    rw [hTaken]
    exact arranged_sorted hGroup sort am am.batchSize
  · intro keys hash view qc proposer p hProposal
    have hDescribes := generatePayload_describes hPayload hProposal
    refine ⟨hDescribes, fun cfg' sort' id gm calls follower now hSlices hRun => ?_⟩
    exact fetchMB_rebuilds hDescribes hSlices (Trace.run_wellFormed hRun) now

end AckMem

namespace Scenario

/-- Three stable microblocks, of which two fit into a payload. -/
def fullQueue : AckMem :=
  { AckMem.new pool "1" groups with
    stableMicroblocks := [microblock 1 "1", microblock 2 "2", microblock 3 "3"] }

end Scenario

namespace AckMem

/-- The follower has 1 pending and 2 as a placeholder. -/
theorem followers_rebuild_payload_full :
    ∃ left payload p follower mem block,
      Scenario.fullQueue.generatePayload Scenario.pool Scenario.sortByGroup = .ok (left, payload) ∧
      payload.toProposal Scenario.keys (fun _ => 7) 1 .initial "1" = .ok p ∧
      run (Trace.step Scenario.pool Scenario.sortByGroup) (Trace.new Scenario.pool "4" Scenario.groups)
        [.addMicroblock (Scenario.microblock 1 "1"), .addStable 0 { microblockID := 2 }] = .ok follower ∧
      follower.mem.fetchMB 0 p = .ok (mem, block) ∧ p.hashList = [1, 2] ∧
      block.payload.generateHashList = p.hashList := by
  have hWorker : Scenario.pool.onlyworker = false := rfl
  obtain ⟨left, payload, hPayload, _, _, _, _, hRebuild⟩ :=
    followers_rebuild_payload hWorker Scenario.sortByGroup Scenario.fullQueue
  obtain ⟨result, hResult, hSlices, hTest⟩ := Outcome.of_test
    (P := fun result : AckMem × Payload =>
      (∀ mb ∈ result.2.microblockList, (mb.txns.length : Int) ≤ maxTxns) ∧ Outcome.test
      (result.2.toProposal Scenario.keys (fun _ => 7) 1 .initial "1") (·.hashList = [1, 2]) = true)
    (x := Scenario.fullQueue.generatePayload Scenario.pool Scenario.sortByGroup) (by decide)
  cases hPayload.symm.trans hResult
  obtain ⟨p, hProposal, hHashes⟩ := Outcome.of_test hTest
  obtain ⟨follower, hRun, _⟩ := Outcome.of_test (P := fun _ : Trace => True)
    (x := run (Trace.step Scenario.pool Scenario.sortByGroup)
      (Trace.new Scenario.pool "4" Scenario.groups)
      [.addMicroblock (Scenario.microblock 1 "1"), .addStable 0 { microblockID := 2 }]) (by decide)
  obtain ⟨_, hFollowers⟩ := hRebuild _ _ _ _ _ p hProposal
  obtain ⟨mem, block, hFetch, _, hSame, _⟩ := hFollowers _ _ _ _ _ follower 0 hSlices hRun
  exact ⟨left, payload, p, follower, mem, block, hPayload, hProposal, hRun, hFetch, hHashes, hSame⟩

end AckMem
end Bamboo
