import Bamboo.Execute.Progress
import Bamboo.Replica.Inversion

/-! Committed microblocks reach the executor once each and are applied in the
order in which they were delivered. -/
namespace Bamboo

open Library

/-- Different microblocks are delivered, all of them new, and all are remembered. -/
theorem numberCommitted_spec (seen : Finset Identifier) (no : Int) (mbs : List MicroBlock) :
    ((numberCommitted seen no mbs).2.2.map MicroBlock.hash).Nodup ∧
      (∀ mb ∈ (numberCommitted seen no mbs).2.2, mb.hash ∉ seen ∧
        mb.hash ∈ (numberCommitted seen no mbs).1) ∧
      seen ⊆ (numberCommitted seen no mbs).1 := by
  induction mbs generalizing seen no with
  | nil => simp [numberCommitted]
  | cons mb rest ih =>
      unfold numberCommitted
      by_cases hSeen : mb.hash ∈ seen
      · rw [if_pos hSeen]
        exact ih seen no
      · rw [if_neg hSeen]
        obtain ⟨hNodup, hNew, hGrows⟩ := ih (insert mb.hash seen) (no + 1)
        refine ⟨?_, ?_, (Finset.subset_insert _ _).trans hGrows⟩
        · refine List.nodup_cons.mpr ⟨?_, hNodup⟩
          rintro hMem
          obtain ⟨later, hLater, hHash⟩ := List.mem_map.mp hMem
          exact (hNew later hLater).1 (hHash ▸ Finset.mem_insert_self _ _)
        · intro found hFound
          rcases List.mem_cons.mp hFound with rfl | hFound
          · exact ⟨hSeen, hGrows (Finset.mem_insert_self _ _)⟩
          · obtain ⟨hFresh, hKept⟩ := hNew found hFound
            exact ⟨fun h => hFresh (Finset.mem_insert_of_mem h), hKept⟩

namespace Replica

/-- What happens to the executor: blocks are committed, batches are taken off the
channel, and results and retransmitted microblocks arrive. -/
inductive ExecutionEvent where
  | commit (mbs : List MicroBlock)
  | batch
  | result (result : ExecuteResult)
  | miss (mb : MicroBlock)

def executionStep (cfg : Settings) (keys : KeyRing) (r : Replica) :
    ExecutionEvent → Outcome Replica
  | .commit mbs => pure (r.processCommittedBlock mbs)
  | .batch => r.handleBatch cfg keys
  | .result result => r.handleResult cfg keys result
  | .miss mb => do
      let ex ← r.ex.handleMiss cfg keys mb
      pure { r with ex }

/-- What has been delivered to the executor or is on its way. -/
def onTheWay (r : Replica) : List MicroBlock :=
  r.ex.delivered ++ r.ex.mbReceive.flatten

/-- The applied microblocks and the queue make up what was delivered. -/
structure InOrder (e : Executor) : Prop where
  order : e.applied.map (fun a => a.microblock.hash) ++ e.mbs.map MicroBlock.hash =
    e.delivered.map MicroBlock.hash
  total : e.executedTxsTotal = (e.applied.map Applied.txNum).sum

/-- Everything on the way is different and was committed. -/
structure Distinct (r : Replica) : Prop where
  nodup : (r.onTheWay.map MicroBlock.hash).Nodup
  committed : ∀ mb ∈ r.onTheWay, mb.hash ∈ r.commitedMb

theorem InOrder.consumes {e e' : Executor} (h : InOrder e) (hStep : e.Consumes e') :
    InOrder e' := by
  obtain ⟨now, hQueue, hAdvance⟩ := hStep
  constructor
  · rw [hAdvance.applied, hAdvance.delivered, ← h.order, hQueue]
    simp
  · rw [hAdvance.applied, hAdvance.total, h.total, List.map_append, List.sum_append]

theorem InOrder.enqueue {e : Executor} (h : InOrder e) (batch : List MicroBlock) :
    InOrder (e.enqueue batch) where
  order := by
    simp only [Executor.enqueue, List.map_append, ← h.order, List.append_assoc]
  total := h.total

theorem InOrder.replaceMissing {e : Executor} (h : InOrder e) (mb : MicroBlock) :
    InOrder (e.replaceMissing mb) where
  order := by
    rw [Executor.replaceMissing_hashes]
    exact h.order
  total := h.total

/-- The executor's own work leaves everything on the way as it is. -/
theorem Distinct.consumes {r : Replica} {e ex : Executor} (h : r.Distinct)
    (hStep : e.Consumes ex)
    (hWay : e.delivered ++ e.mbReceive.flatten = r.onTheWay) : { r with ex }.Distinct := by
  have hSame : { r with ex }.onTheWay = r.onTheWay := by
    rw [← hWay, ← hStep.delivered_eq, ← hStep.mbReceive_eq]
    rfl
  exact ⟨hSame ▸ h.nodup, hSame ▸ h.committed⟩

/-- A committed block adds new microblocks to what is on the way. -/
theorem Distinct.processCommittedBlock {r : Replica} (h : r.Distinct) (mbs : List MicroBlock) :
    (r.processCommittedBlock mbs).Distinct := by
  obtain ⟨hNodup, hNew, hGrows⟩ := numberCommitted_spec r.commitedMb r.commitMbNo mbs
  have hWay : (r.processCommittedBlock mbs).onTheWay =
      r.onTheWay ++ (numberCommitted r.commitedMb r.commitMbNo mbs).2.2 := by
    simp [Replica.processCommittedBlock, onTheWay]
  constructor
  · rw [hWay, List.map_append]
    refine List.Nodup.append h.nodup hNodup ?_
    intro hash hOld hFresh
    obtain ⟨old, hOldMem, rfl⟩ := List.mem_map.mp hOld
    obtain ⟨mb, hMem, hHash⟩ := List.mem_map.mp hFresh
    exact (hNew mb hMem).1 (hHash ▸ h.committed old hOldMem)
  · intro mb hMem
    rw [hWay] at hMem
    rcases List.mem_append.mp hMem with hOld | hFresh
    · exact hGrows (h.committed mb hOld)
    · exact (hNew mb hFresh).2

/-- Every event keeps the order and the distinctness. -/
theorem executionStep_inOrder {cfg : Settings} {keys : KeyRing} {r r' : Replica}
    {event : ExecutionEvent}
    (hMode : cfg.broadcastByGroup = true ∨ cfg.broadcastBySample = false)
    (h : InOrder r.ex ∧ r.Distinct) (hStep : r.executionStep cfg keys event = .ok r') :
    InOrder r'.ex ∧ r'.Distinct := by
  obtain ⟨hOrder, hDistinct⟩ := h
  cases event with
  | commit mbs =>
      cases Outcome.pure_eq_ok.mp hStep
      exact ⟨⟨hOrder.order, hOrder.total⟩, hDistinct.processCommittedBlock mbs⟩
  | batch =>
      rcases handleBatch_cases hStep with rfl | ⟨batch, rest, ex, hChannel, hAdd, rfl⟩
      · exact ⟨hOrder, hDistinct⟩
      · have hConsumes := Executor.addMbToExecute_consumes hMode hAdd
        have hTaken : InOrder { r.ex with mbReceive := rest } := ⟨hOrder.order, hOrder.total⟩
        refine ⟨(hTaken.enqueue batch).consumes hConsumes, hDistinct.consumes hConsumes ?_⟩
        simp [Executor.enqueue, onTheWay, hChannel]
  | result result =>
      obtain ⟨ex, hResult, hDone⟩ := Outcome.bind_eq_ok.mp hStep
      cases Outcome.pure_eq_ok.mp hDone
      have hConsumes := Executor.handleResult_consumes hMode hResult
      exact ⟨hOrder.consumes hConsumes, hDistinct.consumes hConsumes rfl⟩
  | miss mb =>
      obtain ⟨ex, hMiss, hDone⟩ := Outcome.bind_eq_ok.mp hStep
      cases Outcome.pure_eq_ok.mp hDone
      rcases Executor.handleMiss_cases hMiss with hThread | rfl
      · have hConsumes := Executor.executeThread_consumes hMode hThread
        exact ⟨(hOrder.replaceMissing mb).consumes hConsumes, hDistinct.consumes hConsumes rfl⟩
      · exact ⟨hOrder, hDistinct⟩

theorem run_inOrder {cfg : Settings} {keys : KeyRing} {id : NodeID} {r : Replica}
    {events : List ExecutionEvent}
    (hMode : cfg.broadcastByGroup = true ∨ cfg.broadcastBySample = false)
    (hRun : run (executionStep cfg keys) (.new cfg id) events = .ok r) :
    InOrder r.ex ∧ r.Distinct := by
  refine run_invariant (P := fun r => InOrder r.ex ∧ r.Distinct)
    (fun r event r' h hStep => executionStep_inOrder hMode h hStep) hRun ⟨⟨rfl, rfl⟩, ?_, ?_⟩
  · exact List.nodup_nil
  · intro mb hMem
    exact absurd hMem List.not_mem_nil

/-- Delivered microblocks are applied once and in the order of their delivery,
and every one of their transactions is counted once. -/
theorem applied_exactly_once_in_order {cfg : Settings} {keys : KeyRing} {id : NodeID}
    {r : Replica} {events : List ExecutionEvent}
    (hMode : cfg.broadcastByGroup = true ∨ cfg.broadcastBySample = false)
    (hRun : run (executionStep cfg keys) (.new cfg id) events = .ok r) :
    r.ex.applied.map (fun a => a.microblock.hash) <+: r.ex.delivered.map MicroBlock.hash ∧
      r.ex.applied.map (fun a => a.microblock.hash) ++ r.ex.mbs.map MicroBlock.hash =
        r.ex.delivered.map MicroBlock.hash ∧
      (r.ex.delivered.map MicroBlock.hash).Nodup ∧
      r.ex.executedTxsTotal = (r.ex.applied.map fun a => (a.microblock.txns.length : Int)).sum := by
  obtain ⟨hOrder, hDistinct⟩ := run_inOrder hMode hRun
  refine ⟨⟨r.ex.mbs.map MicroBlock.hash, hOrder.order⟩, hOrder.order, ?_, hOrder.total⟩
  have hNodup := hDistinct.nodup
  rw [onTheWay, List.map_append] at hNodup
  exact hNodup.of_append_left

end Replica

namespace Scenario

/-- Two groups of three of the four nodes; node 3 is only in the first one. -/
def grouped : Settings :=
  { pool with broadcastByGroup := true, groupNum := 2, memberNum := 3 }

/-- A microblock of a group with one transaction. -/
def single (hash : Identifier) (groupId : Int) : MicroBlock :=
  { hash, groupId, txns := [{ timestamp := 0 }] }

/-- Node 3 executes the first microblock, takes the second one over from the
other group, and has to wait for the content of the third one. -/
def handOver : List Replica.ExecutionEvent :=
  [.commit [single 1 0, single 2 1, { single 3 0 with isFake := true }, single 1 0], .batch,
    .result { propsalId := "1", sig := [], mb := 2, no := 2 },
    .result { propsalId := "2", sig := [], mb := 2, no := 2 },
    .result { propsalId := "4", sig := [], mb := 2, no := 2 },
    .miss (single 3 0)]

end Scenario

namespace Replica

theorem applied_exactly_once_in_order_grouped :
    ∃ r, run (executionStep Scenario.grouped Scenario.keys) (.new Scenario.grouped "3")
        Scenario.handOver = .ok r ∧
      r.ex.applied.map (fun a => a.microblock.hash) = [1, 2, 3] ∧
      r.ex.applied.map (fun a => a.microblock.hash) <+: r.ex.delivered.map MicroBlock.hash ∧
      (r.ex.delivered.map MicroBlock.hash).Nodup ∧
      r.ex.executedTxsTotal = (r.ex.applied.map fun a => (a.microblock.txns.length : Int)).sum := by
  obtain ⟨r, hRun, hApplied⟩ := Outcome.of_test
    (P := fun r : Replica => r.ex.applied.map (fun a => a.microblock.hash) = [1, 2, 3])
    (x := run (executionStep Scenario.grouped Scenario.keys) (.new Scenario.grouped "3")
      Scenario.handOver) (by decide)
  obtain ⟨hFront, _, hNodup, hTotal⟩ := applied_exactly_once_in_order (Or.inl rfl) hRun
  exact ⟨r, hRun, hApplied, hFront, hNodup, hTotal⟩

end Replica
end Bamboo
