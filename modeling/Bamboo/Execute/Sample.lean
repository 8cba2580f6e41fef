import Bamboo.Replica.Execution

/-! The executor with sampling. Its loop passes over the placeholders of other
nodes, but then takes as many microblocks off the front of the queue as it has
executed. Only when nothing with content stands behind such a placeholder are
these the same ones. -/
namespace Bamboo

open Library

/-- The hash of a microblock that was executed here. -/
def Applied.executedHash : Applied → Option Identifier
  | .executed mb => some mb.hash
  | .updated _ => none

namespace Executor

/-- What can be called on an executor. -/
inductive Event where
  | batch (mbs : List MicroBlock)
  | result (result : ExecuteResult)
  | miss (mb : MicroBlock)

def step (cfg : Settings) (keys : KeyRing) (e : Executor) : Event → Outcome Executor
  | .batch mbs => e.addMbToExecute cfg keys mbs
  | .result result => e.handleResult cfg keys result
  | .miss mb => e.handleMiss cfg keys mb

/-- The queue on which a call enters the sampling loop, if it does. -/
def loopQueue (cfg : Settings) (e : Executor) : Event → Option (List MicroBlock)
  | .batch mbs => some (e.mbs ++ mbs)
  | .result result =>
      let high := (recordDone cfg result result.no.toNat 1 e 0).2
      if high ≠ 0 then
        some (e.mbs.drop (lastIndexWhere (fun mb => mb.committedNo = high) e.mbs 0 (-1) + 1).toNat)
      else none
  | .miss mb => if e.mbs.any (isMissing mb) then some (e.replaceMissing mb).mbs else none

/-- The part of a queue before the first placeholder that the node `id` waits for. -/
def scanned (id : NodeID) (queue : List MicroBlock) : List MicroBlock :=
  queue.takeWhile fun mb => !(mb.isFake && decide (id ∈ mb.generateNodeList))

/-- Nothing with content stands behind a placeholder. -/
def ContentFirst (queue : List MicroBlock) : Prop :=
  queue.Pairwise fun first later => first.isFake = true → later.isFake = true

instance (queue : List MicroBlock) : Decidable (ContentFirst queue) :=
  inferInstanceAs (Decidable (queue.Pairwise _))

/-- A sampling loop that starts during the call finds content first. -/
def Event.KeepsLine (cfg : Settings) (e : Executor) (event : Event) : Prop :=
  cfg.broadcastByGroup = true ∨
    ∀ queue ∈ e.loopQueue cfg event, ContentFirst (scanned e.id queue)

instance (cfg : Settings) (e : Executor) (event : Event) : Decidable (event.KeepsLine cfg e) :=
  inferInstanceAs (Decidable (_ ∨ _))

variable {cfg : Settings} {keys : KeyRing} {e e' : Executor}

theorem scanned_cons_content {id : NodeID} {mb : MicroBlock} (h : mb.isFake = false)
    (rest : List MicroBlock) : scanned id (mb :: rest) = mb :: scanned id rest := by
  simp [scanned, h]

theorem scanned_cons_foreign {id : NodeID} {mb : MicroBlock} (h : mb.isFake = true)
    (hForeign : id ∉ mb.generateNodeList) (rest : List MicroBlock) :
    scanned id (mb :: rest) = mb :: scanned id rest := by
  simp [scanned, h, hForeign]

theorem scanned_cons_awaited {id : NodeID} {mb : MicroBlock} (h : mb.isFake = true)
    (hAwaited : id ∈ mb.generateNodeList) (rest : List MicroBlock) :
    scanned id (mb :: rest) = [] := by
  simp [scanned, h, hAwaited]

/-- The sampling loop executes what has content in the part it passes. -/
theorem executeSample_spec {curIndex successNum last : Nat} {list : List MicroBlock}
    (h : e.executeSample keys curIndex successNum list = .ok (e', last)) :
    last = successNum + ((scanned e.id list).filter fun mb => !mb.isFake).length ∧
      e'.mbs = e.mbs ∧
      Advance (((scanned e.id list).filter fun mb => !mb.isFake).map .executed) e e' := by
  induction list generalizing e curIndex successNum with
  | nil =>
      cases Outcome.pure_eq_ok.mp h
      exact ⟨rfl, rfl, .refl _⟩
  | cons mb rest ih =>
      rcases executeSample_cons h with ⟨hContent, recipients, result, hLater⟩ |
        ⟨hFake, hForeign, hLater⟩ | ⟨hFake, hAwaited, rfl, rfl⟩
      · obtain ⟨hExecuted, hSame, _⟩ := execute_spec e mb
        obtain ⟨hLast, hQueue, hAdvance⟩ := ih hLater
        have hId : ((e.execute mb).send (.result recipients result)).id = e.id := hExecuted.id
        rw [hId] at hLast hAdvance
        rw [scanned_cons_content hContent, List.filter_cons_of_pos (by simp [hContent])]
        refine ⟨?_, hQueue.trans hSame, ?_⟩
        · rw [hLast, List.length_cons]
          omega
        · exact (hExecuted.frame (e.execute mb).mbs (e.execute mb).done _).trans hAdvance
      · rw [scanned_cons_foreign hFake hForeign, List.filter_cons_of_neg (by simp [hFake])]
        exact ih hLater
      · rw [scanned_cons_awaited hFake hAwaited]
        exact ⟨rfl, rfl, (Advance.refl e).frame _ _ _⟩

/-- With content first, what has content is a front part. -/
theorem ContentFirst.filter_prefix {queue : List MicroBlock} (h : ContentFirst queue) :
    (queue.filter fun mb => !mb.isFake) <+: queue := by
  induction queue with
  | nil => exact List.prefix_rfl
  | cons mb rest ih =>
      obtain ⟨hHead, hRest⟩ := List.pairwise_cons.mp h
      cases hFake : mb.isFake with
      | false =>
          rw [List.filter_cons_of_pos (by simp [hFake])]
          exact (List.prefix_cons_inj mb).mpr (ih hRest)
      | true =>
          have hNone : (mb :: rest).filter (fun mb => !mb.isFake) = [] := by
            rw [List.filter_eq_nil_iff]
            intro later hLater
            rcases List.mem_cons.mp hLater with rfl | hLater
            · simp [hFake]
            · simp [hHead later hLater hFake]
          rw [hNone]
          exact List.nil_prefix

theorem executeThread_sample_consumes (hGroup : cfg.broadcastByGroup = false)
    (hSample : cfg.broadcastBySample = true) (hLine : ContentFirst (scanned e.id e.mbs))
    (h : e.executeThread cfg keys = .ok e') : e.Consumes e' := by
  obtain ⟨last, successNum, hLoop, rfl⟩ : ∃ last successNum,
      e.executeSample keys 0 0 e.mbs = .ok (last, successNum) ∧
        e' = { last with mbs := last.mbs.drop successNum } := by
    simpa [hGroup, hSample] using executeThread_cases h
  obtain ⟨hCount, hQueue, hAdvance⟩ := executeSample_spec hLoop
  obtain ⟨rest, hRest⟩ := hLine.filter_prefix.trans (List.takeWhile_prefix _)
  refine ⟨_, ?_, hAdvance.frame _ last.done last.outbox⟩
  -- the executed microblocks are the ones that are dropped
  have hDropped : e.mbs.drop successNum = rest := by
    rw [hCount, Nat.zero_add]
    nth_rewrite 2 [← hRest]
    exact List.drop_left
  rw [map_microblock_executed, hQueue, hDropped]
  exact hRest.symm

/-- Taking microblocks off the front leaves the rest of the queue. -/
theorem applyHeads_mbs {count : Nat} (h : e.applyHeads count = .ok e') :
    e'.mbs = e.mbs.drop count := by
  obtain ⟨front, hQueue, rfl, _⟩ := applyHeads_spec h
  rw [hQueue, List.drop_left]

/-- A result that confirms something enters the loop on what is left of the queue. -/
theorem handleResult_sample {result : ExecuteResult} (hGroup : cfg.broadcastByGroup = false)
    (hSample : cfg.broadcastBySample = true)
    (hLine : ∀ queue ∈ e.loopQueue cfg (.result result), ContentFirst (scanned e.id queue))
    (h : e.handleResult cfg keys result = .ok e') : e.Consumes e' := by
  obtain ⟨done, hDone⟩ := recordDone_spec cfg result result.no.toNat 1 e 0
  have hRecorded : e.Consumes { e with done } :=
    ⟨[], rfl, (Advance.refl e).frame e.mbs done e.outbox⟩
  unfold handleResult at h
  unfold loopQueue at hLine
  dsimp only at h hLine
  rw [hDone] at h
  by_cases hHigh : (recordDone cfg result result.no.toNat 1 e 0).2 ≠ 0
  · rw [if_pos hHigh] at h hLine
    obtain ⟨middle, hApplied, hThread⟩ := Outcome.bind_eq_ok.mp h
    have hHeads := hRecorded.trans (applyHeads_consumes hApplied)
    have hId : middle.id = e.id := by
      obtain ⟨_, _, hAdvance⟩ := hHeads
      exact hAdvance.id
    have hContent : ContentFirst (scanned middle.id middle.mbs) := by
      rw [hId, applyHeads_mbs hApplied]
      exact hLine _ rfl
    exact hHeads.trans (executeThread_sample_consumes hGroup hSample hContent hThread)
  · rw [if_neg hHigh] at h
    cases Outcome.pure_eq_ok.mp h
    exact hRecorded

/-- A retransmitted microblock that is waited for enters the loop on the queue in
which it has taken its place. -/
theorem handleMiss_sample {mb : MicroBlock} (hGroup : cfg.broadcastByGroup = false)
    (hSample : cfg.broadcastBySample = true)
    (hLine : ∀ queue ∈ e.loopQueue cfg (.miss mb), ContentFirst (scanned e.id queue))
    (h : e.handleMiss cfg keys mb = .ok e') : (e.replaceMissing mb).Consumes e' ∨ e' = e := by
  unfold handleMiss at h
  unfold loopQueue at hLine
  dsimp only at hLine
  by_cases hFound : e.mbs.any (isMissing mb) = true
  · rw [if_pos hFound] at h hLine
    exact Or.inl (executeThread_sample_consumes hGroup hSample (hLine _ rfl) h)
  · rw [if_neg hFound] at h
    exact Or.inr (Outcome.pure_eq_ok.mp h).symm

/-- A call whose loop finds content first applies a front part of the queue. -/
theorem step_inOrder (hSample : cfg.broadcastBySample = true) {event : Event}
    (hLine : event.KeepsLine cfg e) (hOrder : Replica.InOrder e)
    (h : e.step cfg keys event = .ok e') : Replica.InOrder e' := by
  cases hGroup : cfg.broadcastByGroup with
  | true =>
      have hMode : cfg.broadcastByGroup = true ∨ cfg.broadcastBySample = false := Or.inl hGroup
      cases event with
      | batch mbs => exact (hOrder.enqueue mbs).consumes (addMbToExecute_consumes hMode h)
      | result result => exact hOrder.consumes (handleResult_consumes hMode h)
      | miss mb =>
          rcases handleMiss_cases h with hThread | rfl
          · exact (hOrder.replaceMissing mb).consumes (executeThread_consumes hMode hThread)
          · exact hOrder
  | false =>
      have hContent := hLine.resolve_left (by simp [hGroup])
      cases event with
      | batch mbs =>
          change e.addMbToExecute cfg keys mbs = .ok e' at h
          unfold addMbToExecute applyConfirmed at h
          rw [if_neg (by simp [hGroup])] at h
          exact (hOrder.enqueue mbs).consumes
            (executeThread_sample_consumes hGroup hSample (hContent _ rfl) h)
      | result result => exact hOrder.consumes (handleResult_sample hGroup hSample hContent h)
      | miss mb =>
          rcases handleMiss_sample hGroup hSample hContent h with hConsumes | rfl
          · exact (hOrder.replaceMissing mb).consumes hConsumes
          · exact hOrder

theorem executedHash_sublist (applied : List Applied) :
    (applied.filterMap Applied.executedHash).Sublist
      (applied.map fun a => a.microblock.hash) := by
  induction applied with
  | nil => exact List.Sublist.refl _
  | cons a rest ih =>
      cases a with
      | executed mb => exact ih.cons_cons mb.hash
      | updated mb => exact ih.cons mb.hash

/-- With sampling, if every loop finds content first, then every microblock that was
delivered is in the queue or was applied, as often as it was delivered; what was
delivered once is not executed twice. -/
theorem sample_executes_once {id : NodeID} {gm : GroupManager} {events : List Event}
    (hSample : cfg.broadcastBySample = true)
    (hLine : Guarded (step cfg keys) (fun e event => event.KeepsLine cfg e) { id, gm } events)
    (hRun : run (step cfg keys) { id, gm } events = .ok e) :
    e.applied.map (fun a => a.microblock.hash) ++ e.mbs.map MicroBlock.hash =
        e.delivered.map MicroBlock.hash ∧
      ((e.delivered.map MicroBlock.hash).Nodup →
        (e.applied.filterMap Applied.executedHash).Nodup) := by
  have hOrder : Replica.InOrder e :=
    guarded_run_invariant (fun _ _ _ hOrder hGuard hStep => step_inOrder hSample hGuard hOrder hStep)
      hLine hRun ⟨rfl, rfl⟩
  refine ⟨hOrder.order, ?_⟩
  intro hDistinct
  rw [← hOrder.order] at hDistinct
  exact hDistinct.of_append_left.sublist (executedHash_sublist e.applied)

end Executor

namespace Scenario

/-- Sampling, without groups. -/
def sampled : Settings := { pool with broadcastBySample := true }

/-- A placeholder that node 1 is not asked to hold. -/
def foreign (hash : Identifier) : MicroBlock :=
  { hash, isFake := true, generateNodeList := {"2", "3"} }

end Scenario

namespace Executor

theorem sample_executes_once_content_first :
    ∃ e, run (step Scenario.sampled Scenario.keys) { id := "1", gm := Scenario.groups }
        [.batch [Scenario.single 1 0, Scenario.foreign 2], .batch [Scenario.foreign 3]] = .ok e ∧
      e.applied.map (fun a => a.microblock.hash) ++ e.mbs.map MicroBlock.hash =
        e.delivered.map MicroBlock.hash ∧
      e.applied.filterMap Applied.executedHash = [1] ∧
      (e.applied.filterMap Applied.executedHash).Nodup := by
  obtain ⟨e, hRun, hExecuted, hDelivered⟩ := Outcome.of_test
    (x := run (step Scenario.sampled Scenario.keys) { id := "1", gm := Scenario.groups }
      [.batch [Scenario.single 1 0, Scenario.foreign 2], .batch [Scenario.foreign 3]])
    (P := fun e => e.applied.filterMap Applied.executedHash = [1] ∧
      (e.delivered.map MicroBlock.hash).Nodup) (by decide)
  have hLine : Guarded (step Scenario.sampled Scenario.keys)
      (fun e event => event.KeepsLine Scenario.sampled e) { id := "1", gm := Scenario.groups }
      [.batch [Scenario.single 1 0, Scenario.foreign 2], .batch [Scenario.foreign 3]] := by
    decide
  obtain ⟨hOrder, hOnce⟩ := sample_executes_once rfl hLine hRun
  exact ⟨e, hRun, hOrder, hExecuted, hOnce hDelivered⟩

/-- A microblock behind a placeholder of others is executed twice, and the
placeholder is dropped without having been applied. -/
theorem placeholder_dropped :
    ∃ e, run (step Scenario.sampled Scenario.keys) { id := "1", gm := Scenario.groups }
        [.batch [Scenario.foreign 1, Scenario.single 2 0], .batch []] = .ok e ∧
      (e.delivered.map MicroBlock.hash).Nodup ∧
      ¬(e.applied.filterMap Applied.executedHash).Nodup ∧
      1 ∈ e.delivered.map MicroBlock.hash ∧ 1 ∉ e.mbs.map MicroBlock.hash ∧
      1 ∉ e.applied.map (fun a => a.microblock.hash) :=
  Outcome.of_test (by decide)

end Executor
end Bamboo
