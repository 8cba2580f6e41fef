import Bamboo.Execute.Executor
import Mathlib.Algebra.BigOperators.Group.List.Basic
import Mathlib.Algebra.Ring.Int.Defs

/-! How the executor consumes its queue. With groups, or without groups and
sampling, every call applies a front part of the queue, in order, and leaves
the rest. -/
namespace Bamboo

open Library

/-- The number of transactions a microblock had when it was applied. -/
def Applied.txNum (a : Applied) : Int :=
  a.microblock.txns.length

namespace Executor

/-- `now` has been applied and counted; nothing else but the queue, the records
of results and the outgoing messages may have changed. -/
structure Advance (now : List Applied) (e e' : Executor) : Prop where
  applied : e'.applied = e.applied ++ now
  total : e'.executedTxsTotal = e.executedTxsTotal + (now.map Applied.txNum).sum
  id : e'.id = e.id
  gm : e'.gm = e.gm
  delivered : e'.delivered = e.delivered
  mbReceive : e'.mbReceive = e.mbReceive
  missReceive : e'.missReceive = e.missReceive

namespace Advance

variable {now later : List Applied} {e e' e'' : Executor}

theorem refl (e : Executor) : Advance [] e e :=
  ⟨by simp, by simp, rfl, rfl, rfl, rfl, rfl⟩

theorem trans (h : Advance now e e') (h' : Advance later e' e'') :
    Advance (now ++ later) e e'' where
  applied := by rw [h'.applied, h.applied, List.append_assoc]
  total := by
    rw [h'.total, h.total, List.map_append, List.sum_append]
    omega
  id := h'.id.trans h.id
  gm := h'.gm.trans h.gm
  delivered := h'.delivered.trans h.delivered
  mbReceive := h'.mbReceive.trans h.mbReceive
  missReceive := h'.missReceive.trans h.missReceive

/-- The queue, the records and the messages are free. -/
theorem frame (h : Advance now e e') (mbs : List MicroBlock)
    (done : Table Int (Table NodeID Signature)) (outbox : List Outgoing) :
    Advance now e { e' with mbs, done, outbox } :=
  ⟨h.applied, h.total, h.id, h.gm, h.delivered, h.mbReceive, h.missReceive⟩

end Advance

theorem foldl_countTx (e : Executor) (txns : List Transaction) :
    txns.foldl (fun e _ => e.countTx) e =
      { e with executedTxsTotal := e.executedTxsTotal + txns.length } := by
  induction txns generalizing e with
  | nil => simp
  | cons tx txns ih =>
      rw [List.foldl_cons, ih]
      simp only [countTx, List.length_cons]
      congr 1
      push_cast
      omega

theorem foldl_execute (e : Executor) (txns : List Transaction) :
    ∃ state, txns.foldl (fun e _ => ((e.credit "1").credit "2").countTx) e =
      { e with state, executedTxsTotal := e.executedTxsTotal + txns.length } := by
  induction txns generalizing e with
  | nil => exact ⟨e.state, by simp⟩
  | cons tx txns ih =>
      obtain ⟨state, hState⟩ := ih (((e.credit "1").credit "2").countTx)
      refine ⟨state, ?_⟩
      rw [List.foldl_cons, hState]
      simp only [countTx, credit, List.length_cons]
      congr 1
      push_cast
      omega

theorem execute_spec (e : Executor) (mb : MicroBlock) :
    Advance [.executed mb] e (e.execute mb) ∧ (e.execute mb).mbs = e.mbs ∧
      (e.execute mb).outbox = e.outbox := by
  obtain ⟨state, hState⟩ := foldl_execute e mb.txns
  unfold execute
  rw [hState]
  exact ⟨⟨rfl, by simp [Applied.txNum, Applied.microblock], rfl, rfl, rfl, rfl, rfl⟩, rfl, rfl⟩

theorem updateState_spec (e : Executor) (mb : MicroBlock) :
    Advance [.updated mb] e (e.updateState mb) ∧ (e.updateState mb).outbox = e.outbox := by
  unfold updateState
  rw [foldl_countTx]
  exact ⟨⟨rfl, by simp [Applied.txNum, Applied.microblock], rfl, rfl, rfl, rfl, rfl⟩, rfl⟩

/-- A result is sent and nothing else happens. -/
theorem stateBroadcast_spec {members : MicroBlock → Outcome (Finset NodeID)} {e e' : Executor}
    {curIndex : Nat} {result : ExecuteResult}
    (h : e.stateBroadcast members curIndex result = .ok e') :
    ∃ recipients, e' = e.send (.result recipients result) := by
  unfold stateBroadcast at h
  obtain ⟨_, _, h⟩ := Outcome.bind_eq_ok.mp h
  by_cases hLast : (curIndex : Int) ≠ e.mbs.length - 1
  · rw [if_pos hLast] at h
    obtain ⟨_, _, h⟩ := Outcome.bind_eq_ok.mp h
    obtain ⟨_, _, h⟩ := Outcome.bind_eq_ok.mp h
    obtain ⟨_, _, h⟩ := Outcome.bind_eq_ok.mp h
    exact ⟨_, (Outcome.pure_eq_ok.mp h).symm⟩
  · rw [if_neg hLast] at h
    exact ⟨_, (Outcome.pure_eq_ok.mp h).symm⟩

variable {cfg : Settings} {keys : KeyRing} {e e' : Executor}

/-- With groups, a microblock can be executed here. -/
def Runnable (e : Executor) (mb : MicroBlock) : Prop :=
  e.gm.isInMyGroup mb.groupId = true ∧ mb.isFake = false

section Loops

variable {curIndex successNum last : Nat} {mb : MicroBlock} {rest : List MicroBlock}

/-- One turn of the group loop. -/
theorem executeGroup_cons
    (h : e.executeGroup keys curIndex successNum (mb :: rest) = .ok (e', last)) :
    (e.Runnable mb ∧ ∃ recipients result, ((e.execute mb).send (.result recipients result)).executeGroup
        keys (curIndex + 1) (successNum + 1) rest = .ok (e', last)) ∨
      (¬e.Runnable mb ∧ last = successNum ∧
        (e' = e ∨ e' = e.send (.missingRequest ∅ mb.hash))) := by
  unfold executeGroup at h
  by_cases hMine : e.gm.isInMyGroup mb.groupId = true
  · rw [if_pos hMine] at h
    cases hFake : mb.isFake with
    | true =>
        rw [if_pos hFake] at h
        cases Outcome.pure_eq_ok.mp h
        exact Or.inr ⟨by simp [Runnable, hFake], rfl, Or.inr rfl⟩
    | false =>
        rw [if_neg (by simp [hFake])] at h
        obtain ⟨result, _, h⟩ := Outcome.bind_eq_ok.mp h
        obtain ⟨sent, hSent, h⟩ := Outcome.bind_eq_ok.mp h
        obtain ⟨recipients, rfl⟩ := stateBroadcast_spec hSent
        exact Or.inl ⟨⟨hMine, hFake⟩, recipients, result, h⟩
  · rw [if_neg hMine] at h
    cases Outcome.pure_eq_ok.mp h
    exact Or.inr ⟨by simp [Runnable, hMine], rfl, Or.inl rfl⟩

/-- One turn of the sampling loop. -/
theorem executeSample_cons
    (h : e.executeSample keys curIndex successNum (mb :: rest) = .ok (e', last)) :
    (mb.isFake = false ∧ ∃ recipients result,
        ((e.execute mb).send (.result recipients result)).executeSample keys (curIndex + 1)
          (successNum + 1) rest = .ok (e', last)) ∨
      (mb.isFake = true ∧ e.id ∉ mb.generateNodeList ∧
        e.executeSample keys (curIndex + 1) successNum rest = .ok (e', last)) ∨
      (mb.isFake = true ∧ e.id ∈ mb.generateNodeList ∧ last = successNum ∧
        e' = e.send (.missingRequest mb.generateNodeList mb.hash)) := by
  unfold executeSample at h
  cases hFake : mb.isFake with
  | true =>
      rw [if_pos hFake] at h
      by_cases hMine : e.id ∈ mb.generateNodeList
      · rw [if_pos hMine] at h
        cases Outcome.pure_eq_ok.mp h
        exact Or.inr (Or.inr ⟨rfl, hMine, rfl, rfl⟩)
      · rw [if_neg hMine] at h
        exact Or.inr (Or.inl ⟨rfl, hMine, h⟩)
  | false =>
      rw [if_neg (by simp [hFake])] at h
      obtain ⟨result, _, h⟩ := Outcome.bind_eq_ok.mp h
      obtain ⟨sent, hSent, h⟩ := Outcome.bind_eq_ok.mp h
      obtain ⟨recipients, rfl⟩ := stateBroadcast_spec hSent
      exact Or.inl ⟨rfl, recipients, result, h⟩

end Loops

/-- The loop of the mode, which cuts the queue by what it has executed. -/
theorem executeThread_cases (h : e.executeThread cfg keys = .ok e') :
    (cfg.broadcastByGroup = true ∧ ∃ last successNum,
        e.executeGroup keys 0 0 e.mbs = .ok (last, successNum) ∧
        e' = { last with mbs := last.mbs.drop successNum }) ∨
      (cfg.broadcastByGroup = false ∧ cfg.broadcastBySample = true ∧ ∃ last successNum,
        e.executeSample keys 0 0 e.mbs = .ok (last, successNum) ∧
        e' = { last with mbs := last.mbs.drop successNum }) ∨
      (cfg.broadcastByGroup = false ∧ cfg.broadcastBySample = false ∧
        e' = e.executePlain e.mbs) := by
  unfold executeThread at h
  cases hGroup : cfg.broadcastByGroup with
  | true =>
      rw [if_pos hGroup] at h
      obtain ⟨⟨last, successNum⟩, hLoop, hDone⟩ := Outcome.bind_eq_ok.mp h
      exact Or.inl ⟨rfl, last, successNum, hLoop, (Outcome.pure_eq_ok.mp hDone).symm⟩
  | false =>
      rw [if_neg (by simp [hGroup])] at h
      cases hSample : cfg.broadcastBySample with
      | true =>
          rw [if_pos hSample] at h
          obtain ⟨⟨last, successNum⟩, hLoop, hDone⟩ := Outcome.bind_eq_ok.mp h
          exact Or.inr (Or.inl ⟨rfl, rfl, last, successNum, hLoop,
            (Outcome.pure_eq_ok.mp hDone).symm⟩)
      | false =>
          rw [if_neg (by simp [hSample])] at h
          exact Or.inr (Or.inr ⟨rfl, rfl, (Outcome.pure_eq_ok.mp h).symm⟩)

/-- A relation that contains everything the execution loops do: execute, send, and cut
the queue at its front. -/
structure LoopRelation (R : Executor → Executor → Prop) : Prop where
  refl : ∀ e, R e e
  trans : ∀ {e e' e''}, R e e' → R e' e'' → R e e''
  execute : ∀ e mb, R e (e.execute mb)
  send : ∀ e message, R e (e.send message)
  drop : ∀ (e : Executor) count, R e { e with mbs := e.mbs.drop count }

namespace LoopRelation

variable {R : Executor → Executor → Prop} (hR : LoopRelation R)

include hR

theorem executeGroup {curIndex successNum last : Nat} {list : List MicroBlock}
    (h : e.executeGroup keys curIndex successNum list = .ok (e', last)) : R e e' := by
  induction list generalizing e curIndex successNum with
  | nil =>
      cases Outcome.pure_eq_ok.mp h
      exact hR.refl _
  | cons mb rest ih =>
      rcases executeGroup_cons h with ⟨_, recipients, result, hLater⟩ | ⟨_, _, rfl | rfl⟩
      · exact hR.trans (hR.trans (hR.execute e mb) (hR.send _ _)) (ih hLater)
      · exact hR.refl _
      · exact hR.send e _

theorem executeSample {curIndex successNum last : Nat} {list : List MicroBlock}
    (h : e.executeSample keys curIndex successNum list = .ok (e', last)) : R e e' := by
  induction list generalizing e curIndex successNum with
  | nil =>
      cases Outcome.pure_eq_ok.mp h
      exact hR.refl _
  | cons mb rest ih =>
      rcases executeSample_cons h with
        ⟨_, recipients, result, hLater⟩ | ⟨_, _, hLater⟩ | ⟨_, _, _, rfl⟩
      · exact hR.trans (hR.trans (hR.execute e mb) (hR.send _ _)) (ih hLater)
      · exact ih hLater
      · exact hR.send e _

theorem executePlain (e : Executor) (list : List MicroBlock) : R e (e.executePlain list) := by
  induction list generalizing e with
  | nil => exact hR.refl e
  | cons mb rest ih =>
      unfold Executor.executePlain
      cases hFake : mb.isFake with
      | true => exact hR.refl e
      | false => exact hR.trans (hR.trans (hR.execute e mb) (hR.drop _ 1)) (ih _)

/-- In each of the three modes. -/
theorem executeThread (h : e.executeThread cfg keys = .ok e') : R e e' := by
  rcases executeThread_cases h with ⟨_, last, successNum, hLoop, rfl⟩ |
    ⟨_, _, last, successNum, hLoop, rfl⟩ | ⟨_, _, rfl⟩
  · exact hR.trans (hR.executeGroup hLoop) (hR.drop last successNum)
  · exact hR.trans (hR.executeSample hLoop) (hR.drop last successNum)
  · exact hR.executePlain e e.mbs

end LoopRelation

/-- The group loop executes the front part of the list that can be executed here, and
leaves the queue. -/
theorem executeGroup_spec {curIndex successNum last : Nat} {list : List MicroBlock}
    (h : e.executeGroup keys curIndex successNum list = .ok (e', last)) :
    ∃ front rest, list = front ++ rest ∧ last = successNum + front.length ∧
      e'.mbs = e.mbs ∧ Advance (front.map .executed) e e' ∧
      (∀ mb ∈ front, e.Runnable mb) ∧ ∀ mb ∈ rest.head?, ¬e.Runnable mb := by
  induction list generalizing e curIndex successNum with
  | nil =>
      cases Outcome.pure_eq_ok.mp h
      exact ⟨[], [], rfl, rfl, rfl, .refl _, by simp, by simp⟩
  | cons mb rest ih =>
      rcases executeGroup_cons h with ⟨hHere, recipients, result, hLater⟩ | ⟨hNot, rfl, hSame⟩
      · obtain ⟨front, back, rfl, rfl, hQueue, hAdvance, hFront, hBack⟩ := ih hLater
        obtain ⟨hExecuted, hSame, _⟩ := execute_spec e mb
        have hRunnable : ∀ other, ((e.execute mb).send (.result recipients result)).Runnable other ↔
            e.Runnable other := by
          intro other
          show (e.execute mb).gm.isInMyGroup other.groupId = true ∧ _ ↔ _
          rw [hExecuted.gm]
          rfl
        simp only [hRunnable] at hFront hBack
        refine ⟨mb :: front, back, rfl, by simp only [List.length_cons]; omega, ?_, ?_, ?_, hBack⟩
        · exact hQueue.trans hSame
        · exact (hExecuted.frame (e.execute mb).mbs (e.execute mb).done _).trans hAdvance
        · exact List.forall_mem_cons.mpr ⟨hHere, hFront⟩
      · have hStop : ∀ other ∈ (mb :: rest).head?, ¬e.Runnable other := by simpa using hNot
        rcases hSame with rfl | rfl
        · exact ⟨[], mb :: rest, rfl, rfl, rfl, .refl _, by simp, hStop⟩
        · exact ⟨[], mb :: rest, rfl, rfl, rfl, (Advance.refl e).frame _ _ _, by simp, hStop⟩

/-- The plain loop executes a front part of the list, shortens the queue by it and
sends nothing. -/
theorem executePlain_spec (e : Executor) (list : List MicroBlock) :
    ∃ front rest, list = front ++ rest ∧
      (e.executePlain list).mbs = e.mbs.drop front.length ∧
      (e.executePlain list).outbox = e.outbox ∧
      Advance (front.map .executed) e (e.executePlain list) := by
  induction list generalizing e with
  | nil => exact ⟨[], [], rfl, rfl, rfl, .refl e⟩
  | cons mb rest ih =>
      unfold executePlain
      cases hFake : mb.isFake with
      | true =>
          rw [if_pos rfl]
          exact ⟨[], mb :: rest, rfl, rfl, rfl, .refl e⟩
      | false =>
          rw [if_neg (by simp)]
          obtain ⟨hExecuted, hSame, hOutbox⟩ := execute_spec e mb
          obtain ⟨front, back, rfl, hQueue, hSent, hAdvance⟩ :=
            ih { e.execute mb with mbs := (e.execute mb).mbs.drop 1 }
          refine ⟨mb :: front, back, rfl, ?_, hSent.trans hOutbox, ?_⟩
          · rw [hQueue, hSame, List.drop_drop, List.length_cons, Nat.add_comm]
          · exact (hExecuted.frame _ (e.execute mb).done (e.execute mb).outbox).trans hAdvance

/-- Confirmed microblocks are taken off the front of the queue. -/
theorem applyHeads_spec {count : Nat} (h : e.applyHeads count = .ok e') :
    ∃ front, e.mbs = front ++ e'.mbs ∧ front.length = count ∧ e'.outbox = e.outbox ∧
      Advance (front.map .updated) e e' := by
  induction count generalizing e with
  | zero =>
      cases Outcome.pure_eq_ok.mp h
      exact ⟨[], rfl, rfl, rfl, .refl _⟩
  | succ count ih =>
      unfold applyHeads at h
      cases hQueue : e.mbs with
      | nil =>
          rw [hQueue] at h
          cases h
      | cons mb rest =>
          rw [hQueue] at h
          obtain ⟨front, hRest, hLength, hSent, hAdvance⟩ := ih h
          obtain ⟨hUpdated, hOutbox⟩ := updateState_spec e mb
          refine ⟨mb :: front, ?_, congrArg (· + 1) hLength, hSent.trans hOutbox, ?_⟩
          · rw [List.cons_append, ← hRest]
          · exact (hUpdated.frame rest _ (e.updateState mb).outbox).trans hAdvance

/-- A front part of the queue has been applied, in order, and the rest is left. -/
def Consumes (e e' : Executor) : Prop :=
  ∃ now, e.mbs = now.map Applied.microblock ++ e'.mbs ∧ Advance now e e'

theorem Consumes.refl (e : Executor) : e.Consumes e :=
  ⟨[], rfl, .refl e⟩

theorem Consumes.trans {e'' : Executor} (h : e.Consumes e') (h' : e'.Consumes e'') :
    e.Consumes e'' := by
  obtain ⟨now, hQueue, hAdvance⟩ := h
  obtain ⟨later, hQueue', hAdvance'⟩ := h'
  exact ⟨now ++ later, by simp [hQueue, hQueue'], hAdvance.trans hAdvance'⟩

theorem Consumes.delivered_eq (h : e.Consumes e') : e'.delivered = e.delivered := by
  obtain ⟨_, _, hAdvance⟩ := h
  exact hAdvance.delivered

theorem Consumes.mbReceive_eq (h : e.Consumes e') : e'.mbReceive = e.mbReceive := by
  obtain ⟨_, _, hAdvance⟩ := h
  exact hAdvance.mbReceive

theorem map_microblock_updated (mbs : List MicroBlock) :
    (mbs.map Applied.updated).map Applied.microblock = mbs := by
  simp [Function.comp_def, Applied.microblock]

theorem map_microblock_executed (mbs : List MicroBlock) :
    (mbs.map Applied.executed).map Applied.microblock = mbs := by
  simp [Function.comp_def, Applied.microblock]

theorem executeThread_consumes (hMode : cfg.broadcastByGroup = true ∨ cfg.broadcastBySample = false)
    (h : e.executeThread cfg keys = .ok e') : e.Consumes e' := by
  rcases executeThread_cases h with ⟨_, last, successNum, hLoop, rfl⟩ |
    ⟨hGroup, hSample, _⟩ | ⟨_, _, rfl⟩
  · obtain ⟨front, rest, hSplit, rfl, hQueue, hAdvance, _⟩ := executeGroup_spec hLoop
    refine ⟨front.map .executed, ?_, hAdvance.frame _ last.done last.outbox⟩
    simp only [map_microblock_executed, hQueue, Nat.zero_add]
    rw [hSplit, List.drop_left]
  · simp [hGroup, hSample] at hMode
  · obtain ⟨front, rest, hSplit, hQueue, _, hAdvance⟩ := executePlain_spec e e.mbs
    refine ⟨front.map .executed, ?_, hAdvance⟩
    rw [map_microblock_executed, hQueue, hSplit, List.drop_left]

theorem applyHeads_consumes {count : Nat} (h : e.applyHeads count = .ok e') : e.Consumes e' := by
  obtain ⟨front, hQueue, _, _, hAdvance⟩ := applyHeads_spec h
  exact ⟨front.map .updated, by rw [map_microblock_updated, hQueue], hAdvance⟩

/-- Recording a result touches only the records. -/
theorem recordDone_spec (cfg : Settings) (result : ExecuteResult) (count : Nat) (i : Int)
    (e : Executor) (high : Int) :
    ∃ done, (recordDone cfg result count i e high).1 = { e with done } := by
  induction count generalizing i e high with
  | zero => exact ⟨e.done, rfl⟩
  | succ count ih => exact ih (i + 1) _ _

/-- A result is recorded; when it confirms something, that is taken off the queue
and the loop runs. -/
theorem handleResult_cases {result : ExecuteResult}
    (h : e.handleResult cfg keys result = .ok e') :
    ∃ done, e' = { e with done } ∨
      ∃ count middle, { e with done }.applyHeads count = .ok middle ∧
        middle.executeThread cfg keys = .ok e' := by
  unfold handleResult at h
  obtain ⟨done, hDone⟩ := recordDone_spec cfg result result.no.toNat 1 e 0
  refine ⟨done, ?_⟩
  dsimp only at h
  rw [hDone] at h
  by_cases hHigh : (recordDone cfg result result.no.toNat 1 e 0).2 ≠ 0
  · rw [if_pos hHigh] at h
    obtain ⟨middle, hApplied, hThread⟩ := Outcome.bind_eq_ok.mp h
    exact Or.inr ⟨_, middle, hApplied, hThread⟩
  · rw [if_neg hHigh] at h
    exact Or.inl (Outcome.pure_eq_ok.mp h).symm

theorem handleResult_consumes
    (hMode : cfg.broadcastByGroup = true ∨ cfg.broadcastBySample = false)
    {result : ExecuteResult} (h : e.handleResult cfg keys result = .ok e') : e.Consumes e' := by
  obtain ⟨done, hCases⟩ := handleResult_cases h
  have hRecorded : e.Consumes { e with done } :=
    ⟨[], rfl, (Advance.refl e).frame e.mbs done e.outbox⟩
  rcases hCases with rfl | ⟨count, middle, hApplied, hThread⟩
  · exact hRecorded
  · exact (hRecorded.trans (applyHeads_consumes hApplied)).trans
      (executeThread_consumes hMode hThread)

theorem applyConfirmed_consumes (h : e.applyConfirmed cfg = .ok e') : e.Consumes e' := by
  unfold applyConfirmed at h
  by_cases hGroup : cfg.broadcastByGroup = true
  · rw [if_pos hGroup] at h
    exact applyHeads_consumes h
  · rw [if_neg hGroup] at h
    cases Outcome.pure_eq_ok.mp h
    exact .refl _

theorem addMbToExecute_consumes
    (hMode : cfg.broadcastByGroup = true ∨ cfg.broadcastBySample = false)
    {batch : List MicroBlock} (h : e.addMbToExecute cfg keys batch = .ok e') :
    (e.enqueue batch).Consumes e' := by
  obtain ⟨middle, hApplied, hThread⟩ := Outcome.bind_eq_ok.mp h
  exact (applyConfirmed_consumes hApplied).trans (executeThread_consumes hMode hThread)

/-- A placeholder is replaced by a microblock with its hash. -/
theorem replaceMissing_hashes (e : Executor) (mb : MicroBlock) :
    (e.replaceMissing mb).mbs.map MicroBlock.hash = e.mbs.map MicroBlock.hash := by
  simp only [replaceMissing, List.map_map]
  refine List.map_congr_left fun mbp _ => ?_
  simp only [Function.comp_apply]
  by_cases hMissing : isMissing mb mbp = true
  · rw [if_pos hMissing]
    simp only [isMissing, Bool.and_eq_true, decide_eq_true_eq] at hMissing
    exact hMissing.1.symm
  · rw [if_neg hMissing]

theorem handleMiss_cases {mb : MicroBlock} (h : e.handleMiss cfg keys mb = .ok e') :
    (e.replaceMissing mb).executeThread cfg keys = .ok e' ∨ e' = e := by
  unfold handleMiss at h
  by_cases hFound : e.mbs.any (isMissing mb) = true
  · rw [if_pos hFound] at h
    exact Or.inl h
  · rw [if_neg hFound] at h
    exact Or.inr (Outcome.pure_eq_ok.mp h).symm

theorem lastIndexWhere_snoc (p : MicroBlock → Bool) (list : List MicroBlock) (mb : MicroBlock)
    (index found : Int) : lastIndexWhere p (list ++ [mb]) index found =
      if p mb then index + list.length else lastIndexWhere p list index found := by
  induction list generalizing index found with
  | nil =>
      rw [List.length_nil, Int.natCast_zero, Int.add_zero]
      rfl
  | cons first rest ih =>
      rw [List.cons_append, lastIndexWhere, ih, List.length_cons]
      push_cast
      rw [Int.add_assoc, Int.add_comm 1]
      rfl

/-- The position that is found ends a front part, after which the test fails. -/
theorem lastIndexWhere_split (p : MicroBlock → Bool) (list : List MicroBlock) :
    ∃ front rest, list = front ++ rest ∧
      (lastIndexWhere p list 0 (-1) + 1).toNat = front.length ∧
      (∀ mb ∈ front.getLast?, p mb = true) ∧ ∀ mb ∈ rest, p mb = false := by
  induction list using List.reverseRecOn with
  | nil => exact ⟨[], [], rfl, rfl, by simp, by simp⟩
  | append_singleton list mb ih =>
      rw [lastIndexWhere_snoc]
      cases hTest : p mb with
      | true =>
          refine ⟨list ++ [mb], [], (List.append_nil _).symm, ?_, by simp [hTest], by simp⟩
          rw [if_pos rfl, List.length_append, List.length_singleton]
          omega
      | false =>
          obtain ⟨front, rest, rfl, hLength, hFront, hRest⟩ := ih
          refine ⟨front, rest ++ [mb], List.append_assoc _ _ _, hLength, hFront, fun other hMem => ?_⟩
          rcases List.mem_append.mp hMem with hOld | hNew
          · exact hRest other hOld
          · cases List.mem_singleton.mp hNew
            exact hTest

/-- Taking microblocks off the queue does not run past its end. -/
theorem applyHeads_returns {count : Nat} (h : count ≤ e.mbs.length) :
    ∃ e', e.applyHeads count = .ok e' := by
  induction count generalizing e with
  | zero => exact ⟨e, rfl⟩
  | succ count ih =>
      unfold applyHeads
      cases hQueue : e.mbs with
      | nil => simp [hQueue] at h
      | cons mb rest =>
          refine ih ?_
          rw [hQueue, List.length_cons] at h
          exact Nat.le_of_succ_le_succ h

theorem applyHeads_lastIndexWhere_returns (e : Executor) (p : MicroBlock → Bool) :
    ∃ e', e.applyHeads (lastIndexWhere p e.mbs 0 (-1) + 1).toNat = .ok e' := by
  obtain ⟨front, rest, hQueue, hLength, _, _⟩ := lastIndexWhere_split p e.mbs
  refine applyHeads_returns ?_
  rw [hLength, hQueue, List.length_append]
  exact Nat.le_add_right _ _

/-- What is taken over ends with the last microblock that passes the test. -/
theorem applyHeads_last {p : MicroBlock → Bool}
    (h : e.applyHeads (lastIndexWhere p e.mbs 0 (-1) + 1).toNat = .ok e') :
    ∃ front, e.mbs = front ++ e'.mbs ∧ Advance (front.map .updated) e e' ∧
      (∀ mb ∈ front.getLast?, p mb = true) ∧ ∀ mb ∈ e'.mbs, p mb = false := by
  obtain ⟨front, hQueue, hCount, _, hAdvance⟩ := applyHeads_spec h
  obtain ⟨front', rest, hQueue', hLength, hFront, hRest⟩ := lastIndexWhere_split p e.mbs
  obtain ⟨rfl, rfl⟩ := List.append_inj (hQueue.symm.trans hQueue') (hCount.trans hLength)
  exact ⟨front, hQueue, hAdvance, hFront, hRest⟩

end Executor
end Bamboo
