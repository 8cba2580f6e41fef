import Bamboo.Execute.Sample
import Bamboo.Replica.Numbering

/-! Several replicas in one process. The executor and the group manager are variables of
their packages, set by the first replica that asks for them, so that all replicas of a
process work with the ones of the first. -/
namespace Bamboo

open Library

structure Process where
  executor : Option Executor := none
  groupManager : Option GroupManager := none
  /-- In the order of their construction. The executor they work with is the shared one. -/
  replicas : List Replica := []
  /-- The microblocks that `processCommittedBlock` handed over, and at which replica. -/
  handed : List (NodeID × MicroBlock) := []

namespace Process

def newGroupManager (cfg : Settings) (p : Process) (myId : NodeID) : GroupManager × Process :=
  match p.groupManager with
  | some gm => (gm, p)
  | none => (.new cfg myId, { p with groupManager := some (.new cfg myId) })

def newExecutor (cfg : Settings) (p : Process) (id : NodeID) : Executor × Process :=
  match p.executor with
  | some ex => (ex, p)
  | none =>
      let (gm, p) := p.newGroupManager cfg id
      ({ id, gm }, { p with executor := some { id, gm } })

/-- `NewReplica`, with a mempool of type "ack". -/
def newReplica (cfg : Settings) (p : Process) (id : NodeID) : Process :=
  let (ex, p) := p.newExecutor cfg id
  let (gm, p) := p.newGroupManager cfg id
  { p with replicas := p.replicas ++ [{ sm := .new cfg id gm, ex }] }

/-- The replicas of `ids`, constructed one after the other. -/
def start (cfg : Settings) (ids : List NodeID) : Process :=
  ids.foldl (newReplica cfg) {}

/-- The replica at a position does something, with the executor as the others left it. -/
def step (cfg : Settings) (keys : KeyRing) (p : Process) (event : Nat × Replica.ExecutionEvent) :
    Outcome Process :=
  match p.replicas[event.1]?, p.executor with
  | some r, some ex => do
      let r' ← { r with ex }.executionStep cfg keys event.2
      pure { p with
        executor := some r'.ex
        replicas := p.replicas.set event.1 r'
        handed := p.handed ++ (event.2.handsOver { r with ex }).map fun mb => (r.id, mb) }
  | _, _ => pure p

/-- What a replica handed over. -/
def handedBy (p : Process) (id : NodeID) : List MicroBlock :=
  (p.handed.filter fun entry => entry.1 = id).map Prod.snd

/-- The manager of a replica knows the groups of that replica, and its executor has its
id and receives what it hands over and nothing else. -/
structure Isolates (p : Process) (r : Replica) : Prop where
  groups : ∀ groupId, r.sm.gm.isInMyGroup groupId = true ↔
    r.sm.gm.isInGroup groupId r.id = .ok true
  executor : ∃ ex, p.executor = some ex ∧ ex.id = r.id ∧
    ex.delivered ++ ex.mbReceive.flatten = p.handedBy r.id

/-- The only replica of its process. -/
structure Alone (cfg : Settings) (id : NodeID) (p : Process) : Prop where
  replicas : ∃ r, p.replicas = [r] ∧ r.sm = .new cfg id (.new cfg id)
  executor : ∃ ex, p.executor = some ex ∧ ex.id = id ∧
    ex.delivered ++ ex.mbReceive.flatten = p.handed.map Prod.snd
  handed : ∀ entry ∈ p.handed, entry.1 = id

variable {cfg : Settings} {keys : KeyRing} {id : NodeID} {p p' : Process}

theorem Alone.isolates (h : Alone cfg id p) {r : Replica} (hMem : r ∈ p.replicas) :
    p.Isolates r := by
  obtain ⟨only, hOnly, hMempool⟩ := h.replicas
  rw [hOnly] at hMem
  cases List.mem_singleton.mp hMem
  have hId : r.id = id := congrArg AckMem.id hMempool
  obtain ⟨ex, hExecutor, hExId, hWay⟩ := h.executor
  refine ⟨fun groupId => ?_, ex, hExecutor, hExId.trans hId.symm, ?_⟩
  · rw [hId, hMempool]
    exact GroupManager.isInMyGroup_new cfg id groupId
  · have hAll : p.handed.filter (fun entry => entry.1 = r.id) = p.handed := by
      apply List.filter_eq_self.mpr
      intro entry hEntry
      rw [hId]
      exact decide_eq_true (h.handed entry hEntry)
    rw [hWay, handedBy, hAll]

/-- The events of the executor leave the mempool of the replica and the id alone. -/
theorem executionStep_frame {r r' : Replica} {event : Replica.ExecutionEvent}
    (h : r.executionStep cfg keys event = .ok r') : r'.sm = r.sm ∧ r'.ex.id = r.ex.id := by
  cases event with
  | commit mbs =>
      cases Outcome.pure_eq_ok.mp h
      exact ⟨rfl, rfl⟩
  | batch =>
      rcases Replica.handleBatch_cases h with rfl | ⟨batch, rest, ex, hChannel, hAdd, rfl⟩
      · exact ⟨rfl, rfl⟩
      · exact ⟨rfl, (Executor.addMbToExecute_shortens hAdd).id⟩
  | result result =>
      obtain ⟨ex, hResult, hDone⟩ := Outcome.bind_eq_ok.mp h
      cases Outcome.pure_eq_ok.mp hDone
      exact ⟨rfl, (Executor.handleResult_shortens hResult).id⟩
  | miss mb =>
      obtain ⟨ex, hMiss, hDone⟩ := Outcome.bind_eq_ok.mp h
      cases Outcome.pure_eq_ok.mp hDone
      rcases Executor.handleMiss_cases hMiss with hThread | rfl
      · exact ⟨rfl, (Executor.loopRelation_shortens.executeThread hThread).id⟩
      · exact ⟨rfl, rfl⟩

theorem Alone.step (h : Alone cfg id p) {event : Nat × Replica.ExecutionEvent}
    (hStep : p.step cfg keys event = .ok p') : Alone cfg id p' := by
  obtain ⟨r, hOnly, hMempool⟩ := h.replicas
  obtain ⟨ex, hExecutor, hExId, hWay⟩ := h.executor
  have hId : r.id = id := congrArg AckMem.id hMempool
  unfold Process.step at hStep
  rw [hExecutor, hOnly] at hStep
  cases hIndex : event.1 with
  | succ k =>
      rw [hIndex] at hStep
      cases Outcome.pure_eq_ok.mp hStep
      exact h
  | zero =>
      rw [hIndex] at hStep
      obtain ⟨r', hEvent, hDone⟩ := Outcome.bind_eq_ok.mp hStep
      cases Outcome.pure_eq_ok.mp hDone
      obtain ⟨hSm, hSameId⟩ := executionStep_frame hEvent
      refine ⟨⟨r', rfl, hSm.trans hMempool⟩, ⟨r'.ex, rfl, hSameId.trans hExId, ?_⟩, ?_⟩
      · have hAdded := Replica.executionStep_onTheWay hEvent
        rw [List.map_append, List.map_map, ← hWay]
        exact hAdded.trans (by simp [Replica.onTheWay, Function.comp_def])
      · intro entry hEntry
        rcases List.mem_append.mp hEntry with hOld | hNew
        · exact h.handed entry hOld
        · obtain ⟨mb, _, rfl⟩ := List.mem_map.mp hNew
          exact hId

theorem newGroupManager_frame (cfg : Settings) (p : Process) (id : NodeID) :
    (p.newGroupManager cfg id).2.executor = p.executor ∧
      (p.newGroupManager cfg id).2.replicas = p.replicas := by
  unfold newGroupManager
  cases p.groupManager with
  | some gm => exact ⟨rfl, rfl⟩
  | none => exact ⟨rfl, rfl⟩

/-- An executor that is there already stays. -/
theorem newExecutor_frame (cfg : Settings) (p : Process) (id : NodeID) :
    (p.newExecutor cfg id).2.replicas = p.replicas ∧
      ∀ ex, p.executor = some ex → (p.newExecutor cfg id).2.executor = some ex := by
  cases hExecutor : p.executor with
  | some ex => simp [newExecutor, hExecutor]
  | none =>
      refine ⟨?_, nofun⟩
      simp only [newExecutor, hExecutor]
      exact (newGroupManager_frame cfg p id).2

/-- A new replica is added under its id. -/
theorem newReplica_id (cfg : Settings) (p : Process) (id : NodeID) :
    (p.newReplica cfg id).replicas.map Replica.id = p.replicas.map Replica.id ++ [id] := by
  show List.map Replica.id
    (((p.newExecutor cfg id).2.newGroupManager cfg id).2.replicas ++ [_]) = _
  rw [(newGroupManager_frame cfg _ id).2, (newExecutor_frame cfg p id).1, List.map_append]
  rfl

/-- Every replica is there under its id. -/
theorem start_ids (cfg : Settings) (ids : List NodeID) :
    (start cfg ids).replicas.map Replica.id = ids := by
  have hFold : ∀ (ids : List NodeID) (p : Process),
      (ids.foldl (newReplica cfg) p).replicas.map Replica.id = p.replicas.map Replica.id ++ ids := by
    intro ids
    induction ids with
    | nil => simp
    | cons id ids ih =>
        intro p
        rw [List.foldl_cons, ih, newReplica_id, List.append_assoc]
        rfl
  exact hFold ids {}

theorem newReplica_executor {ex : Executor} (h : p.executor = some ex) (id : NodeID) :
    (p.newReplica cfg id).executor = some ex := by
  show ((p.newExecutor cfg id).2.newGroupManager cfg id).2.executor = some ex
  rw [(newGroupManager_frame cfg _ id).1]
  exact (newExecutor_frame cfg p id).2 ex h

/-- The executor of a process is that of its first replica. -/
theorem start_executor (cfg : Settings) (first : NodeID) (ids : List NodeID) :
    ∃ ex, (start cfg (first :: ids)).executor = some ex ∧ ex.id = first := by
  have hFold : ∀ (ids : List NodeID) (p : Process) (ex : Executor), p.executor = some ex →
      (ids.foldl (newReplica cfg) p).executor = some ex := by
    intro ids
    induction ids with
    | nil => exact fun _ _ h => h
    | cons id ids ih => exact fun p ex h => ih _ ex (newReplica_executor h id)
  exact ⟨{ id := first, gm := .new cfg first }, hFold ids _ _ rfl, rfl⟩

/-- The replicas of a process are isolated from each other, whatever they go on to do,
exactly when there is at most one. -/
theorem replicas_isolated_iff (cfg : Settings) (keys : KeyRing) {ids : List NodeID}
    (hDistinct : ids.Nodup) :
    (∀ events p, run (step cfg keys) (start cfg ids) events = .ok p →
        ∀ r ∈ p.replicas, p.Isolates r) ↔ ids.length ≤ 1 := by
  constructor
  · intro hIsolated
    match ids, hDistinct with
    | [], _ | [_], _ => simp
    | first :: second :: rest, hDistinct =>
        -- already before the first event, the executor has the wrong id for the second replica
        have hSecond : second ∈ (start cfg (first :: second :: rest)).replicas.map Replica.id := by
          rw [start_ids]
          simp
        obtain ⟨r, hMem, hId⟩ := List.mem_map.mp hSecond
        obtain ⟨ex, hExecutor, hExId, _⟩ := (hIsolated [] _ rfl r hMem).executor
        obtain ⟨ex', hExecutor', hFirst⟩ := start_executor cfg first (second :: rest)
        cases hExecutor.symm.trans hExecutor'
        have hSame : first = second := hFirst.symm.trans (hExId.trans hId)
        rw [hSame] at hDistinct
        simp at hDistinct
  · intro hOne events p hRun r hMem
    match ids, hOne with
    | [], _ =>
        have hNone : p.replicas = [] :=
          run_invariant (P := fun p => p.replicas = []) (fun p event p' h hStep => by
            unfold step at hStep
            rw [h] at hStep
            cases Outcome.pure_eq_ok.mp hStep
            exact h) hRun rfl
        rw [hNone] at hMem
        exact absurd hMem List.not_mem_nil
    | [id], _ =>
        have hAlone : Alone cfg id p :=
          run_invariant (fun _ _ _ h hStep => h.step hStep) hRun
            ⟨⟨_, rfl, rfl⟩, ⟨_, rfl, rfl, rfl⟩, fun _ hEntry => absurd hEntry List.not_mem_nil⟩
        exact hAlone.isolates hMem

theorem replicas_isolated_single :
    ∃ p, run (step Scenario.grouped Scenario.keys) (start Scenario.grouped ["3"])
        [(0, .commit [Scenario.single 5 0]), (0, .batch)] = .ok p ∧ p.replicas.length = 1 ∧
      ∀ r ∈ p.replicas, p.Isolates r := by
  obtain ⟨p, hRun, hOne⟩ := Outcome.of_test (P := fun p : Process => p.replicas.length = 1)
    (x := run (step Scenario.grouped Scenario.keys) (start Scenario.grouped ["3"])
      [(0, .commit [Scenario.single 5 0]), (0, .batch)]) (by decide)
  have hIsolated := (replicas_isolated_iff Scenario.grouped Scenario.keys
    (List.nodup_singleton "3")).mpr (Nat.le_refl 1)
  exact ⟨p, hRun, hOne, hIsolated _ p hRun⟩

/-- Node 3 is constructed after node 1: it takes the second group for its own, and the
microblock that it hands over is executed by node 1. -/
theorem replicas_share_executor :
    ∃ p, run (step Scenario.grouped Scenario.keys) (start Scenario.grouped ["1", "3"])
        [(1, .commit [Scenario.single 5 1]), (0, .batch)] = .ok p ∧
      p.replicas.map (fun r => (r.id, r.sm.gm.isInMyGroup 1)) = [("1", true), ("3", true)] ∧
      (GroupManager.new Scenario.grouped "3").isInGroup 1 "3" = .ok false ∧
      p.handed.map (fun entry => (entry.1, entry.2.hash)) = [("3", 5)] ∧
      p.executor.map (fun ex => (ex.id, ex.applied.filterMap Applied.executedHash)) =
        some ("1", [5]) :=
  Outcome.of_test (by decide)

end Process
end Bamboo
