import Bamboo.Replica.Confirmation

/-! What a call of the executor with groups does to the queue, and which results it sends. A
front part of the queue is taken over, then a front part of the rest is executed; the result for
a microblock goes to those who hold the next one and not this one, and to all others after the
last. -/
namespace Bamboo

open Library

namespace Executor

/-- Who is sent the result for the microblock at a place of the queue. -/
def Addresses (gm : GroupManager) (queue : List MicroBlock) (i : Nat)
    (recipients : Option (Finset NodeID)) : Prop :=
  match queue[i + 1]? with
  | none => recipients = none
  | some next => ∃ mb current later, queue[i]? = some mb ∧
      gm.getGroupListByGroupId mb.groupId = .ok current ∧
      gm.getGroupListByGroupId next.groupId = .ok later ∧ recipients = some (later \ current)

/-- The report about the microblock at a place of the queue. -/
def Reports (keys : KeyRing) (id : NodeID) (gm : GroupManager) (queue : List MicroBlock) (i : Nat)
    (message : Outgoing) : Prop :=
  ∃ mb sig recipients, queue[i]? = some mb ∧ keys.privSign mb.hash id = .ok sig ∧
    Addresses gm queue i recipients ∧
    message = .result recipients { propsalId := id, sig, mb := mb.hash, no := mb.committedNo }

variable {cfg : Settings} {keys : KeyRing} {e e' middle : Executor}

theorem stateBroadcastByGroup_addresses {curIndex : Nat} {result : ExecuteResult}
    (h : e.stateBroadcastByGroup curIndex result = .ok e') :
    ∃ recipients, e' = e.send (.result recipients result) ∧
      Addresses e.gm e.mbs curIndex recipients := by
  unfold stateBroadcastByGroup stateBroadcast at h
  obtain ⟨mb, hMb, h⟩ := Outcome.bind_eq_ok.mp h
  have hHere := Outcome.index_eq_ok.mp hMb
  have hBound := (List.getElem?_eq_some_iff.mp hHere).1
  unfold Addresses
  by_cases hLast : (curIndex : Int) ≠ e.mbs.length - 1
  · rw [if_pos hLast] at h
    obtain ⟨next, hNext, h⟩ := Outcome.bind_eq_ok.mp h
    obtain ⟨current, hCurrent, h⟩ := Outcome.bind_eq_ok.mp h
    obtain ⟨later, hLater, h⟩ := Outcome.bind_eq_ok.mp h
    have hThere : e.mbs[curIndex + 1]? = some next :=
      Outcome.index_eq_ok.mp (show Outcome.index e.mbs ((curIndex + 1 : Nat) : Int) = _ from hNext)
    rw [hThere]
    exact ⟨_, (Outcome.pure_eq_ok.mp h).symm, mb, current, later, hHere, hCurrent, hLater, rfl⟩
  · rw [if_neg hLast] at h
    have hNone : e.mbs[curIndex + 1]? = none := List.getElem?_eq_none (by omega)
    rw [hNone]
    exact ⟨_, (Outcome.pure_eq_ok.mp h).symm, rfl⟩

/-- The group loop sends a report about each microblock that it executes, and no other. -/
theorem executeGroup_reports {curIndex successNum last : Nat} {list : List MicroBlock}
    (hList : e.mbs.drop curIndex = list)
    (h : e.executeGroup keys curIndex successNum list = .ok (e', last)) :
    ∃ count messages, last = successNum + count ∧ e'.outbox = e.outbox ++ messages ∧
      (∀ i < count, ∃ message ∈ messages, Reports keys e.id e.gm e.mbs (curIndex + i) message) ∧
      ∀ recipients result, .result recipients result ∈ messages → ∃ i < count,
        Reports keys e.id e.gm e.mbs (curIndex + i) (.result recipients result) := by
  induction list generalizing e curIndex successNum with
  | nil =>
      cases Outcome.pure_eq_ok.mp h
      exact ⟨0, [], rfl, (List.append_nil _).symm, fun i hi => absurd hi (Nat.not_lt_zero i),
        fun _ _ hMem => absurd hMem List.not_mem_nil⟩
  | cons mb rest ih =>
      unfold executeGroup at h
      by_cases hMine : e.gm.isInMyGroup mb.groupId = true
      · rw [if_pos hMine] at h
        cases hFake : mb.isFake with
        | true =>
            rw [if_pos hFake] at h
            cases Outcome.pure_eq_ok.mp h
            refine ⟨0, [.missingRequest ∅ mb.hash], rfl, rfl,
              fun i hi => absurd hi (Nat.not_lt_zero i), fun recipients result hMem => ?_⟩
            cases List.mem_singleton.mp hMem
        | false =>
            rw [if_neg (by simp [hFake])] at h
            obtain ⟨result, hResult, h⟩ := Outcome.bind_eq_ok.mp h
            obtain ⟨sent, hSent, hLoop⟩ := Outcome.bind_eq_ok.mp h
            obtain ⟨sig, hSig, hSigned⟩ := Outcome.bind_eq_ok.mp hResult
            cases Outcome.pure_eq_ok.mp hSigned
            obtain ⟨recipients, hMessage, hAddresses⟩ := stateBroadcastByGroup_addresses hSent
            obtain ⟨hExecuted, hQueue, hOutbox⟩ := execute_spec e mb
            rw [hExecuted.gm, hQueue] at hAddresses
            rw [hExecuted.id] at hSig hMessage
            have hId : sent.id = e.id := by rw [hMessage]; exact hExecuted.id
            have hGm : sent.gm = e.gm := by rw [hMessage]; exact hExecuted.gm
            have hMbs : sent.mbs = e.mbs := by rw [hMessage]; exact hQueue
            have hHere : e.mbs[curIndex]? = some mb := by
              rw [← List.head?_drop, hList, List.head?_cons]
            have hRest : sent.mbs.drop (curIndex + 1) = rest := by
              rw [hMbs, ← List.tail_drop, hList, List.tail_cons]
            obtain ⟨count, messages, rfl, hLater, hAll, hOnly⟩ := ih hRest hLoop
            rw [hId, hGm, hMbs] at hAll hOnly
            have hFirst : Reports keys e.id e.gm e.mbs (curIndex + 0) (.result recipients
                { propsalId := e.id, sig, mb := mb.hash, no := mb.committedNo }) :=
              ⟨mb, sig, recipients, hHere, hSig, hAddresses, rfl⟩
            refine ⟨count + 1, .result recipients
              { propsalId := e.id, sig, mb := mb.hash, no := mb.committedNo } :: messages,
              by omega, ?_, fun i hi => ?_, fun others result hMem => ?_⟩
            · rw [hLater, hMessage, send, hOutbox, List.append_assoc]
              rfl
            · cases i with
              | zero => exact ⟨_, List.mem_cons_self, hFirst⟩
              | succ i =>
                  obtain ⟨message, hMem, hReport⟩ := hAll i (by omega)
                  rw [Nat.add_right_comm] at hReport
                  exact ⟨message, List.mem_cons_of_mem _ hMem, hReport⟩
            · rcases List.mem_cons.mp hMem with hNew | hOld
              · exact ⟨0, Nat.succ_pos count, hNew ▸ hFirst⟩
              · obtain ⟨i, hi, hReport⟩ := hOnly others result hOld
                rw [Nat.add_right_comm] at hReport
                exact ⟨i + 1, by omega, hReport⟩
      · rw [if_neg hMine] at h
        cases Outcome.pure_eq_ok.mp h
        exact ⟨0, [], rfl, (List.append_nil _).symm, fun i hi => absurd hi (Nat.not_lt_zero i),
          fun _ _ hMem => absurd hMem List.not_mem_nil⟩

/-- The nodes that a call records for a number. -/
def Call.reporters (no : Int) : Call → Finset NodeID
  | .addMbToExecute _ => ∅
  | .handleResult result => if 1 ≤ no ∧ no ≤ result.no then {result.propsalId} else ∅

/-- What a call does: `taken` is taken over and `worked` is executed. -/
structure Effect (cfg : Settings) (keys : KeyRing) (e : Executor) (call : Call) (e' : Executor)
    (taken worked : List MicroBlock) (messages : List Outgoing) : Prop where
  id : e'.id = e.id
  gm : e'.gm = e.gm
  delivered : e'.delivered = e.delivered ++ call.batch
  queue : e.mbs ++ call.batch = taken ++ (worked ++ e'.mbs)
  applied : e'.applied = e.applied ++ (taken.map .updated ++ worked.map .executed)
  confirmed : ∀ mb ∈ taken, cfg.q ≤ e'.doneCount mb.committedNo
  runnable : ∀ mb ∈ worked, e.Runnable mb
  reports : ∀ no, (e'.reports no).keys = (e.reports no).keys ∪ call.reporters no
  outbox : e'.outbox = e.outbox ++ messages
  reported : ∀ i < worked.length, ∃ message ∈ messages,
    Reports keys e.id e.gm (worked ++ e'.mbs) i message
  only : ∀ recipients result, .result recipients result ∈ messages → ∃ i < worked.length,
    Reports keys e.id e.gm (worked ++ e'.mbs) i (.result recipients result)

/-- What is taken over off the front of the queue is confirmed. -/
theorem applyHeads_effect (hNested : e.Nested) {p : MicroBlock → Bool}
    (hTest : ∀ mb, p mb = true → cfg.q ≤ e.doneCount mb.committedNo)
    (h : e.applyHeads (lastIndexWhere p e.mbs 0 (-1) + 1).toNat = .ok middle) :
    ∃ taken, e.mbs = taken ++ middle.mbs ∧ middle.outbox = e.outbox ∧
      Advance (taken.map .updated) e middle ∧
      ∀ mb ∈ taken, cfg.q ≤ middle.doneCount mb.committedNo := by
  obtain ⟨taken, hQueue, _, hOutbox, hAdvance⟩ := applyHeads_spec h
  obtain ⟨_, front, hFront, hConfirmed⟩ := applyHeads_confirmed hNested hTest h
  have hSame : taken = front := by
    apply List.map_injective_iff.mpr (fun mb mb' hSame => Applied.updated.inj hSame)
    exact List.append_cancel_left (hAdvance.applied.symm.trans hFront)
  exact ⟨taken, hQueue, hOutbox, hAdvance, hSame ▸ hConfirmed⟩

/-- The first part of a call takes over what is confirmed and sends nothing. -/
theorem Call.confirm_effect {call : Call} (hGroup : cfg.broadcastByGroup = true)
    (hNested : e.Nested) (hContinues : call.Continues e)
    (h : call.confirm cfg e = .ok middle) :
    ∃ taken, Effect cfg keys e call middle taken [] [] := by
  have hNothing : ∀ {P : Nat → Prop}, ∀ i < ([] : List MicroBlock).length, P i :=
    fun i hi => absurd hi (Nat.not_lt_zero i)
  cases call with
  | addMbToExecute batch =>
      have hHeads : (e.enqueue batch).applyHeads
          (lastIndexWhere ((e.enqueue batch).checkResult cfg) (e.enqueue batch).mbs 0 (-1) + 1).toNat =
            .ok middle := (if_pos hGroup).symm.trans h
      obtain ⟨taken, hQueue, hOutbox, hAdvance, hConfirmed⟩ := applyHeads_effect
        (hNested.enqueue hContinues) (fun mb hTest => of_decide_eq_true hTest) hHeads
      exact ⟨taken, {
        id := hAdvance.id
        gm := hAdvance.gm
        delivered := hAdvance.delivered
        queue := hQueue
        applied := by rw [hAdvance.applied]; simp [enqueue]
        confirmed := hConfirmed
        runnable := fun _ hMem => absurd hMem List.not_mem_nil
        reports := fun no => by
          rw [reports_congr (applyHeads_done hHeads), Call.reporters, Finset.union_empty]
          rfl
        outbox := by rw [hOutbox, List.append_nil]; rfl
        reported := hNothing
        only := fun _ _ hMem => absurd hMem List.not_mem_nil }⟩
  | handleResult result =>
      have hKeys : ∀ no, ((e.recorded cfg result).reports no).keys =
          (e.reports no).keys ∪ (Call.handleResult result).reporters no := by
        intro no
        rw [reports_recorded, Call.reporters]
        split_ifs
        · rw [Table.keys_insert, Finset.union_comm, Finset.insert_eq]
        · rw [Finset.union_empty]
      obtain ⟨done, hRecorded⟩ := recorded_spec cfg e result
      dsimp only [Call.confirm] at h
      by_cases hHigh : e.confirmedNo cfg result ≠ 0
      · rw [if_pos hHigh, ← recorded_mbs cfg e result] at h
        obtain ⟨taken, hQueue, hOutbox, hAdvance, hConfirmed⟩ := applyHeads_effect
          (hNested.recorded cfg result) (fun mb hTest => by
            rw [of_decide_eq_true hTest]
            exact ((confirmedNo_enough cfg e result).resolve_left hHigh).2) h
        have hDone := applyHeads_done h
        rw [recorded_mbs] at hQueue
        exact ⟨taken, {
          id := hAdvance.id.trans (by rw [hRecorded])
          gm := hAdvance.gm.trans (recorded_gm cfg e result)
          delivered := by rw [hAdvance.delivered, recorded_delivered, Call.batch, List.append_nil]
          queue := by rw [Call.batch, List.append_nil, hQueue, List.nil_append]
          applied := by rw [hAdvance.applied, recorded_applied]; simp
          confirmed := hConfirmed
          runnable := fun _ hMem => absurd hMem List.not_mem_nil
          reports := fun no => by rw [reports_congr hDone, hKeys]
          outbox := by rw [hOutbox, hRecorded, List.append_nil]
          reported := hNothing
          only := fun _ _ hMem => absurd hMem List.not_mem_nil }⟩
      · rw [if_neg hHigh] at h
        cases Outcome.pure_eq_ok.mp h
        exact ⟨[], {
          id := by rw [hRecorded]
          gm := recorded_gm cfg e result
          delivered := by rw [recorded_delivered, Call.batch, List.append_nil]
          queue := by rw [recorded_mbs, Call.batch, List.append_nil]; rfl
          applied := by rw [recorded_applied]; simp
          confirmed := fun _ hMem => absurd hMem List.not_mem_nil
          runnable := fun _ hMem => absurd hMem List.not_mem_nil
          reports := hKeys
          outbox := by rw [hRecorded, List.append_nil]
          reported := hNothing
          only := fun _ _ hMem => absurd hMem List.not_mem_nil }⟩

/-- The second part executes what can be executed, and reports it. -/
theorem executeThread_effect {call : Call} {taken : List MicroBlock}
    (hGroup : cfg.broadcastByGroup = true) (hTaken : Effect cfg keys e call middle taken [] [])
    (h : middle.executeThread cfg keys = .ok e') :
    ∃ worked messages, Effect cfg keys e call e' taken worked messages := by
  obtain ⟨last, successNum, hLoop, rfl⟩ : ∃ last successNum,
      middle.executeGroup keys 0 0 middle.mbs = .ok (last, successNum) ∧
        e' = { last with mbs := last.mbs.drop successNum } := by
    simpa [hGroup] using executeThread_cases h
  obtain ⟨worked, rest, hSplit, hCount, hQueue, hAdvance, hWorked, _⟩ := executeGroup_spec hLoop
  obtain ⟨count, messages, hSuccess, hOutbox, hAll, hOnly⟩ := executeGroup_reports rfl hLoop
  have hLength : count = worked.length := by omega
  have hLeft : last.mbs.drop successNum = rest := by
    rw [hQueue, hSplit, hCount, Nat.zero_add, List.drop_left]
  have hDone : last.done = middle.done :=
    (loopRelation_keepsRecords.executeGroup hLoop).1
  have hAgain : worked ++ last.mbs.drop successNum = middle.mbs := by rw [hLeft, hSplit]
  simp only [Nat.zero_add, hLength, hTaken.id, hTaken.gm] at hAll hOnly
  have hRunnable : ∀ mb, middle.Runnable mb ↔ e.Runnable mb := by
    intro mb
    unfold Runnable
    rw [hTaken.gm]
  exact ⟨worked, messages, {
    id := hAdvance.id.trans hTaken.id
    gm := hAdvance.gm.trans hTaken.gm
    delivered := hAdvance.delivered.trans hTaken.delivered
    queue := by
      dsimp only
      rw [hAgain, hTaken.queue, List.nil_append]
    applied := by
      show last.applied = _
      rw [hAdvance.applied, hTaken.applied]
      simp
    confirmed := fun mb hMem => by
      show cfg.q ≤ last.doneCount mb.committedNo
      rw [doneCount_congr hDone]
      exact hTaken.confirmed mb hMem
    runnable := fun mb hMem => (hRunnable mb).mp (hWorked mb hMem)
    reports := fun no => by
      show (last.reports no).keys = _
      rw [reports_congr hDone, hTaken.reports]
    outbox := by
      show last.outbox = _
      rw [hOutbox, hTaken.outbox, List.append_nil]
    reported := by
      dsimp only
      rw [hAgain]
      exact hAll
    only := by
      dsimp only
      rw [hAgain]
      exact hOnly }⟩

theorem Call.perform_effect {call : Call} (hGroup : cfg.broadcastByGroup = true)
    (hNested : e.Nested) (hContinues : call.Continues e)
    (h : call.perform cfg keys e = .ok e') :
    ∃ taken worked messages, Effect cfg keys e call e' taken worked messages := by
  obtain ⟨middle, hConfirm, hRest⟩ := Call.perform_cases h
  obtain ⟨taken, hTaken⟩ := Call.confirm_effect hGroup hNested hContinues hConfirm
  rcases hRest with ⟨hThread, _⟩ | ⟨rfl, _⟩
  · exact ⟨taken, executeThread_effect hGroup hTaken hThread⟩
  · exact ⟨taken, [], [], hTaken⟩

/-- The node can sign, and the groups of the microblocks in the queue exist. -/
structure Equipped (keys : KeyRing) (e : Executor) : Prop where
  signs : ∀ hash, ∃ sig, keys.privSign hash e.id = .ok sig
  groups : ∀ mb ∈ e.mbs, ∃ members, e.gm.getGroupListByGroupId mb.groupId = .ok members

theorem stateBroadcastByGroup_returns (h : e.Equipped keys) {curIndex : Nat}
    (hIndex : curIndex < e.mbs.length) (result : ExecuteResult) :
    ∃ recipients, e.stateBroadcastByGroup curIndex result =
      .ok (e.send (.result recipients result)) := by
  unfold stateBroadcastByGroup stateBroadcast
  have hHere : Outcome.index e.mbs (curIndex : Nat) = .ok (e.mbs.get ⟨curIndex, hIndex⟩) :=
    Outcome.index_eq_ok.mpr (List.getElem?_eq_getElem hIndex)
  rw [hHere, Outcome.ok_bind]
  by_cases hLast : (curIndex : Int) ≠ e.mbs.length - 1
  · have hNext : curIndex + 1 < e.mbs.length := by omega
    have hThere : Outcome.index e.mbs ((curIndex : Int) + 1) =
        .ok (e.mbs.get ⟨curIndex + 1, hNext⟩) :=
      Outcome.index_eq_ok.mpr (List.getElem?_eq_getElem hNext)
    obtain ⟨current, hCurrent⟩ := h.groups _ (List.get_mem e.mbs ⟨curIndex, hIndex⟩)
    obtain ⟨later, hLater⟩ := h.groups _ (List.get_mem e.mbs ⟨curIndex + 1, hNext⟩)
    rw [if_pos hLast, hThere, Outcome.ok_bind]
    dsimp only
    rw [hCurrent, Outcome.ok_bind, hLater, Outcome.ok_bind]
    exact ⟨_, rfl⟩
  · rw [if_neg hLast]
    exact ⟨_, rfl⟩

theorem Equipped.congr (h : e.Equipped keys) (hId : e'.id = e.id) (hGm : e'.gm = e.gm)
    (hMbs : ∀ mb ∈ e'.mbs, mb ∈ e.mbs) : e'.Equipped keys where
  signs := by
    rw [hId]
    exact h.signs
  groups mb hMem := by
    rw [hGm]
    exact h.groups mb (hMbs mb hMem)

theorem executeGroup_returns (h : e.Equipped keys) {curIndex successNum : Nat}
    {list : List MicroBlock} (hList : e.mbs.drop curIndex = list) :
    ∃ last, e.executeGroup keys curIndex successNum list = .ok last := by
  induction list generalizing e curIndex successNum with
  | nil => exact ⟨_, rfl⟩
  | cons mb rest ih =>
      unfold executeGroup
      split_ifs with hMine hFake
      · exact ⟨_, rfl⟩
      · obtain ⟨hExecuted, hQueue, _⟩ := execute_spec e mb
        have hSame : (e.execute mb).Equipped keys :=
          h.congr hExecuted.id hExecuted.gm fun mb hMem => hQueue ▸ hMem
        obtain ⟨sig, hSig⟩ := hSame.signs mb.hash
        have hIndex : curIndex < (e.execute mb).mbs.length := by
          rw [hQueue]
          by_contra hPast
          rw [List.drop_eq_nil_of_le (not_lt.mp hPast)] at hList
          cases hList
        obtain ⟨recipients, hSent⟩ := stateBroadcastByGroup_returns hSame hIndex
          { propsalId := (e.execute mb).id, sig, mb := mb.hash, no := mb.committedNo }
        have hResult : (e.execute mb).generateExecuteResult keys mb = .ok
            { propsalId := (e.execute mb).id, sig, mb := mb.hash, no := mb.committedNo } :=
          Outcome.bind_eq_ok.mpr ⟨sig, hSig, rfl⟩
        dsimp only
        rw [hResult, Outcome.ok_bind, hSent, Outcome.ok_bind]
        have hSending : ((e.execute mb).send (.result recipients
            { propsalId := (e.execute mb).id, sig, mb := mb.hash, no := mb.committedNo })).Equipped
            keys := hSame.congr rfl rfl fun mb hMem => hMem
        refine ih hSending ?_
        show (e.execute mb).mbs.drop (curIndex + 1) = rest
        rw [hQueue, ← List.tail_drop, hList, List.tail_cons]
      · exact ⟨_, rfl⟩

/-- A call returns if the node can sign and knows the groups. -/
theorem Call.perform_returns {call : Call} (hGroup : cfg.broadcastByGroup = true)
    (hNested : e.Nested) (hContinues : call.Continues e)
    (h : (e.enqueue call.batch).Equipped keys) : ∃ e', call.perform cfg keys e = .ok e' := by
  have hThread : ∀ middle : Executor, call.confirm cfg e = .ok middle →
      ∃ e', middle.executeThread cfg keys = .ok e' := by
    intro middle hConfirm
    obtain ⟨taken, hTaken⟩ : ∃ taken, Effect cfg keys e call middle taken [] [] :=
      Call.confirm_effect hGroup hNested hContinues hConfirm
    have hMiddle : middle.Equipped keys := h.congr hTaken.id hTaken.gm fun mb hMem => by
      show mb ∈ e.mbs ++ call.batch
      rw [hTaken.queue]
      exact List.mem_append_right _ hMem
    obtain ⟨⟨last, successNum⟩, hLoop⟩ :
        ∃ last, middle.executeGroup keys 0 0 middle.mbs = .ok last :=
      executeGroup_returns hMiddle rfl
    unfold executeThread
    rw [if_pos hGroup, hLoop]
    exact ⟨_, rfl⟩
  obtain ⟨middle, hConfirm, _⟩ := Call.confirm_spec hGroup hNested hContinues
  obtain ⟨e', hRest⟩ := hThread middle hConfirm
  cases call with
  | addMbToExecute batch => exact ⟨e', Outcome.bind_eq_ok.mpr ⟨middle, hConfirm, hRest⟩⟩
  | handleResult result =>
      dsimp only [Call.perform, Call.confirm] at hConfirm ⊢
      rw [handleResult_eq]
      by_cases hHigh : e.confirmedNo cfg result ≠ 0
      · rw [if_pos hHigh] at hConfirm ⊢
        rw [← recorded_mbs cfg e result] at hConfirm
        exact ⟨e', Outcome.bind_eq_ok.mpr ⟨middle, hConfirm, hRest⟩⟩
      · rw [if_neg hHigh]
        exact ⟨_, rfl⟩

end Executor
end Bamboo
