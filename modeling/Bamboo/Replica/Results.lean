import Bamboo.Execute.Sample
import Bamboo.Replica.Numbering

/-! Results that other nodes report. A result counts under the name it gives for its
sender, for the number it gives and for every smaller one; its signature and its
microblock are recorded or ignored, and not compared with anything. -/
namespace Bamboo

open Library

namespace Executor

/-- The nodes recorded for a number, with their signatures. -/
def reports (e : Executor) (no : Int) : Table NodeID Signature :=
  (e.done.lookup no).getD ∅

variable {cfg : Settings} {keys : KeyRing} {e e' : Executor}

theorem reports_congr (h : e'.done = e.done) (no : Int) : e'.reports no = e.reports no := by
  unfold reports
  rw [h]

theorem doneCount_congr (h : e'.done = e.done) (no : Int) : e'.doneCount no = e.doneCount no := by
  unfold doneCount
  rw [h]

/-- One node more is recorded for a number. -/
def record (e : Executor) (result : ExecuteResult) (no : Int) : Executor :=
  { e with done := e.done.insert no ((e.reports no).insert result.propsalId result.sig) }

theorem recordDone_succ (cfg : Settings) (result : ExecuteResult) (count : Nat) (i : Int)
    (e : Executor) (high : Int) :
    recordDone cfg result (count + 1) i e high =
      recordDone cfg result count (i + 1) (e.record result i)
        (if cfg.q ≤ (e.record result i).doneCount i then i else high) := rfl

theorem reports_record (e : Executor) (result : ExecuteResult) (i no : Int) :
    (e.record result i).reports no =
      if no = i then (e.reports i).insert result.propsalId result.sig else e.reports no := by
  show ((e.done.insert i ((e.reports i).insert result.propsalId result.sig)).lookup no).getD ∅ = _
  rw [Table.lookup_insert_ite]
  split_ifs with hHere
  · rfl
  · rfl

/-- A result is recorded for every number of the loop. -/
theorem reports_recordDone (cfg : Settings) (result : ExecuteResult) (count : Nat) (i : Int)
    (e : Executor) (high no : Int) :
    (recordDone cfg result count i e high).1.reports no =
      if i ≤ no ∧ no < i + count then (e.reports no).insert result.propsalId result.sig
      else e.reports no := by
  induction count generalizing i e high with
  | zero =>
      rw [if_neg (by omega)]
      rfl
  | succ count ih =>
      rw [recordDone_succ, ih, reports_record]
      by_cases hHere : no = i
      · rw [hHere, if_neg (by omega), if_pos rfl, if_pos (by omega)]
      · rw [if_neg hHere]
        exact if_congr (by omega) rfl rfl

/-- The number that is returned is the last one for which enough nodes are recorded. -/
theorem recordDone_last (cfg : Settings) (result : ExecuteResult) (count : Nat) {i : Int}
    (e : Executor) {high : Int} (hHigh : high < i) :
    ((recordDone cfg result count i e high).2 = high ∨
      (i ≤ (recordDone cfg result count i e high).2 ∧
        (recordDone cfg result count i e high).2 < i + count ∧
        cfg.q ≤ (recordDone cfg result count i e high).1.doneCount
          (recordDone cfg result count i e high).2)) ∧
      ∀ no, (recordDone cfg result count i e high).2 < no → i ≤ no → no < i + count →
        (recordDone cfg result count i e high).1.doneCount no < cfg.q := by
  induction count generalizing i e high with
  | zero => exact ⟨Or.inl rfl, fun no _ hFrom hTo => by omega⟩
  | succ count ih =>
      rw [recordDone_succ]
      -- what follows does not touch the record of `i`
      have hSame : ∀ found, (recordDone cfg result count (i + 1) (e.record result i) found).1.doneCount
          i = (e.record result i).doneCount i := by
        intro found
        show (reports _ i).keys.card = (reports _ i).keys.card
        rw [reports_recordDone, if_neg (by omega)]
      by_cases hEnough : cfg.q ≤ (e.record result i).doneCount i
      · rw [if_pos hEnough]
        obtain ⟨hFound, hLater⟩ := ih (e.record result i) (Int.lt_succ i)
        refine ⟨Or.inr ?_, fun no hLess hFrom hTo => hLater no hLess ?_ (by omega)⟩
        · rcases hFound with hHere | ⟨hFrom, hTo, hCount⟩
          · rw [hHere, hSame]
            exact ⟨le_rfl, by omega, hEnough⟩
          · exact ⟨by omega, by omega, hCount⟩
        · rcases hFound with hHere | ⟨hFrom', _, _⟩ <;> omega
      · rw [if_neg hEnough]
        obtain ⟨hFound, hLater⟩ := ih (e.record result i) (hHigh.trans (Int.lt_succ i))
        refine ⟨hFound.imp_right fun h => ⟨by omega, by omega, h.2.2⟩, fun no hLess hFrom hTo => ?_⟩
        by_cases hHere : no = i
        · rw [hHere, hSame]
          exact not_le.mp hEnough
        · exact hLater no hLess (by omega) (by omega)

/-- The records after a result. -/
def recorded (cfg : Settings) (e : Executor) (result : ExecuteResult) : Executor :=
  (recordDone cfg result result.no.toNat 1 e 0).1

/-- The last number that a result confirms, or 0. -/
def confirmedNo (cfg : Settings) (e : Executor) (result : ExecuteResult) : Int :=
  (recordDone cfg result result.no.toNat 1 e 0).2

theorem handleResult_eq (cfg : Settings) (keys : KeyRing) (e : Executor) (result : ExecuteResult) :
    e.handleResult cfg keys result =
      if e.confirmedNo cfg result ≠ 0 then
        (e.recorded cfg result).mbReady cfg keys (e.confirmedNo cfg result)
      else pure (e.recorded cfg result) := rfl

theorem recorded_spec (cfg : Settings) (e : Executor) (result : ExecuteResult) :
    ∃ done, e.recorded cfg result = { e with done } :=
  recordDone_spec cfg result result.no.toNat 1 e 0

theorem reports_recorded (cfg : Settings) (e : Executor) (result : ExecuteResult) (no : Int) :
    (e.recorded cfg result).reports no =
      if 1 ≤ no ∧ no ≤ result.no then (e.reports no).insert result.propsalId result.sig
      else e.reports no := by
  unfold recorded
  rw [reports_recordDone]
  exact if_congr (by omega) rfl rfl

theorem confirmedNo_enough (cfg : Settings) (e : Executor) (result : ExecuteResult) :
    e.confirmedNo cfg result = 0 ∨ (1 ≤ e.confirmedNo cfg result ∧
      cfg.q ≤ (e.recorded cfg result).doneCount (e.confirmedNo cfg result)) :=
  (recordDone_last cfg result result.no.toNat e Int.one_pos).1.imp_right fun h => ⟨h.1, h.2.2⟩

/-- Recording only adds nodes. -/
theorem doneCount_le_recorded (cfg : Settings) (e : Executor) (result : ExecuteResult) (no : Int) :
    e.doneCount no ≤ (e.recorded cfg result).doneCount no := by
  show (e.reports no).keys.card ≤ (reports _ no).keys.card
  rw [reports_recorded]
  split_ifs with hHere
  · rw [Table.keys_insert]
    exact Finset.card_le_card (Finset.subset_insert _ _)
  · exact le_rfl

/-- The loop leaves the records alone and takes nothing over from other nodes. -/
def KeepsRecords (e e' : Executor) : Prop :=
  e'.done = e.done ∧ ∀ mb, .updated mb ∈ e'.applied → .updated mb ∈ e.applied

theorem execute_done (e : Executor) (mb : MicroBlock) : (e.execute mb).done = e.done := by
  obtain ⟨state, hState⟩ := foldl_execute e mb.txns
  unfold execute
  rw [hState]

theorem loopRelation_keepsRecords : LoopRelation KeepsRecords where
  refl _ := ⟨rfl, fun _ h => h⟩
  trans h h' := ⟨h'.1.trans h.1, fun mb hMem => h.2 mb (h'.2 mb hMem)⟩
  execute e mb := by
    refine ⟨execute_done e mb, fun other hMem => ?_⟩
    rw [(execute_spec e mb).1.applied] at hMem
    simpa using hMem
  send _ _ := ⟨rfl, fun _ h => h⟩
  drop _ _ := ⟨rfl, fun _ h => h⟩

theorem applyHeads_done {count : Nat} (h : e.applyHeads count = .ok e') : e'.done = e.done := by
  induction count generalizing e with
  | zero =>
      cases Outcome.pure_eq_ok.mp h
      rfl
  | succ count ih =>
      unfold applyHeads at h
      cases hQueue : e.mbs with
      | nil =>
          rw [hQueue] at h
          cases h
      | cons mb rest =>
          rw [hQueue] at h
          rw [ih h]
          simp only [updateState, foldl_countTx]

/-- Taking over up to the last confirmed microblock takes over nothing when none is. -/
theorem applyHeads_lastIndexWhere {p : MicroBlock → Bool} {mb : MicroBlock}
    (h : e.applyHeads (lastIndexWhere p e.mbs 0 (-1) + 1).toNat = .ok e')
    (hMem : .updated mb ∈ e'.applied) : .updated mb ∈ e.applied ∨ ∃ mb ∈ e.mbs, p mb = true := by
  obtain ⟨front, hQueue, hAdvance, hFront, _⟩ := applyHeads_last h
  cases hLast : front.getLast? with
  | none =>
      rw [List.getLast?_eq_none_iff.mp hLast] at hAdvance
      rw [hAdvance.applied] at hMem
      exact Or.inl (by simpa using hMem)
  | some last =>
      refine Or.inr ⟨last, ?_, hFront last hLast⟩
      rw [hQueue]
      exact List.mem_append_left _ (List.mem_of_getLast? hLast)

/-- Something has been taken over only if enough nodes are recorded for some number. -/
def Confirmed (cfg : Settings) (e : Executor) : Prop :=
  ∀ mb, .updated mb ∈ e.applied → ∃ no, cfg.q ≤ e.doneCount no

theorem Confirmed.keepsRecords (h : e.Confirmed cfg) (hStep : e.KeepsRecords e') :
    e'.Confirmed cfg := by
  intro mb hMem
  obtain ⟨no, hEnough⟩ := h mb (hStep.2 mb hMem)
  refine ⟨no, ?_⟩
  rw [doneCount_congr hStep.1]
  exact hEnough

theorem Confirmed.addMbToExecute (hConfirmed : e.Confirmed cfg) {batch : List MicroBlock}
    (h : e.addMbToExecute cfg keys batch = .ok e') : e'.Confirmed cfg ∧ e'.done = e.done := by
  obtain ⟨middle, hApplied, hThread⟩ := Outcome.bind_eq_ok.mp h
  have hLoop := loopRelation_keepsRecords.executeThread hThread
  unfold applyConfirmed at hApplied
  by_cases hGroup : cfg.broadcastByGroup = true
  · rw [if_pos hGroup] at hApplied
    have hDone : middle.done = (e.enqueue batch).done := applyHeads_done hApplied
    have hMiddle : middle.Confirmed cfg := by
      intro mb hMem
      simp only [doneCount_congr hDone]
      rcases applyHeads_lastIndexWhere hApplied hMem with hOld | ⟨found, _, hFound⟩
      · exact hConfirmed mb hOld
      · exact ⟨found.committedNo, of_decide_eq_true hFound⟩
    exact ⟨hMiddle.keepsRecords hLoop, hLoop.1.trans hDone⟩
  · rw [if_neg hGroup] at hApplied
    cases Outcome.pure_eq_ok.mp hApplied
    have hEnqueued : (e.enqueue batch).Confirmed cfg := hConfirmed
    exact ⟨hEnqueued.keepsRecords hLoop, hLoop.1⟩

/-- A result is recorded up to its number; what it confirms is taken over. -/
theorem Confirmed.handleResult (hConfirmed : e.Confirmed cfg) {result : ExecuteResult}
    (h : e.handleResult cfg keys result = .ok e') :
    e'.Confirmed cfg ∧ ∀ no, e'.reports no =
      if 1 ≤ no ∧ no ≤ result.no then (e.reports no).insert result.propsalId result.sig
      else e.reports no := by
  rw [handleResult_eq] at h
  by_cases hReady : e.confirmedNo cfg result ≠ 0
  · rw [if_pos hReady] at h
    obtain ⟨middle, hApplied, hThread⟩ := Outcome.bind_eq_ok.mp h
    have hLoop := loopRelation_keepsRecords.executeThread hThread
    have hSame : e'.done = (e.recorded cfg result).done :=
      hLoop.1.trans (applyHeads_done hApplied)
    refine ⟨fun mb _ => ⟨e.confirmedNo cfg result, ?_⟩, fun no => ?_⟩
    · rw [doneCount_congr hSame]
      exact ((confirmedNo_enough cfg e result).resolve_left hReady).2
    · rw [reports_congr hSame]
      exact reports_recorded cfg e result no
  · rw [if_neg hReady] at h
    cases Outcome.pure_eq_ok.mp h
    refine ⟨fun mb hMem => ?_, reports_recorded cfg e result⟩
    obtain ⟨done, hDone⟩ := recorded_spec cfg e result
    rw [hDone] at hMem
    obtain ⟨no, hEnough⟩ := hConfirmed mb hMem
    exact ⟨no, hEnough.trans (Int.ofNat_le.mpr (doneCount_le_recorded cfg e result no))⟩

theorem Confirmed.handleMiss (hConfirmed : e.Confirmed cfg) {mb : MicroBlock}
    (h : e.handleMiss cfg keys mb = .ok e') : e'.Confirmed cfg ∧ e'.done = e.done := by
  rcases handleMiss_cases h with hThread | rfl
  · have hLoop := loopRelation_keepsRecords.executeThread hThread
    have hReplaced : (e.replaceMissing mb).Confirmed cfg := hConfirmed
    exact ⟨hReplaced.keepsRecords hLoop, hLoop.1⟩
  · exact ⟨hConfirmed, rfl⟩

end Executor

/-- A result under the name of a node, signed by it, for the microblock that has its
number in `order`. -/
structure ExecuteResult.Authentic (keys : KeyRing) (order : Int → Option Identifier)
    (result : ExecuteResult) : Prop where
  name : newNodeID (node result.propsalId) = result.propsalId
  sig : keys.Valid result.sig result.mb result.propsalId
  mb : order result.no = some result.mb

instance ExecuteResult.decidableAuthentic (keys : KeyRing) (order : Int → Option Identifier)
    (result : ExecuteResult) : Decidable (result.Authentic keys order) :=
  decidable_of_iff (newNodeID (node result.propsalId) = result.propsalId ∧
      keys.Valid result.sig result.mb result.propsalId ∧ order result.no = some result.mb)
    ⟨fun h => ⟨h.1, h.2.1, h.2.2⟩, fun h => ⟨h.name, h.sig, h.mb⟩⟩

namespace Replica

variable {cfg : Settings} {keys : KeyRing} {order : Int → Option Identifier} {r r' : Replica}

/-- Results are authentic, and what is committed here is numbered as in `order`. -/
def ExecutionEvent.Authentic (keys : KeyRing) (order : Int → Option Identifier) (r : Replica) :
    ExecutionEvent → Prop
  | .result report => report.Authentic keys order
  | .commit mbs => ∀ mb ∈ ExecutionEvent.handsOver r (.commit mbs),
      order mb.committedNo = some mb.hash
  | .batch | .miss _ => True

instance (keys : KeyRing) (order : Int → Option Identifier) (r : Replica) :
    (event : ExecutionEvent) → Decidable (event.Authentic keys order r)
  | .result report => inferInstanceAs (Decidable (report.Authentic keys order))
  | .commit mbs => inferInstanceAs (Decidable (∀ mb ∈ ExecutionEvent.handsOver r (.commit mbs),
      order mb.committedNo = some mb.hash))
  | .batch | .miss _ => inferInstanceAs (Decidable True)

/-- Every recorded node comes from a result that was handled. -/
def Traced (past : List ExecutionEvent) (e : Executor) : Prop :=
  ∀ no name sig, (e.reports no).lookup name = some sig →
    ∃ result, .result result ∈ past ∧ result.propsalId = name ∧ result.sig = sig ∧
      1 ≤ no ∧ no ≤ result.no

theorem Traced.extend {past : List ExecutionEvent} {e e' : Executor} (h : Traced past e)
    (hDone : e'.done = e.done) (event : ExecutionEvent) : Traced (past ++ [event]) e' := by
  intro no name sig hLookup
  rw [Executor.reports_congr hDone] at hLookup
  obtain ⟨result, hMem, hResult⟩ := h no name sig hLookup
  exact ⟨result, List.mem_append_left _ hMem, hResult⟩

/-- Records are traced and what is taken over is confirmed, whatever the results say. -/
theorem executionStep_traced {past : List ExecutionEvent} {event : ExecutionEvent}
    (h : Traced past r.ex ∧ r.ex.Confirmed cfg)
    (hStep : r.executionStep cfg keys event = .ok r') :
    Traced (past ++ [event]) r'.ex ∧ r'.ex.Confirmed cfg := by
  obtain ⟨hTraced, hConfirmed⟩ := h
  cases event with
  | commit mbs =>
      cases Outcome.pure_eq_ok.mp hStep
      exact ⟨hTraced.extend rfl _, hConfirmed⟩
  | batch =>
      rcases handleBatch_cases hStep with rfl | ⟨batch, rest, ex, hChannel, hAdd, rfl⟩
      · exact ⟨hTraced.extend rfl _, hConfirmed⟩
      · have hTaken : Executor.Confirmed cfg { r.ex with mbReceive := rest } := hConfirmed
        obtain ⟨hAfter, hDone⟩ := hTaken.addMbToExecute hAdd
        exact ⟨hTraced.extend hDone _, hAfter⟩
  | result result =>
      obtain ⟨ex, hResult, hDone⟩ := Outcome.bind_eq_ok.mp hStep
      cases Outcome.pure_eq_ok.mp hDone
      obtain ⟨hAfter, hReports⟩ := hConfirmed.handleResult hResult
      refine ⟨fun no name sig hLookup => ?_, hAfter⟩
      rw [hReports no] at hLookup
      by_cases hHere : (1 ≤ no ∧ no ≤ result.no) ∧ name = result.propsalId
      · obtain ⟨hRange, rfl⟩ := hHere
        rw [if_pos hRange, Finmap.lookup_insert] at hLookup
        exact ⟨result, by simp, rfl, Option.some.inj hLookup, hRange⟩
      · have hOld : (r.ex.reports no).lookup name = some sig := by
          split_ifs at hLookup with hRange
          · rwa [Finmap.lookup_insert_of_ne _ fun hName => hHere ⟨hRange, hName⟩] at hLookup
          · exact hLookup
        obtain ⟨older, hMem, hOlder⟩ := hTraced no name sig hOld
        exact ⟨older, List.mem_append_left _ hMem, hOlder⟩
  | miss mb =>
      obtain ⟨ex, hMiss, hDone⟩ := Outcome.bind_eq_ok.mp hStep
      cases Outcome.pure_eq_ok.mp hDone
      obtain ⟨hAfter, hDone⟩ := hConfirmed.handleMiss hMiss
      exact ⟨hTraced.extend hDone _, hAfter⟩

/-- What a run of authentic results keeps. -/
structure Accounted (cfg : Settings) (keys : KeyRing) (order : Int → Option Identifier)
    (past : List ExecutionEvent) (r : Replica) : Prop where
  results : ∀ result, .result result ∈ past → result.Authentic keys order
  numbers : ∀ mb ∈ r.onTheWay, order mb.committedNo = some mb.hash
  traced : Traced past r.ex
  confirmed : r.ex.Confirmed cfg

theorem executionStep_accounted {past : List ExecutionEvent} {event : ExecutionEvent}
    (h : Accounted cfg keys order past r) (hGuard : event.Authentic keys order r)
    (hStep : r.executionStep cfg keys event = .ok r') :
    Accounted cfg keys order (past ++ [event]) r' := by
  obtain ⟨hTraced, hConfirmed⟩ := executionStep_traced ⟨h.traced, h.confirmed⟩ hStep
  refine ⟨fun result hMem => ?_, fun mb hMem => ?_, hTraced, hConfirmed⟩
  · rcases List.mem_append.mp hMem with hOld | hNew
    · exact h.results result hOld
    · cases List.mem_singleton.mp hNew
      exact hGuard
  · rw [executionStep_onTheWay hStep] at hMem
    rcases List.mem_append.mp hMem with hOld | hNew
    · exact h.numbers mb hOld
    · cases event with
      | commit mbs => exact hGuard mb hNew
      | batch => exact absurd hNew List.not_mem_nil
      | result result => exact absurd hNew List.not_mem_nil
      | miss mb => exact absurd hNew List.not_mem_nil

/-- Names of nodes are as many as their numbers. -/
theorem card_image_node {names : Finset NodeID}
    (h : ∀ name ∈ names, newNodeID (node name) = name) : (names.image node).card = names.card := by
  apply Finset.card_image_of_injOn
  intro a hA b hB hSame
  rw [← h a hA, ← h b hB]
  exact congrArg newNodeID hSame

/-- While all results are authentic and about the numbers given here, every recorded node
has signed for the microblock of that number, and nothing is taken over without `q`
different nodes that have signed. -/
theorem results_authenticated {id : NodeID} {events : List ExecutionEvent}
    (hAuthentic : Guarded (executionStep cfg keys) (fun r event => event.Authentic keys order r)
      (.new cfg id) events)
    (hRun : run (executionStep cfg keys) (.new cfg id) events = .ok r) :
    (∀ no name sig, (r.ex.reports no).lookup name = some sig →
        ∃ result, .result result ∈ events ∧ result.propsalId = name ∧ result.sig = sig ∧
          1 ≤ no ∧ no ≤ result.no ∧ keys.Valid sig result.mb name ∧
          ∀ mb ∈ r.onTheWay, mb.committedNo = result.no → mb.hash = result.mb) ∧
      ∀ mb, .updated mb ∈ r.ex.applied → ∃ voters : Finset Int, cfg.q ≤ voters.card ∧
        ∀ voter ∈ voters, ∃ result, .result result ∈ events ∧ node result.propsalId = voter ∧
          keys.Valid result.sig result.mb result.propsalId := by
  have hAccounted : Accounted cfg keys order events r := by
    refine run_history (P := Accounted cfg keys order)
      (fun _ _ _ _ h hGuard hStep => executionStep_accounted h hGuard hStep) hAuthentic hRun []
      ⟨?_, ?_, ?_, ?_⟩
    · exact fun _ hMem => absurd hMem List.not_mem_nil
    · exact fun _ hMem => absurd hMem List.not_mem_nil
    · exact fun _ _ _ hLookup => by cases hLookup
    · exact fun _ hMem => absurd hMem List.not_mem_nil
  refine ⟨fun no name sig hLookup => ?_, fun mb hMem => ?_⟩
  · obtain ⟨result, hMem, rfl, rfl, hRange⟩ := hAccounted.traced no name sig hLookup
    have hResult := hAccounted.results result hMem
    refine ⟨result, hMem, rfl, rfl, hRange.1, hRange.2, hResult.sig, fun mb hWay hNo => ?_⟩
    have hNumber := hAccounted.numbers mb hWay
    rw [hNo, hResult.mb] at hNumber
    exact (Option.some.inj hNumber).symm
  · obtain ⟨no, hEnough⟩ := hAccounted.confirmed mb hMem
    have hReported : ∀ name ∈ (r.ex.reports no).keys, ∃ result, .result result ∈ events ∧
        result.propsalId = name := by
      intro name hName
      obtain ⟨sig, hLookup⟩ := Finmap.mem_iff.mp (Finmap.mem_keys.mp hName)
      obtain ⟨result, hResult, hPropsal, _⟩ := hAccounted.traced no name sig hLookup
      exact ⟨result, hResult, hPropsal⟩
    refine ⟨(r.ex.reports no).keys.image node, ?_, fun voter hVoter => ?_⟩
    · rw [card_image_node]
      · exact hEnough
      · intro name hName
        obtain ⟨result, hResult, rfl⟩ := hReported name hName
        exact (hAccounted.results result hResult).name
    · obtain ⟨name, hName, rfl⟩ := Finset.mem_image.mp hVoter
      obtain ⟨result, hResult, rfl⟩ := hReported name hName
      exact ⟨result, hResult, rfl, (hAccounted.results result hResult).sig⟩

end Replica

namespace Scenario

/-- Node 3 has a microblock of the other group in its queue and hears from three nodes
that it is done. -/
def threeReports (report : NodeID → ExecuteResult) : List Replica.ExecutionEvent :=
  [.commit [single 1 1], .batch, .result (report "1"), .result (report "2"), .result (report "4")]

/-- Microblock 1, signed with the key of the node. -/
def signedReport (name : NodeID) : ExecuteResult where
  propsalId := name
  sig := keys.sign (node name - 1).toNat 1
  mb := 1
  no := 1

/-- A microblock that nobody knows, without a signature. -/
def forgedReport (name : NodeID) : ExecuteResult where
  propsalId := name
  sig := []
  mb := 99
  no := 1

end Scenario

namespace Replica

theorem results_authenticated_signed :
    ∃ r, run (executionStep Scenario.grouped Scenario.keys) (.new Scenario.grouped "3")
        (Scenario.threeReports Scenario.signedReport) = .ok r ∧
      r.ex.applied.map (fun a => a.microblock.hash) = [1] ∧
      r.ex.applied.filterMap Applied.executedHash = [] ∧
      ∀ mb, .updated mb ∈ r.ex.applied → ∃ voters : Finset Int,
        Scenario.grouped.q ≤ voters.card ∧ ∀ voter ∈ voters, ∃ result,
          .result result ∈ Scenario.threeReports Scenario.signedReport ∧
          node result.propsalId = voter ∧
          Scenario.keys.Valid result.sig result.mb result.propsalId := by
  obtain ⟨r, hRun, hApplied⟩ := Outcome.of_test
    (P := fun r : Replica => r.ex.applied.map (fun a => a.microblock.hash) = [1] ∧
      r.ex.applied.filterMap Applied.executedHash = [])
    (x := run (executionStep Scenario.grouped Scenario.keys) (.new Scenario.grouped "3")
      (Scenario.threeReports Scenario.signedReport)) (by decide)
  have hAuthentic : Guarded (executionStep Scenario.grouped Scenario.keys)
      (fun r event => event.Authentic Scenario.keys (fun no => if no = 1 then some 1 else none) r)
      (.new Scenario.grouped "3") (Scenario.threeReports Scenario.signedReport) := by decide
  exact ⟨r, hRun, hApplied.1, hApplied.2, (results_authenticated hAuthentic hRun).2⟩

/-- Three names are enough, whoever sends them: the microblock is taken over. -/
theorem forged_results_confirm :
    ∃ r, run (executionStep Scenario.grouped Scenario.keys) (.new Scenario.grouped "3")
        (Scenario.threeReports Scenario.forgedReport) = .ok r ∧
      (r.ex.reports 1).lookup "1" = some [] ∧ ¬Scenario.keys.Valid [] 99 "1" ∧
      r.ex.delivered.map MicroBlock.hash = [1] ∧
      r.ex.applied.map (fun a => a.microblock.hash) = [1] ∧
      r.ex.applied.filterMap Applied.executedHash = [] :=
  Outcome.of_test (by decide)

end Replica
end Bamboo
