import Bamboo.Replica.Results

/-! Confirmations with groups. A result counts for its number and for all smaller ones, so
the nodes recorded for a number are recorded for the smaller ones too, and a front part of
the queue may be taken over on the strength of its last microblock. `mbReady` looks for one
number only: a result that confirms a number which the queue has not reached yet confirms
the whole queue and takes over nothing. -/
namespace Bamboo

open Library

namespace Executor

/-- The calls that hand over microblocks and results. -/
inductive Call where
  | addMbToExecute (batch : List MicroBlock)
  | handleResult (result : ExecuteResult)

namespace Call

def perform (cfg : Settings) (keys : KeyRing) (e : Executor) : Call → Outcome Executor
  | .addMbToExecute batch => e.addMbToExecute cfg keys batch
  | .handleResult result => e.handleResult cfg keys result

/-- A call up to `ExecuteThread`: results are recorded, and confirmed microblocks are
taken over. -/
def confirm (cfg : Settings) (e : Executor) : Call → Outcome Executor
  | .addMbToExecute batch => (e.enqueue batch).applyConfirmed cfg
  | .handleResult result =>
      if e.confirmedNo cfg result ≠ 0 then
        (e.recorded cfg result).applyHeads
          (lastIndexWhere (fun mb => mb.committedNo = e.confirmedNo cfg result) e.mbs 0 (-1)
            + 1).toNat
      else pure (e.recorded cfg result)

/-- The microblocks that are handed over. -/
def batch : Call → List MicroBlock
  | .addMbToExecute batch => batch
  | .handleResult _ => []

/-- What is handed over has the next numbers. -/
def Continues (e : Executor) (call : Call) : Prop :=
  NumberedFrom (e.delivered.length + 1) call.batch

end Call

variable {cfg : Settings} {keys : KeyRing} {e e' middle : Executor} {call : Call}

@[simp] theorem recorded_mbs (cfg : Settings) (e : Executor) (result : ExecuteResult) :
    (e.recorded cfg result).mbs = e.mbs := by
  obtain ⟨done, hRecorded⟩ := recorded_spec cfg e result
  rw [hRecorded]

@[simp] theorem recorded_gm (cfg : Settings) (e : Executor) (result : ExecuteResult) :
    (e.recorded cfg result).gm = e.gm := by
  obtain ⟨done, hRecorded⟩ := recorded_spec cfg e result
  rw [hRecorded]

@[simp] theorem recorded_applied (cfg : Settings) (e : Executor) (result : ExecuteResult) :
    (e.recorded cfg result).applied = e.applied := by
  obtain ⟨done, hRecorded⟩ := recorded_spec cfg e result
  rw [hRecorded]

@[simp] theorem recorded_delivered (cfg : Settings) (e : Executor) (result : ExecuteResult) :
    (e.recorded cfg result).delivered = e.delivered := by
  obtain ⟨done, hRecorded⟩ := recorded_spec cfg e result
  rw [hRecorded]

/-- A number behind the last confirmed one has too few nodes, or is beyond the result and
has the nodes it had. -/
theorem doneCount_recorded {result : ExecuteResult} {no : Int} (hPositive : 1 ≤ no)
    (hBehind : e.confirmedNo cfg result < no) :
    (e.recorded cfg result).doneCount no < cfg.q ∨
      (e.recorded cfg result).doneCount no = e.doneCount no := by
  by_cases hWithin : no ≤ result.no
  · refine Or.inl ?_
    exact (recordDone_last cfg result result.no.toNat e Int.one_pos).2 no hBehind hPositive
      (by omega)
  · refine Or.inr ?_
    show (reports _ no).keys.card = (reports _ no).keys.card
    rw [reports_recorded, if_neg fun h => hWithin h.2]

/-- The loop runs after a call, except after a result that confirms nothing. -/
theorem Call.perform_cases (h : call.perform cfg keys e = .ok e') :
    ∃ middle, call.confirm cfg e = .ok middle ∧
      ((middle.executeThread cfg keys = .ok e' ∧
          ∀ result, call = .handleResult result → e.confirmedNo cfg result ≠ 0) ∨
        (e' = middle ∧ ∃ result, call = .handleResult result ∧ e.confirmedNo cfg result = 0)) := by
  cases call with
  | addMbToExecute batch =>
      obtain ⟨middle, hApplied, hThread⟩ := Outcome.bind_eq_ok.mp h
      exact ⟨middle, hApplied, Or.inl ⟨hThread, fun _ hCall => by cases hCall⟩⟩
  | handleResult result =>
      dsimp only [Call.perform, Call.confirm] at h ⊢
      rw [handleResult_eq] at h
      by_cases hHigh : e.confirmedNo cfg result ≠ 0
      · rw [if_pos hHigh] at h ⊢
        obtain ⟨middle, hApplied, hThread⟩ := Outcome.bind_eq_ok.mp h
        rw [recorded_mbs] at hApplied
        exact ⟨middle, hApplied, Or.inl ⟨hThread, fun _ hResult => by cases hResult; exact hHigh⟩⟩
      · rw [if_neg hHigh] at h ⊢
        cases Outcome.pure_eq_ok.mp h
        exact ⟨_, rfl, Or.inr ⟨rfl, result, rfl, not_not.mp hHigh⟩⟩

/-- What follows the confirmation is the loop, which takes nothing over. -/
theorem Call.perform_keepsRecords (h : call.perform cfg keys e = .ok e') :
    ∃ middle, call.confirm cfg e = .ok middle ∧ middle.KeepsRecords e' := by
  obtain ⟨middle, hConfirm, ⟨hThread, _⟩ | ⟨rfl, _⟩⟩ := Call.perform_cases h
  · exact ⟨middle, hConfirm, loopRelation_keepsRecords.executeThread hThread⟩
  · exact ⟨_, hConfirm, loopRelation_keepsRecords.refl _⟩

theorem Call.perform_shortens (h : call.perform cfg keys e = .ok e') :
    (e.enqueue call.batch).Shortens e' := by
  cases call with
  | addMbToExecute batch => exact addMbToExecute_shortens h
  | handleResult result =>
      have hSame : e.enqueue [] = e := by
        unfold enqueue
        rw [List.append_nil, List.append_nil]
      show (e.enqueue []).Shortens e'
      rw [hSame]
      exact handleResult_shortens h

/-- Numbers that go on through the whole run go on at every call. -/
theorem guarded_continues {calls : List Call}
    (h : NumberedFrom (e.delivered.length + 1) (calls.flatMap Call.batch)) :
    Guarded (Call.perform cfg keys) Call.Continues e calls := by
  induction calls generalizing e with
  | nil => trivial
  | cons call rest ih =>
      rw [List.flatMap_cons, numberedFrom_append] at h
      refine ⟨h.1, fun e' hStep => ih ?_⟩
      rw [(Call.perform_shortens hStep).delivered, enqueue, List.length_append]
      push_cast
      rw [Int.add_right_comm]
      exact h.2

/-- The queue ends with the last number that was handed over, and the nodes recorded for
a number are recorded for the smaller ones. -/
structure Nested (e : Executor) : Prop where
  inLine : e.InLine
  within : e.mbs.length ≤ e.delivered.length
  subset : ∀ i j, 1 ≤ i → i ≤ j → (e.reports j).keys ⊆ (e.reports i).keys

namespace Nested

theorem new (id : NodeID) (gm : GroupManager) : ({ id, gm } : Executor).Nested :=
  ⟨trivial, le_rfl, fun _ _ _ _ => Finset.empty_subset _⟩

theorem bounds (h : e.Nested) {mb : MicroBlock} (hMem : mb ∈ e.mbs) :
    1 ≤ mb.committedNo ∧ mb.committedNo ≤ e.delivered.length := by
  have hBounds := NumberedFrom.bounds h.inLine hMem
  have hWithin := h.within
  omega

theorem doneCount_le (h : e.Nested) {i j : Int} (hPositive : 1 ≤ i) (hLe : i ≤ j) :
    e.doneCount j ≤ e.doneCount i :=
  Finset.card_le_card (h.subset i j hPositive hLe)

theorem enqueue (h : e.Nested) {batch : List MicroBlock}
    (hBatch : NumberedFrom (e.delivered.length + 1) batch) : (e.enqueue batch).Nested where
  inLine := h.inLine.enqueue hBatch
  within := by
    simp only [Executor.enqueue, List.length_append]
    exact Nat.add_le_add_right h.within _
  subset := h.subset

theorem shortens (h : e.Nested) (hStep : e.Shortens e') (hDone : e'.done = e.done) :
    e'.Nested where
  inLine := h.inLine.shortens hStep
  within := by
    rw [hStep.delivered]
    exact hStep.mbs.length_le.trans h.within
  subset := by
    simp only [reports_congr hDone]
    exact h.subset

/-- A node that is added to a number is added to the smaller ones. -/
theorem recorded (h : e.Nested) (cfg : Settings) (result : ExecuteResult) :
    (e.recorded cfg result).Nested := by
  have hSubset : ∀ i j, 1 ≤ i → i ≤ j →
      ((e.recorded cfg result).reports j).keys ⊆ ((e.recorded cfg result).reports i).keys := by
    intro i j hPositive hLe
    rw [reports_recorded, reports_recorded]
    by_cases hBoth : j ≤ result.no
    · rw [if_pos ⟨hPositive.trans hLe, hBoth⟩, if_pos ⟨hPositive, hLe.trans hBoth⟩,
        Table.keys_insert, Table.keys_insert]
      exact Finset.insert_subset_insert _ (h.subset i j hPositive hLe)
    · rw [if_neg fun hIn => hBoth hIn.2]
      split_ifs
      · rw [Table.keys_insert]
        exact (h.subset i j hPositive hLe).trans (Finset.subset_insert _ _)
      · exact h.subset i j hPositive hLe
  obtain ⟨done, hRecorded⟩ := recorded_spec cfg e result
  rw [hRecorded] at hSubset ⊢
  exact ⟨h.inLine, h.within, hSubset⟩

end Nested

/-- A front part of the queue that ends with a confirmed microblock is confirmed. -/
theorem applyHeads_confirmed (hNested : e.Nested) {p : MicroBlock → Bool}
    (hTest : ∀ mb, p mb = true → cfg.q ≤ e.doneCount mb.committedNo)
    (h : e.applyHeads (lastIndexWhere p e.mbs 0 (-1) + 1).toNat = .ok middle) :
    middle.Nested ∧ ∃ front : List MicroBlock,
      middle.applied = e.applied ++ front.map .updated ∧
      ∀ mb ∈ front, cfg.q ≤ middle.doneCount mb.committedNo := by
  have hDone := applyHeads_done h
  refine ⟨hNested.shortens (applyHeads_consumes h).shortens hDone, ?_⟩
  obtain ⟨front, hQueue, hAdvance, hFront, _⟩ := applyHeads_last h
  refine ⟨front, hAdvance.applied, fun mb hMem => ?_⟩
  rw [doneCount_congr hDone]
  have hLast : front.getLast (List.ne_nil_of_mem hMem) ∈ front.getLast? :=
    List.getLast?_eq_some_getLast _
  have hNumbers := hNested.inLine
  unfold InLine at hNumbers
  rw [hQueue, numberedFrom_append] at hNumbers
  have hNumber := hNumbers.1.last hLast
  have hBefore := (hNumbers.1.bounds hMem).2
  have hPositive : 1 ≤ mb.committedNo :=
    (hNested.bounds (hQueue ▸ List.mem_append_left _ hMem)).1
  have hLess := hNested.doneCount_le hPositive
    (show mb.committedNo ≤ (front.getLast (List.ne_nil_of_mem hMem)).committedNo by omega)
  exact (hTest _ (hFront _ hLast)).trans (Int.ofNat_le.mpr hLess)

/-- A call takes over what the records at that moment confirm. -/
theorem Call.confirm_spec (hGroup : cfg.broadcastByGroup = true) (hNested : e.Nested)
    (hContinues : call.Continues e) :
    ∃ middle, call.confirm cfg e = .ok middle ∧ middle.Nested ∧
      ∃ front : List MicroBlock, middle.applied = e.applied ++ front.map .updated ∧
        ∀ mb ∈ front, cfg.q ≤ middle.doneCount mb.committedNo := by
  cases call with
  | addMbToExecute batch =>
      obtain ⟨middle, hApplied⟩ :=
        applyHeads_lastIndexWhere_returns (e.enqueue batch) ((e.enqueue batch).checkResult cfg)
      refine ⟨middle, (if_pos hGroup).trans hApplied, ?_⟩
      exact applyHeads_confirmed (e := e.enqueue batch) (hNested.enqueue hContinues)
        (fun mb hTest => of_decide_eq_true hTest) hApplied
  | handleResult result =>
      dsimp only [Call.confirm]
      rw [← recorded_mbs cfg e result, ← recorded_applied cfg e result]
      by_cases hHigh : e.confirmedNo cfg result ≠ 0
      · rw [if_pos hHigh]
        obtain ⟨middle, hHeads⟩ := applyHeads_lastIndexWhere_returns (e.recorded cfg result)
          (fun mb => mb.committedNo = e.confirmedNo cfg result)
        refine ⟨middle, hHeads, applyHeads_confirmed (hNested.recorded cfg result) ?_ hHeads⟩
        intro mb hTest
        rw [of_decide_eq_true hTest]
        exact ((confirmedNo_enough cfg e result).resolve_left hHigh).2
      · rw [if_neg hHigh]
        exact ⟨_, rfl, hNested.recorded cfg result, [], (List.append_nil _).symm,
          fun mb hMem => absurd hMem List.not_mem_nil⟩

theorem Call.perform_nested (hGroup : cfg.broadcastByGroup = true) (hNested : e.Nested)
    (hContinues : call.Continues e) (hStep : call.perform cfg keys e = .ok e') : e'.Nested := by
  obtain ⟨middle, hConfirm, hMiddle, _⟩ := Call.confirm_spec hGroup hNested hContinues
  obtain ⟨_, hConfirm', ⟨hThread, _⟩ | ⟨rfl, _⟩⟩ := Call.perform_cases hStep
  · cases hConfirm.symm.trans hConfirm'
    exact hMiddle.shortens (loopRelation_shortens.executeThread hThread)
      (loopRelation_keepsRecords.executeThread hThread).1
  · cases hConfirm.symm.trans hConfirm'
    exact hMiddle

/-- In every run the records are nested, and the next call takes over only what is
confirmed by the records at that moment. -/
theorem only_confirmed_taken_over (hGroup : cfg.broadcastByGroup = true) {id : NodeID}
    {gm : GroupManager} {calls : List Call}
    (hNumbers : NumberedFrom 1 ((calls ++ [call]).flatMap Call.batch))
    (hRun : run (Call.perform cfg keys) { id, gm } calls = .ok e) :
    (∀ i j, 1 ≤ i → i ≤ j → (e.reports j).keys ⊆ (e.reports i).keys) ∧
      ∃ middle, call.confirm cfg e = .ok middle ∧
        (∃ front : List MicroBlock, middle.applied = e.applied ++ front.map .updated ∧
          ∀ mb ∈ front, cfg.q ≤ middle.doneCount mb.committedNo) ∧
        ∀ e', call.perform cfg keys e = .ok e' → e'.done = middle.done ∧
          ∀ mb, .updated mb ∈ e'.applied → .updated mb ∈ middle.applied := by
  have hContinues : Guarded (Call.perform cfg keys) Call.Continues { id, gm } (calls ++ [call]) :=
    guarded_continues hNumbers
  have hNested : e.Nested := guarded_run_invariant
    (fun e call e' h hHere hStep => Call.perform_nested hGroup h hHere hStep)
    hContinues.of_append hRun (Nested.new id gm)
  obtain ⟨middle, hConfirm, _, hFront⟩ :=
    Call.confirm_spec hGroup hNested (hContinues.last hRun)
  refine ⟨hNested.subset, middle, hConfirm, hFront, fun e' hStep => ?_⟩
  obtain ⟨_, hConfirm', hKeeps⟩ := Call.perform_keepsRecords hStep
  cases hConfirm.symm.trans hConfirm'
  exact hKeeps

end Executor

namespace Scenario

/-- A microblock of the other group for node 3, with its number. -/
def numbered (hash : Identifier) (committedNo : Int) : MicroBlock :=
  { single hash 1 with committedNo }

/-- A node reports that everything up to `no` is done. -/
def doneUpTo (no : Int) (name : NodeID) : Executor.Call :=
  .handleResult { propsalId := name, sig := [], mb := 1, no }

/-- Two microblocks are in the queue and two nodes have reported both. -/
def twoReports : List Executor.Call :=
  [.addMbToExecute [numbered 1 1, numbered 2 2], doneUpTo 2 "1", doneUpTo 2 "2"]

/-- Three nodes report everything up to `no` when one microblock is in the queue. -/
def oneWaiting (no : Int) : List Executor.Call :=
  [.addMbToExecute [numbered 1 1], doneUpTo no "1", doneUpTo no "2", doneUpTo no "4"]

end Scenario

namespace Executor

/-- The third report lets node 3 take over both. -/
theorem only_confirmed_taken_over_both :
    ∃ e, run (Call.perform Scenario.grouped Scenario.keys)
        { id := "3", gm := .new Scenario.grouped "3" } Scenario.twoReports = .ok e ∧
      e.mbs.map MicroBlock.hash = [1, 2] ∧
      ∃ middle, (Scenario.doneUpTo 2 "4").confirm Scenario.grouped e = .ok middle ∧
        middle.mbs = [] ∧ ∃ front : List MicroBlock,
          middle.applied = e.applied ++ front.map .updated ∧
          ∀ mb ∈ front, Scenario.grouped.q ≤ middle.doneCount mb.committedNo := by
  obtain ⟨e, hRun, hQueue, hReleased⟩ := Outcome.of_test
    (P := fun e : Executor => e.mbs.map MicroBlock.hash = [1, 2] ∧
      ((Scenario.doneUpTo 2 "4").confirm Scenario.grouped e).toOption.map mbs = some [])
    (x := run (Call.perform Scenario.grouped Scenario.keys)
      { id := "3", gm := .new Scenario.grouped "3" } Scenario.twoReports) (by decide)
  have hNumbers : NumberedFrom 1
      ((Scenario.twoReports ++ [Scenario.doneUpTo 2 "4"]).flatMap Call.batch) :=
    ⟨rfl, rfl, trivial⟩
  obtain ⟨_, middle, hConfirm, hFront, _⟩ := only_confirmed_taken_over rfl hNumbers hRun
  rw [hConfirm] at hReleased
  exact ⟨e, hRun, hQueue, middle, hConfirm, Option.some.inj hReleased, hFront⟩

/-- The first microblock of the queue is not confirmed. -/
def HeadOpen (cfg : Settings) (e : Executor) : Prop :=
  ∀ mb ∈ e.mbs.head?, (e.doneCount mb.committedNo : Int) < cfg.q

/-- The first microblock of the queue cannot be executed here. -/
def Blocked (e : Executor) : Prop :=
  ∀ mb ∈ e.mbs.head?, ¬e.Runnable mb

/-- A result does not confirm a number that the queue has not reached. -/
def Call.NotAhead (cfg : Settings) (e : Executor) : Call → Prop
  | .addMbToExecute _ => True
  | .handleResult result => e.mbs ≠ [] → e.confirmedNo cfg result ≤ e.delivered.length

instance (cfg : Settings) (e : Executor) : (call : Call) → Decidable (call.NotAhead cfg e)
  | .addMbToExecute _ => inferInstanceAs (Decidable True)
  | .handleResult result =>
      inferInstanceAs (Decidable (e.mbs ≠ [] → e.confirmedNo cfg result ≤ e.delivered.length))

variable {cfg : Settings} {keys : KeyRing} {e e' middle : Executor} {call : Call}

theorem Blocked.congr (h : e.Blocked) (hQueue : e'.mbs = e.mbs) (hGm : e'.gm = e.gm) :
    e'.Blocked := by
  unfold Blocked Runnable
  rw [hQueue, hGm]
  exact h

theorem headOpen_of_mem (h : ∀ mb ∈ e.mbs, (e.doneCount mb.committedNo : Int) < cfg.q) :
    e.HeadOpen cfg :=
  fun mb hHead => h mb (List.mem_of_head? hHead)

/-- The loop stops at a microblock that cannot be executed here. -/
theorem executeThread_blocked (hGroup : cfg.broadcastByGroup = true)
    (h : e.executeThread cfg keys = .ok e') : e'.Blocked ∧ (e.Blocked → e'.mbs = e.mbs) := by
  obtain ⟨last, successNum, hLoop, rfl⟩ : ∃ last successNum,
      e.executeGroup keys 0 0 e.mbs = .ok (last, successNum) ∧
        e' = { last with mbs := last.mbs.drop successNum } := by
    simpa [hGroup] using executeThread_cases h
  obtain ⟨front, rest, hSplit, rfl, hQueue, hAdvance, hFront, hRest⟩ := executeGroup_spec hLoop
  have hLeft : last.mbs.drop (0 + front.length) = rest := by
    rw [hQueue, hSplit, Nat.zero_add, List.drop_left]
  refine ⟨fun mb hHead hRunnable => ?_, fun hBlocked => ?_⟩
  · rw [hLeft] at hHead
    unfold Runnable at hRunnable
    rw [hAdvance.gm] at hRunnable
    exact hRest mb hHead hRunnable
  · show last.mbs.drop (0 + front.length) = e.mbs
    cases front with
    | nil => rw [hLeft, hSplit, List.nil_append]
    | cons mb front =>
        have hHead : mb ∈ e.mbs.head? := by rw [hSplit, List.cons_append, List.head?_cons]; rfl
        exact absurd (hFront mb List.mem_cons_self) (hBlocked mb hHead)

/-- What stays in the queue has numbers behind a number that the queue has reached. -/
theorem applyHeads_left (hNested : e.Nested) {no : Int} (hReached : no ≤ e.delivered.length)
    (h : e.applyHeads (lastIndexWhere (fun mb => mb.committedNo = no) e.mbs 0 (-1) + 1).toNat =
      .ok middle) {mb : MicroBlock} (hMem : mb ∈ middle.mbs) : no < mb.committedNo := by
  obtain ⟨front, hQueue, _, _, hLeft⟩ := applyHeads_last h
  have hNumbers := hNested.inLine
  unfold InLine at hNumbers
  by_contra hBefore
  have hFrom := (hNumbers.bounds (hQueue ▸ List.mem_append_right front hMem)).1
  -- the number is in the queue, and was not left there
  obtain ⟨found, hFound, rfl⟩ : ∃ found ∈ e.mbs, found.committedNo = no :=
    hNumbers.exists_number (by omega) (by omega)
  rw [hQueue] at hFound
  rcases List.mem_append.mp hFound with hGone | hHere
  · rw [hQueue, numberedFrom_append] at hNumbers
    have hEnd := (hNumbers.1.bounds hGone).2
    have hStart := (hNumbers.2.bounds hMem).1
    omega
  · exact of_decide_eq_false (hLeft found hHere) rfl

/-- Nothing is taken over for a number that the queue has not reached. -/
theorem applyHeads_ahead (hNested : e.Nested) {no : Int} (hAhead : e.delivered.length < no)
    (h : e.applyHeads (lastIndexWhere (fun mb => mb.committedNo = no) e.mbs 0 (-1) + 1).toNat =
      .ok middle) : middle.mbs = e.mbs := by
  obtain ⟨front, hQueue, _, hFront, _⟩ := applyHeads_last h
  cases hLast : front.getLast? with
  | none => rw [hQueue, List.getLast?_eq_none_iff.mp hLast, List.nil_append]
  | some last =>
      have hNumber : last.committedNo = no := of_decide_eq_true (hFront last hLast)
      have hMem : last ∈ e.mbs := hQueue ▸ List.mem_append_left _ (List.mem_of_getLast? hLast)
      have hBound := (hNested.bounds hMem).2
      omega

/-- What holds while no result runs ahead of the queue. -/
structure Waiting (cfg : Settings) (e : Executor) : Prop where
  nested : e.Nested
  blocked : e.Blocked
  headOpen : e.HeadOpen cfg

/-- Behind the last confirmed number, a result confirms nothing in the queue. -/
theorem Waiting.doneCount_lt (h : e.Waiting cfg) {result : ExecuteResult} {mb : MicroBlock}
    (hMem : mb ∈ e.mbs) (hBehind : e.confirmedNo cfg result < mb.committedNo) :
    ((e.recorded cfg result).doneCount mb.committedNo : Int) < cfg.q := by
  rcases doneCount_recorded (h.nested.bounds hMem).1 hBehind with hFew | hSame
  · exact hFew
  · rw [hSame]
    obtain ⟨head, rest, hQueue⟩ := List.exists_cons_of_ne_nil (List.ne_nil_of_mem hMem)
    have hHead : head ∈ e.mbs := hQueue ▸ List.mem_cons_self
    have hOpen := h.headOpen head (by rw [hQueue]; rfl)
    have hNumbers := h.nested.inLine
    unfold InLine at hNumbers
    have hFirst : head.committedNo ≤ mb.committedNo := by
      have hFrom := (hNumbers.bounds hMem).1
      rw [hQueue] at hFrom hNumbers
      exact hNumbers.1.trans_le hFrom
    have hLess := h.nested.doneCount_le (h.nested.bounds hHead).1 hFirst
    omega

section Released

variable {result : ExecuteResult}
  (hTaken : (e.recorded cfg result).applyHeads
    (lastIndexWhere (fun mb => mb.committedNo = e.confirmedNo cfg result)
      (e.recorded cfg result).mbs 0 (-1) + 1).toNat = .ok middle)
  (hThread : middle.executeThread cfg keys = .ok e')

include hTaken hThread

theorem doneCount_released (no : Int) :
    e'.doneCount no = (e.recorded cfg result).doneCount no := by
  rw [doneCount_congr (loopRelation_keepsRecords.executeThread hThread).1,
    doneCount_congr (applyHeads_done hTaken)]

/-- A result that confirms no more than the queue has reached leaves an open head. -/
theorem Waiting.released (h : e.Waiting cfg)
    (hReached : e.mbs ≠ [] → e.confirmedNo cfg result ≤ e.delivered.length) : e'.HeadOpen cfg := by
  refine headOpen_of_mem fun mb hMem => ?_
  have hMiddle : mb ∈ middle.mbs := (loopRelation_shortens.executeThread hThread).mbs.subset hMem
  have hOld : mb ∈ e.mbs := by
    rw [← recorded_mbs cfg e result]
    exact (applyHeads_consumes hTaken).shortens.mbs.subset hMiddle
  have hBehind : e.confirmedNo cfg result < mb.committedNo := by
    refine applyHeads_left (h.nested.recorded cfg result) ?_ hTaken hMiddle
    rw [recorded_delivered]
    exact hReached (List.ne_nil_of_mem hOld)
  rw [doneCount_released hTaken hThread]
  exact h.doneCount_lt hOld hBehind

/-- A result that confirms more leaves the queue as it is, with a confirmed head. -/
theorem Waiting.overtaken (hGroup : cfg.broadcastByGroup = true) (h : e.Waiting cfg)
    (hHigh : e.confirmedNo cfg result ≠ 0) (hQueue : e.mbs ≠ [])
    (hAhead : e.delivered.length < e.confirmedNo cfg result) : ¬e'.HeadOpen cfg := by
  intro hOpen
  have hNested := h.nested.recorded cfg result
  have hStays : middle.mbs = e.mbs := by
    rw [← recorded_mbs cfg e result]
    exact applyHeads_ahead hNested (by rw [recorded_delivered]; exact hAhead) hTaken
  obtain ⟨_, _, hAdvance⟩ := applyHeads_consumes hTaken
  have hBlocked : middle.Blocked := h.blocked.congr hStays (hAdvance.gm.trans (recorded_gm cfg e result))
  have hSame : e'.mbs = e.mbs := ((executeThread_blocked hGroup hThread).2 hBlocked).trans hStays
  obtain ⟨head, rest, hSplit⟩ := List.exists_cons_of_ne_nil hQueue
  have hBounds := h.nested.bounds (hSplit ▸ List.mem_cons_self : head ∈ e.mbs)
  have hFew := hOpen head (by rw [hSame, hSplit]; rfl)
  have hEnough := ((confirmedNo_enough cfg e result).resolve_left hHigh).2
  have hLess := hNested.doneCount_le hBounds.1 (hBounds.2.trans hAhead.le)
  rw [doneCount_released hTaken hThread] at hFew
  omega

end Released

/-- A result leaves an open head exactly if it confirms no more than the queue has
reached. -/
theorem Waiting.handleResult (hGroup : cfg.broadcastByGroup = true) (h : e.Waiting cfg)
    {result : ExecuteResult} (hConfirm : (Call.handleResult result).confirm cfg e = .ok middle)
    (hHigh : e.confirmedNo cfg result ≠ 0) (hThread : middle.executeThread cfg keys = .ok e') :
    e'.HeadOpen cfg ↔ (e.mbs ≠ [] → e.confirmedNo cfg result ≤ e.delivered.length) := by
  dsimp only [Call.confirm] at hConfirm
  rw [if_pos hHigh, ← recorded_mbs cfg e result] at hConfirm
  refine ⟨fun hOpen hQueue => ?_, h.released hConfirm hThread⟩
  by_contra hAhead
  exact h.overtaken hConfirm hThread hGroup hHigh hQueue (not_le.mp hAhead) hOpen

/-- What is handed over is looked at together with the queue, so nothing confirmed stays. -/
theorem Waiting.addMbToExecute (hGroup : cfg.broadcastByGroup = true) {batch : List MicroBlock}
    (hConfirm : (Call.addMbToExecute batch).confirm cfg e = .ok middle)
    (hThread : middle.executeThread cfg keys = .ok e') : e'.HeadOpen cfg := by
  have hHeads : (e.enqueue batch).applyHeads
      (lastIndexWhere ((e.enqueue batch).checkResult cfg) (e.enqueue batch).mbs 0 (-1) + 1).toNat =
        .ok middle := (if_pos hGroup).symm.trans hConfirm
  obtain ⟨front, _, _, _, hLeft⟩ := applyHeads_last hHeads
  refine headOpen_of_mem fun mb hMem => ?_
  have hTest := hLeft mb ((loopRelation_shortens.executeThread hThread).mbs.subset hMem)
  rw [doneCount_congr (loopRelation_keepsRecords.executeThread hThread).1,
    doneCount_congr (applyHeads_done hHeads)]
  exact not_le.mp (of_decide_eq_false hTest)

/-- One call: the head stays open exactly if no result runs ahead of the queue. -/
theorem Call.perform_headOpen (hGroup : cfg.broadcastByGroup = true) (h : e.Waiting cfg)
    (hStep : call.perform cfg keys e = .ok e') :
    e'.Blocked ∧ (e'.HeadOpen cfg ↔ call.NotAhead cfg e) := by
  obtain ⟨middle, hConfirm, ⟨hThread, hHigh⟩ | ⟨rfl, result, rfl, hNone⟩⟩ :=
    Call.perform_cases hStep
  · refine ⟨(executeThread_blocked hGroup hThread).1, ?_⟩
    cases call with
    | addMbToExecute batch =>
        exact iff_of_true (Waiting.addMbToExecute hGroup hConfirm hThread) trivial
    | handleResult result =>
        exact h.handleResult hGroup hConfirm (hHigh result rfl) hThread
  · dsimp only [Call.confirm] at hConfirm
    rw [if_neg (not_not.mpr hNone)] at hConfirm
    cases Outcome.pure_eq_ok.mp hConfirm
    refine ⟨h.blocked.congr (recorded_mbs cfg e result) (recorded_gm cfg e result),
      iff_of_true ?_ ?_⟩
    · refine headOpen_of_mem fun mb hMem => ?_
      rw [recorded_mbs] at hMem
      exact h.doneCount_lt hMem (hNone ▸ (h.nested.bounds hMem).1)
    · exact fun _ => hNone ▸ Int.natCast_nonneg _

theorem Call.always_headOpen_iff (hGroup : cfg.broadcastByGroup = true) (h : e.Waiting cfg)
    (hStep : call.perform cfg keys e = .ok e') :
    (∀ e', call.perform cfg keys e = .ok e' → e'.HeadOpen cfg) ↔ call.NotAhead cfg e := by
  rw [← (Call.perform_headOpen hGroup h hStep).2, hStep]
  exact ⟨fun hOpen => hOpen e' rfl, fun hOpen _ hSame => Except.ok.inj hSame ▸ hOpen⟩

theorem Waiting.new (cfg : Settings) (id : NodeID) (gm : GroupManager) :
    ({ id, gm } : Executor).Waiting cfg where
  nested := .new id gm
  blocked := fun _ hHead => nomatch hHead
  headOpen := fun _ hHead => nomatch hHead

/-- All through a run, no confirmed microblock stays at the head, exactly if no result
confirms a number beyond a queue that is not empty. -/
theorem head_open_iff (hGroup : cfg.broadcastByGroup = true) {id : NodeID} {gm : GroupManager}
    {calls : List Call} (hNumbers : NumberedFrom 1 (calls.flatMap Call.batch))
    (hRun : run (Call.perform cfg keys) { id, gm } calls = .ok e) :
    (∀ past, past <+: calls → ∀ e, run (Call.perform cfg keys) { id, gm } past = .ok e →
        ∀ mb ∈ e.mbs.head?, (e.doneCount mb.committedNo : Int) < cfg.q) ↔
      Guarded (Call.perform cfg keys) (Call.NotAhead cfg) { id, gm } calls := by
  have hStart := Waiting.new cfg id gm
  have hContinues : Guarded (Call.perform cfg keys) Call.Continues { id, gm } calls :=
    guarded_continues hNumbers
  refine (forall_prefix_iff_guarded (P := HeadOpen cfg) hStart.headOpen).trans
    (guarded_congr (P := Waiting cfg) ?_ ?_ hContinues hRun hStart)
  · intro e call e' hWaiting _ hStep
    exact Call.always_headOpen_iff hGroup hWaiting hStep
  · intro e call e' hWaiting hHere hOpen hStep
    exact ⟨Call.perform_nested hGroup hWaiting.nested hHere hStep,
      (Call.perform_headOpen hGroup hWaiting hStep).1, hOpen e' hStep⟩

/-- Three reports about the microblock in the queue release it. -/
theorem head_open_iff_released :
    ∃ e, run (Call.perform Scenario.grouped Scenario.keys)
        { id := "3", gm := .new Scenario.grouped "3" } (Scenario.oneWaiting 1) = .ok e ∧
      e.mbs = [] ∧
      ∀ past, past <+: Scenario.oneWaiting 1 → ∀ e,
        run (Call.perform Scenario.grouped Scenario.keys)
          { id := "3", gm := .new Scenario.grouped "3" } past = .ok e →
        ∀ mb ∈ e.mbs.head?, (e.doneCount mb.committedNo : Int) < Scenario.grouped.q := by
  obtain ⟨e, hRun, hQueue⟩ := Outcome.of_test
    (P := fun e : Executor => e.mbs = [])
    (x := run (Call.perform Scenario.grouped Scenario.keys)
      { id := "3", gm := .new Scenario.grouped "3" } (Scenario.oneWaiting 1)) (by decide)
  have hNotAhead : Guarded (Call.perform Scenario.grouped Scenario.keys)
      (Call.NotAhead Scenario.grouped) { id := "3", gm := .new Scenario.grouped "3" }
      (Scenario.oneWaiting 1) := by decide
  have hNumbers : NumberedFrom 1 ((Scenario.oneWaiting 1).flatMap Call.batch) := ⟨rfl, trivial⟩
  exact ⟨e, hRun, hQueue, (head_open_iff rfl hNumbers hRun).mpr hNotAhead⟩

/-- Three reports for number 2, which is not here yet, confirm microblock 1 and leave it at
the head. -/
theorem confirmed_head_stays :
    NumberedFrom 1 ((Scenario.oneWaiting 2).flatMap Call.batch) ∧
      ∃ e, run (Call.perform Scenario.grouped Scenario.keys)
          { id := "3", gm := .new Scenario.grouped "3" } (Scenario.oneWaiting 2) = .ok e ∧
        e.mbs.head?.map MicroBlock.committedNo = some 1 ∧
        Scenario.grouped.q ≤ e.doneCount 1 ∧ e.applied = [] :=
  ⟨⟨rfl, trivial⟩, Outcome.of_test (by decide)⟩

end Executor
end Bamboo
