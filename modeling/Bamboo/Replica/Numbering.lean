import Bamboo.Replica.Execution

/-! The numbers of the execution queue. Committed microblocks are numbered once each when
they are handed over; the queue only loses microblocks at its front and gains the next
ones at its end. A retransmitted microblock takes the place of its placeholder with all
of its fields, and one of them is the number. -/
namespace Bamboo

open Library

/-- Microblocks whose numbers go up by one, from `first` on. -/
def NumberedFrom : Int → List MicroBlock → Prop
  | _, [] => True
  | first, mb :: rest => mb.committedNo = first ∧ NumberedFrom (first + 1) rest

theorem numberedFrom_append {first : Int} {front rest : List MicroBlock} :
    NumberedFrom first (front ++ rest) ↔
      NumberedFrom first front ∧ NumberedFrom (first + front.length) rest := by
  induction front generalizing first with
  | nil => simp [NumberedFrom]
  | cons mb front ih =>
      simp only [List.cons_append, NumberedFrom, ih, List.length_cons, and_assoc]
      have hNext : first + 1 + front.length = first + ((front.length + 1 : Nat) : Int) := by
        push_cast
        omega
      rw [hNext]

/-- Only the numbers count. -/
theorem numberedFrom_congr {first : Int} {mbs others : List MicroBlock}
    (h : mbs.map MicroBlock.committedNo = others.map MicroBlock.committedNo) :
    NumberedFrom first mbs ↔ NumberedFrom first others := by
  induction mbs generalizing first others with
  | nil =>
      cases others with
      | nil => rfl
      | cons other others => simp at h
  | cons mb mbs ih =>
      cases others with
      | nil => simp at h
      | cons other others =>
          simp only [List.map_cons, List.cons.injEq] at h
          simp only [NumberedFrom, h.1, ih h.2]

theorem NumberedFrom.isChain {first : Int} {mbs : List MicroBlock} (h : NumberedFrom first mbs) :
    mbs.IsChain fun a b => b.committedNo = a.committedNo + 1 := by
  induction mbs generalizing first with
  | nil => exact List.IsChain.nil
  | cons mb rest ih =>
      cases rest with
      | nil => exact List.IsChain.singleton mb
      | cons next rest =>
          obtain ⟨hHead, hRest⟩ := h
          refine List.IsChain.cons_cons ?_ (ih hRest)
          rw [hHead, hRest.1]

theorem NumberedFrom.last {first : Int} {mbs : List MicroBlock} (h : NumberedFrom first mbs)
    {mb : MicroBlock} (hLast : mb ∈ mbs.getLast?) : mb.committedNo = first + mbs.length - 1 := by
  obtain ⟨hSome, rfl⟩ := List.mem_getLast?_eq_getLast hLast
  have hPositive := List.length_pos_of_ne_nil hSome
  rw [← List.dropLast_append_getLast hSome, numberedFrom_append, List.length_dropLast] at h
  have hNumber := h.2.1
  omega

theorem NumberedFrom.bounds {first : Int} {mbs : List MicroBlock} (h : NumberedFrom first mbs)
    {mb : MicroBlock} (hMem : mb ∈ mbs) :
    first ≤ mb.committedNo ∧ mb.committedNo < first + mbs.length := by
  obtain ⟨front, rest, rfl⟩ := List.append_of_mem hMem
  have hHere := (numberedFrom_append.mp h).2.1
  rw [List.length_append, List.length_cons]
  push_cast
  omega

theorem NumberedFrom.number {first : Int} {mbs : List MicroBlock} (h : NumberedFrom first mbs)
    {k : Nat} {mb : MicroBlock} (hHere : mbs[k]? = some mb) : mb.committedNo = first + k := by
  induction mbs generalizing first k with
  | nil => cases hHere
  | cons other rest ih =>
      cases k with
      | zero =>
          cases Option.some.inj hHere
          rw [h.1]
          exact (Int.add_zero first).symm
      | succ k =>
          rw [ih h.2 hHere]
          push_cast
          omega

theorem NumberedFrom.exists_number {first : Int} {mbs : List MicroBlock}
    (h : NumberedFrom first mbs) {no : Int} (hFrom : first ≤ no) (hTo : no < first + mbs.length) :
    ∃ mb ∈ mbs, mb.committedNo = no := by
  induction mbs generalizing first with
  | nil =>
      rw [List.length_nil] at hTo
      omega
  | cons mb rest ih =>
      obtain ⟨hHead, hRest⟩ := h
      by_cases hHere : no = first
      · exact ⟨mb, List.mem_cons_self, hHead.trans hHere.symm⟩
      · rw [List.length_cons] at hTo
        push_cast at hTo
        obtain ⟨found, hMem, hNumber⟩ := ih hRest (by omega) (by omega)
        exact ⟨found, List.mem_cons_of_mem mb hMem, hNumber⟩

/-- A committed block gives the next numbers to the microblocks it delivers. -/
theorem numberCommitted_numbers (seen : Finset Identifier) (no : Int) (mbs : List MicroBlock) :
    NumberedFrom (no + 1) (numberCommitted seen no mbs).2.2 ∧
      (numberCommitted seen no mbs).2.1 = no + (numberCommitted seen no mbs).2.2.length := by
  induction mbs generalizing seen no with
  | nil => simp [numberCommitted, NumberedFrom]
  | cons mb rest ih =>
      unfold numberCommitted
      by_cases hSeen : mb.hash ∈ seen
      · rw [if_pos hSeen]
        exact ih seen no
      · rw [if_neg hSeen]
        obtain ⟨hNumbers, hLast⟩ := ih (insert mb.hash seen) (no + 1)
        refine ⟨⟨rfl, hNumbers⟩, hLast.trans ?_⟩
        rw [List.length_cons, add_assoc, add_comm 1]
        rfl

namespace Executor

/-- A front part of the queue is gone, and nothing has come in. -/
structure Shortens (e e' : Executor) : Prop where
  id : e'.id = e.id
  mbs : e'.mbs <:+ e.mbs
  delivered : e'.delivered = e.delivered
  mbReceive : e'.mbReceive = e.mbReceive

variable {cfg : Settings} {keys : KeyRing} {e e' : Executor}

theorem Shortens.trans {e'' : Executor} (h : e.Shortens e') (h' : e'.Shortens e'') :
    e.Shortens e'' :=
  ⟨h'.id.trans h.id, h'.mbs.trans h.mbs, h'.delivered.trans h.delivered,
    h'.mbReceive.trans h.mbReceive⟩

theorem Consumes.shortens (h : e.Consumes e') : e.Shortens e' := by
  obtain ⟨now, hQueue, hAdvance⟩ := h
  exact ⟨hAdvance.id, ⟨_, hQueue.symm⟩, hAdvance.delivered, hAdvance.mbReceive⟩

/-- In every mode the loop takes microblocks off the front, with sampling not always
those that it has executed. -/
theorem loopRelation_shortens : LoopRelation Shortens where
  refl _ := ⟨rfl, List.suffix_rfl, rfl, rfl⟩
  trans := Shortens.trans
  execute e mb := by
    obtain ⟨hAdvance, hQueue, _⟩ := execute_spec e mb
    exact ⟨hAdvance.id, hQueue ▸ List.suffix_rfl, hAdvance.delivered, hAdvance.mbReceive⟩
  send _ _ := ⟨rfl, List.suffix_rfl, rfl, rfl⟩
  drop e count := ⟨rfl, List.drop_suffix count e.mbs, rfl, rfl⟩

theorem handleResult_shortens {result : ExecuteResult}
    (h : e.handleResult cfg keys result = .ok e') : e.Shortens e' := by
  obtain ⟨done, hCases⟩ := handleResult_cases h
  have hRecorded : e.Shortens { e with done } := ⟨rfl, List.suffix_rfl, rfl, rfl⟩
  rcases hCases with rfl | ⟨count, middle, hApplied, hThread⟩
  · exact hRecorded
  · exact (hRecorded.trans (applyHeads_consumes hApplied).shortens).trans
      (loopRelation_shortens.executeThread hThread)

theorem addMbToExecute_shortens {batch : List MicroBlock}
    (h : e.addMbToExecute cfg keys batch = .ok e') : (e.enqueue batch).Shortens e' := by
  obtain ⟨middle, hApplied, hThread⟩ := Outcome.bind_eq_ok.mp h
  exact (applyConfirmed_consumes hApplied).shortens.trans (loopRelation_shortens.executeThread hThread)

/-- The queue is numbered one by one and ends with the last number that was delivered. -/
def InLine (e : Executor) : Prop :=
  NumberedFrom (e.delivered.length - e.mbs.length + 1) e.mbs

theorem InLine.shortens (h : e.InLine) (hStep : e.Shortens e') : e'.InLine := by
  obtain ⟨front, hQueue⟩ := hStep.mbs
  unfold InLine at h ⊢
  rw [← hQueue, numberedFrom_append] at h
  rw [hStep.delivered]
  have hFirst : (e.delivered.length : Int) - e'.mbs.length + 1 =
      e.delivered.length - (front ++ e'.mbs).length + 1 + front.length := by
    rw [List.length_append]
    push_cast
    omega
  rw [hFirst]
  exact h.2

theorem InLine.enqueue (h : e.InLine) {batch : List MicroBlock}
    (hBatch : NumberedFrom (e.delivered.length + 1) batch) : (e.enqueue batch).InLine := by
  unfold InLine at h ⊢
  simp only [Executor.enqueue, List.length_append]
  push_cast
  have hFirst : (e.delivered.length : Int) + batch.length - (e.mbs.length + batch.length) + 1 =
      e.delivered.length - e.mbs.length + 1 := by omega
  rw [hFirst, numberedFrom_append]
  refine ⟨h, ?_⟩
  have hNext : (e.delivered.length : Int) - e.mbs.length + 1 + e.mbs.length =
      e.delivered.length + 1 := by omega
  rw [hNext]
  exact hBatch

/-- Placeholders are replaced by a record with their number. -/
theorem InLine.replaceMissing (h : e.InLine) {mb : MicroBlock}
    (hSame : ∀ mbp ∈ e.mbs, isMissing mb mbp = true → mb.committedNo = mbp.committedNo) :
    (e.replaceMissing mb).InLine := by
  have hNumbers : (e.replaceMissing mb).mbs.map MicroBlock.committedNo =
      e.mbs.map MicroBlock.committedNo := by
    simp only [Executor.replaceMissing, List.map_map]
    refine List.map_congr_left fun mbp hMem => ?_
    by_cases hMissing : isMissing mb mbp = true
    · simp only [Function.comp_apply, if_pos hMissing]
      exact hSame mbp hMem hMissing
    · simp only [Function.comp_apply, if_neg hMissing]
  have hLength : (e.replaceMissing mb).mbs.length = e.mbs.length := by
    simp [Executor.replaceMissing]
  unfold InLine at h ⊢
  rw [hLength, numberedFrom_congr hNumbers]
  exact h

end Executor

namespace Replica

/-- A retransmitted microblock has the number of each placeholder whose place it takes. -/
def ExecutionEvent.KeepsNumber (r : Replica) : ExecutionEvent → Prop
  | .miss mb => ∀ mbp ∈ r.ex.mbs, Executor.isMissing mb mbp = true →
      mb.committedNo = mbp.committedNo
  | .commit _ | .batch | .result _ => True

instance (r : Replica) : (event : ExecutionEvent) → Decidable (event.KeepsNumber r)
  | .miss mb => inferInstanceAs (Decidable (∀ mbp ∈ r.ex.mbs, Executor.isMissing mb mbp = true →
      mb.committedNo = mbp.committedNo))
  | .commit _ | .batch | .result _ => inferInstanceAs (Decidable True)

/-- Everything on the way has its number, and so has the queue. -/
structure Numbered (r : Replica) : Prop where
  onTheWay : NumberedFrom 1 r.onTheWay
  commitMbNo : r.commitMbNo = r.onTheWay.length
  inLine : r.ex.InLine

/-- The microblocks that an event hands over, with their numbers. -/
def ExecutionEvent.handsOver (r : Replica) : ExecutionEvent → List MicroBlock
  | .commit mbs => (numberCommitted r.commitedMb r.commitMbNo mbs).2.2
  | .batch | .result _ | .miss _ => []

/-- The executor's own work changes nothing that is on the way. -/
theorem onTheWay_shortens {r : Replica} {e ex : Executor} (hStep : e.Shortens ex)
    (hWay : e.delivered ++ e.mbReceive.flatten = r.onTheWay) :
    { r with ex }.onTheWay = r.onTheWay := by
  rw [← hWay, ← hStep.delivered, ← hStep.mbReceive]
  rfl

/-- Only what is handed over is added to what is on the way. -/
theorem executionStep_onTheWay {cfg : Settings} {keys : KeyRing} {r r' : Replica}
    {event : ExecutionEvent} (hStep : r.executionStep cfg keys event = .ok r') :
    r'.onTheWay = r.onTheWay ++ event.handsOver r := by
  cases event with
  | commit mbs =>
      cases Outcome.pure_eq_ok.mp hStep
      simp [Replica.processCommittedBlock, onTheWay, ExecutionEvent.handsOver]
  | batch =>
      rw [ExecutionEvent.handsOver, List.append_nil]
      rcases handleBatch_cases hStep with rfl | ⟨batch, rest, ex, hChannel, hAdd, rfl⟩
      · rfl
      · refine onTheWay_shortens (Executor.addMbToExecute_shortens hAdd) ?_
        simp [Executor.enqueue, onTheWay, hChannel]
  | result result =>
      obtain ⟨ex, hResult, hDone⟩ := Outcome.bind_eq_ok.mp hStep
      cases Outcome.pure_eq_ok.mp hDone
      rw [ExecutionEvent.handsOver, List.append_nil]
      exact onTheWay_shortens (Executor.handleResult_shortens hResult) rfl
  | miss mb =>
      obtain ⟨ex, hMiss, hDone⟩ := Outcome.bind_eq_ok.mp hStep
      cases Outcome.pure_eq_ok.mp hDone
      rw [ExecutionEvent.handsOver, List.append_nil]
      rcases Executor.handleMiss_cases hMiss with hThread | rfl
      · have hWay : (r.ex.replaceMissing mb).delivered ++
            (r.ex.replaceMissing mb).mbReceive.flatten = r.onTheWay := rfl
        exact onTheWay_shortens (Executor.loopRelation_shortens.executeThread hThread) hWay
      · rfl

/-- The numbers that are given are the next ones. -/
theorem executionStep_numbers {cfg : Settings} {keys : KeyRing} {r r' : Replica}
    {event : ExecutionEvent} (hStep : r.executionStep cfg keys event = .ok r') :
    NumberedFrom (r.commitMbNo + 1) (event.handsOver r) ∧
      r'.commitMbNo = r.commitMbNo + (event.handsOver r).length := by
  cases event with
  | commit mbs =>
      cases Outcome.pure_eq_ok.mp hStep
      exact numberCommitted_numbers r.commitedMb r.commitMbNo mbs
  | batch =>
      refine ⟨trivial, ?_⟩
      rcases handleBatch_cases hStep with rfl | ⟨_, _, _, _, _, rfl⟩
      · simp [ExecutionEvent.handsOver]
      · simp [ExecutionEvent.handsOver]
  | result result =>
      obtain ⟨_, _, hDone⟩ := Outcome.bind_eq_ok.mp hStep
      cases Outcome.pure_eq_ok.mp hDone
      exact ⟨trivial, by simp [ExecutionEvent.handsOver]⟩
  | miss mb =>
      obtain ⟨_, _, hDone⟩ := Outcome.bind_eq_ok.mp hStep
      cases Outcome.pure_eq_ok.mp hDone
      exact ⟨trivial, by simp [ExecutionEvent.handsOver]⟩

/-- The batch at the head of the channel has the next numbers. -/
theorem Numbered.batch {r : Replica} (h : r.Numbered) {batch : List MicroBlock}
    {rest : List (List MicroBlock)} (hChannel : r.ex.mbReceive = batch :: rest) :
    NumberedFrom (r.ex.delivered.length + 1) batch := by
  have hWay := h.onTheWay
  rw [Replica.onTheWay, hChannel, List.flatten_cons, numberedFrom_append, numberedFrom_append] at hWay
  rw [add_comm]
  exact hWay.2.1

/-- The queue stays in line when placeholders keep their numbers. -/
theorem executionStep_inLine {cfg : Settings} {keys : KeyRing} {r r' : Replica}
    {event : ExecutionEvent} (h : r.Numbered) (hKeeps : event.KeepsNumber r)
    (hStep : r.executionStep cfg keys event = .ok r') : r'.ex.InLine := by
  cases event with
  | commit mbs =>
      cases Outcome.pure_eq_ok.mp hStep
      exact h.inLine
  | batch =>
      rcases handleBatch_cases hStep with rfl | ⟨batch, rest, ex, hChannel, hAdd, rfl⟩
      · exact h.inLine
      · have hTaken : Executor.InLine { r.ex with mbReceive := rest } := h.inLine
        exact (hTaken.enqueue (h.batch hChannel)).shortens (Executor.addMbToExecute_shortens hAdd)
  | result result =>
      obtain ⟨ex, hResult, hDone⟩ := Outcome.bind_eq_ok.mp hStep
      cases Outcome.pure_eq_ok.mp hDone
      exact h.inLine.shortens (Executor.handleResult_shortens hResult)
  | miss mb =>
      obtain ⟨ex, hMiss, hDone⟩ := Outcome.bind_eq_ok.mp hStep
      cases Outcome.pure_eq_ok.mp hDone
      rcases Executor.handleMiss_cases hMiss with hThread | rfl
      · exact (h.inLine.replaceMissing hKeeps).shortens
          (Executor.loopRelation_shortens.executeThread hThread)
      · exact h.inLine

theorem executionStep_numbered {cfg : Settings} {keys : KeyRing} {r r' : Replica}
    {event : ExecutionEvent} (h : r.Numbered) (hKeeps : event.KeepsNumber r)
    (hStep : r.executionStep cfg keys event = .ok r') : r'.Numbered := by
  obtain ⟨hNumbers, hCounter⟩ := executionStep_numbers hStep
  have hWay := executionStep_onTheWay hStep
  refine ⟨?_, ?_, executionStep_inLine h hKeeps hStep⟩
  · rw [hWay, numberedFrom_append]
    refine ⟨h.onTheWay, ?_⟩
    rw [← h.commitMbNo, add_comm]
    exact hNumbers
  · rw [hWay, List.length_append, hCounter, h.commitMbNo]
    rfl

/-- While every retransmitted microblock brings the number of its placeholder, the queue
is numbered one by one and ends with the last number received. -/
theorem queue_keeps_numbering {cfg : Settings} {keys : KeyRing} {id : NodeID} {r : Replica}
    {events : List ExecutionEvent}
    (hKeeps : Guarded (executionStep cfg keys) (fun r event => event.KeepsNumber r)
      (.new cfg id) events)
    (hRun : run (executionStep cfg keys) (.new cfg id) events = .ok r) :
    NumberedFrom 1 r.ex.delivered ∧
      r.ex.mbs.IsChain (fun a b => b.committedNo = a.committedNo + 1) ∧
      ∀ mb ∈ r.ex.mbs.getLast?, mb.committedNo = r.ex.delivered.length := by
  have hNumbered : r.Numbered :=
    guarded_run_invariant (fun _ _ _ h hGuard hStep => executionStep_numbered h hGuard hStep)
      hKeeps hRun ⟨trivial, rfl, trivial⟩
  refine ⟨?_, hNumbered.inLine.isChain, fun mb hLast => ?_⟩
  · exact (numberedFrom_append.mp hNumbered.onTheWay).1
  · have hNumber := NumberedFrom.last hNumbered.inLine hLast
    omega

end Replica

namespace Scenario

/-- Node 3 has a microblock of the other group at the head of its queue and a placeholder
of its own group behind it; the content arrives with the number `no`. -/
def retransmitted (no : Int) : List Replica.ExecutionEvent :=
  [.commit [single 1 1, { single 2 0 with isFake := true }], .batch,
    .miss { single 2 0 with committedNo := no }, .commit [single 3 1], .batch]

end Scenario

namespace Replica

theorem queue_keeps_numbering_retransmitted :
    ∃ r, run (executionStep Scenario.grouped Scenario.keys) (.new Scenario.grouped "3")
        (Scenario.retransmitted 2) = .ok r ∧
      r.ex.mbs.map MicroBlock.committedNo = [1, 2, 3] ∧
      NumberedFrom 1 r.ex.delivered ∧
      r.ex.mbs.IsChain (fun a b => b.committedNo = a.committedNo + 1) ∧
      ∀ mb ∈ r.ex.mbs.getLast?, mb.committedNo = r.ex.delivered.length := by
  obtain ⟨r, hRun, hQueue⟩ := Outcome.of_test
    (P := fun r : Replica => r.ex.mbs.map MicroBlock.committedNo = [1, 2, 3])
    (x := run (executionStep Scenario.grouped Scenario.keys) (.new Scenario.grouped "3")
      (Scenario.retransmitted 2)) (by decide)
  have hKeeps : Guarded (executionStep Scenario.grouped Scenario.keys)
      (fun r event => event.KeepsNumber r) (.new Scenario.grouped "3")
      (Scenario.retransmitted 2) := by decide
  exact ⟨r, hRun, hQueue, queue_keeps_numbering hKeeps hRun⟩

/-- A record that was never committed at its sender brings the number 0. -/
theorem queue_numbering_overwritten :
    ∃ r, run (executionStep Scenario.grouped Scenario.keys) (.new Scenario.grouped "3")
        (Scenario.retransmitted 0) = .ok r ∧
      r.ex.mbs.map MicroBlock.committedNo = [1, 0, 3] :=
  Outcome.of_test (by decide)

end Replica
end Bamboo
