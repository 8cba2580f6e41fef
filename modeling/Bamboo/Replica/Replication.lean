import Bamboo.HotStuff.Progress
import Bamboo.Replica.Numbering

/-! The same microblocks at all replicas. What a replica hands to its executor, and in which
order, depends only on the hashes of the microblocks it has committed; batches, results and
retransmitted microblocks may come in between in any way. -/
namespace Bamboo

open Library

/-- The first occurrences of new hashes are delivered. -/
theorem numberCommitted_hashes (done : List Identifier) (no : Int) (mbs : List MicroBlock) :
    (numberCommitted done.toFinset no mbs).2.2.map MicroBlock.hash =
        ((mbs.map MicroBlock.hash).removeAll done).eraseDups ∧
      (numberCommitted done.toFinset no mbs).1 = (done ++ mbs.map MicroBlock.hash).toFinset := by
  induction mbs generalizing done no with
  | nil => simp [numberCommitted]
  | cons mb rest ih =>
      unfold numberCommitted
      by_cases hSeen : mb.hash ∈ done
      · obtain ⟨hHashes, hSet⟩ := ih done no
        rw [if_pos (List.mem_toFinset.mpr hSeen), hHashes, hSet, List.map_cons,
          List.cons_removeAll, if_neg (by simpa using hSeen)]
        refine ⟨rfl, ?_⟩
        ext id
        simp only [List.mem_toFinset, List.mem_append, List.mem_cons]
        constructor
        · tauto
        · rintro (hDone | rfl | hRest)
          · exact Or.inl hDone
          · exact Or.inl hSeen
          · exact Or.inr hRest
      · obtain ⟨hHashes, hSet⟩ := ih (mb.hash :: done) (no + 1)
        rw [if_neg (by simpa using hSeen)]
        rw [List.toFinset_cons] at hHashes hSet
        simp only [List.map_cons, hHashes, hSet]
        rw [List.cons_removeAll, if_pos (by simpa using hSeen), List.eraseDups_cons,
          List.removeAll_cons]
        constructor
        · simp only [List.removeAll, List.filter_filter, Bool.and_comm]
        · ext id
          simp only [List.mem_toFinset, List.mem_append, List.mem_cons]
          tauto

namespace Replica

/-- The hashes that an event commits, repeated ones included. -/
def ExecutionEvent.commits : ExecutionEvent → List Identifier
  | .commit mbs => mbs.map MicroBlock.hash
  | .batch | .result _ | .miss _ => []

/-- The replica has handed over the first occurrence of everything committed, numbered in
that order. -/
structure HandsOver (committed : List Identifier) (r : Replica) : Prop where
  onTheWay : r.onTheWay.map MicroBlock.hash = committed.eraseDups
  commitedMb : r.commitedMb = committed.toFinset
  numbered : NumberedFrom 1 r.onTheWay
  commitMbNo : r.commitMbNo = r.onTheWay.length

variable {cfg : Settings} {keys : KeyRing} {r r' : Replica}

theorem executionStep_commitedMb {event : ExecutionEvent} {committed : List Identifier}
    (h : r.commitedMb = committed.toFinset) (hStep : r.executionStep cfg keys event = .ok r') :
    r'.commitedMb = (committed ++ event.commits).toFinset := by
  cases event with
  | commit mbs =>
      cases Outcome.pure_eq_ok.mp hStep
      have hSet := (numberCommitted_hashes committed r.commitMbNo mbs).2
      rw [← h] at hSet
      exact hSet
  | batch =>
      rw [ExecutionEvent.commits, List.append_nil]
      rcases handleBatch_cases hStep with rfl | ⟨_, _, _, _, _, rfl⟩ <;> exact h
  | result result =>
      obtain ⟨_, _, hDone⟩ := Outcome.bind_eq_ok.mp hStep
      cases Outcome.pure_eq_ok.mp hDone
      rw [ExecutionEvent.commits, List.append_nil]
      exact h
  | miss mb =>
      obtain ⟨_, _, hDone⟩ := Outcome.bind_eq_ok.mp hStep
      cases Outcome.pure_eq_ok.mp hDone
      rw [ExecutionEvent.commits, List.append_nil]
      exact h

theorem HandsOver.step {event : ExecutionEvent} {committed : List Identifier}
    (h : r.HandsOver committed) (hStep : r.executionStep cfg keys event = .ok r') :
    r'.HandsOver (committed ++ event.commits) := by
  obtain ⟨hNumbers, hCounter⟩ := executionStep_numbers hStep
  have hWay := executionStep_onTheWay hStep
  have hHashes : (event.handsOver r).map MicroBlock.hash =
      (event.commits.removeAll committed).eraseDups := by
    cases event with
    | commit mbs =>
        rw [ExecutionEvent.handsOver, h.commitedMb]
        exact (numberCommitted_hashes committed r.commitMbNo mbs).1
    | batch | result | miss => rfl
  refine ⟨?_, executionStep_commitedMb h.commitedMb hStep, ?_, ?_⟩
  · rw [hWay, List.map_append, h.onTheWay, hHashes, List.eraseDups_append]
  · rw [hWay, numberedFrom_append]
    refine ⟨h.numbered, ?_⟩
    rw [← h.commitMbNo, add_comm]
    exact hNumbers
  · rw [hWay, List.length_append, hCounter, h.commitMbNo]
    rfl

/-- The hashes of the microblocks that were applied, in the order of their application. -/
def appliedHashes (r : Replica) : List Identifier :=
  r.ex.applied.map fun a => a.microblock.hash

/-- The number of a microblock is its place among the first occurrences. -/
theorem HandsOver.number {committed : List Identifier} (h : r.HandsOver committed)
    {mb : MicroBlock} (hMem : mb ∈ r.ex.delivered) :
    ∃ i : Nat, committed.eraseDups[i]? = some mb.hash ∧ mb.committedNo = i + 1 := by
  have hWay : mb ∈ r.onTheWay := List.mem_append_left _ hMem
  obtain ⟨front, rest, hSplit⟩ := List.append_of_mem hWay
  have hNumber := h.numbered
  rw [hSplit, numberedFrom_append] at hNumber
  refine ⟨front.length, ?_, ?_⟩
  · rw [← h.onTheWay, hSplit]
    simp
  · have := hNumber.2.1
    omega

/-- Two replicas have applied the same microblocks in the same order, one of them perhaps
further, and have given the same numbers to what they were handed. -/
structure Alike (r r' : Replica) : Prop where
  applied : r.appliedHashes <+: r'.appliedHashes ∨ r'.appliedHashes <+: r.appliedHashes
  numbers : ∀ mb ∈ r.ex.delivered, ∀ mb' ∈ r'.ex.delivered, mb.hash = mb'.hash →
    mb.committedNo = mb'.committedNo

theorem Alike.symm (h : r.Alike r') : r'.Alike r :=
  ⟨h.applied.symm, fun mb hMem mb' hMem' hHash => (h.numbers mb' hMem' mb hMem hHash.symm).symm⟩

section TwoReplicas

variable {cfg' : Settings} {keys' : KeyRing} {id id' : NodeID}
  {events events' : List ExecutionEvent}
  (hMode : cfg.broadcastByGroup = true ∨ cfg.broadcastBySample = false)
  (hMode' : cfg'.broadcastByGroup = true ∨ cfg'.broadcastBySample = false)
  (hRun : run (executionStep cfg keys) (.new cfg id) events = .ok r)
  (hRun' : run (executionStep cfg' keys') (.new cfg' id') events' = .ok r')
include hMode hMode' hRun hRun'

end TwoReplicas

end Replica

namespace Replica.ExecutionEvent

end Replica.ExecutionEvent

namespace FaultFree

open Replica (executionStep)

/-- A replica commits some blocks of the run and then takes some batches. -/
def committing (blocks batches : Nat) : List Replica.ExecutionEvent :=
  ((List.range' 1 blocks).map fun view =>
    .commit [Scenario.single (BitVec.ofNat 256 view) 0]) ++ List.replicate batches .batch

end FaultFree
end Bamboo
