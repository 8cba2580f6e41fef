import Bamboo.Mempool.Invariant
import Bamboo.Mempool.NaiveMem

/-! Completing a proposal. `FillProposal` collects the microblocks that are present in the
order of the proposal, and those that arrive later are put behind them in the order of
their arrival. So the block has the order of the proposal only when nothing that is
present stands behind something that is missing. -/
namespace Bamboo

open Library

namespace PendingBlock

/-- Microblocks arrive one after the other; what is returned for each of them. -/
def addAll : PendingBlock → List MicroBlock → PendingBlock × List (Option Block)
  | pd, [] => (pd, [])
  | pd, mb :: rest =>
      let (pd, block) := pd.addMicroblock mb
      let (pd, blocks) := addAll pd rest
      (pd, block :: blocks)

/-- If exactly the missing microblocks arrive, the last one completes the block. -/
theorem addAll_missing {pd : PendingBlock} {mbs : List MicroBlock} (hSome : mbs ≠ [])
    (hNodup : (mbs.map MicroBlock.hash).Nodup)
    (hMissing : pd.missingMap = (mbs.map MicroBlock.hash).toFinset) :
    (pd.addAll mbs).2 = List.replicate (mbs.length - 1) none ++ [some (buildBlock pd.proposal
      { pd.payload with microblockList := pd.payload.microblockList ++ mbs })] := by
  induction mbs generalizing pd with
  | nil => exact absurd rfl hSome
  | cons mb rest ih =>
      rw [List.map_cons, List.nodup_cons] at hNodup
      have hHere : mb.hash ∈ pd.missingMap := by simp [hMissing]
      have hLeft : pd.missingMap.erase mb.hash = (rest.map MicroBlock.hash).toFinset := by
        rw [hMissing, List.map_cons, List.toFinset_cons, Finset.erase_insert]
        simpa using hNodup.1
      simp only [addAll, addMicroblock, if_pos hHere]
      cases rest with
      | nil => simp [addAll, completeBlock, hLeft]
      | cons next later =>
          rw [ih (List.cons_ne_nil _ _) hNodup.2 hLeft]
          have hNone : (pd.missingMap.erase mb.hash).card ≠ 0 := by
            rw [hLeft]
            simp
          simp [completeBlock, hNone, List.replicate_succ]

end PendingBlock

/-- What is left of a proposal by a mempool that has some of its microblocks. -/
structure Proposal.FilledTo (p : Proposal) (present : Identifier → Prop) [DecidablePred present]
    (pd : PendingBlock) : Prop where
  proposal : pd.proposal = p
  existing : pd.payload.generateHashList = p.hashList.filter fun h => present h
  missing : pd.missingMap = (p.hashList.filter fun h => ¬present h).toFinset

/-- The last of the microblocks that arrive completes the block, which lists the present
ones first and then the others as they came. -/
def Proposal.CompletedBy (p : Proposal) (present : Identifier → Prop) [DecidablePred present]
    (arrivals : List MicroBlock) (pd : PendingBlock) : Prop :=
  ∃ block, (pd.addAll arrivals).2 = List.replicate (arrivals.length - 1) none ++ [some block] ∧
    block.toBlockHeader = p.toBlockHeader ∧
    block.payload.generateHashList =
      (p.hashList.filter fun h => present h) ++ arrivals.map MicroBlock.hash ∧
    (block.payload.generateHashList = p.hashList ↔
      ((p.hashList.filter fun h => present h) ++ p.hashList.filter fun h => ¬present h) =
          p.hashList ∧
        arrivals.map MicroBlock.hash = p.hashList.filter fun h => ¬present h)

section Filled

variable {p : Proposal} {present : Identifier → Prop} [DecidablePred present]

/-- Nothing that arrives is present, so the missing part of the list can be read off. -/
theorem filter_append_eq_iff {hs arrived : List Identifier}
    (hArrived : arrived.Perm (hs.filter fun h => ¬present h)) :
    (hs.filter fun h => present h) ++ arrived = hs ↔
      ((hs.filter fun h => present h) ++ hs.filter fun h => ¬present h) = hs ∧
        arrived = hs.filter fun h => ¬present h := by
  constructor
  · intro hSame
    have hKept : arrived.filter (fun h => ¬present h) = arrived := by
      rw [List.filter_eq_self]
      intro h hMem
      exact (List.mem_filter.mp (hArrived.mem_iff.mp hMem)).2
    have hDropped : (hs.filter fun h => present h).filter (fun h => ¬present h) = [] := by
      rw [List.filter_filter, List.filter_eq_nil_iff]
      simp
    have hEq : arrived = hs.filter fun h => ¬present h := by
      conv_rhs => rw [← hSame]
      rw [List.filter_append, hDropped, hKept, List.nil_append]
    exact ⟨hEq ▸ hSame, hEq⟩
  · rintro ⟨hSorted, rfl⟩
    exact hSorted

theorem Proposal.FilledTo.completedBy {pd : PendingBlock} (h : p.FilledTo present pd)
    (hNodup : p.hashList.Nodup) {arrivals : List MicroBlock} (hSome : arrivals ≠ [])
    (hArrivals : (arrivals.map MicroBlock.hash).Perm (p.hashList.filter fun h => ¬present h)) :
    p.CompletedBy present arrivals pd := by
  have hMissing : pd.missingMap = (arrivals.map MicroBlock.hash).toFinset := by
    rw [h.missing]
    ext found
    rw [List.mem_toFinset, List.mem_toFinset, hArrivals.mem_iff]
  have hHashes : (buildBlock pd.proposal { pd.payload with
      microblockList := pd.payload.microblockList ++ arrivals }).payload.generateHashList =
      (p.hashList.filter fun h => present h) ++ arrivals.map MicroBlock.hash := by
    rw [← h.existing]
    exact List.map_append
  refine ⟨_, PendingBlock.addAll_missing hSome (hArrivals.nodup_iff.mpr (hNodup.filter _)) hMissing,
    ?_, hHashes, ?_⟩
  · rw [h.proposal]
    rfl
  · rw [hHashes]
    exact filter_append_eq_iff hArrivals

end Filled

/-- The mempool keeps what it gives to a block, so repetitions would not matter here. -/
theorem NaiveMem.fillAll_hashes {nm : NaiveMem} (h : nm.WellKeyed) (hs : List Identifier) :
    (nm.fillAll hs).2.1.map MicroBlock.hash = (hs.filter fun h => h ∈ nm.microblockMap) ∧
      (nm.fillAll hs).2.2 = (hs.filter fun h => h ∉ nm.microblockMap).toFinset := by
  induction hs generalizing nm with
  | nil => exact ⟨rfl, rfl⟩
  | cons first rest ih =>
      unfold fillAll
      cases hLookup : nm.microblockMap.lookup first with
      | none =>
          have hAbsent : first ∉ nm.microblockMap := Finmap.lookup_eq_none.mp hLookup
          obtain ⟨hExisting, hMissing⟩ := ih h
          dsimp only
          rw [hExisting, hMissing]
          simp [hAbsent]
      | some block =>
          have hPresent : first ∈ nm.microblockMap := Table.mem_of_lookup hLookup
          have hRest : WellKeyed { nm with microblocks := nm.microblocks.erase block } := h
          obtain ⟨hExisting, hMissing⟩ := ih hRest
          dsimp only
          rw [List.map_cons, hExisting, hMissing, h first block hLookup]
          simp [hPresent]

namespace AckMem

/-- A microblock of this hash is pending or queued. -/
def Waits (am : AckMem) (h : Identifier) : Prop :=
  h ∈ am.pendingMicroblocks ∨ h ∈ am.stableMicroblocks.map MicroBlock.hash

instance (am : AckMem) : DecidablePred am.Waits :=
  fun _ => inferInstanceAs (Decidable (_ ∨ _))

/-- No hash is both pending and queued, so at most one microblock is found for it. -/
theorem found_hashes {am : AckMem} {past : List Identifier} (hWell : am.WellFormed past)
    (h : Identifier) : (am.found h).map MicroBlock.hash = if am.Waits h then [h] else [] := by
  unfold found
  cases hLookup : am.pendingMicroblocks.lookup h with
  | some pm =>
      have hPending : h ∈ am.pendingMicroblocks := Table.mem_of_lookup hLookup
      have hQueue : am.stableMicroblocks.find? (fun mb => mb.hash = h) = none := by
        rw [List.find?_eq_none]
        intro mb hmb hSame
        refine hWell.pending_unstable h hPending (hWell.queue_stable h ?_)
        exact List.mem_append_right _ (List.mem_map.mpr ⟨mb, hmb, of_decide_eq_true hSame⟩)
      rw [hQueue, if_pos (show am.Waits h from Or.inl hPending)]
      simp [hWell.pending_hash h pm hLookup]
  | none =>
      have hAbsent : h ∉ am.pendingMicroblocks := Finmap.lookup_eq_none.mp hLookup
      cases hFind : am.stableMicroblocks.find? (fun mb => mb.hash = h) with
      | some mb =>
          have hHash : mb.hash = h := by simpa using List.find?_some hFind
          have hWaits : am.Waits h :=
            Or.inr (List.mem_map.mpr ⟨mb, List.mem_of_find?_eq_some hFind, hHash⟩)
          rw [if_pos hWaits]
          simp [hHash]
      | none =>
          rw [if_neg]
          · simp
          · rintro (hPending | hQueued)
            · exact hAbsent hPending
            · obtain ⟨mb, hmb, hHash⟩ := List.mem_map.mp hQueued
              have hNot := List.find?_eq_none.mp hFind mb hmb
              simp [hHash] at hNot

theorem waits_forget {am : AckMem} {h h' : Identifier} (hOther : h' ≠ h) :
    (am.forget h).Waits h' ↔ am.Waits h' := by
  unfold Waits
  refine or_congr ?_ ?_
  · change h' ∈ am.pendingMicroblocks.erase h ↔ _
    simp [Finmap.mem_erase, hOther]
  · change h' ∈ (am.stableMicroblocks.eraseP fun mb => mb.hash = h).map MicroBlock.hash ↔ _
    simp only [List.mem_map]
    constructor
    · rintro ⟨mb, hmb, hHash⟩
      exact ⟨mb, List.mem_of_mem_eraseP hmb, hHash⟩
    · rintro ⟨mb, hmb, rfl⟩
      exact ⟨mb, (List.mem_eraseP_of_neg (by simpa using hOther)).mpr hmb, rfl⟩

theorem fillAll_hashes {am : AckMem} {past : List Identifier} (hWell : am.WellFormed past)
    {hs : List Identifier} (hNodup : hs.Nodup) :
    (am.fillAll hs).2.1.map MicroBlock.hash = (hs.filter fun h => am.Waits h) ∧
      (am.fillAll hs).2.2 = (hs.filter fun h => ¬am.Waits h).toFinset := by
  induction hs generalizing am with
  | nil => exact ⟨rfl, rfl⟩
  | cons h rest ih =>
      obtain ⟨hNew, hRest⟩ := List.nodup_cons.mp hNodup
      have hLater : ∀ h' ∈ rest, (am.forget h).Waits h' ↔ am.Waits h' :=
        fun h' hMem => waits_forget fun hSame => hNew (hSame ▸ hMem)
      have hForgotten : (am.forget h).WellFormed past := hWell.forgetAll [h]
      obtain ⟨hExisting, hMissing⟩ := ih hForgotten hRest
      have hPresent : (rest.filter fun h' => (am.forget h).Waits h') =
          rest.filter fun h' => am.Waits h' :=
        List.filter_congr fun h' hMem => by simp only [hLater h' hMem]
      have hAbsent : (rest.filter fun h' => ¬(am.forget h).Waits h') =
          rest.filter fun h' => ¬am.Waits h' :=
        List.filter_congr fun h' hMem => by simp only [hLater h' hMem]
      have hFound := found_hashes hWell h
      unfold fillAll
      dsimp only
      rw [List.map_append, hExisting, hMissing, hPresent, hAbsent, hFound]
      by_cases hWaits : am.Waits h
      · have hSome : (am.found h).isEmpty = false := by
          rw [if_pos hWaits] at hFound
          cases hList : am.found h with
          | nil => rw [hList] at hFound; cases hFound
          | cons => rfl
        simp [hWaits, hSome]
      · have hNone : am.found h = [] := by
          rw [if_neg hWaits] at hFound
          exact List.map_eq_nil_iff.mp hFound
        simp [hWaits, hNone]

end AckMem

/-- Whatever the order in which the missing microblocks of a proposal arrive, the last one
completes the block. It has the order of the proposal exactly if the present ones stand
first in the proposal and the others arrive in its order. -/
theorem completed_block_iff {p : Proposal} (hNodup : p.hashList.Nodup)
    {arrivals : List MicroBlock} (hSome : arrivals ≠ []) :
    (∀ (size : Transaction → Nat) (bsize memsize : Int) (msize : Nat) (calls : List NaiveMem.Call),
      let nm := calls.foldl (NaiveMem.Call.perform size) (.new bsize memsize msize)
      (arrivals.map MicroBlock.hash).Perm (p.hashList.filter fun h => h ∉ nm.microblockMap) →
        p.CompletedBy (· ∈ nm.microblockMap) arrivals (nm.fillProposal p).2) ∧
    (∀ (cfg : Settings) (sort : GroupSort) (id : NodeID) (gm : GroupManager)
      (calls : List AckMem.Call) (t : AckMem.Trace),
      run (AckMem.Trace.step cfg sort) (.new cfg id gm) calls = .ok t →
      (arrivals.map MicroBlock.hash).Perm (p.hashList.filter fun h => ¬t.mem.Waits h) →
        p.CompletedBy t.mem.Waits arrivals (t.mem.fillProposal p).2) := by
  constructor
  · intro size bsize memsize msize calls nm hArrivals
    obtain ⟨hExisting, hMissing⟩ :=
      NaiveMem.fillAll_hashes (NaiveMem.run_wellKeyed size bsize memsize msize calls) p.hashList
    have hFilled : p.FilledTo (· ∈ nm.microblockMap) (nm.fillProposal p).2 :=
      ⟨rfl, hExisting, hMissing⟩
    exact hFilled.completedBy hNodup hSome hArrivals
  · intro cfg sort id gm calls t hRun hArrivals
    obtain ⟨hExisting, hMissing⟩ :=
      AckMem.fillAll_hashes (AckMem.Trace.run_wellFormed hRun) hNodup
    have hFilled : p.FilledTo t.mem.Waits (t.mem.fillProposal p).2 := ⟨rfl, hExisting, hMissing⟩
    exact hFilled.completedBy hNodup hSome hArrivals

open Scenario

theorem completed_block_iff_last_missing :
    (∃ block, ((((NaiveMem.new 2 100 5).addMicroblock (microblock 1 "1")).fillProposal
        twoHashes).2.addAll [microblock 2 "1"]).2 = [some block] ∧
      block.payload.generateHashList = [1, 2]) ∧
    ∃ t, run (AckMem.Trace.step pool sortByGroup) (.new pool "1" groups)
        [.addMicroblock (microblock 1 "1")] = .ok t ∧
      ∃ block, ((t.mem.fillProposal twoHashes).2.addAll [microblock 2 "1"]).2 = [some block] ∧
        block.payload.generateHashList = [1, 2] := by
  have hNodup : twoHashes.hashList.Nodup := by decide
  have hBoth := completed_block_iff hNodup (List.cons_ne_nil (microblock 2 "1") [])
  constructor
  · obtain ⟨block, hReturned, _, _, hIff⟩ := hBoth.1 (fun _ => 1) 2 100 5
      [.addMicroblock (microblock 1 "1")] (by decide)
    exact ⟨block, hReturned, hIff.mpr (by decide)⟩
  · obtain ⟨t, hRun, hPresent, hMissing⟩ := Outcome.of_test
      (x := run (AckMem.Trace.step pool sortByGroup) (.new pool "1" groups)
        [.addMicroblock (microblock 1 "1")])
      (P := fun t => (twoHashes.hashList.filter fun h => t.mem.Waits h) = [1] ∧
        (twoHashes.hashList.filter fun h => ¬t.mem.Waits h) = [2]) (by decide)
    obtain ⟨block, hReturned, _, _, hIff⟩ := hBoth.2 pool sortByGroup "1" groups _ t hRun
      (by rw [hMissing]; decide)
    refine ⟨t, hRun, block, hReturned, hIff.mpr ?_⟩
    rw [hPresent, hMissing]
    decide

/-- The first microblock of the proposal is missing and the second one is not: the block
has them in the other order. So it does when both are missing and the second arrives
first. -/
theorem completed_block_out_of_order :
    ((((NaiveMem.new 2 100 5).addMicroblock (microblock 2 "1")).fillProposal
        twoHashes).2.addAll [microblock 1 "1"]).2.map
          (Option.map fun block => block.payload.generateHashList) = [some [2, 1]] ∧
    (((NaiveMem.new 2 100 5).fillProposal twoHashes).2.addAll
        [microblock 2 "1", microblock 1 "1"]).2.map
          (Option.map fun block => block.payload.generateHashList) = [none, some [2, 1]] ∧
    ∃ t, run (AckMem.Trace.step pool sortByGroup) (.new pool "1" groups)
        [.addMicroblock (microblock 2 "1")] = .ok t ∧
      ((t.mem.fillProposal twoHashes).2.addAll [microblock 1 "1"]).2.map
        (Option.map fun block => block.payload.generateHashList) = [some [2, 1]] := by
  refine ⟨by decide, by decide, ?_⟩
  exact Outcome.of_test
    (x := run (AckMem.Trace.step pool sortByGroup) (.new pool "1" groups)
      [.addMicroblock (microblock 2 "1")])
    (P := fun t => ((t.mem.fillProposal twoHashes).2.addAll [microblock 1 "1"]).2.map
      (Option.map fun block => block.payload.generateHashList) = [some [2, 1]]) (by decide)

end Bamboo
