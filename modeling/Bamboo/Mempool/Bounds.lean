import Bamboo.Library.Positions
import Bamboo.Mempool.Calls

/-! Which calls of the mempool return. The lists of a proposal are read by the position
in another list, the group of a microblock selects a list of members, and the number of
transactions of a placeholder is taken from a message: whether a call stops at one of
these depends on the message and on what is stored. -/
namespace Bamboo

open Library

/-- A proposal has what a placeholder at a position needs. -/
structure Proposal.Fills (p : Proposal) (index : Nat) : Prop where
  txNums : ∃ count, p.txNums[index]? = some count ∧ AckMem.Allocates count
  groupList : index < p.groupList.length
  mbTime : index < p.mbTime.length

namespace AckMem

theorem fetched_returns_iff {now : Int} {p : Proposal} {am : AckMem} {index : Nat} {h : Identifier} :
    (∃ mb, am.fetched now p index h = .ok mb) ↔ h ∈ am.microblockMap ∨ p.Fills index := by
  rw [Finmap.mem_iff]
  constructor
  · rintro ⟨mb, hFetched⟩
    rcases fetched_eq_ok.mp hFetched with hStored |
      ⟨_, count, groupId, timestamp, hCount, hSome, hGroup, hTime, _⟩
    · exact Or.inl ⟨mb, hStored⟩
    · exact Or.inr ⟨⟨count, hCount, hSome⟩, (List.getElem?_eq_some_iff.mp hGroup).1,
        (List.getElem?_eq_some_iff.mp hTime).1⟩
  · intro h
    cases hStored : am.microblockMap.lookup _ with
    | some mb => exact ⟨mb, fetched_eq_ok.mpr (Or.inl hStored)⟩
    | none =>
        rcases h with ⟨mb, hMb⟩ | ⟨⟨count, hCount, hSome⟩, hGroup, hTime⟩
        · cases hStored.symm.trans hMb
        · exact ⟨_, fetched_eq_ok.mpr (Or.inr ⟨hStored, count, _, _, hCount, hSome,
            List.getElem?_eq_getElem hGroup, List.getElem?_eq_getElem hTime, rfl⟩)⟩

/-- `FetchMB` returns when every identifier is known or described. -/
theorem fetchMB_returns_iff {now : Int} {p : Proposal} {am : AckMem} :
    (∃ result, am.fetchMB now p = .ok result) ↔
      ∀ index h, p.hashList[index]? = some h → h ∈ am.microblockMap ∨ p.Fills index := by
  have hLoop : (∃ result, am.fetchMB now p = .ok result) ↔
      ∃ mbs, List.Forall₂ (fun entry mb => am.fetched now p entry.2 entry.1 = .ok mb)
        p.hashList.zipIdx mbs := by
    constructor
    · rintro ⟨⟨am', block⟩, hFetch⟩
      exact ⟨_, (fetchMB_eq_ok.mp hFetch).2.2⟩
    · rintro ⟨mbs, hFetched⟩
      exact ⟨(_, { payload := { microblockList := mbs }, proposal := p }),
        fetchMB_eq_ok.mpr ⟨rfl, rfl, hFetched⟩⟩
  rw [hLoop, exists_forall₂_iff]
  constructor
  · intro h index id hIndex
    exact fetched_returns_iff.mp (h (id, index) (List.mk_mem_zipIdx_iff_getElem?.mpr hIndex))
  · rintro h ⟨id, index⟩ hMem
    exact fetched_returns_iff.mpr (h index id (List.mk_mem_zipIdx_iff_getElem?.mp hMem))

/-- `AddMicroblock` looks up the group of a microblock that is new. -/
theorem addMicroblock_returns_iff {am : AckMem} {mb : MicroBlock} :
    (∃ am', am.addMicroblock mb = .ok am') ↔
      mb.hash ∈ am.microblockMap ∨ 0 ≤ mb.groupId ∧ mb.groupId < am.gm.groupList.length := by
  rw [Finmap.mem_iff]
  unfold addMicroblock
  cases hOld : am.microblockMap.lookup mb.hash with
  | some old => exact iff_of_true ⟨_, rfl⟩ (Or.inl ⟨old, rfl⟩)
  | none =>
      simp only [reduceCtorEq, exists_false, false_or, ← Outcome.index_returns_iff]
      constructor
      · rintro ⟨_, h⟩
        obtain ⟨_, hGroup, _⟩ := Outcome.bind_eq_ok.mp h
        obtain ⟨content, hContent, _⟩ := Outcome.bind_eq_ok.mp hGroup
        exact ⟨content, hContent⟩
      · rintro ⟨content, hContent⟩
        exact ⟨_, Outcome.bind_eq_ok.mpr
          ⟨_, Outcome.bind_eq_ok.mpr ⟨content, hContent, rfl⟩, rfl⟩⟩

/-- `AddStable` allocates for an announcement of a microblock that is new. -/
theorem addStable_returns_iff {am : AckMem} {now : Int} {stable : Stable} :
    (∃ am', am.addStable now stable = .ok am') ↔
      stable.microblockID ∈ am.stableMBs ∨ stable.microblockID ∈ am.microblockMap ∨
        Allocates stable.txNums := by
  unfold addStable
  by_cases hStable : stable.microblockID ∈ am.stableMBs
  · rw [if_pos hStable]
    exact iff_of_true ⟨_, rfl⟩ (Or.inl hStable)
  rw [if_neg hStable]
  by_cases hMap : stable.microblockID ∈ am.microblockMap
  · simp only [if_pos hMap]
    exact iff_of_true ⟨_, rfl⟩ (Or.inr (Or.inl hMap))
  simp only [hStable, hMap, false_or]
  constructor
  · rintro ⟨_, h⟩
    obtain ⟨_, hTxns, _⟩ := Outcome.bind_eq_ok.mp h
    exact (fakeTxns_eq_ok.mp hTxns).1
  · intro hSome
    exact ⟨_, Outcome.bind_eq_ok.mpr ⟨_, fakeTxns_eq_ok.mpr ⟨hSome, rfl⟩, rfl⟩⟩

/-- A call whose numbers and lists fit what is stored. -/
def Call.InBounds (cfg : Settings) (am : AckMem) : Call → Prop
  | .addMicroblock mb =>
      mb.hash ∈ am.microblockMap ∨ 0 ≤ mb.groupId ∧ mb.groupId < am.gm.groupList.length
  | .addStable _ stable =>
      stable.microblockID ∈ am.stableMBs ∨ stable.microblockID ∈ am.microblockMap ∨
        Allocates stable.txNums
  | .fetchMB _ p =>
      ∀ index h, p.hashList[index]? = some h → h ∈ am.microblockMap ∨ p.Fills index
  | .generatePayload => cfg.onlyworker = false
  | .addAck _ | .handleMissingStableMb _ => True
  | .fillProposal _ | .fillProposalFromGroup _ | .fillProposalByGroup _ => True

/-- Peers can stop a node with the numbers they send: a call returns exactly when they
fit what is stored. -/
theorem call_returns_iff_inBounds (cfg : Settings) (sort : GroupSort) (t : Trace) (call : Call) :
    (∃ t', t.step cfg sort call = .ok t') ↔ call.InBounds cfg t.mem := by
  cases call with
  | addMicroblock mb =>
      exact Outcome.bind_pure_returns_iff.trans addMicroblock_returns_iff
  | addAck ack => exact iff_of_true ⟨_, rfl⟩ trivial
  | addStable now stable =>
      exact Outcome.bind_pure_returns_iff.trans addStable_returns_iff
  | handleMissingStableMb mb => exact iff_of_true ⟨_, rfl⟩ trivial
  | generatePayload =>
      apply Iff.trans (Outcome.bind_pure_returns_iff (f := fun result : AckMem × Payload =>
        ({ mem := result.1, payloads := t.payloads ++ [result.2] } : Trace)))
      constructor
      · rintro ⟨_, h⟩
        exact (generatePayload_spec h).1
      · intro hWorker
        exact ⟨_, generatePayload_eq hWorker sort t.mem⟩
  | fetchMB now p =>
      apply Iff.trans (Outcome.bind_pure_returns_iff (f := fun result : AckMem × PendingBlock =>
        ({ t with mem := result.1 } : Trace)))
      exact fetchMB_returns_iff
  | fillProposal p => exact iff_of_true ⟨_, rfl⟩ trivial
  | fillProposalFromGroup p => exact iff_of_true ⟨_, rfl⟩ trivial
  | fillProposalByGroup p => exact iff_of_true ⟨_, rfl⟩ trivial

/-- One message is enough at a node that has just started: a proposal with an empty list
of transaction numbers, a microblock of a group that does not exist, and an announcement
of less than no transactions or of more than a slice can hold. -/
theorem new_node_stopped_by_message :
    (AckMem.new Scenario.pool "1" Scenario.groups).fetchMB 0
        { Scenario.twoHashes with txNums := [] } = .error .outOfRange ∧
      (AckMem.new Scenario.pool "1" Scenario.groups).addMicroblock
        { Scenario.microblock 1 "2" with groupId := 2 } = .error .outOfRange ∧
      (AckMem.new Scenario.pool "1" Scenario.groups).addStable 0
        { microblockID := 1, txNums := -1 } = .error .outOfRange ∧
      (AckMem.new Scenario.pool "1" Scenario.groups).addStable 0
        { microblockID := 1, txNums := 2 ^ 62 } = .error .outOfRange := by
  refine ⟨?_, ?_, ?_, ?_⟩ <;> rfl

end AckMem
end Bamboo
