import Bamboo.Mempool.Bounds

/-! What the identifier of a proposal says about the microblocks that are rebuilt from
it. The identifier is computed from the header and the list of hashes; the numbers of
transactions, the groups and the times are sent beside them and are not covered. -/
namespace Bamboo

open Library

namespace Proposal

/-- What `makeID` hashes. -/
def raw (p : Proposal) : RawProposal where
  view := p.view
  qc := p.qc
  proposer := p.proposer
  payload := p.hashList
  prevID := p.prevID

theorem makeID_id {keys : KeyRing} {hash : RawProposal → Identifier} {p p' : Proposal}
    {nodeID : NodeID} (h : p.makeID keys hash nodeID = .ok p') : p'.id = hash p'.raw := by
  obtain ⟨sig, _, hProposal⟩ := Outcome.bind_eq_ok.mp h
  cases Outcome.pure_eq_ok.mp hProposal
  rfl

/-- Two proposals give a placeholder at a position the same group and number of
transactions. -/
structure FillsAlike (p q : Proposal) (index : Nat) : Prop where
  left : p.Fills index
  right : q.Fills index
  txNums : p.txNums[index]? = q.txNums[index]?
  groupList : p.groupList[index]? = q.groupList[index]?

end Proposal

/-- The description of a microblock that a block carries. -/
structure MicroBlock.Alike (mb other : MicroBlock) : Prop where
  hash : mb.hash = other.hash
  groupId : mb.groupId = other.groupId
  txns : mb.txns.length = other.txns.length
  isFake : mb.isFake = other.isFake

theorem MicroBlock.Alike.refl (mb : MicroBlock) : mb.Alike mb :=
  ⟨rfl, rfl, rfl, rfl⟩

namespace AckMem

/-- Placeholders show the group and the number they were made from. -/
theorem placeholder_alike_iff {now now' : Int} {h : Identifier}
    {count groupId timestamp count' groupId' timestamp' : Int} (hCount : Allocates count)
    (hCount' : Allocates count') :
    (placeholder now h count groupId timestamp).Alike
        (placeholder now' h count' groupId' timestamp') ↔ count = count' ∧ groupId = groupId' := by
  constructor
  · intro hAlike
    have hLength := hAlike.txns
    simp only [placeholder, List.length_replicate] at hLength
    have hSome := hCount.1
    have hSome' := hCount'.1
    exact ⟨by omega, hAlike.groupId⟩
  · rintro ⟨rfl, rfl⟩
    exact ⟨rfl, rfl, by simp [placeholder], rfl⟩

/-- One position of two proposals, fetched from the same mempool. -/
theorem fetched_alike_iff {now now' : Int} {p q : Proposal} {am : AckMem} {index : Nat}
    {h : Identifier} :
    (∃ mb other, am.fetched now p index h = .ok mb ∧ am.fetched now' q index h = .ok other ∧
        mb.Alike other) ↔
      h ∈ am.microblockMap ∨ p.FillsAlike q index := by
  cases hStored : am.microblockMap.lookup h with
  | some stored =>
      refine iff_of_true ?_ (Or.inl (Finmap.mem_iff.mpr ⟨stored, hStored⟩))
      exact ⟨stored, stored, fetched_eq_ok.mpr (Or.inl hStored), fetched_eq_ok.mpr (Or.inl hStored),
        MicroBlock.Alike.refl stored⟩
  | none =>
      have hUnknown : h ∉ am.microblockMap := Finmap.lookup_eq_none.mp hStored
      simp only [fetched_eq_ok, hStored, reduceCtorEq, false_or, true_and, hUnknown]
      constructor
      · rintro ⟨_, _, ⟨count, groupId, timestamp, hCount, hSome, hGroup, hTime, rfl⟩,
          ⟨count', groupId', timestamp', hCount', hSome', hGroup', hTime', rfl⟩, hAlike⟩
        obtain ⟨rfl, rfl⟩ := (placeholder_alike_iff hSome hSome').mp hAlike
        exact ⟨⟨⟨count, hCount, hSome⟩, (List.getElem?_eq_some_iff.mp hGroup).1,
            (List.getElem?_eq_some_iff.mp hTime).1⟩,
          ⟨⟨count, hCount', hSome⟩, (List.getElem?_eq_some_iff.mp hGroup').1,
            (List.getElem?_eq_some_iff.mp hTime').1⟩,
          hCount.trans hCount'.symm, hGroup.trans hGroup'.symm⟩
      · rintro ⟨⟨⟨count, hCount, hSome⟩, hGroup, hTime⟩, ⟨_, _, hTime'⟩, hCounts, hGroups⟩
        have hRead := List.getElem?_eq_getElem hGroup
        exact ⟨_, _, ⟨count, _, _, hCount, hSome, hRead, List.getElem?_eq_getElem hTime, rfl⟩,
          ⟨count, _, _, hCounts ▸ hCount, hSome, hGroups ▸ hRead, List.getElem?_eq_getElem hTime', rfl⟩,
          (placeholder_alike_iff hSome hSome).mpr ⟨rfl, rfl⟩⟩

/-- Two proposals for the same hashes, fetched from the same mempool. -/
theorem fetchMB_alike_iff {now now' : Int} {p q : Proposal} {am : AckMem}
    (hHashes : p.hashList = q.hashList) :
    (∃ left right, am.fetchMB now p = .ok left ∧ am.fetchMB now' q = .ok right ∧
        List.Forall₂ MicroBlock.Alike left.2.payload.microblockList
          right.2.payload.microblockList) ↔
      ∀ index h, p.hashList[index]? = some h →
        h ∈ am.microblockMap ∨ p.FillsAlike q index := by
  have hLoop : (∃ left right, am.fetchMB now p = .ok left ∧ am.fetchMB now' q = .ok right ∧
        List.Forall₂ MicroBlock.Alike left.2.payload.microblockList
          right.2.payload.microblockList) ↔
      ∃ mbs others,
        List.Forall₂ (fun entry mb => am.fetched now p entry.2 entry.1 = .ok mb)
          p.hashList.zipIdx mbs ∧
        List.Forall₂ (fun entry mb => am.fetched now' q entry.2 entry.1 = .ok mb)
          p.hashList.zipIdx others ∧
        List.Forall₂ MicroBlock.Alike mbs others := by
    constructor
    · rintro ⟨left, right, hLeft, hRight, hAlike⟩
      rw [hHashes]
      exact ⟨_, _, hHashes ▸ (fetchMB_eq_ok.mp hLeft).2.2, (fetchMB_eq_ok.mp hRight).2.2, hAlike⟩
    · rintro ⟨mbs, others, hLeft, hRight, hAlike⟩
      exact ⟨(_, { payload := { microblockList := mbs }, proposal := p }),
        (_, { payload := { microblockList := others }, proposal := q }),
        fetchMB_eq_ok.mpr ⟨rfl, rfl, hLeft⟩, fetchMB_eq_ok.mpr ⟨rfl, rfl, hHashes ▸ hRight⟩, hAlike⟩
  rw [hLoop, exists_forall₂_alike_iff]
  constructor
  · intro h index id hIndex
    exact fetched_alike_iff.mp (h (id, index) (List.mk_mem_zipIdx_iff_getElem?.mpr hIndex))
  · rintro h ⟨id, index⟩ hMem
    exact fetched_alike_iff.mpr (h index id (List.mk_mem_zipIdx_iff_getElem?.mp hMem))

/-- Two proposals with one identifier are rebuilt alike exactly when they agree, at every
position whose microblock is not stored, on the lists that the identifier leaves out. -/
theorem same_id_rebuilt_alike_iff {hash : RawProposal → Identifier} {p q : Proposal}
    (hLeft : p.id = hash p.raw) (hRight : q.id = hash q.raw)
    (hCollisionFree : hash p.raw = hash q.raw → p.raw = q.raw) (hSame : p.id = q.id)
    (am : AckMem) (now now' : Int) :
    (∃ left right, am.fetchMB now p = .ok left ∧ am.fetchMB now' q = .ok right ∧
        List.Forall₂ MicroBlock.Alike left.2.payload.microblockList
          right.2.payload.microblockList) ↔
      ∀ index h, p.hashList[index]? = some h →
        h ∈ am.microblockMap ∨ p.FillsAlike q index := by
  have hRaw : p.raw = q.raw := hCollisionFree (hLeft.symm.trans (hSame.trans hRight))
  exact fetchMB_alike_iff (congrArg RawProposal.payload hRaw)

end AckMem

namespace Scenario

/-- A signed proposal for the microblocks 1 and 2, and one that names other holders. -/
def signedHashes (ackNode : List (Finset NodeID)) : Proposal :=
  { twoHashes with id := 7, sig := [[1], [7]], ackNode }

end Scenario

namespace AckMem

/-- The holders of the microblocks differ, which no placeholder shows. -/
theorem same_id_rebuilt_alike_holders :
    ∃ left right,
      (AckMem.new Scenario.pool "1" Scenario.groups).fetchMB 0 (Scenario.signedHashes []) =
        .ok left ∧
      (AckMem.new Scenario.pool "1" Scenario.groups).fetchMB 5
        (Scenario.signedHashes [{"2"}, {"3"}]) = .ok right ∧
      List.Forall₂ MicroBlock.Alike left.2.payload.microblockList
        right.2.payload.microblockList := by
  have hMade : ∀ ackNode, Proposal.makeID Scenario.keys (fun _ => 7)
      { Scenario.twoHashes with ackNode } "2" = .ok (Scenario.signedHashes ackNode) := fun _ => rfl
  apply (same_id_rebuilt_alike_iff (Proposal.makeID_id (hMade [])) (Proposal.makeID_id
    (hMade [{"2"}, {"3"}])) (fun _ => rfl) rfl _ 0 5).mpr
  intro index h hIndex
  have hTwo : index < 2 := (List.getElem?_eq_some_iff.mp hIndex).1
  have hCount : Scenario.twoHashes.txNums[index]? = some 0 := by
    obtain rfl | rfl : index = 0 ∨ index = 1 := by omega
    · rfl
    · rfl
  have hFills : ∀ ackNode, (Scenario.signedHashes ackNode).Fills index :=
    fun _ => ⟨⟨0, hCount, le_refl 0, by decide⟩, hTwo, hTwo⟩
  exact Or.inr ⟨hFills _, hFills _, rfl, rfl⟩

/-- The same five hashed fields with other groups and numbers: one identifier, two
payloads. -/
theorem same_id_rebuilt_differently :
    ∃ p q left right,
      Scenario.twoHashes.makeID Scenario.keys (fun _ => 7) "2" = .ok p ∧
      Proposal.makeID Scenario.keys (fun _ => 7)
        { Scenario.twoHashes with txNums := [5, 0], groupList := [1, 0] } "2" = .ok q ∧
      p.raw = q.raw ∧ p.id = q.id ∧
      (AckMem.new Scenario.pool "1" Scenario.groups).fetchMB 0 p = .ok left ∧
      (AckMem.new Scenario.pool "1" Scenario.groups).fetchMB 0 q = .ok right ∧
      left.2.payload.microblockList.map (fun mb => (mb.groupId, mb.txns.length)) =
        [(0, 0), (0, 0)] ∧
      right.2.payload.microblockList.map (fun mb => (mb.groupId, mb.txns.length)) =
        [(1, 5), (0, 0)] := by
  exact ⟨_, _, _, _, rfl, rfl, rfl, rfl, rfl, rfl, rfl, rfl⟩

end AckMem
end Bamboo
