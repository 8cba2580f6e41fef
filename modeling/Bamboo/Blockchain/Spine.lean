import Bamboo.Blockchain.Insertion
import Bamboo.Blockchain.Splitting

/-! A forest that holds one chain, with a block for every view, from the last committed block
up. The next block extends it; committing the block above the lowest level returns this block
alone, and nothing is forked. -/
namespace Bamboo

open Library

/-- A chain with one block for each view up to `last`. The identifier at 0 is the start, on
which the first block is built. -/
structure Consecutive (ident : Nat → Identifier) (chain : Nat → BlockContainer) (last : Nat) :
    Prop where
  view : ∀ k, 1 ≤ k → k ≤ last → (chain k).block.view = k
  id : ∀ k, 1 ≤ k → k ≤ last → (chain k).vertexID = ident k
  parent : ∀ k, 1 ≤ k → k ≤ last → (chain k).parent = (ident (k - 1), k - 1)
  distinct : ∀ j k, j ≤ last → k ≤ last → ident j = ident k → j = k

section Consecutive

variable {ident : Nat → Identifier} {chain : Nat → BlockContainer} {last : Nat}

theorem levelOf_natCast (k : Nat) : levelOf k = k := by
  simp [levelOf]

theorem Consecutive.level (h : Consecutive ident chain last) {k : Nat} (hOne : 1 ≤ k)
    (hLast : k ≤ last) : (chain k).level = k := by
  rw [BlockContainer.level, h.view k hOne hLast, levelOf_natCast]

theorem Consecutive.mention (h : Consecutive ident chain last) {m : Identifier × Nat}
    (hm : m ∈ ((List.range' 1 last).map chain).flatMap BlockContainer.mentions) :
    ∃ k ≤ last, m = (ident k, k) := by
  simp only [List.mem_flatMap, List.mem_map, List.mem_range'_1] at hm
  obtain ⟨_, ⟨k, hk, rfl⟩, hm⟩ := hm
  rw [BlockContainer.mentions, h.id k hk.1 (by omega), h.level hk.1 (by omega),
    h.parent k hk.1 (by omega)] at hm
  simp only [List.mem_cons, List.not_mem_nil, or_false] at hm
  rcases hm with rfl | rfl
  · exact ⟨k, by omega, rfl⟩
  · exact ⟨k - 1, by omega, rfl⟩

/-- The blocks of the chain agree on all levels. -/
theorem Consecutive.levelsAgree (h : Consecutive ident chain last) :
    LevelsAgree ((List.range' 1 last).map chain) where
  down v hv _ := by
    obtain ⟨k, hk, rfl⟩ := List.mem_map.mp hv
    rw [List.mem_range'_1] at hk
    rw [h.parent k hk.1 (by omega), h.level hk.1 (by omega)]
    exact Nat.sub_lt hk.1 Nat.one_pos
  agree m hm m' hm' hSame := by
    obtain ⟨j, hj, rfl⟩ := h.mention hm
    obtain ⟨k, hk, rfl⟩ := h.mention hm'
    exact h.distinct j k hj hk hSame
  alone m hm m' hm' _ hSame := by
    obtain ⟨j, _, rfl⟩ := h.mention hm
    obtain ⟨k, _, rfl⟩ := h.mention hm'
    exact congrArg ident hSame

end Consecutive

namespace LevelledForest

/-- The blocks of the chain from `low` to `high` are stored, and no others. -/
structure Spine (ident : Nat → Identifier) (chain : Nat → BlockContainer) (last low high : Nat)
    (f : LevelledForest) : Prop where
  made : f.MadeOf ((List.range' 1 last).map chain)
  lowestLevel : f.lowestLevel = low
  getVertex : ∀ id v, f.getVertex id = some v ↔
    ∃ k, 1 ≤ k ∧ low ≤ k ∧ k ≤ high ∧ ident k = id ∧ chain k = v

section Spine

variable {ident : Nat → Identifier} {chain : Nat → BlockContainer} {last low high : Nat}
  {f : LevelledForest}

theorem new_spine (ident : Nat → Identifier) (chain : Nat → BlockContainer) (last : Nat) :
    Spine ident chain last 0 0 new where
  made := new_madeOf _
  lowestLevel := rfl
  getVertex id v := by
    rw [new_getVertex]
    constructor
    · intro h
      cases h
    · rintro ⟨k, hOne, _, hZero, _⟩
      omega

theorem Spine.stored (h : f.Spine ident chain last low high) {k : Nat} (hOne : 1 ≤ k)
    (hLow : low ≤ k) (hHigh : k ≤ high) : f.getVertex (ident k) = some (chain k) :=
  (h.getVertex _ _).mpr ⟨k, hOne, hLow, hHigh, rfl, rfl⟩

/-- Nothing is stored under the identifiers of other positions. -/
theorem Spine.absent (hChain : Consecutive ident chain last)
    (h : f.Spine ident chain last low high) (hLast : high ≤ last) {k : Nat} (hk : k ≤ last)
    (hOut : k = 0 ∨ k < low ∨ high < k) : f.getVertex (ident k) = none := by
  cases hFound : f.getVertex (ident k) with
  | none => rfl
  | some v =>
      obtain ⟨j, hOne, hLow, hHigh, hId, _⟩ := (h.getVertex _ _).mp hFound
      have hSame := hChain.distinct j k (by omega) hk hId
      omega

/-- The next block extends the chain. -/
theorem Spine.addVertex (hChain : Consecutive ident chain last)
    (h : f.Spine ident chain last low high) (hLow : low ≤ high + 1) (hLast : high + 1 ≤ last) :
    (f.addVertex (chain (high + 1))).Spine ident chain last low (high + 1) where
  made := by
    apply h.made.addVertex
    exact List.mem_map_of_mem (List.mem_range'_1.mpr ⟨by omega, by omega⟩)
  lowestLevel := (addVertex_spec h.made.keyed _).2.1.trans h.lowestLevel
  getVertex id v := by
    have hNew := h.absent hChain (by omega) hLast (Or.inr (Or.inr (Nat.lt_succ_self high)))
    have hLevel := hChain.level (Nat.le_add_left 1 high) hLast
    have hId := hChain.id (high + 1) (Nat.le_add_left 1 high) hLast
    rw [(addVertex_spec h.made.keyed _).2.2, hId, h.lowestLevel, hLevel]
    by_cases hSame : id = ident (high + 1)
    · rw [if_pos ⟨hSame, hLow, hSame ▸ hNew⟩]
      constructor
      · intro hv
        exact ⟨high + 1, by omega, hLow, le_refl _, hSame.symm, Option.some.inj hv⟩
      · rintro ⟨k, _, _, hHigh, hk, rfl⟩
        rw [hChain.distinct k (high + 1) (by omega) hLast (hk.trans hSame)]
    · rw [if_neg (fun hAll => hSame hAll.1), h.getVertex]
      constructor
      · rintro ⟨k, hOne, hLow', hHigh, hk, hv⟩
        exact ⟨k, hOne, hLow', by omega, hk, hv⟩
      · rintro ⟨k, hOne, hLow', hHigh, hk, hv⟩
        refine ⟨k, hOne, hLow', ?_, hk, hv⟩
        have : k ≠ high + 1 := by
          rintro rfl
          exact hSame hk.symm
        omega

/-- A block of the chain that is stored is not stored again. -/
theorem Spine.addVertex_again (hChain : Consecutive ident chain last)
    (h : f.Spine ident chain last low high) {k : Nat} (hOne : 1 ≤ k) (hLow : low ≤ k)
    (hHigh : k ≤ high) (hLast : high ≤ last) : f.addVertex (chain k) = f := by
  apply addVertex_of_not_accepts h.made.keyed
  rintro ⟨_, hNone⟩
  rw [hChain.id k hOne (by omega)] at hNone
  exact nomatch hNone.symm.trans ((h.getVertex _ _).mpr ⟨k, hOne, hLow, hHigh, rfl, rfl⟩)

theorem Spine.layered (hChain : Consecutive ident chain last)
    (h : f.Spine ident chain last low high) : f.Layered := by
  apply h.made.layered hChain.levelsAgree
  intro v hv
  obtain ⟨k, hk, rfl⟩ := List.mem_map.mp hv
  rw [List.mem_range'_1] at hk
  rw [hChain.parent k hk.1 (by omega), hChain.level hk.1 (by omega)]
  exact Nat.sub_lt hk.1 Nat.one_pos

end Spine
end LevelledForest

namespace BlockChain

open LevelledForest

variable {ident : Nat → Identifier} {chain : Nat → BlockContainer} {last low high : Nat}
  {bc : BlockChain}

theorem spine_getBlockByID (h : bc.forrest.Spine ident chain last low high) {k : Nat}
    (hOne : 1 ≤ k) (hLow : low ≤ k) (hHigh : k ≤ high) :
    bc.getBlockByID (ident k) = some (chain k).block :=
  getBlockByID_eq_some.mpr ⟨chain k, h.stored hOne hLow hHigh, rfl⟩

theorem spine_getParentBlock (hChain : Consecutive ident chain last)
    (h : bc.forrest.Spine ident chain last low high) (hLast : high ≤ last) {k : Nat}
    (hOne : 1 ≤ k) (hLow : low ≤ k) (hHigh : k + 1 ≤ high) :
    bc.getParentBlock (ident (k + 1)) = some (chain k).block := by
  have hParent := congrArg Prod.fst (hChain.parent (k + 1) (by omega) (by omega))
  refine getParentBlock_eq_some.mpr ⟨_, spine_getBlockByID h (by omega) (by omega) hHigh, ?_⟩
  unfold Parent
  rw [show (chain (k + 1)).block.prevID = ident k from hParent]
  exact spine_getBlockByID h hOne hLow (by omega)

/-- The loop of `CommitBlock` stops below the first block. -/
theorem spine_collectCommitted (hChain : Consecutive ident chain last)
    (h : bc.forrest.Spine ident chain last low high) (hLow : low + 1 ≤ high) (hLast : high ≤ last)
    (view : View) (fuel : Nat) :
    collectCommitted view (fuel + 2) bc (chain (low + 1)).block [] =
      .ok (bc.countCommitted view (chain (low + 1)).block, [(chain (low + 1)).block]) := by
  have hPrev : (chain (low + 1)).block.prevID = ident low :=
    congrArg Prod.fst (hChain.parent (low + 1) (by omega) (by omega))
  have hLevel : ∀ k, 1 ≤ k → k ≤ last → levelOf (chain k).block.view = k :=
    fun k => hChain.level
  rw [collectCommitted, if_pos (by rw [h.lowestLevel, hLevel _ (by omega) (by omega)]; omega), hPrev]
  by_cases hStart : low = 0
  · have hNone := h.absent hChain hLast (k := 0) (Nat.zero_le _) (Or.inl rfl)
    rw [hStart, getBlockByID_eq_none.mpr hNone]
    rfl
  · rw [spine_getBlockByID h (by omega) (le_refl low) (by omega)]
    simp only [List.nil_append]
    rw [collectCommitted, if_neg]
    · rfl
    · simp only [countCommitted]
      rw [h.lowestLevel, hLevel _ (by omega) (by omega)]
      exact lt_irrefl low

/-- Committing the block above the lowest level. -/
theorem spine_commitBlock (hChain : Consecutive ident chain last)
    (h : bc.forrest.Spine ident chain last low high) (hLow : low + 1 ≤ high) (hLast : high ≤ last)
    (view : View) :
    ∃ bc', bc.commitBlock (ident (low + 1)) view =
        .ok (bc', some ([(chain (low + 1)).block], [])) ∧
      bc'.forrest.Spine ident chain last (low + 1) high ∧
      bc'.quorum = bc.quorum.forget (ident (low + 1)) := by
  have hv := h.stored (Nat.le_add_left 1 low) (Nat.le_succ low) hLow
  have hLevel := hChain.level (Nat.le_add_left 1 low) (hLow.trans hLast)
  have hCard : 0 < bc.forrest.vertices.keys.card := by
    obtain ⟨container, hContainer, _⟩ := Option.bind_eq_some_iff.mp hv
    exact Finset.card_pos.mpr ⟨_, Finmap.mem_keys.mpr (Table.mem_of_lookup hContainer)⟩
  obtain ⟨fuel, hFuel⟩ : ∃ fuel, bc.forrest.vertices.keys.card = fuel + 1 :=
    ⟨_, (Nat.succ_pred_eq_of_pos hCard).symm⟩
  obtain ⟨f', forked, count, hPrune⟩ := h.made.pruneUpToLevel_returns hChain.levelsAgree hv
  obtain ⟨marked, hPrunes⟩ := pruneUpToLevel_prunes h.made.indexed hPrune
  -- the only block below the new lowest level is the parent of the committed one
  have hForked : forked = [] := by
    apply List.eq_nil_iff_forall_not_mem.mpr
    intro b hb
    obtain ⟨id, w, hw, _, hBelow, hHigh, hUnmarked⟩ :=
      ((h.layered hChain).mem_forked hPrunes).mp hb
    refine (unmarked_iff (h.layered hChain) hv hw hPrunes hBelow hHigh).mp hUnmarked ?_
    obtain ⟨k, hOne, hk, hk', rfl, rfl⟩ := (h.getVertex _ _).mp hw
    rw [hChain.level hOne (by omega), hLevel] at hBelow
    obtain rfl : k = low := by omega
    apply Relation.ReflTransGen.single
    have hPrev : (chain (k + 1)).block.prevID = ident k :=
      congrArg Prod.fst (hChain.parent (k + 1) (by omega) (by omega))
    rw [Parent, hPrev]
    exact spine_getBlockByID h hOne hk hk'
  subst hForked
  let raised : BlockChain := { bc with highestComitted := (chain (low + 1)).block.view }
  let counted := raised.countCommitted view (chain (low + 1)).block
  refine ⟨{ counted with forrest := f', prunedBlockNo := counted.prunedBlockNo + count }, ?_, ?_, ?_⟩
  · have hRaised : raised.forrest.Spine ident chain last low high := h
    have hCollect := spine_collectCommitted hChain hRaised hLow hLast view fuel
    rw [commitBlock, spine_getBlockByID h (by omega) (by omega) hLow]
    simp only [hFuel]
    refine Outcome.bind_eq_ok.mpr ⟨_, hCollect, ?_⟩
    exact Outcome.bind_eq_ok.mpr ⟨_, hPrune, rfl⟩
  · refine ⟨h.made.prunes hPrune, hPrunes.lowestLevel.trans hLevel, fun id v => ?_⟩
    simp only [hPrunes.getVertex, h.getVertex, hLevel]
    constructor
    · rintro ⟨⟨k, hOne, hk, hHigh, rfl, rfl⟩, l, hAt, hl⟩
      have hSeat := (h.layered hChain).seated _ _ (h.stored hOne hk hHigh)
      rw [hAt, hChain.level hOne (by omega)] at hSeat
      exact ⟨k, hOne, by rw [← Option.some.inj hSeat]; exact hl, hHigh, rfl, rfl⟩
    · rintro ⟨k, hOne, hk, hHigh, rfl, rfl⟩
      have hSeat := (h.layered hChain).seated _ _ (h.stored hOne (by omega) hHigh)
      rw [hChain.level hOne (by omega)] at hSeat
      exact ⟨⟨k, hOne, by omega, hHigh, rfl, rfl⟩, k, hSeat, hk⟩
  · have hId := hChain.id (low + 1) (by omega) (by omega)
    rw [BlockContainer.vertexID] at hId
    rw [← hId]
    rfl

end BlockChain
end Bamboo
