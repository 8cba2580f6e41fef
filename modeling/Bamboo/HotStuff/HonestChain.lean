import Bamboo.Blockchain.Index
import Bamboo.HotStuff.Actions
import Bamboo.HotStuff.Lock
import Mathlib.Data.Finset.Max

/-! Honestly built blocks. Every block stands on the block that its certificate is
for, down to a first block with the certificate that all replicas start with. A
replica may receive any part of such a chain, in any order. -/
namespace Bamboo

open Library

/-- All blocks built by the leaders of a run: each points to the block its
certificate is for, in a lower view, the first one carries the initial
certificate, and an identifier belongs to one view. -/
structure HonestChain (blocks : List Block) : Prop where
  feed : HonestFeed blocks
  rooted : ∀ b ∈ blocks, ∀ qc ∈ b.qc,
    (qc.view = 0 ∧ qc.blockID = 0) ∨ ∃ p ∈ blocks, p.id = qc.blockID
  identified : ∀ b ∈ blocks, ∀ b' ∈ blocks, b.id = b'.id → b.view = b'.view

/-- Leaders build one block in a view. -/
def OnePerView (blocks : List Block) : Prop :=
  ∀ b ∈ blocks, ∀ b' ∈ blocks, b.view = b'.view → b = b'

instance (blocks : List Block) : Decidable (OnePerView blocks) :=
  inferInstanceAs (Decidable (∀ b ∈ blocks, _))

instance (blocks : List Block) : Decidable (HonestChain blocks) :=
  decidable_of_iff (HonestFeed blocks ∧
      (∀ b ∈ blocks, ∀ qc ∈ b.qc,
        (qc.view = 0 ∧ qc.blockID = 0) ∨ ∃ p ∈ blocks, p.id = qc.blockID) ∧
      ∀ b ∈ blocks, ∀ b' ∈ blocks, b.id = b'.id → b.view = b'.view)
    ⟨fun h => ⟨h.1, h.2.1, h.2.2⟩, fun h => ⟨h.1, h.2, h.3⟩⟩

theorem levelOf_of_nonneg {view : View} (h : 0 ≤ view) : (levelOf view : Int) = view := by
  unfold levelOf
  rw [if_pos h]
  exact Int.toNat_of_nonneg h

namespace HonestChain

variable {blocks : List Block}

/-- The lowest block carries the initial certificate. -/
theorem first_block (h : HonestChain blocks) {b : Block} (hb : b ∈ blocks) :
    ∃ first ∈ blocks, first.view ≤ b.view ∧ 0 < first.view ∧ first.prevID = 0 := by
  obtain ⟨first, hFirst, hLowest⟩ := Finset.exists_min_image blocks.toFinset (fun b => b.view)
    ⟨b, List.mem_toFinset.mpr hb⟩
  rw [List.mem_toFinset] at hFirst
  refine ⟨first, hFirst, hLowest b (List.mem_toFinset.mpr hb), ?_⟩
  obtain ⟨qc, hQC, hPrev, hView, hParent⟩ := h.feed first hFirst
  rcases h.rooted first hFirst qc hQC with ⟨hZero, hId⟩ | ⟨p, hp, hId⟩
  · exact ⟨hZero ▸ hView, hPrev.trans hId⟩
  · -- a parent would be lower still
    have hParentView := hParent p hp (hId.trans hPrev.symm)
    have hNotLower := hLowest p (List.mem_toFinset.mpr hp)
    lia

theorem view_pos (h : HonestChain blocks) {b : Block} (hb : b ∈ blocks) : 0 < b.view := by
  obtain ⟨first, _, hLe, hPos, _⟩ := h.first_block hb
  exact hPos.trans_le hLe

theorem level_eq (h : HonestChain blocks) {b : Block} (hb : b ∈ blocks) :
    (levelOf b.view : Int) = b.view :=
  levelOf_of_nonneg (h.view_pos hb).le

theorem level_lt_iff (h : HonestChain blocks) {b b' : Block} (hb : b ∈ blocks) (hb' : b' ∈ blocks) :
    levelOf b.view < levelOf b'.view ↔ b.view < b'.view := by
  have hLevel := h.level_eq hb
  have hLevel' := h.level_eq hb'
  lia

/-- No honest block has the identifier of the start. -/
theorem id_ne_zero (h : HonestChain blocks) {b : Block} (hb : b ∈ blocks) : b.id ≠ 0 := by
  intro hId
  obtain ⟨first, hFirst, hLe, _, hPrev⟩ := h.first_block hb
  obtain ⟨qc, _, _, hView, hParent⟩ := h.feed first hFirst
  have hSame := hParent b hb (hId.trans hPrev.symm)
  lia

/-- A block stands above the block it points to. -/
theorem parent_view_lt (h : HonestChain blocks) {b p : Block} (hb : b ∈ blocks) (hp : p ∈ blocks)
    (hId : p.id = b.prevID) : p.view < b.view := by
  obtain ⟨qc, _, _, hView, hParent⟩ := h.feed b hb
  rw [hParent p hp hId]
  exact hView

end HonestChain

namespace LevelledForest

open HotStuff

variable {blocks : List Block} {f : LevelledForest}

/-- Containers are on the level of the honest block they are for. Only the start,
which is no block, has a container on level zero. -/
def Placed (blocks : List Block) (f : LevelledForest) : Prop :=
  ∀ id l, f.levelAt id = some l →
    (∀ b ∈ blocks, b.id = id → levelOf b.view = l) ∧
      (l = 0 ∨ ∃ p ∈ blocks, p.id = id ∧ levelOf p.view = l)

theorem new_placed (blocks : List Block) : new.Placed blocks := by
  intro id l h
  simp [new, levelAt] at h

theorem addVertex_placed (h : HonestChain blocks) (hKeyed : f.WellKeyed) (hPlaced : f.Placed blocks)
    {v : BlockContainer} (hv : v.block ∈ blocks) : (f.addVertex v).Placed blocks := by
  intro id l hAt
  rcases addVertex_levelAt hKeyed hAt with hOld | ⟨rfl, rfl⟩ | ⟨rfl, rfl⟩
  · exact hPlaced id l hOld
  · refine ⟨fun b hb hId => ?_, Or.inr ⟨v.block, hv, rfl, rfl⟩⟩
    rw [h.identified b hb v.block hv hId]
    rfl
  · -- the parent's level is claimed by the vertex's certificate
    obtain ⟨qc, hQC, hPrev, _, hParent⟩ := h.feed v.block hv
    cases v.carries.symm.trans hQC
    refine ⟨fun b hb hId => ?_, ?_⟩
    · rw [hParent b hb hId]
      rfl
    · rcases h.rooted v.block hv v.qc v.carries with ⟨hZero, _⟩ | ⟨p, hp, hId⟩
      · refine Or.inl ?_
        change levelOf v.qc.view = 0
        rw [hZero]
        rfl
      · refine Or.inr ⟨p, hp, hId.trans hPrev.symm, ?_⟩
        rw [hParent p hp (hId.trans hPrev.symm)]
        rfl

/-- A stored vertex is on its own level. -/
theorem Placed.levelAt_vertex (hPlaced : f.Placed blocks) (hStores : (feedOrigins blocks).Stores f)
    {id : Identifier} {v : BlockContainer} (hv : f.getVertex id = some v) :
    f.levelAt id = some v.level := by
  obtain ⟨l, hAt⟩ := levelAt_of_getVertex hv
  obtain ⟨hBlock, hId⟩ := hStores id v hv
  rw [hAt, ← (hPlaced id l hAt).1 v.block hBlock hId]
  rfl

theorem descending_of_stores (h : HonestChain blocks) (hStores : (feedOrigins blocks).Stores f) :
    f.Descending := by
  intro id v p hv hParent
  obtain ⟨hBlock, _⟩ := hStores id v hv
  obtain ⟨hParentBlock, hParentId⟩ := hStores _ p hParent
  exact (h.level_lt_iff hParentBlock hBlock).mpr (h.parent_view_lt hBlock hParentBlock hParentId)

/-- With one block in a view, a level above zero has one container. -/
theorem Placed.unique (h : HonestChain blocks) (hOne : OnePerView blocks)
    (hPlaced : f.Placed blocks) {id id' : Identifier} {l : Nat} (hPos : 0 < l)
    (hAt : f.levelAt id = some l) (hAt' : f.levelAt id' = some l) : id = id' := by
  have hBlock : ∀ key, f.levelAt key = some l → ∃ p ∈ blocks, p.id = key ∧ p.view = l := by
    intro key hKey
    rcases (hPlaced key l hKey).2 with hZero | ⟨p, hp, hId, hLevel⟩
    · omega
    · exact ⟨p, hp, hId, hLevel ▸ (h.level_eq hp).symm⟩
  obtain ⟨p, hp, rfl, hView⟩ := hBlock id hAt
  obtain ⟨p', hp', rfl, hView'⟩ := hBlock id' hAt'
  rw [hOne p hp p' hp' (hView.trans hView'.symm)]

/-- A stored vertex is then the first of its level. -/
theorem Placed.firstVertexAt (h : HonestChain blocks) (hOne : OnePerView blocks)
    (hPlaced : f.Placed blocks) (hIndexed : f.Indexed)
    (hStores : (feedOrigins blocks).Stores f) {id : Identifier} {v : BlockContainer}
    (hv : f.getVertex id = some v) : f.firstVertexAt v.level = .ok v := by
  have hAt := hPlaced.levelAt_vertex hStores hv
  obtain ⟨hBlock, _⟩ := hStores id v hv
  have hPos : 0 < v.level := by
    have hLevel : (v.level : Int) = v.block.view := h.level_eq hBlock
    have hView := h.view_pos hBlock
    lia
  exact firstVertexAt_of_alone hIndexed hv hAt fun other hOther =>
    hPlaced.unique h hOne hPos hOther hAt

theorem Placed.prunes {f' : LevelledForest} {level : Nat} {marked : Finset Nat}
    {forked : List Block} (hPlaced : f.Placed blocks) (h : f.Prunes level marked f' forked) :
    f'.Placed blocks :=
  fun id l hAt => hPlaced id l ((h.levelAt id l).mp hAt).1

end LevelledForest
end Bamboo
