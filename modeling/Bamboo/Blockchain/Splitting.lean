import Bamboo.Blockchain.Totality

/-! How `CommitBlock` splits the forest. The walk along `PrevID`, the walk from level to
level that marks the committed levels and the sweep over the pruned levels agree with each
other in a forest with one vertex on a level and parents on lower levels: what the sweep
reports as forked is what the walks do not reach. A level is the view as an unsigned number,
so the parent's level is lower only if the view of its certificate is not negative. -/
namespace Bamboo

open Library

namespace BlockChain

variable {bc : BlockChain}

theorem parent_level_lt (hDown : bc.forrest.Descending) {id : Identifier} {block parent : Block}
    (hBlock : bc.getBlockByID id = some block) (hParent : bc.Parent block parent) :
    levelOf parent.view < levelOf block.view := by
  obtain ⟨v, hv, rfl⟩ := getBlockByID_eq_some.mp hBlock
  obtain ⟨p, hp, rfl⟩ := getBlockByID_eq_some.mp hParent
  exact hDown id v p hv hp

/-- Along stored parents the levels go down. -/
theorem reach_level_le (hDown : bc.forrest.Descending) {id : Identifier} {block b : Block}
    (hBlock : bc.getBlockByID id = some block)
    (hReach : Relation.ReflTransGen bc.Parent block b) :
    (∃ id, bc.getBlockByID id = some b) ∧ levelOf b.view ≤ levelOf block.view := by
  induction hReach with
  | refl => exact ⟨⟨id, hBlock⟩, le_refl _⟩
  | tail _ hLink ih =>
      obtain ⟨⟨middle, hMiddle⟩, hLe⟩ := ih
      exact ⟨⟨_, hLink⟩, (parent_level_lt hDown hMiddle hLink).le.trans hLe⟩

/-- A walk meets every stored ancestor above the lowest level. -/
theorem walk_mem_iff (hDown : bc.forrest.Descending) {id : Identifier} {block b : Block}
    {walked : List Block} (hBlock : bc.getBlockByID id = some block)
    (hWalk : bc.forrest.Walk block walked) :
    b ∈ walked ↔ Relation.ReflTransGen bc.Parent block b ∧
      bc.forrest.lowestLevel < levelOf b.view := by
  induction hWalk generalizing id with
  | reached hLevel =>
      constructor
      · intro hb
        cases hb
      · rintro ⟨hReach, hAbove⟩
        have hLe := (reach_level_le hDown hBlock hReach).2
        omega
  | root hLevel hNone =>
      rw [List.mem_singleton]
      constructor
      · rintro rfl
        exact ⟨.refl, hLevel⟩
      · rintro ⟨hReach, _⟩
        rcases hReach.cases_head with rfl | ⟨next, hLink, _⟩
        · rfl
        · cases (getBlockByID_eq_none.mpr hNone).symm.trans hLink
  | @down block parent rest hLevel hParent _ ih =>
      have hLink : bc.Parent block parent.block :=
        getBlockByID_eq_some.mpr ⟨parent, hParent, rfl⟩
      rw [List.mem_cons, ih hLink]
      constructor
      · rintro (rfl | ⟨hReach, hAbove⟩)
        · exact ⟨.refl, hLevel⟩
        · exact ⟨.head hLink hReach, hAbove⟩
      · rintro ⟨hReach, hAbove⟩
        rcases hReach.cases_head with rfl | ⟨next, hNext, hLater⟩
        · exact Or.inl rfl
        · cases hNext.symm.trans hLink
          exact Or.inr ⟨hLater, hAbove⟩

/-- The newest block of a walk comes first. -/
theorem walk_sorted (hDown : bc.forrest.Descending) {id : Identifier} {block : Block}
    {walked : List Block} (hBlock : bc.getBlockByID id = some block)
    (hWalk : bc.forrest.Walk block walked) :
    walked.Pairwise fun b b' => levelOf b'.view < levelOf b.view := by
  induction hWalk generalizing id with
  | reached => exact List.Pairwise.nil
  | root => exact List.pairwise_singleton _ _
  | @down block parent rest hLevel hParent hRest ih =>
      have hLink : bc.Parent block parent.block :=
        getBlockByID_eq_some.mpr ⟨parent, hParent, rfl⟩
      refine List.pairwise_cons.mpr ⟨fun b hb => ?_, ih hLink⟩
      have hReach := ((walk_mem_iff hDown hLink hRest).mp hb).1
      have hLe := (reach_level_le hDown hLink hReach).2
      exact hLe.trans_lt (parent_level_lt hDown hBlock hLink)

end BlockChain

namespace LevelledForest

/-- A forest with at most one vertex on each level from 2 on and parents below their
children. -/
structure Layered (f : LevelledForest) : Prop where
  keyed : f.WellKeyed
  indexed : f.Indexed
  seated : f.Seated
  descending : f.Descending
  first : ∀ id v, f.getVertex id = some v → 1 < v.level → f.firstVertexAt v.level = .ok v

theorem MadeOf.layered {f : LevelledForest} {blocks : List BlockContainer} (h : f.MadeOf blocks)
    (hAgree : LevelsAgree blocks) (hBelow : ∀ v ∈ blocks, v.parent.2 < v.level) : f.Layered where
  keyed := h.keyed
  indexed := h.indexed
  seated _ _ hv := h.levelAt_eq hAgree hv
  descending id v p hv hp := by
    have hPositive := hBelow v (h.vertices id v hv)
    exact h.parent_lt hAgree hv hp (by omega)
  first _ _ hv hLevel := h.firstVertexAt hAgree hv hLevel

section Layered

variable {f : LevelledForest}

theorem Layered.retained (h : f.Layered) {id : Identifier} {v : BlockContainer}
    (hv : f.getVertex id = some v) : f.lowestLevel ≤ v.level :=
  h.indexed.retained id v.level (h.seated id v hv)

theorem Layered.alone (h : f.Layered) {id id' : Identifier} {v w : BlockContainer}
    (hv : f.getVertex id = some v) (hw : f.getVertex id' = some w) (hHigh : 1 < v.level)
    (hLevel : v.level = w.level) : v = w := by
  have hFirst := h.first id v hv hHigh
  have hFirst' := h.first id' w hw (hLevel ▸ hHigh)
  rw [hLevel] at hFirst
  exact Except.ok.inj (hFirst.symm.trans hFirst')

theorem Layered.mem_forkedAt (h : f.Layered) {marked : Finset Nat} {l : Nat} {b : Block} :
    b ∈ f.forkedAt marked l ↔
      ∃ id v, f.getVertex id = some v ∧ v.block = b ∧ v.level = l ∧ l ∉ marked ∧ 1 < l := by
  unfold forkedAt
  split_ifs with hSkipped
  · simp only [List.not_mem_nil, false_iff]
    rintro ⟨_, _, _, _, _, hUnmarked, hHigh⟩
    rcases hSkipped with hMarked | hLow
    · exact hUnmarked hMarked
    · omega
  · rw [List.mem_filterMap]
    constructor
    · rintro ⟨id, hId, hBlock⟩
      obtain ⟨v, hv, rfl⟩ := Option.map_eq_some_iff.mp hBlock
      have hAt := (h.indexed.listed l id).mp hId
      refine ⟨id, v, hv, rfl, Option.some.inj ((h.seated id v hv).symm.trans hAt), ?_, ?_⟩
      · exact fun hMarked => hSkipped (Or.inl hMarked)
      · exact not_le.mp fun hLow => hSkipped (Or.inr hLow)
    · rintro ⟨id, v, hv, rfl, rfl, _⟩
      exact ⟨id, (h.indexed.listed _ id).mpr (h.seated id v hv), by rw [hv]; rfl⟩

theorem Layered.forkedAt_pairwise (h : f.Layered) (marked : Finset Nat) (l : Nat) :
    (f.forkedAt marked l).Pairwise fun b b' => levelOf b.view < levelOf b'.view := by
  unfold forkedAt
  split_ifs with hSkipped
  · exact List.Pairwise.nil
  · rw [List.pairwise_filterMap]
    apply (h.indexed.nodup l).imp_of_mem
    intro id id' hId hId' hDifferent b hb b' hb'
    obtain ⟨v, hv, rfl⟩ := Option.map_eq_some_iff.mp hb
    obtain ⟨w, hw, rfl⟩ := Option.map_eq_some_iff.mp hb'
    -- two vertices on one level are the same one, so this case does not arise
    have hLevel : v.level = l :=
      Option.some.inj ((h.seated id v hv).symm.trans ((h.indexed.listed l id).mp hId))
    have hLevel' : w.level = l :=
      Option.some.inj ((h.seated id' w hw).symm.trans ((h.indexed.listed l id').mp hId'))
    have hHigh : 1 < v.level := not_le.mp fun hLow => hSkipped (Or.inr (hLevel ▸ hLow))
    cases h.alone hv hw hHigh (hLevel.trans hLevel'.symm)
    exact absurd ((h.keyed.vertexID hv).symm.trans (h.keyed.vertexID hw)) hDifferent

section Prunes

variable {f' : LevelledForest} {level : Nat} {marked : Finset Nat} {forked : List Block}

theorem Layered.mem_forked (h : f.Layered) (hPrunes : f.Prunes level marked f' forked)
    {b : Block} :
    b ∈ forked ↔ ∃ id v, f.getVertex id = some v ∧ v.block = b ∧ v.level < level ∧
      1 < v.level ∧ v.level ∉ marked := by
  rw [hPrunes.forked_eq, List.mem_flatMap]
  constructor
  · rintro ⟨l, hl, hMem⟩
    obtain ⟨id, v, hv, hBlock, rfl, hUnmarked, hHigh⟩ := h.mem_forkedAt.mp hMem
    rw [List.mem_range'_1] at hl
    exact ⟨id, v, hv, hBlock, by omega, hHigh, hUnmarked⟩
  · rintro ⟨id, v, hv, hBlock, hBelow, hHigh, hUnmarked⟩
    have hRetained := h.retained hv
    refine ⟨v.level, List.mem_range'_1.mpr (by omega), ?_⟩
    exact h.mem_forkedAt.mpr ⟨id, v, hv, hBlock, rfl, hUnmarked, hHigh⟩

theorem Layered.forked_increasing (h : f.Layered) (hPrunes : f.Prunes level marked f' forked) :
    forked.Pairwise fun b b' => levelOf b.view < levelOf b'.view := by
  rw [hPrunes.forked_eq]
  refine List.pairwise_flatMap.mpr ⟨fun l _ => h.forkedAt_pairwise marked l, ?_⟩
  refine List.Pairwise.imp (fun {l l'} hLess => ?_) (List.pairwise_lt_range' 1)
  intro b hb b' hb'
  obtain ⟨_, v, _, rfl, rfl, _⟩ := h.mem_forkedAt.mp hb
  obtain ⟨_, w, _, rfl, rfl, _⟩ := h.mem_forkedAt.mp hb'
  exact hLess

end Prunes

end Layered

theorem mem_keys_iff (f : LevelledForest) (id : Identifier) :
    id ∈ f.vertices.keys ↔ ∃ l, f.levelAt id = some l := by
  rw [Finmap.mem_keys, ← Finmap.lookup_isSome, Option.isSome_iff_exists]
  simp [levelAt]

/-- The containers that a prune counts are those it removes. -/
theorem Indexed.card_pruned {f f' : LevelledForest} {level : Nat} (h : f.Indexed)
    (hKeeps : f.KeepsFrom level f') :
    ((List.range' f.lowestLevel (level - f.lowestLevel)).flatMap f.idsAtLevel).length =
      (f.vertices.keys \ f'.vertices.keys).card := by
  have hNodup : ((List.range' f.lowestLevel (level - f.lowestLevel)).flatMap
      f.idsAtLevel).Nodup := by
    refine List.nodup_flatMap.mpr ⟨fun l _ => h.nodup l, ?_⟩
    refine List.Pairwise.imp (fun {l l'} hLess => ?_) (List.pairwise_lt_range' 1)
    intro id hId hId'
    have hAt := (h.listed l id).mp hId
    rw [(h.listed l' id).mp hId'] at hAt
    cases hAt
    omega
  rw [← List.toFinset_card_of_nodup hNodup]
  congr 1
  ext id
  simp only [List.mem_toFinset, List.mem_flatMap, Finset.mem_sdiff, mem_keys_iff, hKeeps.levelAt]
  constructor
  · rintro ⟨l, hl, hId⟩
    rw [List.mem_range'_1] at hl
    have hAt := (h.listed l id).mp hId
    refine ⟨⟨l, hAt⟩, ?_⟩
    rintro ⟨l', hAt', hLe⟩
    rw [hAt] at hAt'
    cases hAt'
    omega
  · rintro ⟨⟨l, hAt⟩, hGone⟩
    have hRetained := h.retained id l hAt
    have hBelow : l < level := not_le.mp fun hLe => hGone ⟨l, hAt, hLe⟩
    exact ⟨l, List.mem_range'_1.mpr (by omega), (h.listed l id).mpr hAt⟩

end LevelledForest

namespace BlockChain

open LevelledForest

variable {bc : BlockChain}

/-- On the levels below the head, the marked ones are those of its stored ancestors. -/
theorem unmarked_iff (h : bc.forrest.Layered) {id id' : Identifier} {v w : BlockContainer}
    (hv : bc.forrest.getVertex id = some v) (hw : bc.forrest.getVertex id' = some w)
    {f' : LevelledForest} {marked : Finset Nat} {forked : List Block}
    (hPrunes : bc.forrest.Prunes v.level marked f' forked) (hBelow : w.level < v.level)
    (hHigh : 1 < w.level) :
    w.level ∉ marked ↔ ¬Relation.ReflTransGen bc.Parent v.block w.block := by
  obtain ⟨_, hMarks, hOnly⟩ := committedLevels_ancestors
    (fun id v hv _ => h.first id v hv) h.descending hv hPrunes.marked
  rw [not_iff_not]
  constructor
  · intro hMarked
    rcases hOnly _ hMarked with hNone | ⟨a, hPath, hLevel⟩
    · cases hNone
    · obtain ⟨_, _, ha⟩ := Relation.TransGen.tail'_iff.mp hPath
      cases h.alone hw ha hHigh hLevel.symm
      have hLinks : ∀ x y, bc.forrest.ParentOf x y → bc.Parent x.block y.block :=
        fun x y hLink => getBlockByID_eq_some.mpr ⟨y, hLink, rfl⟩
      exact (Relation.TransGen.lift BlockContainer.block hLinks _ _ hPath).to_reflTransGen
  · intro hReach
    rcases Relation.reflTransGen_iff_eq_or_transGen.mp hReach with hSame | hPath
    · have hEq : w.level = v.level := by
        unfold BlockContainer.level
        rw [hSame]
      omega
    · obtain ⟨a, hContainers, hBlock⟩ := parentOf_path hPath
      have hLevel : a.level = w.level := by
        unfold BlockContainer.level
        rw [hBlock]
      have hRetained := h.retained hw
      rw [← hLevel]
      exact hMarks a hContainers (by omega) (by omega)

/-- Committing a stored block above the lowest level, after any calls with blocks that agree
on all levels and are above their parents: the blocks it reaches are committed, the other
blocks below it are forked, and everything below it is removed and counted. -/
theorem commitBlock_splits {n : Nat} {calls : List Call} (hAgree : LevelsAgree (added calls))
    (hBelow : ∀ v ∈ added calls, v.parent.2 < v.level)
    (hRun : run Call.perform (new n) calls = .ok bc) {id : Identifier} {b : Block} (view : View)
    (hStored : bc.getBlockByID id = some b) (hAbove : bc.forrest.lowestLevel < levelOf b.view) :
    ∃ bc' committed forked, bc.commitBlock id view = .ok (bc', some (committed, forked)) ∧
      (∀ c, c ∈ committed ↔
        Relation.ReflTransGen bc.Parent b c ∧ bc.forrest.lowestLevel < levelOf c.view) ∧
      (committed.Pairwise fun c c' => levelOf c'.view < levelOf c.view) ∧
      committed.head? = some b ∧
      (∀ c, c ∈ forked ↔ (∃ id', bc.getBlockByID id' = some c) ∧
        bc.forrest.lowestLevel ≤ levelOf c.view ∧ levelOf c.view < levelOf b.view ∧
        1 < levelOf c.view ∧ ¬Relation.ReflTransGen bc.Parent b c) ∧
      (forked.Pairwise fun c c' => levelOf c.view < levelOf c'.view) ∧
      (∀ id', bc'.forrest.vertices.lookup id' =
        if ∃ l, bc.forrest.levelAt id' = some l ∧ l < levelOf b.view then none
        else bc.forrest.vertices.lookup id') ∧
      (∀ l, bc'.forrest.idsAtLevel l =
        if l < levelOf b.view then [] else bc.forrest.idsAtLevel l) ∧
      bc'.committedBlockNo = bc.committedBlockNo + committed.length ∧
      bc'.prunedBlockNo = bc.prunedBlockNo +
        (bc.forrest.vertices.keys \ bc'.forrest.vertices.keys).card ∧
      bc'.forrest.lowestLevel = levelOf b.view := by
  obtain ⟨reached, hReached, hMade⟩ := run_madeOf n calls hAgree
  cases hRun.symm.trans hReached
  have hLayered := hMade.layered hAgree hBelow
  obtain ⟨bc', committed, forked, hCommit, _⟩ := commitBlock_returns hAgree hMade hStored view
  rcases commitBlock_cases hCommit with ⟨hNone, _⟩ | ⟨head, _, _, count, hHead, hResult, hWalk,
    hPrune, hCommitted, hPruned⟩
  · cases hNone
  cases hResult
  cases hStored.symm.trans hHead
  obtain ⟨v, hv, rfl⟩ := getBlockByID_eq_some.mp hStored
  have hKeeps := pruneUpToLevel_keepsFrom hMade.indexed hPrune
  obtain ⟨marked, hPrunes⟩ := pruneUpToLevel_prunes hMade.indexed hPrune
  obtain ⟨_, pruned, _, _, hWithout, hForest, _, hCount⟩ :=
    pruneUpToLevel_without hMade.indexed hPrune
  refine ⟨bc', committed, forked, hCommit, fun c => walk_mem_iff hLayered.descending hStored hWalk,
    walk_sorted hLayered.descending hStored hWalk, hWalk.head hAbove, fun c => ?_,
    hLayered.forked_increasing hPrunes, hKeeps, fun l => ?_, hCommitted, ?_, hPrunes.lowestLevel⟩
  · rw [hLayered.mem_forked hPrunes]
    constructor
    · rintro ⟨id', w, hw, rfl, hLess, hHigh, hUnmarked⟩
      exact ⟨⟨id', getBlockByID_eq_some.mpr ⟨w, hw, rfl⟩⟩, hLayered.retained hw, hLess, hHigh,
        (unmarked_iff hLayered hv hw hPrunes hLess hHigh).mp hUnmarked⟩
    · rintro ⟨⟨id', hFound⟩, _, hLess, hHigh, hNot⟩
      obtain ⟨w, hw, rfl⟩ := getBlockByID_eq_some.mp hFound
      exact ⟨id', w, hw, rfl, hLess, hHigh,
        (unmarked_iff hLayered hv hw hPrunes hLess hHigh).mpr hNot⟩
  · have hIds := hWithout.idsAtLevel l
    rw [hForest]
    refine hIds.trans ?_
    simp only [List.mem_range'_1]
    by_cases hLess : l < levelOf v.block.view
    · rw [if_pos hLess]
      split_ifs with hLevel
      · rfl
      · -- nothing is listed below the lowest level
        refine List.eq_nil_iff_forall_not_mem.mpr fun id' hId => ?_
        have hRetained := hMade.indexed.retained id' l ((hMade.indexed.listed l id').mp hId)
        omega
    · rw [if_neg hLess, if_neg (by omega)]
  · rw [hPruned, hCount, hMade.indexed.card_pruned hKeeps]

open LevelledForest (vertexAt)

/-- Block 4 is a side branch on block 2, and block 7 has a parent that is not there. -/
def sideBranches : List Call :=
  [.addBlock (vertexAt 5 5 3 3), .addBlock (vertexAt 1 1 0 0), .addBlock (vertexAt 4 4 2 2),
    .addBlock (vertexAt 2 2 1 1), .addBlock (vertexAt 3 3 2 2), .addBlock (vertexAt 8 8 5 5),
    .addBlock (vertexAt 7 7 6 6)]

theorem commitBlock_splits_sideBranches :
    ∃ bc, run Call.perform (new 4) sideBranches = .ok bc ∧
      ∃ bc' committed forked, bc.commitBlock 8 9 = .ok (bc', some (committed, forked)) ∧
        (committed.map fun b => b.id) = [8, 5, 3, 2, 1] ∧ (forked.map fun b => b.id) = [4, 7] ∧
        bc'.prunedBlockNo = 8 ∧ bc'.forrest.lowestLevel = 8 := by
  obtain ⟨bc, hRun, hStored, hLowest, hTest⟩ := Outcome.of_test
    (x := run Call.perform (new 4) sideBranches)
    (P := fun bc => bc.getBlockByID 8 = some (vertexAt 8 8 5 5).block ∧
      bc.forrest.lowestLevel = 0 ∧
      Outcome.test (bc.commitBlock 8 9) fun result =>
        (result.2.map fun lists => (lists.1.map fun b => b.id, lists.2.map fun b => b.id)) =
          some ([8, 5, 3, 2, 1], [4, 7]) ∧ result.1.prunedBlockNo = 8)
    (by decide)
  obtain ⟨bc', committed, forked, hCommit, _, _, _, _, _, _, _, _, _, hLevel⟩ :=
    commitBlock_splits ⟨by decide, by decide, by decide⟩ (by decide) hRun 9 hStored
      (hLowest ▸ by decide)
  obtain ⟨result, hResult, hLists, hCount⟩ := Outcome.of_test hTest
  cases hCommit.symm.trans hResult
  obtain ⟨hCommitted, hForked⟩ := Prod.mk.inj (Option.some.inj hLists)
  exact ⟨bc, hRun, bc', committed, forked, hCommit, hCommitted, hForked, hCount, hLevel⟩

/-- A negative view is a high level. Block 9 of view -1 is committed with the block on top of
it, although its view is not above the lowest level. -/
theorem commitBlock_takes_negative_view :
    ∃ bc, run Call.perform (new 4)
        [.addBlock (vertexAt 9 (-1) 8 (-2)), .addBlock (vertexAt 1 1 9 (-1))] = .ok bc ∧
      bc.forrest.lowestLevel = 0 ∧
      ∃ bc' committed forked, bc.commitBlock 1 3 = .ok (bc', some (committed, forked)) ∧
        (committed.map fun b => (b.id, b.view)) = [(1, 1), (9, -1)] :=
  ⟨_, rfl, rfl, _, _, _, rfl, rfl⟩

end BlockChain
end Bamboo
