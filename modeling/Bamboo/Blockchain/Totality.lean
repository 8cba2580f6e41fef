import Bamboo.Blockchain.Commit

/-! Whether `CommitBlock` returns. Both of its loops go from a block to its stored
parent, and the one in `PruneUpToLevel` looks only at the first container of a level.
They end, without reading an empty level or an empty container, when all blocks agree
on the level of each block, parents are on lower levels and no two blocks share a
level. `AddVertex` relies on that and does not check it. -/
namespace Bamboo

open Library

/-- The levels a block speaks of: its own, and the one its certificate gives to its
parent. -/
def BlockContainer.mentions (v : BlockContainer) : List (Identifier × Nat) :=
  [(v.vertexID, v.level), v.parent]

/-- Blocks that agree on all levels. The genesis block, at level 0, may name any parent,
and the loop of `PruneUpToLevel` stops before it looks at level 1. -/
structure LevelsAgree (blocks : List BlockContainer) : Prop where
  down : ∀ v ∈ blocks, v.level ≠ 0 → v.parent.2 < v.level
  agree : ∀ m ∈ blocks.flatMap BlockContainer.mentions,
    ∀ m' ∈ blocks.flatMap BlockContainer.mentions, m.1 = m'.1 → m.2 = m'.2
  alone : ∀ m ∈ blocks.flatMap BlockContainer.mentions,
    ∀ m' ∈ blocks.flatMap BlockContainer.mentions, 1 < m.2 → m.2 = m'.2 → m.1 = m'.1

theorem BlockContainer.own_mem_mentions {blocks : List BlockContainer} {v : BlockContainer}
    (h : v ∈ blocks) : (v.vertexID, v.level) ∈ blocks.flatMap mentions :=
  List.mem_flatMap.mpr ⟨v, h, List.mem_cons_self⟩

theorem BlockContainer.parent_mem_mentions {blocks : List BlockContainer} {v : BlockContainer}
    (h : v ∈ blocks) : v.parent ∈ blocks.flatMap mentions :=
  List.mem_flatMap.mpr ⟨v, h, List.mem_cons_of_mem _ List.mem_cons_self⟩

/-- Fewer members of a set lie below a smaller one of them. -/
theorem card_below_lt {levels : Finset Nat} {a b : Nat} (ha : a ∈ levels) (hab : a < b) :
    (levels.filter (· < a)).card < (levels.filter (· < b)).card := by
  apply Finset.card_lt_card
  rw [Finset.ssubset_iff_of_subset]
  · exact ⟨a, by simp [ha, hab], by simp⟩
  · intro l hl
    rw [Finset.mem_filter] at hl ⊢
    exact ⟨hl.1, hl.2.trans hab⟩

namespace LevelledForest

/-- Everything in the forest comes from the given blocks. -/
structure MadeOf (f : LevelledForest) (blocks : List BlockContainer) : Prop where
  keyed : f.WellKeyed
  indexed : f.Indexed
  vertices : ∀ id v, f.getVertex id = some v → v ∈ blocks
  levels : ∀ id l, f.levelAt id = some l → (id, l) ∈ blocks.flatMap BlockContainer.mentions

theorem new_madeOf (blocks : List BlockContainer) : new.MadeOf blocks where
  keyed := new_wellKeyed
  indexed := new_indexed
  vertices id v h := by simp at h
  levels id l h := by simp [new, levelAt] at h

theorem MadeOf.addVertex {f : LevelledForest} {blocks : List BlockContainer} (h : f.MadeOf blocks)
    {v : BlockContainer} (hv : v ∈ blocks) : (f.addVertex v).MadeOf blocks where
  keyed := (addVertex_spec h.keyed v).1
  indexed := addVertex_indexed h.keyed h.indexed v
  vertices id w hw := by
    rw [(addVertex_spec h.keyed v).2.2] at hw
    split_ifs at hw
    · cases hw
      exact hv
    · exact h.vertices id w hw
  levels id l hl := by
    rcases addVertex_levelAt h.keyed hl with hOld | ⟨rfl, rfl⟩ | ⟨rfl, rfl⟩
    · exact h.levels id l hOld
    · exact BlockContainer.own_mem_mentions hv
    · exact BlockContainer.parent_mem_mentions hv

theorem MadeOf.prunes {f f' : LevelledForest} {blocks : List BlockContainer} {level count : Nat}
    {forked : List Block} (h : f.MadeOf blocks)
    (hPrune : f.pruneUpToLevel level = .ok (some (f', forked, count))) : f'.MadeOf blocks := by
  obtain ⟨committed, hPrunes⟩ := pruneUpToLevel_prunes h.indexed hPrune
  exact {
    keyed := pruneUpToLevel_wellKeyed h.keyed hPrune
    indexed := hPrunes.indexed
    vertices := fun id v hv => h.vertices id v ((hPrunes.getVertex id v).mp hv).1
    levels := fun id l hl => h.levels id l ((hPrunes.levelAt id l).mp hl).1 }

section Agreement

variable {f : LevelledForest} {blocks : List BlockContainer}

/-- A full container is at the level of its vertex. -/
theorem MadeOf.levelAt_eq (h : f.MadeOf blocks) (hAgree : LevelsAgree blocks) {id : Identifier}
    {v : BlockContainer} (hv : f.getVertex id = some v) : f.levelAt id = some v.level := by
  obtain ⟨l, hl⟩ := levelAt_of_getVertex hv
  have hOwn := BlockContainer.own_mem_mentions (h.vertices id v hv)
  have hSame : l = v.level := hAgree.agree (id, l) (h.levels id l hl) _ hOwn (h.keyed.vertexID hv).symm
  rw [hl, hSame]

theorem MadeOf.parent_lt (h : f.MadeOf blocks) (hAgree : LevelsAgree blocks) {id : Identifier}
    {v p : BlockContainer} (hv : f.getVertex id = some v) (hp : f.getVertex v.parent.1 = some p)
    (hLevel : v.level ≠ 0) : p.level < v.level := by
  have hOwn := BlockContainer.own_mem_mentions (h.vertices _ p hp)
  have hClaim := BlockContainer.parent_mem_mentions (h.vertices id v hv)
  have hSame : p.level = v.parent.2 := hAgree.agree _ hOwn _ hClaim (h.keyed.vertexID hp)
  rw [hSame]
  exact hAgree.down v (h.vertices id v hv) hLevel

/-- A vertex is alone at its level. -/
theorem MadeOf.firstVertexAt (h : f.MadeOf blocks) (hAgree : LevelsAgree blocks) {id : Identifier}
    {v : BlockContainer} (hv : f.getVertex id = some v) (hLevel : 1 < v.level) :
    f.firstVertexAt v.level = .ok v := by
  have hAt := h.levelAt_eq hAgree hv
  refine firstVertexAt_of_alone h.indexed hv hAt fun other hOther => ?_
  exact hAgree.alone (other, v.level) (h.levels _ _ hOther) _ (h.levels _ _ hAt) hLevel rfl

theorem MadeOf.level_mem_keys (h : f.MadeOf blocks) (hAgree : LevelsAgree blocks) {id : Identifier}
    {v : BlockContainer} (hv : f.getVertex id = some v) : v.level ∈ f.verticesAtLevel.keys := by
  have hListed := (h.indexed.listed _ _).mpr (h.levelAt_eq hAgree hv)
  cases hIds : f.verticesAtLevel.lookup v.level with
  | none => simp [idsAtLevel, hIds] at hListed
  | some ids => exact Finmap.mem_keys.mpr (Table.mem_of_lookup hIds)

/-- The first loop of `PruneUpToLevel` goes down from level to level. -/
theorem MadeOf.committedLevels_returns (h : f.MadeOf blocks) (hAgree : LevelsAgree blocks)
    {fuel : Nat} {id : Identifier} {v : BlockContainer} (hv : f.getVertex id = some v)
    (hFuel : (f.verticesAtLevel.keys.filter (· < v.level)).card < fuel) (marked : Finset Nat) :
    ∃ result, f.committedLevels fuel v.level marked = .ok result := by
  induction fuel generalizing id v marked with
  | zero => omega
  | succ fuel ih =>
      unfold committedLevels
      by_cases hInside : f.lowestLevel ≤ v.level ∧ 1 < v.level
      · rw [if_pos hInside]
        have hFirst := h.firstVertexAt hAgree hv hInside.2
        cases hParent : f.getVertex v.parent.1 with
        | none =>
            refine ⟨marked, Outcome.bind_eq_ok.mpr ⟨v, hFirst, ?_⟩⟩
            rw [hParent]
            rfl
        | some above =>
            by_cases hLow : above.level < f.lowestLevel
            · refine ⟨marked, Outcome.bind_eq_ok.mpr ⟨v, hFirst, ?_⟩⟩
              rw [hParent]
              exact if_pos hLow
            · have hDown := h.parent_lt hAgree hv hParent (by omega)
              have hFewer := card_below_lt (h.level_mem_keys hAgree hParent) hDown
              obtain ⟨result, hResult⟩ := ih hParent (by omega) (insert above.level marked)
              refine ⟨result, Outcome.bind_eq_ok.mpr ⟨v, hFirst, ?_⟩⟩
              rw [hParent]
              exact (if_neg hLow).trans hResult
      · rw [if_neg hInside]
        exact ⟨marked, rfl⟩

theorem MadeOf.pruneUpToLevel_returns (h : f.MadeOf blocks) (hAgree : LevelsAgree blocks)
    {id : Identifier} {v : BlockContainer} (hv : f.getVertex id = some v) :
    ∃ f' forked count, f.pruneUpToLevel v.level = .ok (some (f', forked, count)) := by
  have hRetained := h.indexed.retained id v.level (h.levelAt_eq hAgree hv)
  have hFuel : (f.verticesAtLevel.keys.filter (· < v.level)).card <
      f.verticesAtLevel.keys.card + 1 :=
    Nat.lt_succ_of_le (Finset.card_filter_le _ _)
  obtain ⟨committed, hCommitted⟩ := h.committedLevels_returns hAgree hv hFuel ∅
  unfold pruneUpToLevel
  rw [if_neg (not_lt.mpr hRetained)]
  exact ⟨_, _, _, Outcome.bind_eq_ok.mpr ⟨committed, hCommitted, rfl⟩⟩

end Agreement
end LevelledForest

namespace BlockChain

/-- The loop of `CommitBlock` goes down from level to level; there are at most as many
levels as containers. -/
theorem collectCommitted_returns {blocks : List BlockContainer} (hAgree : LevelsAgree blocks)
    (view : View) {fuel : Nat} {bc : BlockChain} (h : bc.forrest.MadeOf blocks) {id : Identifier}
    {v : BlockContainer} (hv : bc.forrest.getVertex id = some v) {levels : Finset Nat}
    (hLevels : ∀ id v, bc.forrest.getVertex id = some v → v.level ∈ levels)
    (hFuel : (levels.filter (· < v.level)).card < fuel) (found : List Block) :
    ∃ bc' committed, collectCommitted view fuel bc v.block found = .ok (bc', committed) := by
  induction fuel generalizing bc id v found with
  | zero => omega
  | succ fuel ih =>
      unfold collectCommitted
      by_cases hLevel : bc.forrest.lowestLevel < levelOf v.block.view
      · rw [if_pos hLevel]
        cases hParent : bc.getBlockByID v.block.prevID with
        | none => exact ⟨_, _, rfl⟩
        | some parent =>
            obtain ⟨p, hp, rfl⟩ := getBlockByID_eq_some.mp hParent
            have hPositive : v.level ≠ 0 := (Nat.zero_le _).trans_lt hLevel |>.ne'
            have hDown := h.parent_lt hAgree hv hp hPositive
            have hFewer := card_below_lt (hLevels _ p hp) hDown
            have hNext : (bc.countCommitted view v.block).forrest.MadeOf blocks := h
            exact ih hNext hp hLevels (by omega) _
      · rw [if_neg hLevel]
        exact ⟨_, _, rfl⟩

theorem commitBlock_returns {blocks : List BlockContainer} (hAgree : LevelsAgree blocks)
    {bc : BlockChain} (h : bc.forrest.MadeOf blocks) {id : Identifier} {block : Block}
    (hBlock : bc.getBlockByID id = some block) (view : View) :
    ∃ bc' committed forked, bc.commitBlock id view = .ok (bc', some (committed, forked)) ∧
      bc'.forrest.MadeOf blocks := by
  obtain ⟨v, hv, rfl⟩ := getBlockByID_eq_some.mp hBlock
  have hLevels : ∀ id v, bc.forrest.getVertex id = some v →
      v.level ∈ bc.forrest.vertices.keys.image fun id => (bc.forrest.levelAt id).getD 0 := by
    intro id v hv
    obtain ⟨container, hContainer, _⟩ := Option.bind_eq_some_iff.mp hv
    refine Finset.mem_image.mpr ⟨id, Finmap.mem_keys.mpr (Table.mem_of_lookup hContainer), ?_⟩
    rw [h.levelAt_eq hAgree hv]
    rfl
  have hFuel : ((bc.forrest.vertices.keys.image fun id => (bc.forrest.levelAt id).getD 0).filter
      (· < v.level)).card < bc.forrest.vertices.keys.card + 1 :=
    Nat.lt_succ_of_le ((Finset.card_filter_le _ _).trans Finset.card_image_le)
  have hRaised : ({ bc with highestComitted := v.block.view } : BlockChain).forrest.MadeOf blocks := h
  obtain ⟨counted, committed, hCollect⟩ :=
    collectCommitted_returns hAgree view hRaised hv hLevels hFuel []
  have hForest : counted.forrest = bc.forrest := (collectCommitted_walk hCollect).1
  obtain ⟨f', forked, count, hPrune⟩ := h.pruneUpToLevel_returns hAgree hv
  refine ⟨{ counted with forrest := f', prunedBlockNo := counted.prunedBlockNo + count },
    committed, forked, ?_, h.prunes hPrune⟩
  unfold commitBlock
  rw [hBlock]
  refine Outcome.bind_eq_ok.mpr ⟨(counted, committed), hCollect, ?_⟩
  refine Outcome.bind_eq_ok.mpr ⟨some (f', forked, count), ?_, rfl⟩
  rw [hForest]
  exact hPrune

/-- A block that is not stored is not committed. -/
theorem commitBlock_madeOf {blocks : List BlockContainer} (hAgree : LevelsAgree blocks)
    {bc : BlockChain} (h : bc.forrest.MadeOf blocks) (id : Identifier) (view : View) :
    Outcome.Ensures (bc.commitBlock id view) fun result => result.1.forrest.MadeOf blocks := by
  cases hBlock : bc.getBlockByID id with
  | none =>
      refine ⟨(bc, none), ?_, h⟩
      unfold commitBlock
      rw [hBlock]
      rfl
  | some block =>
      obtain ⟨bc', committed, forked, hCommit, hMade⟩ := commitBlock_returns hAgree h hBlock view
      exact ⟨(bc', some (committed, forked)), hCommit, hMade⟩

/-- The calls that change a chain. -/
inductive Call where
  | addBlock (container : BlockContainer)
  | addVote (vote : Vote)
  | commitBlock (id : Identifier) (view : View)

def Call.perform (bc : BlockChain) : Call → Outcome BlockChain
  | .addBlock container => pure (bc.addBlock container)
  | .addVote vote => pure (bc.addVote vote).1
  | .commitBlock id view => do
      let (bc, _) ← bc.commitBlock id view
      pure bc

/-- The blocks that are added by some calls. -/
def added (calls : List Call) : List BlockContainer :=
  calls.filterMap fun
    | .addBlock container => some container
    | .addVote _ | .commitBlock _ _ => none

theorem mem_added {calls : List Call} {container : BlockContainer}
    (h : Call.addBlock container ∈ calls) : container ∈ added calls :=
  List.mem_filterMap.mpr ⟨_, h, rfl⟩

theorem Call.perform_madeOf {blocks : List BlockContainer} (hAgree : LevelsAgree blocks)
    {bc : BlockChain} (h : bc.forrest.MadeOf blocks) {call : Call}
    (hAdds : ∀ container, call = .addBlock container → container ∈ blocks) :
    ∃ bc', call.perform bc = .ok bc' ∧ bc'.forrest.MadeOf blocks := by
  cases call with
  | addBlock container => exact ⟨_, rfl, h.addVertex (hAdds container rfl)⟩
  | addVote vote => exact ⟨_, rfl, h⟩
  | commitBlock id view =>
      exact (commitBlock_madeOf hAgree h id view).bind fun _ _ hMade => .pure hMade

/-- If the blocks agree on all levels, no call on the chain fails. -/
theorem run_madeOf (n : Nat) (calls : List Call) (hAgree : LevelsAgree (added calls)) :
    ∃ bc, run Call.perform (new n) calls = .ok bc ∧ bc.forrest.MadeOf (added calls) := by
  have hGuard : Guarded Call.perform (fun _ call =>
      ∀ container, call = .addBlock container → container ∈ added calls) (new n) calls :=
    guarded_of_mem fun _ call hCall container hEq => mem_added (hEq ▸ hCall)
  exact guarded_run_returns (P := fun bc : BlockChain => bc.forrest.MadeOf (added calls))
    (fun bc call h hAdds => Call.perform_madeOf hAgree h hAdds) hGuard
    (LevelledForest.new_madeOf _)

/-- Moreover every stored block can be committed. -/
theorem commitBlock_total (n : Nat) (calls : List Call) (hAgree : LevelsAgree (added calls)) :
    ∃ bc, run Call.perform (new n) calls = .ok bc ∧
      ∀ id block view, bc.getBlockByID id = some block →
        ∃ bc' committed forked,
          bc.commitBlock id view = .ok (bc', some (committed, forked)) := by
  obtain ⟨bc, hRun, hMade⟩ := run_madeOf n calls hAgree
  refine ⟨bc, hRun, fun id block view hBlock => ?_⟩
  obtain ⟨bc', committed, forked, hCommit, _⟩ := commitBlock_returns hAgree hMade hBlock view
  exact ⟨bc', committed, forked, hCommit⟩

open LevelledForest (vertexAt)

/-- Three blocks of which the last arrives first, with a commit between them. -/
def lastFirst : List Call :=
  [.addBlock (vertexAt 3 3 2 2), .addBlock (vertexAt 1 1 0 0), .commitBlock 1 3,
    .addBlock (vertexAt 2 2 1 1)]

theorem commitBlock_total_lastFirst :
    LevelsAgree (added lastFirst) ∧ ∃ bc, run Call.perform (new 4) lastFirst = .ok bc ∧
      ∀ id block view, bc.getBlockByID id = some block →
        ∃ bc' committed forked,
          bc.commitBlock id view = .ok (bc', some (committed, forked)) := by
  have hAgree : LevelsAgree (added lastFirst) := ⟨by decide, by decide, by decide⟩
  exact ⟨hAgree, commitBlock_total 4 lastFirst hAgree⟩

/-- A block that is its own parent, a block after an empty container of its level, and a
block for which another one claimed a lower level: each is stored, and committing it does
not return. -/
theorem commitBlock_faults :
    (∃ bc, run Call.perform (new 4) [.addBlock (vertexAt 1 1 1 0)] = .ok bc ∧
      (bc.getBlockByID 1).isSome ∧ bc.commitBlock 1 1 = .error .diverges) ∧
    (∃ bc, run Call.perform (new 4)
        [.addBlock (vertexAt 3 3 2 2), .addBlock (vertexAt 9 2 1 1)] = .ok bc ∧
      (bc.getBlockByID 9).isSome ∧ bc.commitBlock 9 2 = .error .nilDereference) ∧
    (∃ bc, run Call.perform (new 4)
        [.addBlock (vertexAt 3 3 2 1), .addBlock (vertexAt 2 2 1 1)] = .ok bc ∧
      (bc.getBlockByID 2).isSome ∧ bc.commitBlock 2 2 = .error .outOfRange) := by
  exact ⟨⟨_, rfl, rfl, rfl⟩, ⟨_, rfl, rfl, rfl⟩, ⟨_, rfl, rfl, rfl⟩⟩

end BlockChain
end Bamboo
