import Bamboo.Blockchain.Chain
import Bamboo.Blockchain.Index

/-! What `CommitBlock` returns. The committed blocks are those that a walk along the
stored parents meets above the lowest level; the walk ends at that level or at a
parent that is not stored. The forest is then pruned up to the level of the first
block of the walk. -/
namespace Bamboo

open Library

/-- The blocks met on the way down from a block, newest first. -/
inductive LevelledForest.Walk (f : LevelledForest) : Block → List Block → Prop
  | reached {block : Block} (hLevel : levelOf block.view ≤ f.lowestLevel) : Walk f block []
  | root {block : Block} (hLevel : f.lowestLevel < levelOf block.view)
      (hNone : f.getVertex block.prevID = none) : Walk f block [block]
  | down {block : Block} {parent : BlockContainer} {blocks : List Block}
      (hLevel : f.lowestLevel < levelOf block.view)
      (hParent : f.getVertex block.prevID = some parent) (hRest : Walk f parent.block blocks) :
      Walk f block (block :: blocks)

namespace LevelledForest

variable {f : LevelledForest}

/-- A walk from above the lowest level starts with its block. -/
theorem Walk.head {block : Block} {walked : List Block} (hWalk : f.Walk block walked)
    (hLevel : f.lowestLevel < levelOf block.view) : walked.head? = some block := by
  cases hWalk with
  | reached hReached => omega
  | root => rfl
  | down => rfl

theorem Walk.reaches {bc : BlockChain} {block b : Block} {walked : List Block}
    (hWalk : bc.forrest.Walk block walked) (hb : b ∈ walked) :
    Relation.ReflTransGen bc.Parent block b := by
  induction hWalk with
  | reached => cases hb
  | root =>
      cases List.mem_singleton.mp hb
      exact .refl
  | down _ hParent _ ih =>
      rcases List.mem_cons.mp hb with rfl | hb
      · exact .refl
      · exact .head (BlockChain.getBlockByID_eq_some.mpr ⟨_, hParent, rfl⟩) (ih hb)

theorem Walk.eq_nil {block : Block} {walked : List Block} (hWalk : f.Walk block walked)
    (hLevel : levelOf block.view ≤ f.lowestLevel) : walked = [] := by
  cases hWalk with
  | reached => rfl
  | root hAbove => omega
  | down hAbove => omega

end LevelledForest

namespace BlockChain

theorem getBlockByID_eq_none {bc : BlockChain} {id : Identifier} :
    bc.getBlockByID id = none ↔ bc.forrest.getVertex id = none :=
  Option.map_eq_none_iff

theorem collectCommitted_walk {view : View} {fuel : Nat} {bc bc' : BlockChain} {block : Block}
    {found blocks : List Block}
    (h : collectCommitted view fuel bc block found = .ok (bc', blocks)) :
    bc'.forrest = bc.forrest ∧ ∃ walked, blocks = found ++ walked ∧
      bc.forrest.Walk block walked := by
  induction fuel generalizing bc block found with
  | zero => cases h
  | succ fuel ih =>
      rcases collectCommitted_succ h with
        ⟨hLevel, rfl, rfl⟩ | ⟨hLevel, hNone, rfl, rfl⟩ | ⟨hLevel, parent, hParent, hLater⟩
      · exact ⟨rfl, [], by rw [List.append_nil], .reached hLevel⟩
      · exact ⟨rfl, [block], rfl, .root hLevel (getBlockByID_eq_none.mp hNone)⟩
      · obtain ⟨hForest, walked, hBlocks, hWalk⟩ := ih hLater
        obtain ⟨v, hv, rfl⟩ := getBlockByID_eq_some.mp hParent
        refine ⟨hForest, block :: walked, ?_, .down hLevel hv hWalk⟩
        rw [hBlocks, List.append_assoc]
        rfl

/-- What a successful commit of the block `head` returns and leaves. -/
structure Commits (bc : BlockChain) (head : Block) (bc' : BlockChain)
    (committed forked : List Block) : Prop where
  walk : bc.forrest.Walk head committed
  prunes : ∃ marked, bc.forrest.Prunes (levelOf head.view) marked bc'.forrest forked

theorem collectCommitted_counts {view : View} {fuel : Nat} {bc bc' : BlockChain} {block : Block}
    {found blocks : List Block}
    (h : collectCommitted view fuel bc block found = .ok (bc', blocks)) :
    bc'.prunedBlockNo = bc.prunedBlockNo ∧
      bc'.committedBlockNo + found.length = bc.committedBlockNo + blocks.length := by
  induction fuel generalizing bc block found with
  | zero => cases h
  | succ fuel ih =>
      rcases collectCommitted_succ h with ⟨_, rfl, rfl⟩ | ⟨_, _, rfl, rfl⟩ | ⟨_, parent, _, hLater⟩
      · exact ⟨rfl, rfl⟩
      · refine ⟨rfl, ?_⟩
        simp only [countCommitted, List.length_append, List.length_singleton]
        omega
      · obtain ⟨hPruned, hCommitted⟩ := ih hLater
        refine ⟨hPruned, ?_⟩
        simp only [countCommitted, List.length_append, List.length_singleton] at hCommitted
        omega

/-- Everything a commit can do. One that fails leaves the forest as it was. -/
theorem commitBlock_cases {bc bc' : BlockChain} {id : Identifier} {view : View}
    {result : Option (List Block × List Block)}
    (h : bc.commitBlock id view = .ok (bc', result)) :
    (result = none ∧ bc'.forrest = bc.forrest) ∨
      ∃ head committed forked count, bc.getBlockByID id = some head ∧
        result = some (committed, forked) ∧ bc.forrest.Walk head committed ∧
        bc.forrest.pruneUpToLevel (levelOf head.view) = .ok (some (bc'.forrest, forked, count)) ∧
        bc'.committedBlockNo = bc.committedBlockNo + committed.length ∧
        bc'.prunedBlockNo = bc.prunedBlockNo + count := by
  rcases commitBlock_parts h with ⟨_, rfl, rfl⟩ | ⟨head, counted, blocks, hHead, hCollect, hPrune⟩
  · exact Or.inl ⟨rfl, rfl⟩
  · obtain ⟨hForest, walked, rfl, hWalk⟩ := collectCommitted_walk hCollect
    obtain ⟨hPruned, hCommitted⟩ := collectCommitted_counts hCollect
    rcases hPrune with ⟨_, rfl, rfl⟩ | ⟨forrest, forked, count, hPrune, rfl, rfl⟩
    · exact Or.inl ⟨rfl, hForest⟩
    · rw [hForest] at hPrune
      refine Or.inr ⟨head, blocks, forked, count, hHead, rfl, hWalk, hPrune, ?_, ?_⟩
      · simpa using hCommitted
      · exact congrArg (· + (count : Int)) hPruned

/-- A commit that fails leaves the forest as it was; one that succeeds is described
by `Commits`. -/
theorem commitBlock_commits {bc bc' : BlockChain} {id : Identifier} {view : View}
    {result : Option (List Block × List Block)} (hIndexed : bc.forrest.Indexed)
    (h : bc.commitBlock id view = .ok (bc', result)) :
    (result = none ∧ bc'.forrest = bc.forrest) ∨
      ∃ head committed forked, bc.getBlockByID id = some head ∧
        result = some (committed, forked) ∧ bc.Commits head bc' committed forked := by
  rcases commitBlock_cases h with hFails | ⟨head, committed, forked, count, hHead, hResult, hWalk,
    hPrune, _, _⟩
  · exact Or.inl hFails
  · exact Or.inr ⟨head, committed, forked, hHead, hResult, hWalk,
      LevelledForest.pruneUpToLevel_prunes hIndexed hPrune⟩

/-- A path of blocks is a path of the containers they are stored in. -/
theorem parentOf_path {bc : BlockChain} {v : BlockContainer} {b : Block}
    (h : Relation.TransGen bc.Parent v.block b) :
    ∃ w, Relation.TransGen bc.forrest.ParentOf v w ∧ w.block = b := by
  induction h with
  | single hLink =>
      obtain ⟨w, hw, hSame⟩ := getBlockByID_eq_some.mp hLink
      exact ⟨w, .single hw, hSame⟩
  | tail _ hLink ih =>
      obtain ⟨w, hPath, rfl⟩ := ih
      obtain ⟨next, hNext, hSame⟩ := getBlockByID_eq_some.mp hLink
      exact ⟨next, hPath.tail hNext, hSame⟩

end BlockChain
end Bamboo
