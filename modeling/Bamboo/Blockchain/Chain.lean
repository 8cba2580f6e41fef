import Bamboo.Blockchain.Forest

/-! The block chain of one replica: the forest of received blocks together with
the votes, and the commit operation. Its loops follow `PrevID` through the
forest, so a loop that passes more blocks than are stored never ends. -/
namespace Bamboo

open Library

structure BlockChain where
  forrest : LevelledForest
  quorum : Quorum
  highestComitted : Int := 0
  committedBlockNo : Int := 0
  totalBlockIntervals : Int := 0
  prunedBlockNo : Int := 0

namespace BlockChain

def new (n : Nat) : BlockChain := { forrest := .new, quorum := .new n }

def addBlock (bc : BlockChain) (container : BlockContainer) : BlockChain :=
  { bc with forrest := bc.forrest.addVertex container }

def addVote (bc : BlockChain) (vote : Vote) : BlockChain × Option QC :=
  ({ bc with quorum := (bc.quorum.add vote).1 }, (bc.quorum.add vote).2)

def getBlockByID (bc : BlockChain) (id : Identifier) : Option Block :=
  (bc.forrest.getVertex id).map BlockContainer.block

def getParentBlock (bc : BlockChain) (id : Identifier) : Option Block :=
  (bc.getBlockByID id).bind fun block => bc.getBlockByID block.prevID

/-- What the loop of `CommitBlock` does for one committed block. -/
def countCommitted (bc : BlockChain) (view : View) (block : Block) : BlockChain :=
  { bc with
    quorum := bc.quorum.forget block.id
    committedBlockNo := bc.committedBlockNo + 1
    totalBlockIntervals := bc.totalBlockIntervals + (view - block.view) }

/-- The loop of `CommitBlock` from `block` downwards, with the blocks found. -/
def collectCommitted (view : View) : Nat → BlockChain → Block → List Block →
    Outcome (BlockChain × List Block)
  | 0, _, _, _ => throw .diverges
  | fuel + 1, bc, block, found =>
      if bc.forrest.lowestLevel < levelOf block.view then
        match bc.getBlockByID block.prevID with
        | none => pure (bc.countCommitted view block, found ++ [block])
        | some parent =>
            collectCommitted view fuel (bc.countCommitted view block) parent (found ++ [block])
      else pure (bc, found)

/-- Commit the block `id` and everything below it. The result is `none` where
the source returns an error; the counters keep what was counted until then. -/
def commitBlock (bc : BlockChain) (id : Identifier) (view : View) :
    Outcome (BlockChain × Option (List Block × List Block)) :=
  match bc.getBlockByID id with
  | none => pure (bc, none)
  | some block => do
      let (bc, committed) ← collectCommitted view (bc.forrest.vertices.keys.card + 1)
        { bc with highestComitted := block.view } block []
      match ← bc.forrest.pruneUpToLevel (levelOf block.view) with
      | none => pure (bc, none)
      | some (forrest, forked, pruned) =>
          pure ({ bc with forrest, prunedBlockNo := bc.prunedBlockNo + pruned },
            some (committed, forked))

/-- A stored block is the parent of another one. -/
def Parent (bc : BlockChain) (block parent : Block) : Prop :=
  bc.getBlockByID block.prevID = some parent

theorem getParentBlock_eq_some {bc : BlockChain} {id : Identifier} {parent : Block} :
    bc.getParentBlock id = some parent ↔
      ∃ block, bc.getBlockByID id = some block ∧ bc.Parent block parent :=
  Option.bind_eq_some_iff

theorem getBlockByID_eq_some {bc : BlockChain} {id : Identifier} {block : Block} :
    bc.getBlockByID id = some block ↔
      ∃ v, bc.forrest.getVertex id = some v ∧ v.block = block :=
  Option.map_eq_some_iff

/-- A stored block is found again under its own identifier. -/
theorem getBlockByID_self {bc : BlockChain} (h : bc.forrest.WellKeyed) {id : Identifier}
    {block : Block} (hBlock : bc.getBlockByID id = some block) :
    bc.getBlockByID block.id = some block := by
  obtain ⟨v, hv, rfl⟩ := getBlockByID_eq_some.mp hBlock
  have hId : v.block.id = id := h.vertexID hv
  rw [hId]
  exact hBlock

/-- What committing leaves of a chain: fewer stored blocks and fewer votes. -/
structure Reduces (bc bc' : BlockChain) : Prop where
  within : bc'.forrest.Within bc.forrest
  keyed : bc.forrest.WellKeyed → bc'.forrest.WellKeyed
  total : bc'.quorum.total = bc.quorum.total
  votes : ∀ property : Vote → Prop, bc.quorum.Holds property → bc'.quorum.Holds property

theorem Reduces.refl (bc : BlockChain) : bc.Reduces bc :=
  ⟨LevelledForest.Within.refl _, id, rfl, fun _ => id⟩

theorem Reduces.trans {bc bc' bc'' : BlockChain} (first : bc.Reduces bc')
    (second : bc'.Reduces bc'') : bc.Reduces bc'' where
  within := second.within.trans first.within
  keyed h := second.keyed (first.keyed h)
  total := second.total.trans first.total
  votes property h := second.votes property (first.votes property h)

theorem countCommitted_reduces (bc : BlockChain) (view : View) (block : Block) :
    bc.Reduces (bc.countCommitted view block) :=
  ⟨LevelledForest.Within.refl _, id, rfl, fun _ h => h.forget block.id⟩

/-- One turn of the loop of `CommitBlock`. -/
theorem collectCommitted_succ {view : View} {fuel : Nat} {bc bc' : BlockChain} {block : Block}
    {found blocks : List Block}
    (h : collectCommitted view (fuel + 1) bc block found = .ok (bc', blocks)) :
    (levelOf block.view ≤ bc.forrest.lowestLevel ∧ bc' = bc ∧ blocks = found) ∨
      (bc.forrest.lowestLevel < levelOf block.view ∧ bc.getBlockByID block.prevID = none ∧
        bc' = bc.countCommitted view block ∧ blocks = found ++ [block]) ∨
      (bc.forrest.lowestLevel < levelOf block.view ∧ ∃ parent, bc.Parent block parent ∧
        collectCommitted view fuel (bc.countCommitted view block) parent (found ++ [block]) =
          .ok (bc', blocks)) := by
  unfold collectCommitted at h
  split_ifs at h with hLevel
  · cases hParent : bc.getBlockByID block.prevID with
    | none =>
        rw [hParent] at h
        cases Outcome.pure_eq_ok.mp h
        exact Or.inr (Or.inl ⟨hLevel, rfl, rfl, rfl⟩)
    | some parent =>
        rw [hParent] at h
        exact Or.inr (Or.inr ⟨hLevel, parent, hParent, h⟩)
  · cases Outcome.pure_eq_ok.mp h
    exact Or.inl ⟨not_lt.mp hLevel, rfl, rfl⟩

/-- The collected blocks are reached from the first one along stored parents. -/
theorem collectCommitted_spec (view : View) (fuel : Nat) (bc bc' : BlockChain) (block : Block)
    (found blocks : List Block)
    (h : collectCommitted view fuel bc block found = .ok (bc', blocks)) :
    bc.Reduces bc' ∧ bc'.forrest = bc.forrest ∧
      ∀ b ∈ blocks, b ∈ found ∨ Relation.ReflTransGen bc.Parent block b := by
  induction fuel generalizing bc block found with
  | zero => cases h
  | succ fuel ih =>
      rcases collectCommitted_succ h with
        ⟨_, rfl, rfl⟩ | ⟨_, _, rfl, rfl⟩ | ⟨_, parent, hParent, hLater⟩
      · exact ⟨Reduces.refl _, rfl, fun b hb => Or.inl hb⟩
      · refine ⟨countCommitted_reduces bc view block, rfl, fun b hb => ?_⟩
        rcases List.mem_append.mp hb with hOld | hHere
        · exact Or.inl hOld
        · cases List.mem_singleton.mp hHere
          exact Or.inr Relation.ReflTransGen.refl
      · obtain ⟨hReduces, hForest, hBlocks⟩ := ih _ _ _ hLater
        refine ⟨(countCommitted_reduces bc view block).trans hReduces, hForest, fun b hb => ?_⟩
        rcases hBlocks b hb with hOld | hReach
        · rcases List.mem_append.mp hOld with hOld | hHere
          · exact Or.inl hOld
          · cases List.mem_singleton.mp hHere
            exact Or.inr Relation.ReflTransGen.refl
        · exact Or.inr (Relation.ReflTransGen.head hParent hReach)

/-- The parts of a commit: the look-up, the loop and the prune. -/
theorem commitBlock_parts {bc bc' : BlockChain} {id : Identifier} {view : View}
    {result : Option (List Block × List Block)}
    (h : bc.commitBlock id view = .ok (bc', result)) :
    (bc.getBlockByID id = none ∧ bc' = bc ∧ result = none) ∨
      ∃ block counted committed, bc.getBlockByID id = some block ∧
        collectCommitted view (bc.forrest.vertices.keys.card + 1)
          { bc with highestComitted := block.view } block [] = .ok (counted, committed) ∧
        ((counted.forrest.pruneUpToLevel (levelOf block.view) = .ok none ∧
            bc' = counted ∧ result = none) ∨
          ∃ forrest forked count,
            counted.forrest.pruneUpToLevel (levelOf block.view) =
              .ok (some (forrest, forked, count)) ∧
            bc' = { counted with forrest, prunedBlockNo := counted.prunedBlockNo + count } ∧
            result = some (committed, forked)) := by
  unfold commitBlock at h
  cases hBlock : bc.getBlockByID id with
  | none =>
      rw [hBlock] at h
      cases Outcome.pure_eq_ok.mp h
      exact Or.inl ⟨rfl, rfl, rfl⟩
  | some block =>
      rw [hBlock] at h
      obtain ⟨⟨counted, committed⟩, hCollect, hRest⟩ := Outcome.bind_eq_ok.mp h
      obtain ⟨pruned, hPrune, hDone⟩ := Outcome.bind_eq_ok.mp hRest
      refine Or.inr ⟨block, counted, committed, rfl, hCollect, ?_⟩
      cases pruned with
      | none =>
          cases Outcome.pure_eq_ok.mp hDone
          exact Or.inl ⟨hPrune, rfl, rfl⟩
      | some pruned =>
          obtain ⟨forrest, forked, count⟩ := pruned
          cases Outcome.pure_eq_ok.mp hDone
          exact Or.inr ⟨forrest, forked, count, hPrune, rfl, rfl⟩

/-- Everything a commit can do to the chain and return. -/
theorem commitBlock_spec {bc bc' : BlockChain} {id : Identifier} {view : View}
    {result : Option (List Block × List Block)}
    (h : bc.commitBlock id view = .ok (bc', result)) :
    bc.Reduces bc' ∧ ∀ committed forked, result = some (committed, forked) →
      ∃ block, bc.getBlockByID id = some block ∧
        ∀ b ∈ committed, Relation.ReflTransGen bc.Parent block b := by
  rcases commitBlock_parts h with ⟨_, rfl, rfl⟩ | ⟨block, counted, blocks, hBlock, hCollect, hPrune⟩
  · exact ⟨Reduces.refl _, fun _ _ hResult => by cases hResult⟩
  · obtain ⟨hReduces, _, hBlocks⟩ := collectCommitted_spec view _ _ counted block [] blocks hCollect
    have hCounted : bc.Reduces counted := { hReduces with }
    rcases hPrune with ⟨_, rfl, rfl⟩ | ⟨forrest, forked, count, hPrune, rfl, rfl⟩
    · exact ⟨hCounted, fun _ _ hResult => by cases hResult⟩
    · refine ⟨⟨?_, ?_, hCounted.total, hCounted.votes⟩, ?_⟩
      · exact (LevelledForest.pruneUpToLevel_within hPrune).trans hCounted.within
      · intro hKeyed
        exact LevelledForest.pruneUpToLevel_wellKeyed (hCounted.keyed hKeyed) hPrune
      · intro committed forked' hResult
        cases hResult
        refine ⟨block, hBlock, fun b hb => ?_⟩
        rcases hBlocks b hb with hNil | hReach
        · cases hNil
        · exact hReach

end BlockChain
end Bamboo
