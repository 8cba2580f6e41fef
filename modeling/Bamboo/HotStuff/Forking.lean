import Bamboo.HotStuff.Delivery

/-! The blocks that are reported as forked. `PruneUpToLevel` finds the levels of the
committed branch by its own walk, from the level of the new head downwards. Where a
block is missing this walk does not come down to the block that was committed last,
which is still stored, and that block is then reported as forked. As long as the
walk comes down, committed and forked blocks stay apart. -/
namespace Bamboo

open Library

namespace BlockChain

/-- A block and its stored ancestors, up to a number of them. -/
def ancestors (bc : BlockChain) : Nat → Block → List Block
  | 0, _ => []
  | fuel + 1, block => block ::
      match bc.getBlockByID block.prevID with
      | none => []
      | some parent => ancestors bc fuel parent

theorem reaches_of_mem_ancestors {bc : BlockChain} {fuel : Nat} {block b : Block}
    (h : b ∈ bc.ancestors fuel block) : Relation.ReflTransGen bc.Parent block b := by
  induction fuel generalizing block with
  | zero => cases h
  | succ fuel ih =>
      unfold ancestors at h
      rcases List.mem_cons.mp h with rfl | hRest
      · exact .refl
      · cases hParent : bc.getBlockByID block.prevID with
        | none =>
            rw [hParent] at hRest
            cases hRest
        | some parent =>
            rw [hParent] at hRest
            exact .head hParent (ih hRest)

end BlockChain

namespace HotStuff

/-- When a certificate commits, there is nothing to fork, or the stored ancestors of
the new head come down to the lowest level. -/
def KeepsBranch (cfg : Config) (hs : HotStuff) (a : Action) : Prop :=
  a.OnCertificate fun qc => ∀ head ∈ hs.committing cfg qc, hs.bc.forrest.lowestLevel ≤ 1 ∨
    ∃ b ∈ hs.bc.ancestors (hs.bc.forrest.vertices.keys.card + 1) head,
      levelOf b.view = hs.bc.forrest.lowestLevel

instance (cfg : Config) (hs : HotStuff) (a : Action) : Decidable (hs.KeepsBranch cfg a) :=
  inferInstanceAs (Decidable (a.OnCertificate _))

/-- Forked blocks are below the lowest level, in views without a committed block, and
each is reported once. -/
structure Forks (blocks : List Block) (hs : HotStuff) : Prop where
  forked : ∀ b ∈ hs.forkedBlocks, b ∈ blocks ∧ b.view < hs.bc.forrest.lowestLevel
  apart : ∀ b ∈ hs.committedBlocks, ∀ b' ∈ hs.forkedBlocks, b.view ≠ b'.view
  increasing : hs.forkedBlocks.Pairwise fun b b' => b.view < b'.view

variable {blocks : List Block}

/-- With one block in a view, the forest is layered. -/
theorem Ledger.layered {hs : HotStuff} (h : hs.Ledger blocks) (hChain : HonestChain blocks)
    (hOne : OnePerView blocks) (hCovers : (feedOrigins blocks).Covers hs) :
    hs.bc.forrest.Layered where
  keyed := hCovers.keyed
  indexed := h.indexed
  seated _ _ hv := h.placed.levelAt_vertex hCovers.stored hv
  descending := LevelledForest.descending_of_stores hChain hCovers.stored
  first _ _ hv _ := h.placed.firstVertexAt hChain hOne h.indexed hCovers.stored hv

/-- The blocks that a prune reports: on unmarked levels from the lowest up to the new
one, one after the other. -/
theorem forked_blocks {f f' : LevelledForest} (hChain : HonestChain blocks)
    (hStores : (feedOrigins blocks).Stores f) (hLayered : f.Layered) {level : Nat}
    {marked : Finset Nat} {forked : List Block} (hPrunes : f.Prunes level marked f' forked) :
    (∀ b ∈ forked, b ∈ blocks ∧ ∃ l : Nat, b.view = l ∧ f.lowestLevel ≤ l ∧ l < level ∧
      l ∉ marked ∧ 1 < l) ∧
      forked.Pairwise fun b b' => b.view < b'.view := by
  have hBlocks : ∀ b ∈ forked, b ∈ blocks ∧ ∃ l : Nat, b.view = l ∧ f.lowestLevel ≤ l ∧
      l < level ∧ l ∉ marked ∧ 1 < l := by
    intro b hb
    obtain ⟨id, v, hv, rfl, hBelow, hHigh, hUnmarked⟩ := (hLayered.mem_forked hPrunes).mp hb
    obtain ⟨hMem, _⟩ := hStores id v hv
    exact ⟨hMem, v.level, (hChain.level_eq hMem).symm, hLayered.retained hv, hBelow, hUnmarked,
      hHigh⟩
  refine ⟨hBlocks, (hLayered.forked_increasing hPrunes).imp_of_mem fun {b b'} hb hb' hLess => ?_⟩
  exact (hChain.level_lt_iff (hBlocks b hb).1 (hBlocks b' hb').1).mp hLess

/-- The levels of all retained ancestors below the new head are marked. -/
theorem ancestor_marked {hs : HotStuff} (hLayered : hs.bc.forrest.Layered) {head : Block}
    (hStored : hs.bc.getBlockByID head.id = some head) {marked : Finset Nat}
    {f' : LevelledForest} {forked : List Block}
    (hPrunes : hs.bc.forrest.Prunes (levelOf head.view) marked f' forked) {b : Block}
    (hReach : Relation.ReflTransGen hs.bc.Parent head b) (hHigh : 1 < levelOf b.view)
    (hBelow : levelOf b.view < levelOf head.view) : levelOf b.view ∈ marked := by
  obtain ⟨⟨_, hFound⟩, _⟩ := BlockChain.reach_level_le hLayered.descending hStored hReach
  obtain ⟨v, hv, rfl⟩ := BlockChain.getBlockByID_eq_some.mp hStored
  obtain ⟨w, hw, rfl⟩ := BlockChain.getBlockByID_eq_some.mp hFound
  by_contra hUnmarked
  exact (BlockChain.unmarked_iff hLayered hv hw hPrunes hBelow hHigh).mp hUnmarked hReach

/-- When the branch comes down to the lowest level, no committed block, old or new, is
on an unmarked level among those that are pruned. -/
theorem committed_marked {hs : HotStuff} (hChain : HonestChain blocks) (hOne : OnePerView blocks)
    (hCovers : (feedOrigins blocks).Covers hs) (hLedger : hs.Ledger blocks) {head : Block}
    (hStored : hs.bc.getBlockByID head.id = some head)
    (hBranch : hs.bc.forrest.lowestLevel ≤ 1 ∨
      ∃ b, Relation.ReflTransGen hs.bc.Parent head b ∧
        levelOf b.view = hs.bc.forrest.lowestLevel)
    {walked forked : List Block} (hWalk : hs.bc.forrest.Walk head walked) {marked : Finset Nat}
    {f' : LevelledForest} (hPrunes : hs.bc.forrest.Prunes (levelOf head.view) marked f' forked)
    {b : Block} (hb : b ∈ hs.committedBlocks ++ walked) {l : Nat} (hView : b.view = l)
    (hFrom : hs.bc.forrest.lowestLevel ≤ l) (hTo : l < levelOf head.view) (hHigh : 1 < l) :
    l ∈ marked := by
  have hLayered := hLedger.layered hChain hOne hCovers
  rcases List.mem_append.mp hb with hOld | hNew
  · -- only the last one is still stored, on the lowest level
    have hLow := (hLedger.committed b hOld).2
    have hLowest : hs.bc.forrest.lowestLevel = l := by lia
    rcases hBranch with hFew | ⟨a, hReach, hLevel⟩
    · omega
    · rw [hLowest] at hLevel
      rw [← hLevel]
      exact ancestor_marked hLayered hStored hPrunes hReach (by omega) (by omega)
  · obtain ⟨hMem, _, _⟩ := BlockChain.walked_blocks hChain hCovers.stored hStored hWalk hNew
    have hLevel : levelOf b.view = l := by
      have hOwn := hChain.level_eq hMem
      lia
    rw [← hLevel]
    exact ancestor_marked hLayered hStored hPrunes (hWalk.reaches hNew) (by omega) (by omega)

theorem new_forks (id : NodeID) (isByz : Bool) (n : Nat) :
    (HotStuff.new id isByz n).Forks blocks where
  forked b hb := by cases hb
  apart b hb := by cases hb
  increasing := List.Pairwise.nil

theorem Forks.sameChain {hs hs' : HotStuff} (h : hs.Forks blocks) (hSame : hs.SameChain hs') :
    hs'.Forks blocks where
  forked := by
    rw [hSame.forkedBlocks, hSame.forrest]
    exact h.forked
  apart := by
    rw [hSame.forkedBlocks, hSame.committedBlocks]
    exact h.apart
  increasing := hSame.forkedBlocks ▸ h.increasing

/-- A commit whose branch comes down to the lowest level keeps the two channels
apart. -/
theorem Forks.commits {hs hs' : HotStuff} (hChain : HonestChain blocks) (hOne : OnePerView blocks)
    (hCovers : (feedOrigins blocks).Covers hs) (hLedger : hs.Ledger blocks) (h : hs.Forks blocks)
    {head : Block} {committed forked : List Block}
    (hStored : hs.bc.getBlockByID head.id = some head)
    (hBranch : hs.bc.forrest.lowestLevel ≤ 1 ∨
      ∃ b, Relation.ReflTransGen hs.bc.Parent head b ∧
        levelOf b.view = hs.bc.forrest.lowestLevel)
    (hCommits : hs.bc.Commits head hs'.bc committed forked)
    (hCommitted : hs'.committedBlocks = hs.committedBlocks ++ committed)
    (hForked : hs'.forkedBlocks = hs.forkedBlocks ++ forked) : hs'.Forks blocks := by
  obtain ⟨hWalk, marked, hPrunes⟩ := hCommits
  have hAllowed := hPrunes.allowed
  obtain ⟨hNew, hIncreasing⟩ := forked_blocks hChain hCovers.stored
    (hLedger.layered hChain hOne hCovers) hPrunes
  refine ⟨?_, ?_, ?_⟩
  · intro b hb
    rw [hPrunes.lowestLevel]
    rw [hForked] at hb
    rcases List.mem_append.mp hb with hOld | hLast
    · obtain ⟨hMem, hBelow⟩ := h.forked b hOld
      exact ⟨hMem, by lia⟩
    · obtain ⟨hMem, l, hView, _, hBelow, _⟩ := hNew b hLast
      exact ⟨hMem, by lia⟩
  · intro b hb b' hb' hSame
    rw [hCommitted] at hb
    rw [hForked] at hb'
    rcases List.mem_append.mp hb' with hOldForked | hNewForked
    · rcases List.mem_append.mp hb with hOldCommitted | hNewCommitted
      · exact h.apart b hOldCommitted b' hOldForked hSame
      · -- what is committed now is above what was forked before
        have hBelow := (h.forked b' hOldForked).2
        obtain ⟨hMem, hAbove, _⟩ :=
          BlockChain.walked_blocks hChain hCovers.stored hStored hWalk hNewCommitted
        have hLevel := hChain.level_eq hMem
        lia
    · obtain ⟨_, l, hView, hFrom, hTo, hUnmarked, hHigh⟩ := hNew b' hNewForked
      exact hUnmarked (committed_marked hChain hOne hCovers hLedger hStored hBranch hWalk hPrunes
        hb (hSame.trans hView) hFrom hTo hHigh)
  · rw [hForked]
    refine List.pairwise_append.mpr ⟨h.increasing, hIncreasing, fun b hb b' hb' => ?_⟩
    have hBelow := (h.forked b hb).2
    obtain ⟨_, l, hView, hFrom, _⟩ := hNew b' hb'
    lia

theorem Forks.act {cfg : Config} {hs hs' : HotStuff} {a : Action} (hChain : HonestChain blocks)
    (hOne : OnePerView blocks) (hLedger : hs.Ledger blocks) (h : hs.Forks blocks)
    (hPermits : (feedOrigins blocks).Permits cfg hs a) (hBranch : hs.KeepsBranch cfg a)
    (hAct : hs.act cfg a = .ok hs') : hs'.Forks blocks := by
  obtain ⟨hCovers, _⟩ := hPermits
  rcases act_chain hCovers.keyed hLedger.indexed hAct with
    hSame | ⟨container, rfl, rfl⟩ | ⟨source, qc, head, committed, forked, rfl, hRest⟩
  · exact h.sameChain hSame
  · have hLowest := (LevelledForest.addVertex_spec hCovers.keyed container).2.1
    refine ⟨fun b hb => ?_, h.apart, h.increasing⟩
    change b ∈ blocks ∧ b.view < (hs.bc.forrest.addVertex container).lowestLevel
    rw [hLowest]
    exact h.forked b hb
  · obtain ⟨hHead, hCommits, hCommitted, hForked⟩ := hRest
    refine h.commits hChain hOne hCovers hLedger (committing_stored hCovers.keyed hHead) ?_
      hCommits hCommitted hForked
    refine (hBranch head hHead).imp_right ?_
    rintro ⟨b, hb, hLevel⟩
    exact ⟨b, BlockChain.reaches_of_mem_ancestors hb, hLevel⟩

/-- With honest blocks, one in a view and any of them lost, no block is committed and
forked or forked twice, as long as every commit finds its branch stored. -/
theorem committed_and_forked_disjoint (cfg : Config) (id : NodeID) (isByz : Bool) (n : Nat)
    (blocks : List Block) (events : List Event) (hs : HotStuff) (hChain : HonestChain blocks)
    (hOne : OnePerView blocks) (hFed : fedBlocks events ⊆ blocks)
    (hRun : run (step cfg) (HotStuff.new id isByz n) events = .ok hs)
    (hBranch : Guarded (act cfg) (KeepsBranch cfg) (HotStuff.new id isByz n)
      (runActions cfg (HotStuff.new id isByz n) events)) :
    (∀ b ∈ hs.committedBlocks, ∀ b' ∈ hs.forkedBlocks, b.id ≠ b'.id) ∧
      (hs.forkedBlocks.map fun b => b.id).Nodup := by
  obtain ⟨hLedger, hForks⟩ := run_ledger_invariant (P := fun hs => hs.Forks blocks) hChain hFed
    hRun hBranch (new_forks id isByz n)
    fun s a s' hLedger hForks hPermits hHere hAct =>
      hForks.act hChain hOne hLedger hPermits hHere hAct
  constructor
  · intro b hb b' hb' hId
    exact hForks.apart b hb b' hb' (hChain.identified b (hLedger.committed b hb).1 b'
      (hForks.forked b' hb').1 hId)
  · rw [List.Nodup, List.pairwise_map]
    refine hForks.increasing.imp_of_mem ?_
    intro b b' hb hb' hLess hId
    exact hLess.ne (hChain.identified b (hForks.forked b hb).1 b' (hForks.forked b' hb').1 hId)

end HotStuff

namespace Scenario

/-- The blocks of a chain that goes on from view 2 after the block of view 3 got no
certificate. -/
def orphanBlocks : List Block :=
  [block 1 1 0, block 2 2 1, block 3 3 2, block 4 4 2, block 5 5 4, block 6 6 5, block 7 7 6]

def orphanEvents : List HotStuff.Event :=
  [.block (block 1 1 0), .block (block 2 2 1), .block (block 3 3 2), .localTmo 3,
    .block (block 4 4 2), .block (block 5 5 4), .block (block 6 6 5), .block (block 7 7 6)]

/-- A chain of ten blocks. -/
def tenBlocks : List Block :=
  (List.range 10).map fun i => block (BitVec.ofNat 256 (i + 1)) (i + 1) i

/-- The block of view 6 does not arrive. -/
def sixthLost : List HotStuff.Event :=
  (tenBlocks.take 5).map .block ++ [.localTmo 5, .localTmo 6] ++
    ((tenBlocks.drop 6).take 2).map .block ++ [.localTmo 7] ++ (tenBlocks.drop 8).map .block

end Scenario

namespace HotStuff

theorem committed_and_forked_disjoint_orphan :
    ∃ hs, run (step (Scenario.config fun _ => "1")) (HotStuff.new "2" false 4)
        Scenario.orphanEvents = .ok hs ∧
      hs.deliveredViews = [4, 2, 1] ∧ hs.forkedBlocks = [Scenario.block 3 3 2] ∧
      (∀ b ∈ hs.committedBlocks, ∀ b' ∈ hs.forkedBlocks, b.id ≠ b'.id) ∧
      (hs.forkedBlocks.map fun b => b.id).Nodup := by
  obtain ⟨hs, hRun, hViews, hForked⟩ := Outcome.of_test
    (x := run (step (Scenario.config fun _ => "1")) (HotStuff.new "2" false 4)
      Scenario.orphanEvents)
    (P := fun hs => hs.deliveredViews = [4, 2, 1] ∧
      hs.forkedBlocks = [Scenario.block 3 3 2]) (by decide)
  refine ⟨hs, hRun, hViews, hForked, ?_⟩
  exact committed_and_forked_disjoint _ _ _ _ Scenario.orphanBlocks _ hs (by decide) (by decide)
    (by decide) hRun (by decide)

/-- The block of view 6 is lost. When the block of view 7 is committed, that of view 2
is reported as forked, which was the last one to be committed. -/
theorem committed_block_forked :
    HonestChain Scenario.tenBlocks ∧ OnePerView Scenario.tenBlocks ∧
    fedBlocks Scenario.sixthLost ⊆ Scenario.tenBlocks ∧
    ∃ hs, run (step (Scenario.config fun _ => "1")) (HotStuff.new "2" false 4)
        Scenario.sixthLost = .ok hs ∧
      hs.deliveredViews = [1, 2, 7] ∧ ∃ b ∈ hs.committedBlocks, b ∈ hs.forkedBlocks := by
  refine ⟨by decide, by decide, by decide, ?_⟩
  exact Outcome.of_test (by decide)

end HotStuff
end Bamboo
