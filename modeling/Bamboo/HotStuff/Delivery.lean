import Bamboo.HotStuff.Committing

/-! The order and the extent of what is delivered. `CommitBlock` returns the newest
block first and the replica delivers in this order, and the walk it makes ends
without a word where a block is missing. So the delivered views increase only as
long as every commit is for one block, and a commit covers the whole chain exactly
when every block of it is stored. -/
namespace Bamboo

open Library

namespace HotStuff

/-- The views of the committed blocks, in the order of their delivery. -/
def deliveredViews (hs : HotStuff) : List View := hs.committedBlocks.map fun b => b.view

/-- A certificate that commits finds no second block above the lowest level. -/
def CommitsOne (cfg : Config) (hs : HotStuff) (a : Action) : Prop :=
  a.OnCertificate fun qc => ∀ head ∈ hs.committing cfg qc,
    ∀ parent ∈ hs.bc.getBlockByID head.prevID, levelOf parent.view ≤ hs.bc.forrest.lowestLevel

instance (cfg : Config) (hs : HotStuff) (a : Action) : Decidable (hs.CommitsOne cfg a) :=
  inferInstanceAs (Decidable (a.OnCertificate _))

variable {blocks : List Block}

/-- Without a second block above the lowest level the walk meets the head alone. -/
theorem walk_one {f : LevelledForest} {head : Block} {walked : List Block}
    (hWalk : f.Walk head walked)
    (hOne : ∀ parent, f.getVertex head.prevID = some parent →
      levelOf parent.block.view ≤ f.lowestLevel) :
    walked = [] ∨ (walked = [head] ∧ f.lowestLevel < levelOf head.view) := by
  cases hWalk with
  | reached => exact Or.inl rfl
  | root hLevel => exact Or.inr ⟨rfl, hLevel⟩
  | down hLevel hParent hRest =>
      refine Or.inr ⟨?_, hLevel⟩
      rw [hRest.eq_nil (hOne _ hParent)]

/-- One more block above all that has been delivered keeps the order. -/
theorem deliveredViews_act {cfg : Config} {hs hs' : HotStuff} {a : Action}
    (hChain : HonestChain blocks) (hLedger : hs.Ledger blocks)
    (hSorted : hs.deliveredViews.Pairwise (· < ·))
    (hPermits : (feedOrigins blocks).Permits cfg hs a) (hOne : hs.CommitsOne cfg a)
    (hAct : hs.act cfg a = .ok hs') : hs'.deliveredViews.Pairwise (· < ·) := by
  obtain ⟨hCovers, _⟩ := hPermits
  rcases act_chain hCovers.keyed hLedger.indexed hAct with
    hSame | ⟨container, rfl, rfl⟩ | ⟨source, qc, head, committed, forked, rfl, hRest⟩
  · unfold deliveredViews
    rw [hSame.committedBlocks]
    exact hSorted
  · exact hSorted
  obtain ⟨hHead, hCommits, hCommitted, _⟩ := hRest
  obtain ⟨hBlock, _⟩ := hCovers.getBlockByID (committing_stored hCovers.keyed hHead)
  have hParents : ∀ parent, hs.bc.forrest.getVertex head.prevID = some parent →
      levelOf parent.block.view ≤ hs.bc.forrest.lowestLevel := by
    intro parent hParent
    exact hOne head hHead parent.block
      (BlockChain.getBlockByID_eq_some.mpr ⟨parent, hParent, rfl⟩)
  unfold deliveredViews
  rw [hCommitted, List.map_append]
  rcases walk_one hCommits.walk hParents with rfl | ⟨rfl, hLevel⟩
  · rw [List.map_nil, List.append_nil]
    exact hSorted
  · refine List.pairwise_append.mpr ⟨hSorted, List.pairwise_singleton _ _, ?_⟩
    intro view hView last hLast
    obtain ⟨b, hb, rfl⟩ := List.mem_map.mp hView
    cases List.mem_singleton.mp hLast
    have hBelow := (hLedger.committed b hb).2
    have hOwn := hChain.level_eq hBlock
    dsimp only
    lia

/-- With honest blocks, of which any may be lost, and any timeouts, the blocks are
delivered in the order of their views as long as every commit is for one block. -/
theorem delivered_in_order (cfg : Config) (id : NodeID) (isByz : Bool) (n : Nat)
    (blocks : List Block) (events : List Event) (hs : HotStuff) (hChain : HonestChain blocks)
    (hFed : fedBlocks events ⊆ blocks)
    (hRun : run (step cfg) (HotStuff.new id isByz n) events = .ok hs)
    (hOne : Guarded (act cfg) (CommitsOne cfg) (HotStuff.new id isByz n)
      (runActions cfg (HotStuff.new id isByz n) events)) :
    hs.deliveredViews.Pairwise (· < ·) := by
  have hEnd := run_ledger_invariant (P := fun hs => hs.deliveredViews.Pairwise (· < ·)) hChain hFed
    hRun hOne List.Pairwise.nil
    fun s a s' hLedger hSorted hPermits hHere hAct =>
      deliveredViews_act hChain hLedger hSorted hPermits hHere hAct
  exact hEnd.2

end HotStuff

namespace Scenario

/-- The blocks of five views in a row. -/
def fiveBlocks : List Block :=
  [block 1 1 0, block 2 2 1, block 3 3 2, block 4 4 3, block 5 5 4]

/-- The blocks of a chain that has none in view 3. -/
def gapBlocks : List Block :=
  [block 1 1 0, block 2 2 1, block 4 4 2, block 5 5 4, block 6 6 5, block 7 7 6]

/-- They arrive in order, and the views 2 and 3 time out. -/
def gapEvents : List HotStuff.Event :=
  [.block (block 1 1 0), .block (block 2 2 1), .localTmo 2, .localTmo 3, .block (block 4 4 2),
    .block (block 5 5 4), .block (block 6 6 5), .block (block 7 7 6)]

end Scenario

namespace HotStuff

theorem delivered_in_order_five_blocks :
    ∃ hs, run (step (Scenario.config fun _ => "1")) (HotStuff.new "2" false 4)
        (Scenario.fiveBlocks.map .block) = .ok hs ∧
      hs.deliveredViews = [1, 2] ∧ hs.deliveredViews.Pairwise (· < ·) := by
  obtain ⟨hs, hRun, hViews⟩ := Outcome.of_test
    (x := run (step (Scenario.config fun _ => "1")) (HotStuff.new "2" false 4)
      (Scenario.fiveBlocks.map .block))
    (P := fun hs => hs.deliveredViews = [1, 2]) (by decide)
  refine ⟨hs, hRun, hViews, ?_⟩
  exact delivered_in_order _ _ _ _ Scenario.fiveBlocks _ hs (by decide) (by decide) hRun (by decide)

/-- After a view without a block, one certificate commits the blocks of the views
4, 2 and 1, and they are delivered in this order. -/
theorem missed_view_reverses_delivery :
    HonestChain Scenario.gapBlocks ∧ fedBlocks Scenario.gapEvents ⊆ Scenario.gapBlocks ∧
    ∃ hs, run (step (Scenario.config fun _ => "1")) (HotStuff.new "2" false 4)
        Scenario.gapEvents = .ok hs ∧ hs.deliveredViews = [4, 2, 1] := by
  refine ⟨by decide, by decide, ?_⟩
  exact Outcome.of_test (by decide)

/-- A block on top of the newest committed block, or of the start when nothing has
been committed. -/
def FollowsCommitted (hs : HotStuff) (oldest : Block) : Prop :=
  (hs.committedBlocks = [] ∧ oldest.prevID = 0) ∨
    ∃ newest ∈ hs.committedBlocks, (∀ b ∈ hs.committedBlocks, b.view ≤ newest.view) ∧
      oldest.prevID = newest.id

instance (hs : HotStuff) (oldest : Block) : Decidable (hs.FollowsCommitted oldest) :=
  inferInstanceAs (Decidable (_ ∨ _))

/-- A list of blocks is the chain from `head` down to what has been committed. -/
def WholeChain (hs : HotStuff) (head : Block) (committed : List Block) : Prop :=
  committed.head? = some head ∧ committed.IsChain (fun b parent => b.prevID = parent.id) ∧
    ∃ oldest ∈ committed.getLast?, hs.FollowsCommitted oldest

instance (hs : HotStuff) (head : Block) (committed : List Block) :
    Decidable (hs.WholeChain head committed) :=
  inferInstanceAs (Decidable (_ ∧ _))

/-- No stored ancestor of `head` above the lowest level misses its parent, unless it
is the first block and nothing has been committed. -/
def ChainStored (hs : HotStuff) (head : Block) : Prop :=
  ∀ b, Relation.ReflTransGen hs.bc.Parent head b → hs.bc.forrest.lowestLevel < levelOf b.view →
    (∃ parent, hs.bc.Parent b parent) ∨ (hs.committedBlocks = [] ∧ b.prevID = 0)

theorem parent_iff {bc : BlockChain} {b p : Block} :
    bc.Parent b p ↔ ∃ v, bc.forrest.getVertex b.prevID = some v ∧ v.block = p :=
  BlockChain.getBlockByID_eq_some

theorem walk_linked {f : LevelledForest} (hStores : (feedOrigins blocks).Stores f) {block : Block}
    {walked : List Block} (hWalk : f.Walk block walked) :
    walked.IsChain fun b parent => b.prevID = parent.id := by
  induction hWalk with
  | reached => exact List.isChain_nil
  | root => exact List.isChain_singleton _
  | @down block parent rest _ hParent hRest ih =>
      cases hRest with
      | reached => exact List.isChain_singleton _
      | root => exact List.isChain_cons_cons.mpr ⟨(hStores _ parent hParent).2.symm, ih⟩
      | down => exact List.isChain_cons_cons.mpr ⟨(hStores _ parent hParent).2.symm, ih⟩

/-- Where a walk ends: at a missing parent or above a parent that is low enough. -/
theorem walk_last {bc : BlockChain} {block : Block} {walked : List Block}
    (hWalk : bc.forrest.Walk block walked) (hLevel : bc.forrest.lowestLevel < levelOf block.view) :
    ∃ last, walked.getLast? = some last ∧ Relation.ReflTransGen bc.Parent block last ∧
      bc.forrest.lowestLevel < levelOf last.view ∧
      ∀ parent, bc.Parent last parent → levelOf parent.view ≤ bc.forrest.lowestLevel := by
  induction hWalk with
  | reached hReached => omega
  | @root block hAbove hNone =>
      refine ⟨block, rfl, .refl, hAbove, fun parent hParent => ?_⟩
      obtain ⟨v, hv, _⟩ := parent_iff.mp hParent
      cases hNone.symm.trans hv
  | @down block parent rest hAbove hParent hRest ih =>
      have hLink : bc.Parent block parent.block := parent_iff.mpr ⟨parent, hParent, rfl⟩
      by_cases hLow : levelOf parent.block.view ≤ bc.forrest.lowestLevel
      · refine ⟨block, ?_, .refl, hAbove, fun found hFound => ?_⟩
        · rw [hRest.eq_nil hLow]
          rfl
        · cases hFound.symm.trans hLink
          exact hLow
      · obtain ⟨last, hLast, hReach, hRestEnd⟩ := ih (not_le.mp hLow)
        refine ⟨last, ?_, .head hLink hReach, hRestEnd⟩
        rw [List.getLast?_cons, hLast]
        rfl

/-- A block of a walk has its parent stored or ends the walk. -/
theorem walk_parent {bc : BlockChain} {block : Block} {walked : List Block}
    (hWalk : bc.forrest.Walk block walked) {b : Block} (hb : b ∈ walked) :
    (∃ parent, bc.Parent b parent) ∨ walked.getLast? = some b := by
  induction hWalk with
  | reached => cases hb
  | root =>
      cases List.mem_singleton.mp hb
      exact Or.inr rfl
  | @down block parent rest _ hParent _ ih =>
      rcases List.mem_cons.mp hb with rfl | hRest
      · exact Or.inl ⟨_, parent_iff.mpr ⟨parent, hParent, rfl⟩⟩
      · refine (ih hRest).imp_right fun hLast => ?_
        rw [List.getLast?_cons, hLast]
        rfl

/-- What is committed next is above the lowest level. -/
theorem Ledger.above {hs : HotStuff} (hChain : HonestChain blocks) (h : hs.Ledger blocks)
    {head : Block} (hHead : head ∈ blocks) (hAbove : ∀ b ∈ hs.committedBlocks, b.view < head.view) :
    hs.bc.forrest.lowestLevel < levelOf head.view := by
  have hLevel := hChain.level_eq hHead
  have hPos := hChain.view_pos hHead
  rcases h.newest with ⟨hZero, _⟩ | ⟨b, hb, hView, _⟩
  · lia
  · have hBelow := hAbove b hb
    lia

/-- With one block in a view, the newest committed block is the one that is stored at
the lowest level. -/
theorem Ledger.newest_stored {hs : HotStuff} (hOne : OnePerView blocks) (h : hs.Ledger blocks)
    {newest : Block} (hNewest : newest ∈ hs.committedBlocks)
    (hHighest : ∀ b ∈ hs.committedBlocks, b.view ≤ newest.view) :
    hs.bc.getBlockByID newest.id = some newest := by
  rcases h.newest with ⟨_, hNone⟩ | ⟨b, hb, hView, hStored⟩
  · rw [hNone] at hNewest
    cases hNewest
  · obtain ⟨hMem, hLe⟩ := h.committed newest hNewest
    have hSame : newest.view = b.view := le_antisymm (hView ▸ hLe) (hHighest b hb)
    cases hOne newest hMem b (h.committed b hb).1 hSame
    exact hStored

/-- The oldest block of a walk over a stored chain follows what has been committed. -/
theorem Ledger.follows {hs : HotStuff} (hChain : HonestChain blocks) (hOne : OnePerView blocks)
    (hCovers : (feedOrigins blocks).Covers hs) (h : hs.Ledger blocks) {oldest : Block}
    (hLow : ∀ parent, hs.bc.Parent oldest parent →
      levelOf parent.view ≤ hs.bc.forrest.lowestLevel)
    (hStored : (∃ parent, hs.bc.Parent oldest parent) ∨
      (hs.committedBlocks = [] ∧ oldest.prevID = 0)) : hs.FollowsCommitted oldest := by
  rcases hStored with ⟨parent, hParent⟩ | hFirst
  · refine Or.inr ?_
    obtain ⟨v, hv, rfl⟩ := parent_iff.mp hParent
    obtain ⟨hMem, hId⟩ := hCovers.stored _ v hv
    have hAt := h.placed.levelAt_vertex hCovers.stored hv
    have hRetained : hs.bc.forrest.lowestLevel ≤ levelOf v.block.view := h.indexed.retained _ _ hAt
    have hLowest := hLow _ hParent
    have hLevel := hChain.level_eq hMem
    have hPos := hChain.view_pos hMem
    rcases h.newest with ⟨hZero, _⟩ | ⟨b, hb, hView, _⟩
    · lia
    · -- both are in the view of the lowest level
      cases hOne v.block hMem b (h.committed b hb).1 (by lia)
      refine ⟨_, hb, fun b' hb' => ?_, hId.symm⟩
      rw [hView]
      exact (h.committed b' hb').2
  · exact Or.inl hFirst

/-- In every state of a run with honest blocks, of which any may be lost, a commit
above all that has been committed returns the whole chain exactly when no stored
ancestor misses its parent. -/
theorem commit_whole_chain_iff (cfg : Config) (id : NodeID) (isByz : Bool) (n : Nat)
    (blocks : List Block) (events : List Event) (last hs : HotStuff) (first rest : List Action)
    (bid : Identifier) (view : View) (head : Block) (bc : BlockChain)
    (committed forked : List Block) (hChain : HonestChain blocks) (hOne : OnePerView blocks)
    (hFed : fedBlocks events ⊆ blocks)
    (hRun : run (step cfg) (HotStuff.new id isByz n) events = .ok last)
    (hSplit : runActions cfg (HotStuff.new id isByz n) events = first ++ rest)
    (hAt : run (act cfg) (HotStuff.new id isByz n) first = .ok hs)
    (hHead : hs.bc.getBlockByID bid = some head)
    (hAbove : ∀ b ∈ hs.committedBlocks, b.view < head.view)
    (hCommit : hs.bc.commitBlock bid view = .ok (bc, some (committed, forked))) :
    hs.WholeChain head committed ↔ hs.ChainStored head := by
  obtain ⟨hPasses, hCovers⟩ := run_passes_feed hFed hRun hSplit hAt
  have hLedger := run_ledger hChain hPasses
  obtain ⟨hBlock, _⟩ := hCovers.getBlockByID hHead
  have hLevel := hLedger.above hChain hBlock hAbove
  have hWalk : hs.bc.forrest.Walk head committed := by
    rcases BlockChain.commitBlock_commits hLedger.indexed hCommit with ⟨hNone, _⟩ | hSome
    · cases hNone
    · obtain ⟨top, committed', forked', hTop, hResult, hCommits⟩ := hSome
      cases hTop.symm.trans hHead
      cases hResult
      exact hCommits.walk
  constructor
  · rintro ⟨_, _, oldest, hOldest, hFollows⟩ b hReach hHigh
    have hDown := LevelledForest.descending_of_stores hChain hCovers.stored
    have hWalked := (BlockChain.walk_mem_iff hDown hHead hWalk).mpr ⟨hReach, hHigh⟩
    rcases walk_parent hWalk hWalked with hStored | hLast
    · exact Or.inl hStored
    · cases hOldest.symm.trans hLast
      rcases hFollows with hFirst | ⟨newest, hNewest, hHighest, hPrev⟩
      · exact Or.inr hFirst
      · refine Or.inl ⟨newest, ?_⟩
        unfold BlockChain.Parent
        rw [hPrev]
        exact hLedger.newest_stored hOne hNewest hHighest
  · intro hStored
    obtain ⟨oldest, hOldest, hReach, hHigh, hLow⟩ := walk_last hWalk hLevel
    refine ⟨hWalk.head hLevel, walk_linked hCovers.stored hWalk, oldest, hOldest, ?_⟩
    exact hLedger.follows hChain hOne hCovers hLow (hStored oldest hReach hHigh)

theorem commit_whole_chain_iff_four_blocks :
    ∃ hs, run (step (Scenario.config fun _ => "1")) (HotStuff.new "2" false 4)
        ((Scenario.fiveBlocks.take 4).map .block) = .ok hs ∧
      hs.deliveredViews = [1] ∧ hs.ChainStored (Scenario.block 2 2 1) := by
  obtain ⟨hs, hRun, hViews, hHead, hAbove, hCommit, hWhole⟩ := Outcome.of_test
    (x := run (step (Scenario.config fun _ => "1")) (HotStuff.new "2" false 4)
      ((Scenario.fiveBlocks.take 4).map .block))
    (P := fun hs => hs.deliveredViews = [1] ∧
      hs.bc.getBlockByID 2 = some (Scenario.block 2 2 1) ∧
      (∀ b ∈ hs.committedBlocks, b.view < (Scenario.block 2 2 1).view) ∧
      (hs.bc.commitBlock 2 5).test (fun r => r.2 = some ([Scenario.block 2 2 1], [])) = true ∧
      hs.WholeChain (Scenario.block 2 2 1) [Scenario.block 2 2 1]) (by decide)
  obtain ⟨⟨bc, result⟩, hReturned, hLists⟩ := Outcome.of_test hCommit
  cases hLists
  have hFed : fedBlocks ((Scenario.fiveBlocks.take 4).map .block) ⊆ Scenario.fiveBlocks := by decide
  have hPasses := (Origins.run_passes ((feedOrigins_unrestricted Scenario.fiveBlocks).inclusive 4)
    (feed_events hFed) hRun).1
  refine ⟨hs, hRun, hViews, ?_⟩
  exact (commit_whole_chain_iff _ _ _ _ Scenario.fiveBlocks _ hs hs _ [] 2 5 _ bc _ []
    (by decide) (by decide) hFed hRun (List.append_nil _).symm hPasses.returns hHead hAbove
    hReturned).mp hWhole

/-- The block of view 1 is lost. When the block of view 5 arrives, the block of view 2
is committed on its own, although it is not the first block. -/
theorem lost_block_leaves_gap :
    HonestChain Scenario.fiveBlocks ∧ OnePerView Scenario.fiveBlocks ∧
    ∃ hs, run (step (Scenario.config fun _ => "1")) (HotStuff.new "2" false 4)
        [.localTmo 0, .localTmo 1, .block (Scenario.block 2 2 1), .block (Scenario.block 3 3 2),
          .block (Scenario.block 4 4 3)] = .ok hs ∧
      hs.committedBlocks = [] ∧
      (hs.bc.commitBlock 2 5).test (fun r => r.2 = some ([Scenario.block 2 2 1], [])) = true ∧
      ¬hs.WholeChain (Scenario.block 2 2 1) [Scenario.block 2 2 1] ∧
      (hs.step (Scenario.config fun _ => "1") (.block (Scenario.block 5 5 4))).test
        (fun hs' => hs'.committedBlocks = [Scenario.block 2 2 1]) = true := by
  refine ⟨by decide, by decide, ?_⟩
  exact Outcome.of_test (by decide)

end HotStuff
end Bamboo
