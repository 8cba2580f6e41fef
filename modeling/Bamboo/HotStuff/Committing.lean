import Bamboo.Blockchain.Splitting
import Bamboo.HotStuff.HonestChain

/-! What an action can do to the chain and to the two channels of `CommitBlock`.
`act_chain` lists the three possibilities; `Ledger` is the invariant that every run
with honest blocks keeps, however many of them are lost. -/
namespace Bamboo

open Library

namespace HotStuff

/-- The block that `processCertificate` hands to `CommitBlock`, if it comes to that. -/
def committing (cfg : Config) (hs : HotStuff) (qc : QC) : Option Block :=
  if hs.pm.curView ≤ qc.view ∧ hs.certificateVerified cfg qc = .ok true ∧
      ¬(hs.isByz ∧ cfg.forkStrategy ∧ cfg.election.isLeader hs.id (qc.view + 1)) ∧
      (hs.updatePreferredView qc).isSome ∧ 3 ≤ qc.view
  then hs.commitRule qc else none

/-- The chain and what has been put on the two channels. -/
structure SameChain (hs hs' : HotStuff) : Prop where
  forrest : hs'.bc.forrest = hs.bc.forrest
  committedBlocks : hs'.committedBlocks = hs.committedBlocks
  forkedBlocks : hs'.forkedBlocks = hs.forkedBlocks

theorem commit_result {hs hs' : HotStuff} {block : Block} (h : hs.commit block = .ok hs') :
    ∃ result, hs.bc.commitBlock block.id hs.pm.curView = .ok (hs'.bc, result) ∧
      hs'.committedBlocks = hs.committedBlocks ++ (result.elim [] Prod.fst) ∧
      hs'.forkedBlocks = hs.forkedBlocks ++ (result.elim [] Prod.snd) := by
  obtain ⟨⟨bc, result⟩, hCommit, hDone⟩ := Outcome.bind_eq_ok.mp h
  refine ⟨result, ?_⟩
  cases result with
  | none =>
      cases Outcome.pure_eq_ok.mp hDone
      exact ⟨hCommit, (List.append_nil _).symm, (List.append_nil _).symm⟩
  | some lists =>
      cases Outcome.pure_eq_ok.mp hDone
      exact ⟨hCommit, rfl, rfl⟩

theorem applyCertificate_committing {hs hs' : HotStuff} {qc : QC}
    (h : hs.applyCertificate qc = .ok hs') :
    hs.SameChain hs' ∨ ∃ head view result, 3 ≤ qc.view ∧ hs.commitRule qc = some head ∧
      hs.bc.commitBlock head.id view = .ok (hs'.bc, result) ∧
      hs'.committedBlocks = hs.committedBlocks ++ (result.elim [] Prod.fst) ∧
      hs'.forkedBlocks = hs.forkedBlocks ++ (result.elim [] Prod.snd) := by
  unfold applyCertificate at h
  rw [updateHighQC_eq] at h
  dsimp only at h
  by_cases hEarly : qc.view < 3
  · rw [if_pos hEarly] at h
    cases Outcome.pure_eq_ok.mp h
    exact Or.inl ⟨rfl, rfl, rfl⟩
  rw [if_neg hEarly] at h
  split at h
  · cases Outcome.pure_eq_ok.mp h
    exact Or.inl ⟨rfl, rfl, rfl⟩
  · next head hRule =>
      obtain ⟨result, hCommit, hCommitted, hForked⟩ := commit_result h
      exact Or.inr ⟨head, _, result, not_lt.mp hEarly, hRule, hCommit, hCommitted, hForked⟩

/-- A certificate touches the chain only through `CommitBlock`. -/
theorem processCertificate_committing {cfg : Config} {hs hs' : HotStuff} {qc : QC}
    (h : hs.processCertificate cfg qc = .ok hs') :
    hs.SameChain hs' ∨ ∃ head view result, hs.committing cfg qc = some head ∧
      hs.bc.commitBlock head.id view = .ok (hs'.bc, result) ∧
      hs'.committedBlocks = hs.committedBlocks ++ (result.elim [] Prod.fst) ∧
      hs'.forkedBlocks = hs.forkedBlocks ++ (result.elim [] Prod.snd) := by
  unfold processCertificate at h
  by_cases hStale : qc.view < hs.pm.curView
  · rw [if_pos hStale] at h
    cases Outcome.pure_eq_ok.mp h
    exact Or.inl ⟨rfl, rfl, rfl⟩
  rw [if_neg hStale] at h
  obtain ⟨verified, hVerified, hRest⟩ := Outcome.bind_eq_ok.mp h
  split_ifs at hRest with hRejected hFork
  · cases Outcome.pure_eq_ok.mp hRest
    exact Or.inl ⟨rfl, rfl, rfl⟩
  · cases Outcome.pure_eq_ok.mp hRest
    exact Or.inl ⟨rfl, rfl, rfl⟩
  have hAccepted : hs.certificateVerified cfg qc = .ok true := by
    rw [hVerified, Bool.eq_true_of_not_eq_false hRejected]
  cases hLocked : hs.updatePreferredView qc with
  | none =>
      rw [hLocked] at hRest
      cases Outcome.pure_eq_ok.mp hRest
      exact Or.inl ⟨rfl, rfl, rfl⟩
  | some locked =>
      rw [hLocked] at hRest
      have hPassed : (hs.updatePreferredView qc).isSome := by
        rw [hLocked]
        rfl
      obtain ⟨lock, rfl, _, _⟩ := updatePreferredView_eq_some hLocked
      rcases applyCertificate_committing hRest with hSame | ⟨head, view, result, hView, hRule, hCommit⟩
      · exact Or.inl ⟨hSame.forrest, hSame.committedBlocks, hSame.forkedBlocks⟩
      · refine Or.inr ⟨head, view, result, ?_, hCommit⟩
        unfold committing
        rw [if_pos ⟨not_lt.mp hStale, hAccepted, hFork, hPassed, hView⟩]
        exact hRule

/-- The head that a commit rule finds is stored under its own identifier. -/
theorem committing_stored {cfg : Config} {hs : HotStuff} {qc : QC} {head : Block}
    (hKeyed : hs.bc.forrest.WellKeyed) (h : hs.committing cfg qc = some head) :
    hs.bc.getBlockByID head.id = some head := by
  unfold committing at h
  split_ifs at h
  obtain ⟨last, parent, _, _, hHead, _⟩ := commitRule_eq_some h
  obtain ⟨own, _, hLink⟩ := BlockChain.getParentBlock_eq_some.mp hHead
  exact BlockChain.getBlockByID_self hKeyed hLink

/-- An action leaves the chain alone, stores a block, or commits the head of a
three-chain. -/
theorem act_chain {cfg : Config} {hs hs' : HotStuff} {a : Action}
    (hKeyed : hs.bc.forrest.WellKeyed) (hIndexed : hs.bc.forrest.Indexed)
    (h : hs.act cfg a = .ok hs') :
    hs.SameChain hs' ∨
      (∃ container, a = .store container ∧ hs' = { hs with bc := hs.bc.addBlock container }) ∨
      ∃ source qc head committed forked, a = .certificate source qc ∧
        hs.committing cfg qc = some head ∧ hs.bc.Commits head hs'.bc committed forked ∧
        hs'.committedBlocks = hs.committedBlocks ++ committed ∧
        hs'.forkedBlocks = hs.forkedBlocks ++ forked := by
  cases a with
  | store container =>
      cases Outcome.pure_eq_ok.mp h
      exact Or.inr (Or.inl ⟨container, rfl, rfl⟩)
  | certificate source qc =>
      rcases processCertificate_committing h with hSame | hCommit
      · exact Or.inl hSame
      obtain ⟨head, view, result, hHead, hCommit, hCommitted, hForked⟩ := hCommit
      rcases BlockChain.commitBlock_commits hIndexed hCommit with ⟨rfl, hForest⟩ | hSucceeds
      · refine Or.inl ⟨hForest, ?_, ?_⟩
        · rw [hCommitted]
          exact List.append_nil _
        · rw [hForked]
          exact List.append_nil _
      · obtain ⟨top, committed, forked, hTop, rfl, hCommits⟩ := hSucceeds
        cases hTop.symm.trans (committing_stored hKeyed hHead)
        exact Or.inr (Or.inr ⟨source, qc, head, committed, forked, rfl, hHead, hCommits,
          hCommitted, hForked⟩)
  | raise block qc =>
      cases Outcome.pure_eq_ok.mp h
      rw [updateHighQC_eq]
      exact Or.inl ⟨rfl, rfl, rfl⟩
  | _ =>
      cases Outcome.pure_eq_ok.mp h
      exact Or.inl ⟨rfl, rfl, rfl⟩

/-- How the committed blocks of a replica lie in its forest: none is above the lowest
level, and the last one is stored at this level. -/
structure Ledger (blocks : List Block) (hs : HotStuff) : Prop where
  indexed : hs.bc.forrest.Indexed
  placed : hs.bc.forrest.Placed blocks
  committed : ∀ b ∈ hs.committedBlocks, b ∈ blocks ∧ b.view ≤ hs.bc.forrest.lowestLevel
  newest : (hs.bc.forrest.lowestLevel = 0 ∧ hs.committedBlocks = []) ∨
    ∃ b ∈ hs.committedBlocks, b.view = hs.bc.forrest.lowestLevel ∧
      hs.bc.getBlockByID b.id = some b

end HotStuff

namespace BlockChain

open HotStuff LevelledForest

/-- The blocks of a walk are honest, above the lowest level and not above its start. -/
theorem walked_blocks {blocks : List Block} {bc : BlockChain} (hChain : HonestChain blocks)
    (hStores : (feedOrigins blocks).Stores bc.forrest) {id : Identifier} {block : Block}
    (hStored : bc.getBlockByID id = some block) {walked : List Block}
    (hWalk : bc.forrest.Walk block walked) {b : Block} (hb : b ∈ walked) :
    b ∈ blocks ∧ bc.forrest.lowestLevel < levelOf b.view ∧ b.view ≤ block.view := by
  have hDown := descending_of_stores hChain hStores
  obtain ⟨hReach, hAbove⟩ := (walk_mem_iff hDown hStored hWalk).mp hb
  obtain ⟨⟨_, hFound⟩, hLe⟩ := reach_level_le hDown hStored hReach
  obtain ⟨v, hv, rfl⟩ := getBlockByID_eq_some.mp hStored
  obtain ⟨w, hw, rfl⟩ := getBlockByID_eq_some.mp hFound
  have hLevel := hChain.level_eq (hStores _ v hv).1
  have hLevel' := hChain.level_eq (hStores _ w hw).1
  exact ⟨(hStores _ w hw).1, hAbove, by lia⟩

end BlockChain

namespace HotStuff

variable {blocks : List Block}

theorem new_ledger (id : NodeID) (isByz : Bool) (n : Nat) :
    (HotStuff.new id isByz n).Ledger blocks where
  indexed := LevelledForest.new_indexed
  placed := LevelledForest.new_placed blocks
  committed b hb := by cases hb
  newest := Or.inl ⟨rfl, rfl⟩

theorem Ledger.sameChain {hs hs' : HotStuff} (h : hs.Ledger blocks) (hSame : hs.SameChain hs') :
    hs'.Ledger blocks where
  indexed := hSame.forrest ▸ h.indexed
  placed := hSame.forrest ▸ h.placed
  committed := by
    rw [hSame.committedBlocks, hSame.forrest]
    exact h.committed
  newest := by
    unfold BlockChain.getBlockByID
    rw [hSame.committedBlocks, hSame.forrest]
    exact h.newest

theorem Ledger.addBlock {hs : HotStuff} (hChain : HonestChain blocks)
    (hCovers : (feedOrigins blocks).Covers hs) (h : hs.Ledger blocks) {container : BlockContainer}
    (hBlock : container.block ∈ blocks) :
    Ledger blocks { hs with bc := hs.bc.addBlock container } := by
  obtain ⟨_, hLowest, hVertex⟩ := LevelledForest.addVertex_spec hCovers.keyed container
  refine ⟨LevelledForest.addVertex_indexed hCovers.keyed h.indexed container,
    LevelledForest.addVertex_placed hChain hCovers.keyed h.placed hBlock, ?_, ?_⟩
  · intro b hb
    change b ∈ blocks ∧ b.view ≤ (hs.bc.forrest.addVertex container).lowestLevel
    rw [hLowest]
    exact h.committed b hb
  · change ((hs.bc.forrest.addVertex container).lowestLevel = 0 ∧ hs.committedBlocks = []) ∨
      ∃ b ∈ hs.committedBlocks, b.view = (hs.bc.forrest.addVertex container).lowestLevel ∧
        ((hs.bc.forrest.addVertex container).getVertex b.id).map BlockContainer.block = some b
    rw [hLowest]
    refine h.newest.imp_right ?_
    rintro ⟨b, hb, hView, hStored⟩
    obtain ⟨v, hv, hSame⟩ := BlockChain.getBlockByID_eq_some.mp hStored
    refine ⟨b, hb, hView, ?_⟩
    rw [hVertex, if_neg, hv]
    · exact congrArg some hSame
    · rintro ⟨_, _, hNone⟩
      cases hNone.symm.trans hv

/-- A stored block at or above the level that is pruned to stays. -/
theorem Ledger.kept {hs : HotStuff} (h : hs.Ledger blocks)
    (hCovers : (feedOrigins blocks).Covers hs) {level : Nat} {marked : Finset Nat}
    {bc' : BlockChain} {forked : List Block} (hPrunes : hs.bc.forrest.Prunes level marked bc'.forrest forked)
    {b : Block} (hStored : hs.bc.getBlockByID b.id = some b) (hLevel : level ≤ levelOf b.view) :
    bc'.getBlockByID b.id = some b := by
  obtain ⟨v, hv, hSame⟩ := BlockChain.getBlockByID_eq_some.mp hStored
  have hAt := h.placed.levelAt_vertex hCovers.stored hv
  refine BlockChain.getBlockByID_eq_some.mpr ⟨v, (hPrunes.getVertex _ v).mpr ⟨hv, _, hAt, ?_⟩, hSame⟩
  change level ≤ levelOf v.block.view
  rw [hSame]
  exact hLevel

theorem Ledger.commits {hs hs' : HotStuff} (hChain : HonestChain blocks)
    (hCovers : (feedOrigins blocks).Covers hs) (h : hs.Ledger blocks) {head : Block}
    {committed forked : List Block} (hStored : hs.bc.getBlockByID head.id = some head)
    (hCommits : hs.bc.Commits head hs'.bc committed forked)
    (hCommitted : hs'.committedBlocks = hs.committedBlocks ++ committed) : hs'.Ledger blocks := by
  obtain ⟨hWalk, marked, hPrunes⟩ := hCommits
  obtain ⟨hHead, _⟩ := hCovers.getBlockByID hStored
  have hLevel := hChain.level_eq hHead
  have hAllowed := hPrunes.allowed
  refine ⟨hPrunes.indexed, h.placed.prunes hPrunes, ?_, ?_⟩
  · intro b hb
    rw [hPrunes.lowestLevel]
    rw [hCommitted] at hb
    rcases List.mem_append.mp hb with hOld | hNew
    · obtain ⟨hMem, hLe⟩ := h.committed b hOld
      exact ⟨hMem, by lia⟩
    · obtain ⟨hMem, _, hLe⟩ :=
        BlockChain.walked_blocks hChain hCovers.stored hStored hWalk hNew
      exact ⟨hMem, by lia⟩
  · rw [hCommitted, hPrunes.lowestLevel]
    by_cases hAbove : hs.bc.forrest.lowestLevel < levelOf head.view
    · refine Or.inr ⟨head, List.mem_append_right _ (List.mem_of_mem_head? (hWalk.head hAbove)), hLevel.symm, ?_⟩
      exact h.kept hCovers hPrunes hStored (le_refl _)
    · -- the head is at the lowest level already, so nothing is committed
      have hSame : levelOf head.view = hs.bc.forrest.lowestLevel := by omega
      rw [hWalk.eq_nil (not_lt.mp hAbove), List.append_nil, hSame]
      refine h.newest.imp_right ?_
      rintro ⟨b, hb, hView, hFound⟩
      refine ⟨b, hb, hView, h.kept hCovers hPrunes hFound ?_⟩
      have hOwn := hChain.level_eq (h.committed b hb).1
      lia

theorem Ledger.act {cfg : Config} {hs hs' : HotStuff} {a : Action} (hChain : HonestChain blocks)
    (h : hs.Ledger blocks) (hPermits : (feedOrigins blocks).Permits cfg hs a)
    (hAct : hs.act cfg a = .ok hs') : hs'.Ledger blocks := by
  obtain ⟨hCovers, hAction⟩ := hPermits
  rcases act_chain hCovers.keyed h.indexed hAct with
    hSame | ⟨container, rfl, rfl⟩ | ⟨source, qc, head, committed, forked, rfl, hRest⟩
  · exact h.sameChain hSame
  · exact h.addBlock hChain hCovers hAction.1
  · obtain ⟨hHead, hCommits, hCommitted, _⟩ := hRest
    exact h.commits hChain hCovers (committing_stored hCovers.keyed hHead) hCommits hCommitted

theorem feedOrigins_unrestricted (blocks : List Block) : (feedOrigins blocks).Unrestricted :=
  ⟨fun _ => trivial, fun _ => trivial⟩

/-- The blocks of the feed are among the given ones. -/
theorem feed_events {events : List Event} (hFed : fedBlocks events ⊆ blocks) :
    ∀ e ∈ events, (feedOrigins blocks).event e := by
  intro e he
  apply (feedOrigins_unrestricted blocks).event
  rintro block rfl
  exact hFed (List.mem_filterMap.mpr ⟨_, he, rfl⟩)

/-- A run with blocks from the given ones, up to a state between two actions. -/
theorem run_passes_feed {cfg : Config} {id : NodeID} {isByz : Bool} {n : Nat} {events : List Event}
    {last hs : HotStuff} (hFed : fedBlocks events ⊆ blocks)
    (hRun : run (step cfg) (HotStuff.new id isByz n) events = .ok last) {first rest : List Action}
    (hSplit : runActions cfg (HotStuff.new id isByz n) events = first ++ rest)
    (hAt : run (HotStuff.act cfg) (HotStuff.new id isByz n) first = .ok hs) :
    Passes (HotStuff.act cfg) ((feedOrigins blocks).Permits cfg) (HotStuff.new id isByz n) first hs ∧
      (feedOrigins blocks).Covers hs :=
  Origins.run_passes_between ((feedOrigins_unrestricted blocks).inclusive n) (feed_events hFed) hRun
    hSplit hAt

/-- The ledger is kept in every run with honest blocks. -/
theorem run_ledger {cfg : Config} {id : NodeID} {isByz : Bool} {n : Nat} {hs : HotStuff}
    {actions : List Action} (hChain : HonestChain blocks)
    (hPasses : Passes (HotStuff.act cfg) ((feedOrigins blocks).Permits cfg)
      (HotStuff.new id isByz n) actions hs) : hs.Ledger blocks :=
  hPasses.invariant (fun _ _ _ hLedger hPermits hAct => hLedger.act hChain hPermits hAct)
    (new_ledger id isByz n)

/-- What every action keeps beside the ledger holds at the end of a run with honest
blocks whose actions are all within a guard. -/
theorem run_ledger_invariant {cfg : Config} {id : NodeID} {isByz : Bool} {n : Nat}
    {events : List Event} {hs : HotStuff} {guard : HotStuff → Action → Prop}
    {P : HotStuff → Prop} (hChain : HonestChain blocks) (hFed : fedBlocks events ⊆ blocks)
    (hRun : run (step cfg) (HotStuff.new id isByz n) events = .ok hs)
    (hGuard : Guarded (HotStuff.act cfg) guard (HotStuff.new id isByz n)
      (runActions cfg (HotStuff.new id isByz n) events))
    (hStart : P (HotStuff.new id isByz n))
    (hStep : ∀ s a s', s.Ledger blocks → P s → (feedOrigins blocks).Permits cfg s a →
      guard s a → s.act cfg a = .ok s' → P s') : hs.Ledger blocks ∧ P hs := by
  obtain ⟨hPasses, _⟩ := Origins.run_passes ((feedOrigins_unrestricted blocks).inclusive n)
    (feed_events hFed) hRun
  apply guarded_run_invariant (P := fun hs => hs.Ledger blocks ∧ P hs) _
    (hPasses.guarded.and hGuard) hPasses.returns ⟨new_ledger id isByz n, hStart⟩
  rintro s a s' ⟨hLedger, hKept⟩ ⟨hPermits, hHere⟩ hAct
  exact ⟨hLedger.act hChain hPermits hAct, hStep s a s' hLedger hKept hPermits hHere hAct⟩

end HotStuff
end Bamboo
