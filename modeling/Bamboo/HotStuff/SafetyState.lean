import Bamboo.HotStuff.Forking
import Bamboo.HotStuff.Range

/-! The four numbers of a replica's safety state: the current view, the view of the
highest certificate, the lock and the level below which blocks are pruned. With
honest blocks and genuine certificates, and views below the largest `int64`, they never
decrease and stay in this order. -/
namespace Bamboo

open Library

namespace HotStuff

/-- Certificates and votes that name the view of the block they are for. -/
def chainOrigins (blocks : List Block) : Origins where
  qc := fun qc => ∀ b ∈ blocks, b.id = qc.blockID → b.view = qc.view
  vote := fun vote => ∀ b ∈ blocks, b.id = vote.blockID → b.view = vote.view
  block := fun b => b ∈ blocks

variable {blocks : List Block}

theorem chainOrigins_inclusive (h : HonestChain blocks) (n : Nat) :
    (chainOrigins blocks).Inclusive n where
  carried block qc hBlock hQC b hb hId := by
    obtain ⟨own, hOwn, hPrev, _, hParent⟩ := h.feed block hBlock
    cases hQC.symm.trans hOwn
    exact hParent b hb (hId.trans hPrev.symm)
  quorum vote qc hVote hView hId _ _ _ b hb hSame := by
    rw [hView]
    exact hVote b hb (hSame.trans hId)
  initial b hb hId := absurd hId (h.id_ne_zero hb)
  own block vote hBlock hView hId b hb hSame := by
    rw [hView]
    exact h.identified b hb block hBlock (hSame.trans hId)

/-- The order of the four numbers. -/
structure Ordered (hs : HotStuff) : Prop where
  pruned : hs.bc.forrest.lowestLevel < hs.preferredView ∨
    (hs.bc.forrest.lowestLevel = 0 ∧ hs.preferredView = 0)
  locked : hs.preferredView < hs.highQC.view ∨ hs.preferredView = 0
  certified : hs.highQC.view ≤ hs.pm.curView

/-- None of the four numbers decreases. -/
structure Grows (hs hs' : HotStuff) : Prop where
  curView : hs.pm.curView ≤ hs'.pm.curView
  highQC : hs.highQC.view ≤ hs'.highQC.view
  preferredView : hs.preferredView ≤ hs'.preferredView
  lowestLevel : hs.bc.forrest.lowestLevel ≤ hs'.bc.forrest.lowestLevel

theorem Grows.refl (hs : HotStuff) : hs.Grows hs :=
  ⟨le_refl _, le_refl _, le_refl _, le_refl _⟩

theorem Grows.trans {hs hs' hs'' : HotStuff} (first : hs.Grows hs') (second : hs'.Grows hs'') :
    hs.Grows hs'' where
  curView := first.curView.trans second.curView
  highQC := first.highQC.trans second.highQC
  preferredView := first.preferredView.trans second.preferredView
  lowestLevel := first.lowestLevel.trans second.lowestLevel

theorem new_ordered (id : NodeID) (isByz : Bool) (n : Nat) : (HotStuff.new id isByz n).Ordered :=
  ⟨Or.inr ⟨rfl, rfl⟩, Or.inr rfl, le_refl _⟩

/-- The view may go up on its own. -/
theorem Ordered.advances {hs hs' : HotStuff} (h : hs.Ordered)
    (hFrame : hs' = { hs with pm := hs'.pm }) (hView : hs.pm.curView ≤ hs'.pm.curView) :
    hs'.Ordered ∧ hs.Grows hs' := by
  rw [hFrame]
  exact ⟨⟨h.pruned, h.locked, h.certified.trans hView⟩, hView, le_refl _, le_refl _, le_refl _⟩

/-- A higher certificate may be adopted if it is not ahead of the view. -/
theorem Ordered.updateHighQC {hs : HotStuff} (h : hs.Ordered) {qc : QC}
    (hView : qc.view ≤ hs.pm.curView) :
    (hs.updateHighQC qc).Ordered ∧ hs.Grows (hs.updateHighQC qc) := by
  unfold HotStuff.updateHighQC
  split_ifs with hHigher
  · refine ⟨⟨h.pruned, ?_, hView⟩, le_refl _, hHigher.le, le_refl _, le_refl _⟩
    exact h.locked.imp_left fun hLess => hLess.trans hHigher
  · exact ⟨h, Grows.refl hs⟩

/-- The lowest level after a certificate is what it was, or the level of the head that
the certificate commits. -/
theorem applyCertificate_lowestLevel {hs hs' : HotStuff} {qc : QC}
    (h : hs.applyCertificate qc = .ok hs') (hKeyed : hs.bc.forrest.WellKeyed)
    (hIndexed : hs.bc.forrest.Indexed) :
    hs'.bc.forrest.lowestLevel = hs.bc.forrest.lowestLevel ∨
      ∃ head parent, 3 ≤ qc.view ∧ hs.bc.getParentBlock qc.blockID = some parent ∧
        hs.bc.getBlockByID head.id = some head ∧ head.view + 1 = parent.view ∧
        hs'.bc.forrest.lowestLevel = levelOf head.view ∧
        hs.bc.forrest.lowestLevel ≤ levelOf head.view := by
  rcases applyCertificate_committing h with hSame | hCommit
  · exact Or.inl (congrArg LevelledForest.lowestLevel hSame.forrest)
  obtain ⟨head, view, result, hView, hRule, hCommit, _⟩ := hCommit
  obtain ⟨last, parent, hLast, hParent, hHead, hFirst, _⟩ := commitRule_eq_some hRule
  obtain ⟨own, _, hLink⟩ := BlockChain.getParentBlock_eq_some.mp hHead
  have hStored := BlockChain.getBlockByID_self hKeyed hLink
  rcases BlockChain.commitBlock_commits hIndexed hCommit with ⟨_, hForest⟩ | hSucceeds
  · exact Or.inl (congrArg LevelledForest.lowestLevel hForest)
  · obtain ⟨top, committed, forked, hTop, _, hCommits⟩ := hSucceeds
    cases hTop.symm.trans hStored
    obtain ⟨marked, hPrunes⟩ := hCommits.prunes
    exact Or.inr ⟨head, parent, hView, BlockChain.getParentBlock_eq_some.mpr ⟨last, hLast, hParent⟩,
      hStored, hFirst, hPrunes.lowestLevel, hPrunes.allowed⟩

/-- The parent of a certified block is in a positive view below the certificate's. -/
theorem certified_parent {hs : HotStuff} (hChain : HonestChain blocks)
    (hCovers : (chainOrigins blocks).Covers hs) {qc : QC} (hQC : (chainOrigins blocks).qc qc)
    {parent : Block} (hParent : hs.bc.getParentBlock qc.blockID = some parent) :
    0 < parent.view ∧ parent.view < qc.view := by
  obtain ⟨b, hb, hLink⟩ := BlockChain.getParentBlock_eq_some.mp hParent
  obtain ⟨hBlock, hId⟩ := hCovers.getBlockByID hb
  obtain ⟨hParentBlock, hParentId⟩ := hCovers.parent hLink
  refine ⟨hChain.view_pos hParentBlock, ?_⟩
  rw [← hQC b hBlock hId]
  exact hChain.parent_view_lt hBlock hParentBlock hParentId

/-- Locking on a genuine certificate and applying it keeps the order. -/
theorem Ordered.lock_and_apply {hs locked hs' : HotStuff} {qc : QC} (hChain : HonestChain blocks)
    (hCovers : (chainOrigins blocks).Covers hs) (hIndexed : hs.bc.forrest.Indexed)
    (hQC : (chainOrigins blocks).qc qc) (h : hs.Ordered) (hCurrent : hs.pm.curView ≤ qc.view)
    (hLock : hs.updatePreferredView qc = some locked)
    (hApply : locked.applyCertificate qc = .ok hs') : hs'.Ordered ∧ hs.Grows hs' := by
  have hCases := updatePreferredView_cases hLock
  obtain ⟨lock, rfl, hLe, hParents⟩ := updatePreferredView_eq_some hLock
  have hLowest := applyCertificate_lowestLevel hApply hCovers.keyed hIndexed
  obtain ⟨bc, committed, forked, rfl, _, _⟩ := applyCertificate_spec hApply
  have hNext := Pacemaker.advanceView_curView hCurrent
  have hCertified := h.certified
  -- the certificate becomes the highest one, or has the same view
  have hHigh : (if hs.highQC.view < qc.view then qc else hs.highQC).view = qc.view := by
    split_ifs with hHigher
    · rfl
    · lia
  have hLockCases : lock = hs.preferredView ∨ (0 < lock ∧ lock < qc.view) := by
    rcases hCases with ⟨hSame, _⟩ | ⟨parent, hParent, _, hMoved⟩
    · exact Or.inl (congrArg HotStuff.preferredView hSame)
    · have hEq : lock = parent.view := congrArg HotStuff.preferredView hMoved
      rw [hEq]
      exact Or.inr (certified_parent hChain hCovers hQC hParent)
  have hPruned : bc.forrest.lowestLevel < lock ∨ (bc.forrest.lowestLevel = 0 ∧ lock = 0) := by
    rcases hLowest with hSame | ⟨head, parent, hView, hParent, hStored, hFirst, hLevel, _⟩
    · change bc.forrest.lowestLevel = hs.bc.forrest.lowestLevel at hSame
      rw [hSame]
      have hOld := h.pruned
      lia
    · have hTop := hChain.level_eq (hCovers.getBlockByID hStored).1
      have hBelow := hParents (by lia) parent hParent
      change bc.forrest.lowestLevel = levelOf head.view at hLevel
      lia
  have hGrown : hs.bc.forrest.lowestLevel ≤ bc.forrest.lowestLevel := by
    rcases hLowest with hSame | ⟨head, parent, _, _, _, _, hLevel, hAllowed⟩
    · exact hSame.ge
    · exact hAllowed.trans hLevel.ge
  refine ⟨⟨hPruned, ?_, ?_⟩, ?_, ?_, hLe, hGrown⟩
  · change lock < (if hs.highQC.view < qc.view then qc else hs.highQC).view ∨ lock = 0
    have hOld := h.locked
    rw [hHigh]
    lia
  · change (if hs.highQC.view < qc.view then qc else hs.highQC).view ≤ _
    rw [hHigh, hNext]
    lia
  · change hs.pm.curView ≤ (hs.pm.advanceView qc.view).curView
    rw [hNext]
    lia
  · change hs.highQC.view ≤ (if hs.highQC.view < qc.view then qc else hs.highQC).view
    rw [hHigh]
    exact hCertified.trans hCurrent

theorem Ordered.processCertificate {cfg : Config} {hs hs' : HotStuff} {qc : QC}
    (hChain : HonestChain blocks) (hCovers : (chainOrigins blocks).Covers hs)
    (hIndexed : hs.bc.forrest.Indexed) (hQC : (chainOrigins blocks).qc qc) (hOrdered : hs.Ordered)
    (h : hs.processCertificate cfg qc = .ok hs') : hs'.Ordered ∧ hs.Grows hs' := by
  rcases processCertificate_cases h with
    ⟨_, rfl⟩ | ⟨hCurrent, _, ⟨_, rfl⟩ | ⟨_, rfl⟩ | ⟨locked, hLock, hApply⟩⟩
  · exact ⟨hOrdered, Grows.refl _⟩
  · exact hOrdered.advances rfl (hs.pm.advanceView_advances qc.view).view_le
  · exact ⟨⟨hOrdered.pruned, hOrdered.locked, hOrdered.certified⟩, le_refl _, le_refl _, le_refl _,
      le_refl _⟩
  · exact hOrdered.lock_and_apply hChain hCovers hIndexed hQC hCurrent hLock hApply

/-- The index of the forest is kept by every action. -/
theorem act_indexed {cfg : Config} {hs hs' : HotStuff} {a : Action}
    (hKeyed : hs.bc.forrest.WellKeyed) (hIndexed : hs.bc.forrest.Indexed)
    (h : hs.act cfg a = .ok hs') : hs'.bc.forrest.Indexed := by
  rcases act_chain hKeyed hIndexed h with
    hSame | ⟨container, _, rfl⟩ | ⟨_, _, _, _, _, _, _, hCommits, _⟩
  · rw [hSame.forrest]
    exact hIndexed
  · exact LevelledForest.addVertex_indexed hKeyed hIndexed container
  · obtain ⟨marked, hPrunes⟩ := hCommits.prunes
    exact hPrunes.indexed

theorem Ordered.act {cfg : Config} {hs hs' : HotStuff} {a : Action} (hChain : HonestChain blocks)
    (hIndexed : hs.bc.forrest.Indexed) (h : hs.Ordered)
    (hPermits : (chainOrigins blocks).Permits cfg hs a) (hAct : hs.act cfg a = .ok hs') :
    hs'.Ordered ∧ hs.Grows hs' := by
  obtain ⟨hCovers, hAction⟩ := hPermits
  cases a with
  | certificate source qc =>
      exact h.processCertificate hChain hCovers hIndexed hAction.1 hAct
  | raise block qc =>
      cases Outcome.pure_eq_ok.mp hAct
      obtain ⟨hBlock, hQC, hReached⟩ := hAction
      obtain ⟨own, hOwn, _, hBelow, _⟩ := hChain.feed block hBlock
      cases hQC.symm.trans hOwn
      refine h.updateHighQC ?_
      lia
  | store container =>
      cases Outcome.pure_eq_ok.mp hAct
      have hLowest := (LevelledForest.addVertex_spec hCovers.keyed container).2.1
      have hSame : (hs.bc.addBlock container).forrest.lowestLevel = hs.bc.forrest.lowestLevel :=
        hLowest
      refine ⟨⟨?_, h.locked, h.certified⟩, le_refl _, le_refl _, le_refl _, hSame.ge⟩
      dsimp only
      rw [hSame]
      exact h.pruned
  | advance view =>
      cases Outcome.pure_eq_ok.mp hAct
      exact h.advances rfl (hs.pm.advanceView_advances view).view_le
  | collect tmo =>
      cases Outcome.pure_eq_ok.mp hAct
      exact h.advances rfl (hs.pm.processRemoteTmo_advances tmo).1.view_le
  | _ =>
      cases Outcome.pure_eq_ok.mp hAct
      exact ⟨⟨h.pruned, h.locked, h.certified⟩, le_refl _, le_refl _, le_refl _, le_refl _⟩

/-- Along any number of actions the order stays and the numbers grow. -/
theorem Ordered.passes {cfg : Config} {hs hs' : HotStuff} {actions : List Action}
    (hChain : HonestChain blocks) (hIndexed : hs.bc.forrest.Indexed) (h : hs.Ordered)
    (hPasses : Passes (HotStuff.act cfg) ((chainOrigins blocks).Permits cfg) hs actions hs') :
    hs'.bc.forrest.Indexed ∧ hs'.Ordered ∧ hs.Grows hs' := by
  apply hPasses.invariant (P := fun hs' => hs'.bc.forrest.Indexed ∧ hs'.Ordered ∧ hs.Grows hs') _
    ⟨hIndexed, h, Grows.refl hs⟩
  rintro s a s' ⟨hIndexed, hOrdered, hGrows⟩ hPermits hAct
  obtain ⟨hNext, hStep⟩ := hOrdered.act hChain hIndexed hPermits hAct
  exact ⟨act_indexed hPermits.1.keyed hIndexed hAct, hNext, hGrows.trans hStep⟩

/-- In every run with honest blocks and genuine certificates, votes and timeouts, in any
order and with any loss, the four numbers are ordered, and none of them is lower at
a later point of the run. -/
theorem safety_state_ordered (cfg : Config) (id : NodeID) (isByz : Bool) (n : Nat)
    (blocks : List Block) (events later : List Event) (hs hs' : HotStuff)
    (hChain : HonestChain blocks)
    (hGenuine : ∀ e ∈ events ++ later, (chainOrigins blocks).event e)
    (hRange : ∀ e ∈ events ++ later, e.InRange)
    (hRun : run (step cfg) (HotStuff.new id isByz n) events = .ok hs)
    (hLater : run (step cfg) hs later = .ok hs') :
    hs'.Ordered ∧ hs.Grows hs' ∧ hs'.pm.curView < maxInt64 := by
  have hWhole : run (step cfg) (HotStuff.new id isByz n) (events ++ later) = .ok hs' := by
    rw [run_append, hRun]
    exact hLater
  have hSources := chainOrigins_inclusive hChain n
  obtain ⟨hFirst, hCovers, hTotal⟩ := Origins.run_passes_from hSources
    (fun e he => hGenuine e (List.mem_append_left _ he))
    (Origins.new_covers id isByz n hSources.initial) rfl hRun
  obtain ⟨hSecond, _⟩ := Origins.run_passes_from hSources
    (fun e he => hGenuine e (List.mem_append_right _ he)) hCovers hTotal hLater
  obtain ⟨hIndexed, hOrdered, _⟩ :=
    (new_ordered id isByz n).passes hChain LevelledForest.new_indexed hFirst
  obtain ⟨hOrdered', hGrows⟩ := (hOrdered.passes hChain hIndexed hSecond).2
  exact ⟨hOrdered', hGrows, run_curView hRange hWhole⟩

instance (blocks : List Block) (e : Event) : Decidable ((chainOrigins blocks).event e) := by
  cases e with
  | block block => exact inferInstanceAs (Decidable (block ∈ blocks))
  | vote vote => exact inferInstanceAs (Decidable (∀ b ∈ blocks, _))
  | tmo tmo => exact inferInstanceAs (Decidable (∀ qc ∈ tmo.highQC, ∀ b ∈ blocks, _))
  | localTmo view => exact inferInstanceAs (Decidable True)
  | kickOff => exact inferInstanceAs (Decidable True)

theorem safety_state_ordered_timeout :
    ∃ hs hs', run (step (Scenario.config fun _ => "1")) (HotStuff.new "2" false 4)
        (Scenario.orphanEvents.take 5) = .ok hs ∧
      run (step (Scenario.config fun _ => "1")) hs (Scenario.orphanEvents.drop 5) = .ok hs' ∧
      (hs'.pm.curView, hs'.highQC.view, hs'.preferredView, hs'.bc.forrest.lowestLevel) =
        (7, 6, 5, 4) ∧
      hs'.Ordered ∧ hs.Grows hs' ∧ hs'.pm.curView < maxInt64 := by
  obtain ⟨hs', hRun, hNumbers⟩ := Outcome.of_test
    (x := run (step (Scenario.config fun _ => "1")) (HotStuff.new "2" false 4)
      (Scenario.orphanEvents.take 5 ++ Scenario.orphanEvents.drop 5))
    (P := fun hs' =>
      (hs'.pm.curView, hs'.highQC.view, hs'.preferredView, hs'.bc.forrest.lowestLevel) =
        (7, 6, 5, 4)) (by decide)
  rw [run_append] at hRun
  obtain ⟨hs, hFirst, hLater⟩ := Outcome.bind_eq_ok.mp hRun
  refine ⟨hs, hs', hFirst, hLater, hNumbers, ?_⟩
  exact safety_state_ordered _ _ _ _ Scenario.orphanBlocks _ _ hs hs' (by decide) (by decide)
    (by decide) hFirst hLater

end HotStuff
end Bamboo
