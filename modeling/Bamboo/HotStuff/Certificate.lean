import Bamboo.HotStuff.Model

/-! How processing a certificate or a vote can end. The case lemmas
`processCertificate_cases` and `processVote_cases` list every outcome with the
conditions under which it is reached; later modules use them and not the code. -/
namespace Bamboo

open Library LockedVoting

def Snapshot.stamp (s : Snapshot) : Stamp := { view := s.curView, lock := s.preferredView }

/-- The signature check of a certificate succeeds at the replica `id`. -/
def Config.Accepts (cfg : Config) (id : NodeID) (qc : QC) : Prop :=
  qc.leader = id ∨ cfg.keys.verifyQuorumSignature qc.blockID qc.aggSig qc.signers = .ok true

namespace HotStuff

def stamp (hs : HotStuff) : Stamp := hs.snapshot.stamp

theorem updateHighQC_eq (hs : HotStuff) (qc : QC) :
    hs.updateHighQC qc =
      { hs with highQC := if hs.highQC.view < qc.view then qc else hs.highQC } := by
  unfold updateHighQC
  split_ifs <;> rfl

/-- The lock stays, or it moves up to the parent of the certified block. -/
theorem updatePreferredView_cases {hs locked : HotStuff} {qc : QC}
    (h : hs.updatePreferredView qc = some locked) :
    (locked = hs ∧ (2 < qc.view → ∀ parent, hs.bc.getParentBlock qc.blockID = some parent →
      parent.view ≤ hs.preferredView)) ∨
      ∃ parent, hs.bc.getParentBlock qc.blockID = some parent ∧
        hs.preferredView < parent.view ∧ locked = { hs with preferredView := parent.view } := by
  unfold updatePreferredView at h
  split_ifs at h with hExempt
  · cases h
    exact Or.inl ⟨rfl, fun hView => absurd hView (not_lt.mpr hExempt)⟩
  · split at h
    · next _ grandParent _ hParent =>
        cases h
        split_ifs with hHigher
        · exact Or.inr ⟨grandParent, hParent, hHigher, rfl⟩
        · refine Or.inl ⟨rfl, fun _ parent hFound => ?_⟩
          cases hParent.symm.trans hFound
          exact not_lt.mp hHigher
    · cases h

/-- The lock after a successful update, and what it is for. -/
theorem updatePreferredView_eq_some {hs locked : HotStuff} {qc : QC}
    (h : hs.updatePreferredView qc = some locked) :
    ∃ lock, locked = { hs with preferredView := lock } ∧ hs.preferredView ≤ lock ∧
      (2 < qc.view → ∀ parent, hs.bc.getParentBlock qc.blockID = some parent →
        parent.view ≤ lock) := by
  rcases updatePreferredView_cases h with ⟨rfl, hLow⟩ | ⟨parent, hParent, hHigher, rfl⟩
  · exact ⟨_, rfl, le_refl _, hLow⟩
  · refine ⟨parent.view, rfl, hHigher.le, fun _ found hFound => ?_⟩
    cases hParent.symm.trans hFound
    exact le_refl _

/-- Past the lock there is nothing to fail when both blocks are stored. -/
theorem updatePreferredView_isSome {hs : HotStuff} {qc : QC} {parent : Block}
    (h : hs.bc.getParentBlock qc.blockID = some parent) :
    ∃ locked, hs.updatePreferredView qc = some locked := by
  obtain ⟨block, hBlock, _⟩ := BlockChain.getParentBlock_eq_some.mp h
  unfold updatePreferredView
  rw [hBlock, h]
  split_ifs <;> exact ⟨_, rfl⟩

theorem commit_spec {hs hs' : HotStuff} {block : Block} (h : hs.commit block = .ok hs') :
    ∃ bc committed forked, hs' = { hs with
        bc
        committedBlocks := hs.committedBlocks ++ committed
        forkedBlocks := hs.forkedBlocks ++ forked } ∧
      hs.bc.Reduces bc ∧ ∀ b ∈ committed, ∃ head, hs.bc.getBlockByID block.id = some head ∧
        Relation.ReflTransGen hs.bc.Parent head b := by
  obtain ⟨⟨bc, result⟩, hCommit, hDone⟩ := Outcome.bind_eq_ok.mp h
  obtain ⟨hReduces, hBlocks⟩ := BlockChain.commitBlock_spec hCommit
  cases result with
  | none =>
      cases Outcome.pure_eq_ok.mp hDone
      exact ⟨bc, [], [], by simp, hReduces, by simp⟩
  | some lists =>
      obtain ⟨committed, forked⟩ := lists
      cases Outcome.pure_eq_ok.mp hDone
      refine ⟨bc, committed, forked, rfl, hReduces, fun b hb => ?_⟩
      obtain ⟨head, hHead, hReach⟩ := hBlocks committed forked rfl
      exact ⟨head, hHead, hReach b hb⟩

/-- `b` is committed by the certificate `qc` in a chain: it is reached from the
head of the three-chain that ends in the certified block. -/
def CommittedBy (bc : BlockChain) (qc : QC) (b : Block) : Prop :=
  ∃ last parent head, bc.getBlockByID qc.blockID = some last ∧ bc.Parent last parent ∧
    bc.getParentBlock parent.id = some head ∧ head.view + 1 = parent.view ∧
    parent.view + 1 = qc.view ∧ 3 ≤ qc.view ∧ ∃ top, bc.getBlockByID head.id = some top ∧
      Relation.ReflTransGen bc.Parent top b

theorem commitRule_eq_some {hs : HotStuff} {qc : QC} {head : Block}
    (h : hs.commitRule qc = some head) :
    ∃ last parent, hs.bc.getBlockByID qc.blockID = some last ∧ hs.bc.Parent last parent ∧
      hs.bc.getParentBlock parent.id = some head ∧ head.view + 1 = parent.view ∧
      parent.view + 1 = qc.view := by
  unfold commitRule at h
  split at h
  · cases h
  · next parent hParent =>
      split at h
      · cases h
      · next grandParent hGrandParent =>
          split_ifs at h with hViews
          cases h
          obtain ⟨last, hLast, hLink⟩ := BlockChain.getParentBlock_eq_some.mp hParent
          exact ⟨last, parent, hLast, hLink, hGrandParent, hViews⟩

theorem applyCertificate_spec {hs hs' : HotStuff} {qc : QC}
    (h : hs.applyCertificate qc = .ok hs') :
    ∃ bc committed forked, hs' = { hs with
        pm := hs.pm.advanceView qc.view
        highQC := if hs.highQC.view < qc.view then qc else hs.highQC
        bc
        committedBlocks := hs.committedBlocks ++ committed
        forkedBlocks := hs.forkedBlocks ++ forked } ∧
      hs.bc.Reduces bc ∧ ∀ b ∈ committed, CommittedBy hs.bc qc b := by
  have hAdvanced : (hs.advanceView qc.view).updateHighQC qc = { hs with
      pm := hs.pm.advanceView qc.view
      highQC := if hs.highQC.view < qc.view then qc else hs.highQC } := updateHighQC_eq _ _
  unfold applyCertificate at h
  rw [hAdvanced] at h
  dsimp only at h
  by_cases hView : qc.view < 3
  · rw [if_pos hView] at h
    cases Outcome.pure_eq_ok.mp h
    exact ⟨hs.bc, [], [], by rw [List.append_nil, List.append_nil], BlockChain.Reduces.refl _, by simp⟩
  · rw [if_neg hView] at h
    split at h
    · cases Outcome.pure_eq_ok.mp h
      exact ⟨hs.bc, [], [], by rw [List.append_nil, List.append_nil], BlockChain.Reduces.refl _, by simp⟩
    · next head hRule =>
        obtain ⟨last, parent, hLast, hParent, hHead, hFirst, hSecond⟩ := commitRule_eq_some hRule
        obtain ⟨bc, committed, forked, rfl, hReduces, hBlocks⟩ := commit_spec h
        refine ⟨bc, committed, forked, rfl, hReduces, fun b hb => ?_⟩
        exact ⟨last, parent, head, hLast, hParent, hHead, hFirst, hSecond, not_lt.mp hView,
          hBlocks b hb⟩

/-- The ways in which `processCertificate` can end. -/
theorem processCertificate_cases {cfg : Config} {hs hs' : HotStuff} {qc : QC}
    (h : hs.processCertificate cfg qc = .ok hs') :
    ((qc.view < hs.pm.curView ∨ hs.certificateVerified cfg qc = .ok false) ∧ hs' = hs) ∨
    (hs.pm.curView ≤ qc.view ∧ hs.certificateVerified cfg qc = .ok true ∧
      ((hs.isByz = true ∧ hs' = hs.advanceView qc.view) ∨
        (hs.updatePreferredView qc = none ∧ hs' = hs.bufferQC qc) ∨
        ∃ locked, hs.updatePreferredView qc = some locked ∧
          locked.applyCertificate qc = .ok hs')) := by
  unfold processCertificate at h
  by_cases hStale : qc.view < hs.pm.curView
  · rw [if_pos hStale] at h
    cases Outcome.pure_eq_ok.mp h
    exact Or.inl ⟨Or.inl hStale, rfl⟩
  · rw [if_neg hStale] at h
    obtain ⟨verified, hVerified, hRest⟩ := Outcome.bind_eq_ok.mp h
    cases verified with
    | false =>
        cases Outcome.pure_eq_ok.mp hRest
        exact Or.inl ⟨Or.inr hVerified, rfl⟩
    | true =>
        refine Or.inr ⟨not_lt.mp hStale, hVerified, ?_⟩
        rw [if_neg (by simp)] at hRest
        split_ifs at hRest with hFork
        · cases Outcome.pure_eq_ok.mp hRest
          exact Or.inl ⟨hFork.1, rfl⟩
        · split at hRest
          · next hNone =>
              cases Outcome.pure_eq_ok.mp hRest
              exact Or.inr (Or.inl ⟨hNone, rfl⟩)
          · next locked hLocked => exact Or.inr (Or.inr ⟨locked, hLocked, hRest⟩)

theorem certificateVerified_iff {cfg : Config} {hs : HotStuff} {qc : QC} :
    hs.certificateVerified cfg qc = .ok true ↔ cfg.Accepts hs.id qc := by
  unfold certificateVerified Config.Accepts
  split_ifs with hLeader
  · exact iff_of_true rfl (Or.inl hLeader)
  · exact (or_iff_right hLeader).symm

/-- What an honest replica does with a current certificate that it accepts. -/
theorem processCertificate_accepted {cfg : Config} {hs hs' : HotStuff} {qc : QC}
    (hHonest : hs.isByz = false) (hCurrent : hs.pm.curView ≤ qc.view)
    (hAccepts : cfg.Accepts hs.id qc) (h : hs.processCertificate cfg qc = .ok hs') :
    (hs.updatePreferredView qc = none ∧ hs' = hs.bufferQC qc) ∨
      ∃ locked, hs.updatePreferredView qc = some locked ∧
        locked.applyCertificate qc = .ok hs' := by
  have hVerified := certificateVerified_iff.mpr hAccepts
  rcases processCertificate_cases h with ⟨hStale | hRejected, _⟩ | ⟨_, _, ⟨hByz, _⟩ | hRest⟩
  · exact absurd hStale (not_lt.mpr hCurrent)
  · rw [hVerified] at hRejected
    cases hRejected
  · rw [hHonest] at hByz
    cases hByz
  · exact hRest

/-- A certificate that is not skipped raises the lock to its block's parent. -/
theorem processCertificate_locks {cfg : Config} {hs hs' : HotStuff} {qc : QC} {parent : Block}
    (hHonest : hs.isByz = false) (h : hs.processCertificate cfg qc = .ok hs')
    (hCurrent : hs.pm.curView ≤ qc.view) (hAccepts : cfg.Accepts hs.id qc) (hView : 2 < qc.view)
    (hParent : hs.bc.getParentBlock qc.blockID = some parent) :
    parent.view ≤ hs'.preferredView := by
  rcases processCertificate_accepted hHonest hCurrent hAccepts h with
    ⟨hNone, _⟩ | ⟨locked, hLocked, hApply⟩
  · obtain ⟨locked, hSome⟩ := updatePreferredView_isSome hParent
    rw [hSome] at hNone
    cases hNone
  · obtain ⟨lock, rfl, _, hLock⟩ := updatePreferredView_eq_some hLocked
    obtain ⟨bc, committed, forked, rfl, _⟩ := applyCertificate_spec hApply
    exact hLock hView parent hParent

/-- The ways in which `ProcessVote` can end. -/
theorem processVote_cases {cfg : Config} {hs hs' : HotStuff} {vote : Vote}
    (h : hs.processVote cfg vote = .ok hs') :
    (hs.voteVerified cfg vote = .ok false ∧ hs' = hs) ∨
    (hs.voteVerified cfg vote = .ok true ∧
      (((hs.bc.quorum.add vote).2 = none ∧ hs' = { hs with bc := (hs.bc.addVote vote).1 }) ∨
        ∃ qc, (hs.bc.quorum.add vote).2 = some qc ∧
          (hs' = bufferQC { hs with bc := (hs.bc.addVote vote).1 } { qc with leader := hs.id } ∨
            processCertificate cfg { hs with bc := (hs.bc.addVote vote).1 }
              { qc with leader := hs.id } = .ok hs'))) := by
  obtain ⟨verified, hVerified, hRest⟩ := Outcome.bind_eq_ok.mp h
  cases verified with
  | false =>
      cases Outcome.pure_eq_ok.mp hRest
      exact Or.inl ⟨hVerified, rfl⟩
  | true =>
      refine Or.inr ⟨hVerified, ?_⟩
      rw [if_neg (by simp)] at hRest
      dsimp only at hRest
      split at hRest
      · next hNone =>
          cases Outcome.pure_eq_ok.mp hRest
          exact Or.inl ⟨hNone, rfl⟩
      · next qc hBuilt =>
          refine Or.inr ⟨qc, hBuilt, ?_⟩
          split at hRest
          · cases Outcome.pure_eq_ok.mp hRest
            exact Or.inl rfl
          · exact Or.inr hRest

end HotStuff
end Bamboo
