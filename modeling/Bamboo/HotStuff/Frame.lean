import Bamboo.HotStuff.Certificate

/-! What the handlers below `ProcessBlock` leave alone, and where a replica's
data comes from. `Quiet` is the frame of certificates and votes: no vote is cast,
nothing is sent, and the lock moves only together with the view. `Origins` gives
a source for certificates, votes and blocks, and `Covers` says that all data of a
replica has such a source. -/
namespace Bamboo

open Library LockedVoting

namespace HotStuff

/-- No vote is cast and no message is sent between the two states. -/
structure Steady (hs hs' : HotStuff) : Prop where
  frame : hs' = { hs with
    pm := hs'.pm
    preferredView := hs'.preferredView
    highQC := hs'.highQC
    bc := hs'.bc
    committedBlocks := hs'.committedBlocks
    forkedBlocks := hs'.forkedBlocks
    bufferedQCs := hs'.bufferedQCs
    bufferedBlocks := hs'.bufferedBlocks }
  pm : hs.pm.Advances hs'.pm
  stamp : hs.stamp.Precedes hs'.stamp
  keyed : hs.bc.forrest.WellKeyed → hs'.bc.forrest.WellKeyed
  total : hs'.bc.quorum.total = hs.bc.quorum.total

/-- Moreover no block is received: none is stored and none is buffered. -/
structure Quiet (hs hs' : HotStuff) : Prop extends Steady hs hs' where
  within : hs'.bc.forrest.Within hs.bc.forrest
  bufferedBlocks_eq : hs'.bufferedBlocks = hs.bufferedBlocks

namespace Steady

variable {hs hs' hs'' : HotStuff}

theorem id_eq (h : hs.Steady hs') : hs'.id = hs.id := by
  rw [h.frame]

theorem isByz_eq (h : hs.Steady hs') : hs'.isByz = hs.isByz := by
  rw [h.frame]

theorem lastVotedView_eq (h : hs.Steady hs') : hs'.lastVotedView = hs.lastVotedView := by
  rw [h.frame]

theorem outbox_eq (h : hs.Steady hs') : hs'.outbox = hs.outbox := by
  rw [h.frame]

theorem calls_eq (h : hs.Steady hs') : hs'.calls = hs.calls := by
  rw [h.frame]

theorem voteLog_eq (h : hs.Steady hs') : hs'.voteLog = hs.voteLog := by
  rw [h.frame]

theorem refl (hs : HotStuff) : hs.Steady hs :=
  ⟨rfl, .refl _, .refl _, fun h => h, rfl⟩

theorem trans (first : hs.Steady hs') (second : hs'.Steady hs'') : hs.Steady hs'' where
  frame := by
    conv_lhs => rw [second.frame, first.frame]
  pm := first.pm.trans second.pm
  stamp := first.stamp.trans second.stamp
  keyed h := second.keyed (first.keyed h)
  total := second.total.trans first.total

end Steady

theorem Quiet.refl (hs : HotStuff) : hs.Quiet hs :=
  ⟨Steady.refl hs, .refl _, rfl⟩

theorem Quiet.trans {hs hs' hs'' : HotStuff} (first : hs.Quiet hs') (second : hs'.Quiet hs'') :
    hs.Quiet hs'' :=
  ⟨first.toSteady.trans second.toSteady, second.within.trans first.within,
    second.bufferedBlocks_eq.trans first.bufferedBlocks_eq⟩

theorem advanceView_quiet (hs : HotStuff) (view : View) : hs.Quiet (hs.advanceView view) where
  frame := rfl
  pm := hs.pm.advanceView_advances view
  stamp := ⟨(hs.pm.advanceView_advances view).view_le, le_refl _, fun _ => rfl⟩
  keyed h := h
  total := rfl
  within := .refl _
  bufferedBlocks_eq := rfl

theorem updateHighQC_quiet (hs : HotStuff) (qc : QC) : hs.Quiet (hs.updateHighQC qc) := by
  rw [updateHighQC_eq]
  exact ⟨⟨rfl, .refl _, .refl _, fun h => h, rfl⟩, .refl _, rfl⟩

theorem bufferQC_quiet (hs : HotStuff) (qc : QC) : hs.Quiet (hs.bufferQC qc) :=
  ⟨⟨rfl, .refl _, .refl _, fun h => h, rfl⟩, .refl _, rfl⟩

/-- The lock and the view move together: a certificate is applied only when its
view is at least the current one, and then the next view is entered. -/
theorem lock_and_apply_quiet {hs locked hs' : HotStuff} {qc : QC} (hView : hs.pm.curView ≤ qc.view)
    (hLock : hs.updatePreferredView qc = some locked)
    (hApply : locked.applyCertificate qc = .ok hs') : hs.Quiet hs' := by
  obtain ⟨lock, rfl, hLe, _⟩ := updatePreferredView_eq_some hLock
  obtain ⟨bc, committed, forked, rfl, hReduces, _⟩ := applyCertificate_spec hApply
  have hAbove : hs.pm.curView < (hs.pm.advanceView qc.view).curView := by
    rw [Pacemaker.advanceView_curView hView]
    lia
  exact {
    frame := rfl
    pm := hs.pm.advanceView_advances qc.view
    stamp := ⟨hAbove.le, hLe, fun hSame => absurd hSame hAbove.ne⟩
    keyed := hReduces.keyed
    total := hReduces.total
    within := hReduces.within
    bufferedBlocks_eq := rfl }

theorem processCertificate_quiet {cfg : Config} {hs hs' : HotStuff} {qc : QC}
    (h : hs.processCertificate cfg qc = .ok hs') : hs.Quiet hs' := by
  rcases processCertificate_cases h with ⟨_, rfl⟩ | ⟨hView, _, ⟨_, rfl⟩ | ⟨_, rfl⟩ | hApplied⟩
  · exact Quiet.refl _
  · exact advanceView_quiet hs qc.view
  · exact bufferQC_quiet hs qc
  · obtain ⟨locked, hLock, hApply⟩ := hApplied
    exact lock_and_apply_quiet hView hLock hApply

theorem addVote_quiet (hs : HotStuff) (vote : Vote) :
    hs.Quiet { hs with bc := (hs.bc.addVote vote).1 } :=
  ⟨⟨rfl, .refl _, .refl _, fun h => h, hs.bc.quorum.add_total vote⟩, .refl _, rfl⟩

theorem processVote_quiet {cfg : Config} {hs hs' : HotStuff} {vote : Vote}
    (h : hs.processVote cfg vote = .ok hs') : hs.Quiet hs' := by
  rcases processVote_cases h with ⟨_, rfl⟩ | ⟨_, ⟨_, rfl⟩ | ⟨qc, _, rfl | hCertificate⟩⟩
  · exact Quiet.refl _
  · exact addVote_quiet hs vote
  · exact (addVote_quiet hs vote).trans (bufferQC_quiet _ _)
  · exact (addVote_quiet hs vote).trans (processCertificate_quiet hCertificate)

theorem processTC_quiet (hs : HotStuff) (tc : TC) : hs.Quiet (hs.processTC tc) := by
  unfold processTC
  split_ifs
  · exact Quiet.refl hs
  · exact advanceView_quiet hs tc.view

/-- Collecting a timeout touches nothing but the timeouts. -/
theorem collect_quiet (hs : HotStuff) (tmo : TMO) :
    hs.Quiet { hs with pm := (hs.pm.processRemoteTmo tmo).1 } := by
  obtain ⟨hAdvances, hSame⟩ := hs.pm.processRemoteTmo_advances tmo
  exact ⟨⟨rfl, hAdvances, ⟨hSame.ge, le_refl _, fun _ => rfl⟩, fun h => h, rfl⟩, .refl _, rfl⟩

/-- A timeout processes its certificate and then moves the pacemaker only. -/
theorem processRemoteTmo_spec {cfg : Config} {hs hs' : HotStuff} {tmo : TMO}
    (h : hs.processRemoteTmo cfg tmo = .ok hs') :
    ∃ qc middle, tmo.highQC = some qc ∧ hs.processCertificate cfg qc = .ok middle ∧
      middle.Quiet hs' ∧ hs' = { middle with pm := hs'.pm } := by
  unfold processRemoteTmo at h
  cases hQC : tmo.highQC with
  | none =>
      rw [hQC] at h
      cases h
  | some qc =>
      rw [hQC] at h
      obtain ⟨middle, hCertificate, hRest⟩ := Outcome.bind_eq_ok.mp h
      refine ⟨qc, middle, rfl, hCertificate, ?_⟩
      have hStored := collect_quiet middle tmo
      dsimp only at hRest
      split at hRest
      · cases Outcome.pure_eq_ok.mp hRest
        exact ⟨hStored, rfl⟩
      · next tc _ =>
          cases Outcome.pure_eq_ok.mp hRest
          refine ⟨hStored.trans (processTC_quiet _ tc), ?_⟩
          unfold processTC
          split_ifs <;> rfl

theorem processRemoteTmo_quiet {cfg : Config} {hs hs' : HotStuff} {tmo : TMO}
    (h : hs.processRemoteTmo cfg tmo = .ok hs') : hs.Quiet hs' := by
  obtain ⟨qc, middle, _, hCertificate, hQuiet, _⟩ := processRemoteTmo_spec h
  exact (processCertificate_quiet hCertificate).trans hQuiet

theorem kickOff_quiet (cfg : Config) (hs : HotStuff) : hs.Quiet (hs.kickOff cfg) := by
  unfold kickOff
  split_ifs
  · exact advanceView_quiet hs 0
  · exact Quiet.refl hs

end HotStuff
end Bamboo
