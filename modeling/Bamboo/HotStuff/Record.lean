import Bamboo.HotStuff.Voting

/-! The votes of a whole run. `Progress` is what every handler does to the
history of a replica, `Recorded` is the invariant that every vote is sound and
that votes follow one another in time. The last part is about the views of the
votes: `lastVotedView` is never written, so nothing but the calls themselves can
keep the views of the votes increasing. -/
namespace Bamboo

open Library LockedVoting

namespace HotStuff

theorem addBlock_steady (hs : HotStuff) (container : BlockContainer) :
    hs.Steady { hs with bc := hs.bc.addBlock container } :=
  ⟨rfl, .refl _, .refl _, fun h => (LevelledForest.addVertex_spec h container).1, rfl⟩

theorem storeBlock_steady {cfg : Config} {hs hs' : HotStuff} {container : BlockContainer}
    (h : hs.storeBlock cfg container = .ok hs') : hs.Steady hs' :=
  (addBlock_steady hs container).trans (storeBlock_quiet h).toSteady

theorem takeUp_steady {cfg : Config} {hs hs' : HotStuff} {block : Block} {verdict : Verdict}
    (h : hs.takeUp cfg block = .ok (hs', verdict)) : hs.Steady hs' := by
  rcases takeUp_cases h with ⟨_, _, rfl⟩ | ⟨_, _, _, rfl⟩ | ⟨qc, hQC, _, admitted, hAdmitted, hEnd⟩
  · exact ⟨rfl, .refl _, .refl _, fun h => h, rfl⟩
  · exact Steady.refl _
  · have hFirst := (processBlockQC_quiet hAdmitted).toSteady
    rcases hEnd with ⟨_, rfl⟩ | ⟨_, _, hStored, _⟩
    · exact hFirst
    · exact hFirst.trans (storeBlock_steady hStored)

/-- No proposal is among the messages sent between two states. -/
def SendsNoProposal (hs hs' : HotStuff) : Prop :=
  ∃ sent, hs'.outbox = hs.outbox ++ sent ∧ ∀ p, Message.proposal p ∉ sent

theorem SendsNoProposal.of_eq {hs hs' : HotStuff} (h : hs'.outbox = hs.outbox) :
    hs.SendsNoProposal hs' :=
  ⟨[], by rw [h, List.append_nil], by simp⟩

/-- What every handler does to the identity, the view and the history. -/
structure Progress (hs hs' : HotStuff) : Prop where
  id_eq : hs'.id = hs.id
  isByz_eq : hs'.isByz = hs.isByz
  lastVotedView_eq : hs'.lastVotedView = hs.lastVotedView
  total_eq : hs'.bc.quorum.total = hs.bc.quorum.total
  pm : hs.pm.Advances hs'.pm
  stamp : hs.stamp.Precedes hs'.stamp
  calls : hs.calls <+: hs'.calls
  voteLog : hs.voteLog <+: hs'.voteLog
  outbox : hs.SendsNoProposal hs'

theorem Progress.trans {hs hs' hs'' : HotStuff} (first : hs.Progress hs')
    (second : hs'.Progress hs'') : hs.Progress hs'' where
  id_eq := second.id_eq.trans first.id_eq
  isByz_eq := second.isByz_eq.trans first.isByz_eq
  lastVotedView_eq := second.lastVotedView_eq.trans first.lastVotedView_eq
  total_eq := second.total_eq.trans first.total_eq
  pm := first.pm.trans second.pm
  stamp := first.stamp.trans second.stamp
  calls := first.calls.trans second.calls
  voteLog := first.voteLog.trans second.voteLog
  outbox := by
    obtain ⟨sent, hSent, hNone⟩ := first.outbox
    obtain ⟨sent', hSent', hNone'⟩ := second.outbox
    refine ⟨sent ++ sent', by rw [hSent', hSent, List.append_assoc], fun p hp => ?_⟩
    rcases List.mem_append.mp hp with hp | hp
    · exact hNone p hp
    · exact hNone' p hp

theorem Steady.progress {hs hs' : HotStuff} (h : hs.Steady hs') : hs.Progress hs' where
  id_eq := h.id_eq
  isByz_eq := h.isByz_eq
  lastVotedView_eq := h.lastVotedView_eq
  total_eq := h.total
  pm := h.pm
  stamp := h.stamp
  calls := h.calls_eq ▸ List.prefix_rfl
  voteLog := h.voteLog_eq ▸ List.prefix_rfl
  outbox := .of_eq h.outbox_eq

theorem logCall_progress (hs : HotStuff) (block : Block) : hs.Progress (hs.logCall block) :=
  ⟨rfl, rfl, rfl, rfl, .refl _, .refl _, List.prefix_append _ _, List.prefix_rfl, .of_eq rfl⟩

theorem send_progress (hs : HotStuff) {message : Message} (h : ∀ p, message ≠ .proposal p) :
    hs.Progress (hs.send message) := by
  refine ⟨rfl, rfl, rfl, rfl, .refl _, .refl _, List.prefix_rfl, List.prefix_rfl,
    [message], rfl, fun p hp => ?_⟩
  exact h p (List.mem_singleton.mp hp).symm

theorem castVote_progress {cfg : Config} {hs hs' : HotStuff} {record : VoteRecord}
    (h : hs.castVote cfg record = .ok hs') :
    Progress { hs with voteLog := hs.voteLog ++ [record] } hs' := by
  obtain ⟨vote, _, hVote | ⟨recipient, rfl⟩⟩ := castVote_spec h
  · exact (processVote_quiet hVote).toSteady.progress
  · exact send_progress _ (by simp)

/-- A vote is on record when it has been cast. -/
theorem castVote_recorded {cfg : Config} {hs hs' : HotStuff} {record : VoteRecord}
    (h : hs.castVote cfg record = .ok hs') : record ∈ hs'.voteLog :=
  (castVote_progress h).voteLog.subset (List.mem_append_right _ (List.mem_singleton.mpr rfl))

theorem Turn.progress {cfg : Config} {hs hs' : HotStuff} {block : Block}
    (h : Turn cfg hs block hs') : hs.Progress hs' := by
  cases h with
  | returned hTaken => exact (logCall_progress hs block).trans (takeUp_steady hTaken).progress
  | voted hTaken hCast =>
      rename_i taken accept
      have hVoted : taken.Progress { taken with voteLog := taken.voteLog ++
          [{ block, entry := hs.snapshot, accept, cast := taken.snapshot }] } :=
        ⟨rfl, rfl, rfl, rfl, .refl _, .refl _, List.prefix_rfl, List.prefix_append _ _, .of_eq rfl⟩
      exact ((logCall_progress hs block).trans (takeUp_steady hTaken).progress).trans
        (hVoted.trans (castVote_progress hCast))

theorem Turns.progress {cfg : Config} {hs hs' : HotStuff} {block : Block}
    (h : Turns cfg hs block hs') : hs.Progress hs' := by
  induction h with
  | last hTurn => exact hTurn.progress
  | nested hTurn _ _ ih =>
      have hPast := hTurn.progress.trans ih
      exact { hPast with }

theorem processLocalTmo_progress {cfg : Config} {hs hs' : HotStuff} {view : View}
    (h : hs.processLocalTmo cfg view = .ok hs') : hs.Progress hs' := by
  unfold processLocalTmo at h
  exact ((advanceView_quiet hs view).toSteady.progress.trans (send_progress _ (by simp))).trans
    (processRemoteTmo_quiet h).toSteady.progress

theorem step_progress {cfg : Config} {hs hs' : HotStuff} {event : Event}
    (h : hs.step cfg event = .ok hs') : hs.Progress hs' := by
  cases event with
  | block block =>
      obtain ⟨⟨_, _⟩, hBlock, hDone⟩ := Outcome.bind_eq_ok.mp h
      cases Outcome.pure_eq_ok.mp hDone
      exact (processBlock_turns hBlock).progress
  | vote vote => exact (processVote_quiet h).toSteady.progress
  | tmo tmo => exact (processRemoteTmo_quiet h).toSteady.progress
  | localTmo view => exact processLocalTmo_progress h
  | kickOff =>
      cases Outcome.pure_eq_ok.mp h
      exact (kickOff_quiet cfg hs).toSteady.progress

/-- Every vote so far is sound, was made in a recorded call, and came after the
votes before it. -/
structure Recorded (cfg : Config) (hs : HotStuff) : Prop where
  honest : hs.isByz = false
  keyed : hs.bc.forrest.WellKeyed
  sound : ∀ r ∈ hs.voteLog, r.Sound cfg hs.id
  called : ∀ before r after, hs.voteLog = before ++ r :: after → ∃ call ∈ hs.calls,
    call.block = r.block ∧ call.entry = r.entry ∧
      call.votedViews = before.map fun r => r.block.view
  ordered : hs.voteLog.Pairwise fun first second => first.cast.stamp.Precedes second.entry.stamp
  current : ∀ r ∈ hs.voteLog, r.cast.stamp.Precedes hs.stamp

theorem new_recorded (cfg : Config) (id : NodeID) (n : Nat) :
    (new id false n).Recorded cfg where
  honest := rfl
  keyed := LevelledForest.new_wellKeyed
  sound r hr := by cases hr
  called before r after h := by simp [new] at h
  ordered := List.Pairwise.nil
  current r hr := by cases hr

/-- A call without a vote keeps the records. -/
theorem Recorded.of_progress {cfg : Config} {hs hs' : HotStuff} (h : hs.Recorded cfg)
    (hProgress : hs.Progress hs') (hLog : hs'.voteLog = hs.voteLog)
    (hKeyed : hs.bc.forrest.WellKeyed → hs'.bc.forrest.WellKeyed) : hs'.Recorded cfg where
  honest := hProgress.isByz_eq.trans h.honest
  keyed := hKeyed h.keyed
  sound r hr := by
    rw [hProgress.id_eq]
    exact h.sound r (hLog ▸ hr)
  called before r after hSplit := by
    obtain ⟨call, hCall, hRest⟩ := h.called before r after (hLog ▸ hSplit)
    exact ⟨call, hProgress.calls.subset hCall, hRest⟩
  ordered := hLog ▸ h.ordered
  current r hr := (h.current r (hLog ▸ hr)).trans hProgress.stamp

theorem Recorded.of_steady {cfg : Config} {hs hs' : HotStuff} (h : hs.Recorded cfg)
    (hSteady : hs.Steady hs') : hs'.Recorded cfg :=
  h.of_progress hSteady.progress hSteady.voteLog_eq hSteady.keyed

/-- Adding the record of a vote that is based on the current state. -/
theorem Recorded.add {cfg : Config} {hs : HotStuff} {record : VoteRecord} (h : hs.Recorded cfg)
    (hSound : record.Sound cfg hs.id) (hCast : record.cast = hs.snapshot)
    (hEntry : ∀ r ∈ hs.voteLog, r.cast.stamp.Precedes record.entry.stamp)
    (hCalled : ∃ call ∈ hs.calls, call.block = record.block ∧ call.entry = record.entry ∧
      call.votedViews = hs.voteLog.map fun r => r.block.view) :
    Recorded cfg { hs with voteLog := hs.voteLog ++ [record] } where
  honest := h.honest
  keyed := h.keyed
  sound r hr := by
    rcases List.mem_append.mp hr with hOld | hNew
    · exact h.sound r hOld
    · cases List.mem_singleton.mp hNew
      exact hSound
  called before r after hSplit := by
    -- the split point lies in the old log or at its end
    rcases List.eq_nil_or_concat after with rfl | ⟨middle, last, rfl⟩
    · have hLast := List.append_inj' hSplit rfl
      cases hLast.2
      rw [← hLast.1]
      exact hCalled
    · have hOld : hs.voteLog = before ++ r :: middle := by
        have hEnds : hs.voteLog ++ [record] = (before ++ r :: middle) ++ [last] := by
          simpa using hSplit
        exact (List.append_inj' hEnds rfl).1
      exact h.called before r middle hOld
  ordered := by
    refine List.pairwise_append.mpr ⟨h.ordered, List.pairwise_singleton _ _, ?_⟩
    intro r hr r' hr'
    cases List.mem_singleton.mp hr'
    exact hEntry r hr
  current r hr := by
    rcases List.mem_append.mp hr with hOld | hNew
    · exact h.current r hOld
    · cases List.mem_singleton.mp hNew
      rw [hCast]
      exact Stamp.Precedes.refl _

theorem Recorded.turn {cfg : Config} {hs hs' : HotStuff} {block : Block} (h : hs.Recorded cfg)
    (hTurn : Turn cfg hs block hs') : hs'.Recorded cfg := by
  have hLogged : (hs.logCall block).Recorded cfg :=
    h.of_progress (logCall_progress hs block) rfl (fun h => h)
  cases hTurn with
  | returned hTaken => exact hLogged.of_steady (takeUp_steady hTaken)
  | voted hTaken hCast =>
      rename_i taken accept
      have hSteady := takeUp_steady hTaken
      have hTakenRecorded := hLogged.of_steady hSteady
      have hSound := vote_sound hLogged.honest hLogged.keyed hTaken
      have hAdded : Recorded cfg { taken with voteLog := taken.voteLog ++
          [{ block, entry := hs.snapshot, accept, cast := taken.snapshot }] } := by
        refine hTakenRecorded.add ?_ rfl ?_ ?_
        · rw [hSteady.id_eq]
          exact hSound
        · intro r hr
          rw [hSteady.voteLog_eq] at hr
          exact h.current r hr
        · have hCall : { block, entry := hs.snapshot, votedViews := hs.voteLog.map fun r =>
              r.block.view } ∈ taken.calls := by
            rw [hSteady.calls_eq]
            exact List.mem_append_right _ (List.mem_singleton.mpr rfl)
          refine ⟨_, hCall, rfl, rfl, ?_⟩
          rw [hSteady.voteLog_eq]
          rfl
      obtain ⟨vote, _, hVote | ⟨recipient, rfl⟩⟩ := castVote_spec hCast
      · exact hAdded.of_steady (processVote_quiet hVote).toSteady
      · exact hAdded.of_progress (send_progress _ (by simp)) rfl (fun h => h)

theorem Recorded.turns {cfg : Config} {hs hs' : HotStuff} {block : Block}
    (h : hs.Recorded cfg) (hTurns : Turns cfg hs block hs') : hs'.Recorded cfg := by
  induction hTurns with
  | last hTurn => exact h.turn hTurn
  | nested hTurn _ _ ih =>
      have hLast := ih (h.turn hTurn)
      exact { hLast with }

theorem Recorded.processLocalTmo {cfg : Config} {hs hs' : HotStuff} {view : View}
    (hRecorded : hs.Recorded cfg) (h : hs.processLocalTmo cfg view = .ok hs') :
    hs'.Recorded cfg := by
  have hAdvanced := hRecorded.of_steady (advanceView_quiet hs view).toSteady
  unfold HotStuff.processLocalTmo at h
  refine (hAdvanced.of_progress (send_progress _ (by simp)) rfl ?_).of_steady
    (processRemoteTmo_quiet h).toSteady
  exact fun h => h

theorem Recorded.step {cfg : Config} {hs hs' : HotStuff} {event : Event}
    (hRecorded : hs.Recorded cfg) (h : hs.step cfg event = .ok hs') : hs'.Recorded cfg := by
  cases event with
  | block block =>
      obtain ⟨⟨_, _⟩, hBlock, hDone⟩ := Outcome.bind_eq_ok.mp h
      cases Outcome.pure_eq_ok.mp hDone
      exact hRecorded.turns (processBlock_turns hBlock)
  | vote vote => exact hRecorded.of_steady (processVote_quiet h).toSteady
  | tmo tmo => exact hRecorded.of_steady (processRemoteTmo_quiet h).toSteady
  | localTmo view => exact hRecorded.processLocalTmo h
  | kickOff =>
      cases Outcome.pure_eq_ok.mp h
      exact hRecorded.of_steady (kickOff_quiet cfg hs).toSteady

/-- The invariant holds in every state that a replica reaches. -/
theorem run_recorded {cfg : Config} {id : NodeID} {n : Nat} {events : List Event} {hs : HotStuff}
    (h : run (step cfg) (new id false n) events = .ok hs) : hs.Recorded cfg :=
  run_invariant (fun _ _ _ hPast hStep => hPast.step hStep) h (new_recorded cfg id n)

end HotStuff

/-- The block's view exceeds the view of every vote made before the call, or the
call ends before the voting rule. -/
def Call.Fresh (cfg : Config) (call : Call) : Prop :=
  (∀ view ∈ call.votedViews, view < call.block.view) ∨
    call.block.view < call.entry.curView ∨ call.entry.curView + 1 < call.block.view ∨
    call.block.qc = none ∨ cfg.election.isLeader call.block.proposer call.block.view = false

instance (cfg : Config) (call : Call) : Decidable (call.Fresh cfg) :=
  inferInstanceAs (Decidable (_ ∨ _))

/-- One of the checks before the voting rule ends the call. -/
def Call.Stopped (cfg : Config) (call : Call) : Prop :=
  call.block.view < call.entry.curView ∨ call.entry.curView + 1 < call.block.view ∨
    call.block.qc = none ∨ cfg.election.isLeader call.block.proposer call.block.view = false

instance (cfg : Config) (call : Call) : Decidable (call.Stopped cfg) :=
  inferInstanceAs (Decidable (_ ∨ _))

/-- A call that made a sound vote passed these checks. -/
theorem VoteRecord.Sound.not_stopped {cfg : Config} {id : NodeID} {r : VoteRecord} {call : Call}
    (h : r.Sound cfg id) (hBlock : call.block = r.block) (hEntry : call.entry = r.entry) :
    ¬call.Stopped cfg := by
  unfold Call.Stopped
  rw [hBlock, hEntry]
  have hView : r.entry.curView ≤ r.block.view := h.entry_accept.view_le.trans h.current
  obtain ⟨qc, hQC⟩ := h.certified
  rintro (hStale | hAhead | hNoQC | hLeader)
  · exact absurd hView (not_le.mpr hStale)
  · exact absurd h.reached (not_le.mpr hAhead)
  · cases hNoQC.symm.trans hQC
  · cases hLeader.symm.trans h.leader

namespace HotStuff

/-- The views of the votes made in a state's history, oldest first. -/
def votedViews (hs : HotStuff) : List View := hs.voteLog.map fun record => record.block.view

/-- A vote was made in a call that none of the checks stopped. -/
theorem Recorded.vote_call {cfg : Config} {hs : HotStuff} (h : hs.Recorded cfg) {r : VoteRecord}
    (hr : r ∈ hs.voteLog) :
    ∃ call ∈ hs.calls, call.block = r.block ∧ call.entry = r.entry ∧ ¬call.Stopped cfg := by
  obtain ⟨before, after, hSplit⟩ := List.append_of_mem hr
  obtain ⟨call, hCall, hBlock, hEntry, _⟩ := h.called before r after hSplit
  exact ⟨call, hCall, hBlock, hEntry, (h.sound r hr).not_stopped hBlock hEntry⟩

/-- A sound vote means that its call was not one of those that cannot vote. -/
theorem Recorded.fresh {cfg : Config} {hs : HotStuff} (h : hs.Recorded cfg)
    (hCalls : ∀ call ∈ hs.calls, call.Fresh cfg) {before after : List VoteRecord}
    {record : VoteRecord} (hSplit : hs.voteLog = before ++ record :: after) :
    ∀ earlier ∈ before, earlier.block.view < record.block.view := by
  obtain ⟨call, hCall, hBlock, hEntry, hViews⟩ := h.called before record after hSplit
  have hSound := h.sound record (hSplit ▸ List.mem_append_right _ List.mem_cons_self)
  rcases hCalls call hCall with hBelow | hStopped
  · intro earlier hEarlier
    rw [hViews, hBlock] at hBelow
    exact hBelow _ (List.mem_map_of_mem hEarlier)
  · exact absurd hStopped (hSound.not_stopped hBlock hEntry)

end HotStuff
end Bamboo
