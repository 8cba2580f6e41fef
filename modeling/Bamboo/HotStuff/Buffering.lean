import Bamboo.HotStuff.Voting

/-! The blocks that wait for an earlier view. `ProcessBlock` calls itself for the
block that waits under the view it has just voted in. A block waits under the view
before its own, so the views go up along these calls and there are at most as many
of them as blocks waiting: the bound in `processBlock` cuts nothing off. -/
namespace Bamboo

open Library

namespace HotStuff

/-- Blocks wait under the view before their own. -/
def WaitsInOrder (hs : HotStuff) : Prop :=
  ∀ view block, hs.bufferedBlocks.lookup view = some block → block.view = view + 1

theorem new_waitsInOrder (id : NodeID) (isByz : Bool) (n : Nat) :
    (HotStuff.new id isByz n).WaitsInOrder := by
  intro view block h
  simp [HotStuff.new] at h

theorem Quiet.waitsInOrder {hs hs' : HotStuff} (h : hs.Quiet hs') (hWaits : hs.WaitsInOrder) :
    hs'.WaitsInOrder := by
  unfold WaitsInOrder
  rw [h.bufferedBlocks_eq]
  exact hWaits

/-- A block changes the buffer only by being put into it. -/
theorem takeUp_bufferedBlocks {cfg : Config} {hs hs' : HotStuff} {block : Block}
    {verdict : Verdict} (h : hs.takeUp cfg block = .ok (hs', verdict)) :
    hs'.bufferedBlocks = hs.bufferedBlocks ∨ ((∃ result, verdict = .returns result) ∧
      hs'.bufferedBlocks = hs.bufferedBlocks.insert (block.view - 1) block) := by
  rcases takeUp_cases h with ⟨_, hVerdict, rfl⟩ | ⟨_, _, _, rfl⟩ | ⟨_, _, _, admitted, hAdmitted, hEnd⟩
  · exact Or.inr ⟨hVerdict, rfl⟩
  · exact Or.inl rfl
  · have hFirst := (processBlockQC_quiet hAdmitted).bufferedBlocks_eq
    rcases hEnd with ⟨_, rfl⟩ | ⟨_, _, hStored, _⟩
    · exact Or.inl hFirst
    · exact Or.inl ((storeBlock_quiet hStored).bufferedBlocks_eq.trans hFirst)

theorem castVote_bufferedBlocks {cfg : Config} {hs hs' : HotStuff} {record : VoteRecord}
    (h : hs.castVote cfg record = .ok hs') : hs'.bufferedBlocks = hs.bufferedBlocks := by
  obtain ⟨_, _, hVote | ⟨_, rfl⟩⟩ := castVote_spec h
  · exact (processVote_quiet hVote).bufferedBlocks_eq
  · rfl

/-- Nothing is put into the buffer on the way to a vote. -/
theorem voted_bufferedBlocks {cfg : Config} {hs taken voted : HotStuff} {block : Block}
    {accept : Snapshot} {record : VoteRecord}
    (hTaken : (hs.logCall block).takeUp cfg block = .ok (taken, .votes accept))
    (hCast : taken.castVote cfg record = .ok voted) :
    voted.bufferedBlocks = hs.bufferedBlocks := by
  rw [castVote_bufferedBlocks hCast]
  rcases takeUp_bufferedBlocks hTaken with hSame | ⟨⟨_, hVerdict⟩, _⟩
  · exact hSame
  · cases hVerdict

theorem Turn.waitsInOrder {cfg : Config} {hs hs' : HotStuff} {block : Block}
    (h : Turn cfg hs block hs') (hWaits : hs.WaitsInOrder) : hs'.WaitsInOrder := by
  unfold WaitsInOrder
  cases h with
  | returned hTaken =>
      rcases takeUp_bufferedBlocks hTaken with hSame | ⟨_, hPut⟩
      · rw [hSame]
        exact hWaits
      · intro view found hFound
        rw [hPut] at hFound
        rcases Table.of_lookup_insert hFound with ⟨hView, rfl⟩ | hOld
        · lia
        · exact hWaits view found hOld
  | voted hTaken hCast =>
      rw [voted_bufferedBlocks hTaken hCast]
      exact hWaits

theorem Turns.waitsInOrder {cfg : Config} {hs hs' : HotStuff} {block : Block}
    (h : Turns cfg hs block hs') (hWaits : hs.WaitsInOrder) : hs'.WaitsInOrder := by
  induction h with
  | last hTurn => exact hTurn.waitsInOrder hWaits
  | nested hTurn _ _ ih =>
      intro view found hFound
      exact ih (hTurn.waitsInOrder hWaits) view found (Table.of_lookup_erase hFound)

theorem step_waitsInOrder {cfg : Config} {hs hs' : HotStuff} {event : Event}
    (hWaits : hs.WaitsInOrder) (h : hs.step cfg event = .ok hs') : hs'.WaitsInOrder := by
  cases event with
  | block block =>
      obtain ⟨⟨_, _⟩, hBlock, hDone⟩ := Outcome.bind_eq_ok.mp h
      cases Outcome.pure_eq_ok.mp hDone
      exact (processBlock_turns hBlock).waitsInOrder hWaits
  | vote vote => exact (processVote_quiet h).waitsInOrder hWaits
  | tmo tmo => exact (processRemoteTmo_quiet h).waitsInOrder hWaits
  | localTmo view =>
      -- sending the own timeout does not touch the buffer
      have hAdvanced := (advanceView_quiet hs view).waitsInOrder hWaits
      rw [step, processLocalTmo] at h
      exact (processRemoteTmo_quiet h).waitsInOrder hAdvanced
  | kickOff =>
      cases Outcome.pure_eq_ok.mp h
      exact (kickOff_quiet cfg hs).waitsInOrder hWaits

/-- The blocks that a call for a block of the given view can still come to. -/
def waitingFrom (hs : HotStuff) (view : View) : Finset View :=
  hs.bufferedBlocks.keys.filter (view ≤ ·)

theorem waitingFrom_next {hs : HotStuff} {view : View} {next : Block} (hWaits : hs.WaitsInOrder)
    (h : hs.bufferedBlocks.lookup view = some next) :
    (hs.waitingFrom next.view).card < (hs.waitingFrom view).card := by
  have hView := hWaits view next h
  apply Finset.card_lt_card
  rw [Finset.ssubset_iff_of_subset]
  · refine ⟨view, ?_, ?_⟩
    · simp [waitingFrom, Finmap.mem_keys, Table.mem_of_lookup h]
    · simp [waitingFrom, hView]
  · intro found hFound
    simp only [waitingFrom, Finset.mem_filter] at hFound ⊢
    exact ⟨hFound.1, by lia⟩

/-- Once the bound exceeds the number of blocks that can still be reached, raising
it changes nothing. -/
theorem processBlockDepth_succ {cfg : Config} {depth : Nat} {hs : HotStuff} {block : Block}
    (hWaits : hs.WaitsInOrder) (hDepth : (hs.waitingFrom block.view).card < depth) :
    processBlockDepth cfg (depth + 1) hs block = processBlockDepth cfg depth hs block := by
  induction depth generalizing hs block with
  | zero => simp at hDepth
  | succ depth ih =>
      rw [processBlockDepth, processBlockDepth]
      refine Outcome.bind_congr fun ⟨taken, verdict⟩ hTaken => ?_
      cases verdict with
      | returns result => rfl
      | votes accept =>
          refine Outcome.bind_congr fun voted hCast => ?_
          cases hNext : voted.bufferedBlocks.lookup block.view with
          | none => rfl
          | some next =>
              have hVoted : voted.WaitsInOrder := (Turn.voted hTaken hCast).waitsInOrder hWaits
              have hFewer := waitingFrom_next hVoted hNext
              have hSame : voted.waitingFrom block.view = hs.waitingFrom block.view := by
                rw [waitingFrom, waitingFrom, voted_bufferedBlocks hTaken hCast]
              rw [hSame] at hFewer
              dsimp only
              rw [ih hVoted (by omega)]

/-- `processBlock` is `ProcessBlock` without a bound on its calls to itself. -/
theorem processBlockDepth_eq {cfg : Config} {depth : Nat} {hs : HotStuff} {block : Block}
    (hWaits : hs.WaitsInOrder) (hDepth : hs.bufferedBlocks.keys.card < depth) :
    processBlockDepth cfg depth hs block = hs.processBlock cfg block := by
  have hFewer : (hs.waitingFrom block.view).card ≤ hs.bufferedBlocks.keys.card :=
    Finset.card_filter_le _ _
  induction depth, hDepth using Nat.le_induction with
  | base => rfl
  | succ depth hLe ih =>
      rw [processBlockDepth_succ hWaits (by omega)]
      exact ih

/-- In every state that a replica reaches, no larger bound on the nested calls
changes what `ProcessBlock` does. -/
theorem run_processBlock_complete {cfg : Config} {id : NodeID} {isByz : Bool} {n : Nat}
    {events : List Event} {hs : HotStuff}
    (hRun : run (HotStuff.step cfg) (HotStuff.new id isByz n) events = .ok hs) (block : Block)
    {depth : Nat} (hDepth : hs.bufferedBlocks.keys.card < depth) :
    processBlockDepth cfg depth hs block = hs.processBlock cfg block := by
  have hWaits : hs.WaitsInOrder :=
    run_invariant (fun _ _ _ => step_waitsInOrder) hRun (new_waitsInOrder id isByz n)
  exact processBlockDepth_eq hWaits hDepth

end HotStuff
end Bamboo
