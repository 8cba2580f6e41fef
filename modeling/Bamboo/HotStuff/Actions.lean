import Bamboo.HotStuff.Provenance
import Bamboo.Library.Expansion

/-! The handlers as sequences of small actions. `act` performs one action,
`eventActions` lists those that an event comes to, and `step_passes` shows that
performing them is what the handlers do. An invariant of a run is then proved
action by action, and a condition on a run can speak about the state in which a
certificate or a vote is taken up, in the middle of an event as well. -/
namespace Bamboo

open Library

namespace HotStuff

/-- How a certificate came to be processed: with its block, from the certificates
that wait for a block, from the replica's own votes or with a timeout. -/
inductive Source where
  | block
  | waiting (id : Identifier)
  | votes
  | timeout
deriving DecidableEq

inductive Action where
  | enter (block : Block)
  | delay (block : Block)
  | raise (block : Block) (qc : QC)
  | certificate (source : Source) (qc : QC)
  | store (container : BlockContainer)
  | settle (id : Identifier)
  | record (record : VoteRecord)
  | send (message : Message)
  | addVote (vote : Vote)
  | hold (qc : QC)
  | release (view : View)
  | advance (view : View)
  | collect (tmo : TMO)

/-- A condition on the certificate that an action processes. -/
def Action.OnCertificate (P : QC → Prop) : Action → Prop
  | .certificate _ qc => P qc
  | _ => True

instance (P : QC → Prop) [DecidablePred P] (a : Action) : Decidable (a.OnCertificate P) := by
  cases a with
  | certificate source qc => exact inferInstanceAs (Decidable (P qc))
  | _ => exact inferInstanceAs (Decidable True)

/-- What one action does. Only processing a certificate can fault. -/
def act (cfg : Config) (hs : HotStuff) : Action → Outcome HotStuff
  | .enter block => pure (hs.logCall block)
  | .delay block =>
      pure { hs with bufferedBlocks := hs.bufferedBlocks.insert (block.view - 1) block }
  | .raise _ qc => pure (hs.updateHighQC qc)
  | .certificate _ qc => hs.processCertificate cfg qc
  | .store container => pure { hs with bc := hs.bc.addBlock container }
  | .settle id => pure { hs with bufferedQCs := hs.bufferedQCs.erase id }
  | .record record => pure { hs with voteLog := hs.voteLog ++ [record] }
  | .send message => pure (hs.send message)
  | .addVote vote => pure { hs with bc := (hs.bc.addVote vote).1 }
  | .hold qc => pure (hs.bufferQC qc)
  | .release view => pure { hs with bufferedBlocks := hs.bufferedBlocks.erase view }
  | .advance view => pure (hs.advanceView view)
  | .collect tmo => pure { hs with pm := (hs.pm.processRemoteTmo tmo).1 }

/-- The actions of `ProcessVote`. -/
def voteActions (cfg : Config) (hs : HotStuff) (vote : Vote) : List Action :=
  match hs.voteVerified cfg vote with
  | .ok true => .addVote vote ::
      match (hs.bc.addVote vote).2 with
      | none => []
      | some qc =>
          match hs.bc.getBlockByID qc.blockID with
          | none => [.hold { qc with leader := hs.id }]
          | some _ => [.certificate .votes { qc with leader := hs.id }]
  | _ => []

/-- The actions for a stored block: a certificate may have waited for it. -/
def storeActions (hs : HotStuff) (container : BlockContainer) : List Action :=
  .store container ::
    match hs.bufferedQCs.lookup container.block.id with
    | none => []
    | some qc => [.certificate (.waiting container.block.id) qc, .settle container.block.id]

/-- The actions of `ProcessBlock` up to the decision whether to vote. -/
def takeUpActions (cfg : Config) (hs : HotStuff) (block : Block) : List Action :=
  if hs.pm.curView + 1 < block.view then [.delay block]
  else
    match hQC : block.qc with
    | none => []
    | some qc =>
        (.raise block qc :: if block.proposer = hs.id then [] else [.certificate .block qc]) ++
          match hs.processBlockQC cfg block qc with
          | .error _ => []
          | .ok admitted =>
              if block.view < admitted.pm.curView then []
              else if cfg.election.isLeader block.proposer block.view = false then []
              else admitted.storeActions ⟨block, qc, hQC⟩

/-- The actions of making a vote. -/
def castActions (cfg : Config) (hs : HotStuff) (record : VoteRecord) : List Action :=
  match makeVote cfg.keys record.block.view hs.id record.block.id with
  | .error _ => []
  | .ok vote => .record record ::
      if cfg.election.findLeaderFor (record.block.view + 1) = hs.id
      then voteActions cfg { hs with voteLog := hs.voteLog ++ [record] } vote
      else [.send (.vote (cfg.election.findLeaderFor (record.block.view + 1)) vote)]

/-- The actions of `ProcessBlock`, with a bound on its calls to itself. -/
def blockActions (cfg : Config) : Nat → HotStuff → Block → List Action
  | 0, _, _ => []
  | depth + 1, hs, block => .enter block :: takeUpActions cfg (hs.logCall block) block ++
      match (hs.logCall block).takeUp cfg block with
      | .ok (taken, .votes accept) =>
          castActions cfg taken { block, entry := hs.snapshot, accept, cast := taken.snapshot } ++
            match taken.castVote cfg
                { block, entry := hs.snapshot, accept, cast := taken.snapshot } with
            | .error _ => []
            | .ok voted =>
                match voted.bufferedBlocks.lookup block.view with
                | none => []
                | some next => blockActions cfg depth voted next ++ [.release block.view]
      | _ => []

/-- The actions of `ProcessRemoteTmo`. -/
def tmoActions (cfg : Config) (hs : HotStuff) (tmo : TMO) : List Action :=
  match tmo.highQC with
  | none => []
  | some qc => .certificate .timeout qc ::
      match hs.processCertificate cfg qc with
      | .error _ => []
      | .ok middle => .collect tmo ::
          match (middle.pm.processRemoteTmo tmo).2 with
          | none => []
          | some tc => if tc.view < middle.pm.curView then [] else [.advance tc.view]

/-- The timeout that a replica sends when its view times out. -/
def ownTmo (hs : HotStuff) (view : View) : TMO :=
  { view := view + 1, nodeID := hs.id, highQC := some hs.highQC }

/-- The actions of an event. -/
def eventActions (cfg : Config) (hs : HotStuff) : Event → List Action
  | .block block => blockActions cfg (hs.bufferedBlocks.keys.card + 1) hs block
  | .vote vote => voteActions cfg hs vote
  | .tmo tmo => tmoActions cfg hs tmo
  | .localTmo view =>
      .advance view :: .send (.tmo (hs.ownTmo view)) ::
        tmoActions cfg ((hs.advanceView view).send (.tmo (hs.ownTmo view))) (hs.ownTmo view)
  | .kickOff =>
      if hs.pm.curView = 0 ∧ cfg.election.isLeader hs.id 1 then [.advance 0] else []

/-! Which actions the handlers consist of. -/

theorem mem_voteActions {cfg : Config} {hs : HotStuff} {vote : Vote} {a : Action}
    (h : a ∈ voteActions cfg hs vote) :
    a = .addVote vote ∨ ∃ qc, a = .hold qc ∨ a = .certificate .votes qc := by
  unfold voteActions at h
  split at h
  · rcases List.mem_cons.mp h with rfl | h
    · exact Or.inl rfl
    · split at h
      · cases h
      · split at h
        · exact Or.inr ⟨_, Or.inl (List.mem_singleton.mp h)⟩
        · exact Or.inr ⟨_, Or.inr (List.mem_singleton.mp h)⟩
  · cases h

theorem mem_castActions {cfg : Config} {hs : HotStuff} {record : VoteRecord} {a : Action}
    (h : a ∈ castActions cfg hs record) :
    a = .record record ∨ (∃ message, a = .send message) ∨
      ∃ hs' vote, a ∈ voteActions cfg hs' vote := by
  unfold castActions at h
  split at h
  · cases h
  · rcases List.mem_cons.mp h with rfl | h
    · exact Or.inl rfl
    · split_ifs at h
      · exact Or.inr (Or.inr ⟨_, _, h⟩)
      · exact Or.inr (Or.inl ⟨_, List.mem_singleton.mp h⟩)

theorem mem_tmoActions {cfg : Config} {hs : HotStuff} {tmo : TMO} {a : Action}
    (h : a ∈ tmoActions cfg hs tmo) :
    (∃ qc, a = .certificate .timeout qc) ∨ a = .collect tmo ∨ ∃ view, a = .advance view := by
  unfold tmoActions at h
  split at h
  · cases h
  · rcases List.mem_cons.mp h with rfl | h
    · exact Or.inl ⟨_, rfl⟩
    · split at h
      · cases h
      · rcases List.mem_cons.mp h with rfl | h
        · exact Or.inr (Or.inl rfl)
        · split at h
          · cases h
          · split_ifs at h
            · cases h
            · exact Or.inr (Or.inr ⟨_, List.mem_singleton.mp h⟩)

/-- The actions of a whole run. -/
def runActions (cfg : Config) (hs : HotStuff) (events : List Event) : List Action :=
  expandAll (step cfg) (eventActions cfg) hs events

end HotStuff

namespace Origins

open HotStuff

variable {o : Origins}

/-- What is known of a certificate from the way it came. -/
def source (hs : HotStuff) (qc : QC) : Source → Prop
  | .block => qc.view ≤ hs.highQC.view
  | .waiting key => hs.bufferedQCs.lookup key = some qc
  | .votes => qc.leader = hs.id
  | .timeout => True

/-- The data of an action is covered, and the checks before it have been made. -/
def action (o : Origins) (cfg : Config) (hs : HotStuff) : Action → Prop
  | .delay block => o.block block ∧ hs.pm.curView + 1 < block.view
  | .raise block qc => o.block block ∧ block.qc = some qc ∧ block.view ≤ hs.pm.curView + 1
  | .certificate source qc => o.qc qc ∧ Origins.source hs qc source
  | .store container => o.block container.block ∧ hs.pm.curView ≤ container.block.view ∧
      cfg.election.isLeader container.block.proposer container.block.view = true
  | .addVote vote => o.vote vote ∧ hs.voteVerified cfg vote = .ok true
  | .hold qc => o.qc qc ∧ qc.leader = hs.id
  | _ => True

/-- An action of a replica all of whose data is covered. -/
def Permits (o : Origins) (cfg : Config) (hs : HotStuff) (a : Action) : Prop :=
  o.Covers hs ∧ o.action cfg hs a

theorem voteActions_passes {cfg : Config} {hs hs' : HotStuff} {vote : Vote}
    (hCovers : o.Covers hs) (hClosed : o.Closed hs.bc.quorum.total)
    (hVote : hs.voteVerified cfg vote = .ok true → o.vote vote)
    (h : hs.processVote cfg vote = .ok hs') :
    Passes (act cfg) (o.Permits cfg) hs (voteActions cfg hs vote) hs' := by
  obtain ⟨verified, hVerified, hRest⟩ := Outcome.bind_eq_ok.mp h
  unfold voteActions
  rw [hVerified]
  cases verified with
  | false =>
      cases Outcome.pure_eq_ok.mp hRest
      exact .nil _
  | true =>
      have hKnown := hVote hVerified
      rw [if_neg (by simp)] at hRest
      dsimp only at hRest ⊢
      refine .cons ⟨hCovers, hKnown, hVerified⟩ rfl ?_
      have hAdded := hCovers.addVote hKnown
      cases hBuilt : (hs.bc.addVote vote).2 with
      | none =>
          rw [hBuilt] at hRest
          cases Outcome.pure_eq_ok.mp hRest
          exact .nil _
      | some qc =>
          rw [hBuilt] at hRest
          have hQC := hCovers.built hClosed hKnown hBuilt
          dsimp only at hRest ⊢
          -- a vote does not change which blocks are stored
          have hKept : (hs.bc.addVote vote).1.getBlockByID qc.blockID =
              hs.bc.getBlockByID qc.blockID := rfl
          rw [hKept] at hRest
          cases hStored : hs.bc.getBlockByID qc.blockID with
          | none =>
              rw [hStored] at hRest
              exact .single ⟨hAdded, hQC, rfl⟩ hRest
          | some block =>
              rw [hStored] at hRest
              exact .single ⟨hAdded, hQC, rfl⟩ hRest

theorem storeActions_passes {cfg : Config} {hs hs' : HotStuff} {container : BlockContainer}
    (hCovers : o.Covers hs) (hAction : o.action cfg hs (.store container))
    (h : hs.storeBlock cfg container = .ok hs') :
    Passes (act cfg) (o.Permits cfg) hs (hs.storeActions container) hs' := by
  unfold HotStuff.storeBlock at h
  unfold storeActions
  dsimp only at h
  refine .cons ⟨hCovers, hAction⟩ rfl ?_
  have hStored := hCovers.addBlock hAction.1
  cases hWaiting : hs.bufferedQCs.lookup container.block.id with
  | none =>
      rw [hWaiting] at h
      cases Outcome.pure_eq_ok.mp h
      exact .nil _
  | some qc =>
      rw [hWaiting] at h
      obtain ⟨middle, hCertificate, hDone⟩ := Outcome.bind_eq_ok.mp h
      have hQC := hCovers.bufferedQCs _ qc hWaiting
      exact .cons ⟨hStored, hQC, hWaiting⟩ hCertificate
        (.single ⟨hStored.processCertificate hQC hCertificate, trivial⟩ hDone)

/-- The certificate of a block is looked at before and after it is processed. -/
theorem blockQCActions_passes {cfg : Config} {hs hs' : HotStuff} {block : Block} {qc : QC}
    (hCovers : o.Covers hs) (hQC : o.qc qc) (hAction : o.action cfg hs (.raise block qc))
    (h : hs.processBlockQC cfg block qc = .ok hs') :
    Passes (act cfg) (o.Permits cfg) hs
      (.raise block qc :: if block.proposer = hs.id then [] else [.certificate .block qc]) hs' := by
  refine .cons ⟨hCovers, hAction⟩ rfl ?_
  unfold HotStuff.processBlockQC at h
  split_ifs at h ⊢
  · cases Outcome.pure_eq_ok.mp h
    exact .nil _
  · refine .single ⟨hCovers.updateHighQC hQC, hQC, ?_⟩ h
    change qc.view ≤ (hs.updateHighQC qc).highQC.view
    rw [updateHighQC_eq]
    dsimp only
    split_ifs with hHigher
    · exact le_refl _
    · exact not_lt.mp hHigher

theorem takeUpActions_ahead {cfg : Config} {hs : HotStuff} {block : Block}
    (hAhead : hs.pm.curView + 1 < block.view) : takeUpActions cfg hs block = [.delay block] :=
  if_pos hAhead

theorem takeUpActions_none {cfg : Config} {hs : HotStuff} {block : Block}
    (hAhead : ¬hs.pm.curView + 1 < block.view) (hNone : block.qc = none) :
    takeUpActions cfg hs block = [] := by
  unfold takeUpActions
  rw [if_neg hAhead]
  split
  · rfl
  · next qc hQC => cases hNone.symm.trans hQC

theorem takeUpActions_some {cfg : Config} {hs : HotStuff} {block : Block} {qc : QC}
    (hAhead : ¬hs.pm.curView + 1 < block.view) (hQC : block.qc = some qc) :
    takeUpActions cfg hs block =
      (.raise block qc :: if block.proposer = hs.id then [] else [.certificate .block qc]) ++
        match hs.processBlockQC cfg block qc with
        | .error _ => []
        | .ok admitted =>
            if block.view < admitted.pm.curView then []
            else if cfg.election.isLeader block.proposer block.view = false then []
            else admitted.storeActions ⟨block, qc, hQC⟩ := by
  unfold takeUpActions
  rw [if_neg hAhead]
  split
  · next hNone => cases hNone.symm.trans hQC
  · next found hFound =>
      cases hQC.symm.trans hFound
      rfl

theorem takeUpActions_passes {cfg : Config} {hs hs' : HotStuff} {block : Block} {verdict : Verdict}
    (hCovers : o.Covers hs) (hClosed : o.Closed hs.bc.quorum.total) (hBlock : o.block block)
    (h : hs.takeUp cfg block = .ok (hs', verdict)) :
    Passes (act cfg) (o.Permits cfg) hs (takeUpActions cfg hs block) hs' := by
  obtain ⟨_, _, hRest⟩ := Outcome.bind_eq_ok.mp h
  by_cases hAhead : hs.pm.curView + 1 < block.view
  · rw [if_pos hAhead] at hRest
    rw [takeUpActions_ahead hAhead]
    cases Outcome.pure_eq_ok.mp hRest
    exact .single ⟨hCovers, hBlock, hAhead⟩ rfl
  rw [if_neg hAhead] at hRest
  split at hRest
  · next hNone =>
      cases Outcome.pure_eq_ok.mp hRest
      rw [takeUpActions_none hAhead hNone]
      exact .nil _
  next qc hQC =>
    rw [takeUpActions_some hAhead hQC]
    obtain ⟨admitted, hAdmitted, hRest⟩ := Outcome.bind_eq_ok.mp hRest
    have hCarried := hClosed.carried block qc hBlock hQC
    have hRaise : o.action cfg hs (.raise block qc) := ⟨hBlock, hQC, not_lt.mp hAhead⟩
    refine (blockQCActions_passes hCovers hCarried hRaise hAdmitted).append ?_
    rw [hAdmitted]
    dsimp only
    split_ifs at hRest ⊢ with hStale hLeader
    · cases Outcome.pure_eq_ok.mp hRest
      exact .nil _
    · cases Outcome.pure_eq_ok.mp hRest
      exact .nil _
    · obtain ⟨stored, hStored, hRest⟩ := Outcome.bind_eq_ok.mp hRest
      have hStoring : o.action cfg admitted (.store ⟨block, qc, hQC⟩) :=
        ⟨hBlock, not_lt.mp hStale, by simpa using hLeader⟩
      have hEnd : stored = hs' := by
        split at hRest
        all_goals exact congrArg Prod.fst (Outcome.pure_eq_ok.mp hRest)
      rw [← hEnd]
      exact storeActions_passes (hCovers.processBlockQC hCarried hAdmitted) hStoring hStored

theorem castActions_passes {cfg : Config} {hs hs' : HotStuff} {record : VoteRecord}
    (hCovers : o.Covers hs)
    (hRecorded : o.Covers { hs with voteLog := hs.voteLog ++ [record] })
    (hClosed : o.Closed hs.bc.quorum.total)
    (hVote : ∀ vote : Vote, vote.voter = hs.id → vote.view = record.block.view →
      vote.blockID = record.block.id → o.vote vote)
    (h : hs.castVote cfg record = .ok hs') :
    Passes (act cfg) (o.Permits cfg) hs (castActions cfg hs record) hs' := by
  obtain ⟨vote, hMade, hRest⟩ := Outcome.bind_eq_ok.mp h
  obtain ⟨hView, hVoter, hId⟩ := makeVote_ok hMade
  have hKnown := hVote vote hVoter hView hId
  unfold castActions
  rw [hMade]
  dsimp only at hRest ⊢
  refine .cons ⟨hCovers, trivial⟩ rfl ?_
  split_ifs at hRest ⊢
  · exact voteActions_passes hRecorded hClosed (fun _ => hKnown) hRest
  · exact .single ⟨hRecorded, trivial⟩ hRest

theorem blockActions_passes {cfg : Config} {depth : Nat} {hs hs' : HotStuff} {block : Block}
    {result : Except BlockError Unit} (hCovers : o.Covers hs)
    (hClosed : o.Closed hs.bc.quorum.total) (hBlock : o.block block)
    (hOwn : o.OwnVotes hs.id hs'.voteLog)
    (h : processBlockDepth cfg depth hs block = .ok (hs', result)) :
    Passes (act cfg) (o.Permits cfg) hs (blockActions cfg depth hs block) hs' := by
  induction depth generalizing hs hs' block result with
  | zero => cases h
  | succ depth ih =>
      obtain ⟨⟨taken, verdict⟩, hTaken, hRest⟩ := Outcome.bind_eq_ok.mp h
      unfold blockActions
      have hLogged := hCovers.logCall block
      have hFirst : Passes (act cfg) (o.Permits cfg) hs
          (.enter block :: takeUpActions cfg (hs.logCall block) block) taken :=
        .cons ⟨hCovers, trivial⟩ rfl (takeUpActions_passes hLogged hClosed hBlock hTaken)
      refine hFirst.append ?_
      rw [hTaken]
      cases verdict with
      | returns =>
          cases Outcome.pure_eq_ok.mp hRest
          exact .nil _
      | votes accept =>
          obtain ⟨voted, hCast, hRest⟩ := Outcome.bind_eq_ok.mp hRest
          have hTurn := Turn.voted hTaken hCast
          have hSteady := takeUp_steady hTaken
          have hTakenCovers := hLogged.takeUp hClosed hBlock hTaken
          have hTakenClosed : o.Closed taken.bc.quorum.total := hSteady.total ▸ hClosed
          -- the log of the whole call starts with the log after this turn
          have hLater : voted.voteLog <+: hs'.voteLog := by
            split at hRest
            · cases Outcome.pure_eq_ok.mp hRest
              exact List.prefix_rfl
            · obtain ⟨⟨last, _⟩, hNested, hDone⟩ := Outcome.bind_eq_ok.mp hRest
              cases Outcome.pure_eq_ok.mp hDone
              exact (processBlockDepth_turns hNested).progress.voteLog
          have hTurnOwn := hOwn.of_earlier hLater
          have hVoted := hCovers.turn hClosed hBlock hTurn hTurnOwn
          have hRecorded := hTakenCovers.record hs.snapshot accept hBlock hCovers.stored
          have hMade := castVote_recorded hCast
          have hCasting := castActions_passes hTakenCovers hRecorded hTakenClosed
            (fun vote hVoter => hTurnOwn _ hMade vote (hVoter.trans hSteady.id_eq)) hCast
          dsimp only
          refine hCasting.append ?_
          rw [hCast]
          dsimp only
          cases hNext : voted.bufferedBlocks.lookup block.view with
          | none =>
              rw [hNext] at hRest
              cases Outcome.pure_eq_ok.mp hRest
              exact .nil _
          | some next =>
              rw [hNext] at hRest
              obtain ⟨⟨last, _⟩, hNested, hDone⟩ := Outcome.bind_eq_ok.mp hRest
              cases Outcome.pure_eq_ok.mp hDone
              have hProgress := hTurn.progress
              have hNextKnown := hVoted.bufferedBlocks _ _ hNext
              have hLastOwn : o.OwnVotes voted.id last.voteLog := hProgress.id_eq ▸ hOwn
              have hVotedClosed : o.Closed voted.bc.quorum.total := hProgress.total_eq ▸ hClosed
              have hLast := Covers.turns (processBlockDepth_turns hNested) hVoted hVotedClosed
                hNextKnown hLastOwn
              exact (ih hVoted hVotedClosed hNextKnown hLastOwn hNested).append
                (.single ⟨hLast, trivial⟩ rfl)

theorem tmoActions_passes {cfg : Config} {hs hs' : HotStuff} {tmo : TMO} (hCovers : o.Covers hs)
    (hTmo : ∀ qc, tmo.highQC = some qc → o.qc qc) (h : hs.processRemoteTmo cfg tmo = .ok hs') :
    Passes (act cfg) (o.Permits cfg) hs (tmoActions cfg hs tmo) hs' := by
  unfold HotStuff.processRemoteTmo at h
  unfold tmoActions
  cases hQC : tmo.highQC with
  | none =>
      rw [hQC] at h
      cases h
  | some qc =>
      rw [hQC] at h
      obtain ⟨middle, hCertificate, hRest⟩ := Outcome.bind_eq_ok.mp h
      have hKnown := hTmo qc hQC
      have hMiddle := hCovers.processCertificate hKnown hCertificate
      have hCollected : o.Covers { middle with pm := (middle.pm.processRemoteTmo tmo).1 } :=
        hMiddle.of_quiet (collect_quiet middle tmo) hMiddle.votes hMiddle.highQC
          hMiddle.bufferedQCs hMiddle.committed
      refine .cons ⟨hCovers, hKnown, trivial⟩ hCertificate ?_
      rw [hCertificate]
      refine .cons ⟨hMiddle, trivial⟩ rfl ?_
      dsimp only at hRest
      cases hTC : (middle.pm.processRemoteTmo tmo).2 with
      | none =>
          rw [hTC] at hRest
          cases Outcome.pure_eq_ok.mp hRest
          exact .nil _
      | some tc =>
          rw [hTC] at hRest
          cases Outcome.pure_eq_ok.mp hRest
          have hSame := (middle.pm.processRemoteTmo_advances tmo).2
          unfold processTC
          dsimp only
          rw [hSame]
          split_ifs
          · exact .nil _
          · exact .single ⟨hCollected, trivial⟩ rfl

/-- The actions of an event perform what the event does. -/
theorem step_passes {cfg : Config} {hs hs' : HotStuff} {e : Event} (hCovers : o.Covers hs)
    (hClosed : o.Closed hs.bc.quorum.total) (hEvent : o.event e)
    (hOwn : o.OwnVotes hs.id hs'.voteLog) (h : hs.step cfg e = .ok hs') :
    Passes (act cfg) (o.Permits cfg) hs (eventActions cfg hs e) hs' := by
  cases e with
  | block block =>
      obtain ⟨⟨_, _⟩, hBlock, hDone⟩ := Outcome.bind_eq_ok.mp h
      cases Outcome.pure_eq_ok.mp hDone
      exact blockActions_passes hCovers hClosed hEvent hOwn hBlock
  | vote vote => exact voteActions_passes hCovers hClosed (fun _ => hEvent) h
  | tmo tmo => exact tmoActions_passes hCovers hEvent h
  | localTmo view =>
      have hAdvanced := hCovers.advanceView view
      have hSent : o.Covers ((hs.advanceView view).send (.tmo (hs.ownTmo view))) :=
        hAdvanced.send ⟨hs.highQC, rfl, hCovers.highQC⟩
      refine .cons ⟨hCovers, trivial⟩ rfl (.cons ⟨hAdvanced, trivial⟩ rfl ?_)
      refine tmoActions_passes hSent (fun qc hQC => ?_) h
      cases hQC
      exact hCovers.highQC
  | kickOff =>
      cases Outcome.pure_eq_ok.mp h
      unfold HotStuff.kickOff eventActions
      split_ifs
      · exact .single ⟨hCovers, trivial⟩ rfl
      · exact .nil _

/-- The sources include what a replica starts with and its own votes. -/
structure Inclusive (o : Origins) (total : Nat) : Prop extends o.Closed total where
  initial : o.qc .initial
  own : ∀ block vote, o.block block → vote.view = block.view → vote.blockID = block.id → o.vote vote

/-- Sources that allow every certificate and every vote. -/
structure Unrestricted (o : Origins) : Prop where
  qc : ∀ qc, o.qc qc
  vote : ∀ vote, o.vote vote

theorem Unrestricted.inclusive (h : o.Unrestricted) (total : Nat) : o.Inclusive total where
  carried _ qc _ _ := h.qc qc
  quorum _ qc _ _ _ _ _ _ := h.qc qc
  initial := h.qc .initial
  own _ vote _ _ _ := h.vote vote

theorem Unrestricted.event (h : o.Unrestricted) {e : Event}
    (hBlock : ∀ block, e = .block block → o.block block) : o.event e := by
  cases e with
  | block block => exact hBlock block rfl
  | vote vote => exact h.vote vote
  | tmo tmo => exact fun qc _ => h.qc qc
  | localTmo view | kickOff => trivial

/-- The blocks that a replica votes for are covered, whatever its certificates are. -/
theorem Inclusive.ownVotes {cfg : Config} {hs hs' : HotStuff} {e : Event} {total : Nat}
    (h : o.Inclusive total) (hCovers : o.Covers hs) (hEvent : o.event e)
    (hStep : hs.step cfg e = .ok hs') : o.OwnVotes hs.id hs'.voteLog := by
  let blocksOnly : Origins := { qc := fun _ => True, vote := fun _ => True, block := o.block }
  have hOpen : blocksOnly.Unrestricted := ⟨fun _ => trivial, fun _ => trivial⟩
  have hBlocks : blocksOnly.Covers hs := by
    refine hCovers.mono ?_ ?_ ?_
    · exact fun _ _ => trivial
    · exact fun _ _ => trivial
    · exact fun _ hBlock => hBlock
  have hBlocksEvent : blocksOnly.event e := by
    apply hOpen.event
    rintro block rfl
    exact hEvent
  have hAfter := hBlocks.step (hOpen.inclusive _).toClosed hBlocksEvent
    (fun _ _ _ _ _ _ => trivial) hStep
  intro r hr vote _ hView hId
  exact h.own r.block vote (hAfter.recorded r hr).1 hView hId

/-- A run is performed by its actions, and all data it comes across is covered. -/
theorem run_passes_from {cfg : Config} {n : Nat} {events : List Event} {hs hs' : HotStuff}
    (h : o.Inclusive n) (hEvents : ∀ e ∈ events, o.event e) (hCovers : o.Covers hs)
    (hTotal : hs.bc.quorum.total = n)
    (hRun : run (HotStuff.step cfg) hs events = .ok hs') :
    Passes (act cfg) (o.Permits cfg) hs (runActions cfg hs events) hs' ∧ o.Covers hs' ∧
      hs'.bc.quorum.total = n := by
  have hGuard : Guarded (HotStuff.step cfg) (fun _ e => o.event e) hs events :=
    guarded_of_mem fun _ => hEvents
  refine expandAll_passes (P := fun hs => o.Covers hs ∧ hs.bc.quorum.total = n) ?_ hGuard hRun
    ⟨hCovers, hTotal⟩
  rintro s e s' ⟨hCovers, hTotal⟩ hEvent hStep
  have hClosed : o.Closed s.bc.quorum.total := hTotal.symm ▸ h.toClosed
  have hOwn := h.ownVotes hCovers hEvent hStep
  exact ⟨step_passes hCovers hClosed hEvent hOwn hStep,
    hCovers.step hClosed hEvent hOwn hStep, (step_progress hStep).total_eq.trans hTotal⟩

theorem run_passes {cfg : Config} {id : NodeID} {isByz : Bool} {n : Nat} {events : List Event}
    {hs : HotStuff} (h : o.Inclusive n) (hEvents : ∀ e ∈ events, o.event e)
    (hRun : run (HotStuff.step cfg) (HotStuff.new id isByz n) events = .ok hs) :
    Passes (act cfg) (o.Permits cfg) (HotStuff.new id isByz n)
      (runActions cfg (HotStuff.new id isByz n) events) hs ∧ o.Covers hs := by
  obtain ⟨hPasses, hCovers, _⟩ :=
    run_passes_from h hEvents (new_covers id isByz n h.initial) rfl hRun
  exact ⟨hPasses, hCovers⟩

/-- The same up to a state between two actions. -/
theorem run_passes_between {cfg : Config} {id : NodeID} {isByz : Bool} {n : Nat}
    {events : List Event} {last hs : HotStuff} (h : o.Inclusive n)
    (hEvents : ∀ e ∈ events, o.event e)
    (hRun : run (HotStuff.step cfg) (HotStuff.new id isByz n) events = .ok last)
    {first rest : List Action}
    (hSplit : runActions cfg (HotStuff.new id isByz n) events = first ++ rest)
    (hAt : run (act cfg) (HotStuff.new id isByz n) first = .ok hs) :
    Passes (act cfg) (o.Permits cfg) (HotStuff.new id isByz n) first hs ∧ o.Covers hs := by
  obtain ⟨hPasses, hEnd⟩ := run_passes h hEvents hRun
  rw [hSplit] at hPasses
  refine ⟨⟨hAt, hPasses.guarded.of_append⟩, ?_⟩
  cases rest with
  | nil =>
      rw [List.append_nil] at hPasses
      cases hAt.symm.trans hPasses.returns
      exact hEnd
  | cons a rest =>
      have hFront := hPasses.guarded
      rw [← List.singleton_append, ← List.append_assoc] at hFront
      exact (hFront.of_append.last hAt).1

end Origins
end Bamboo
