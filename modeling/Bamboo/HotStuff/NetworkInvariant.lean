import Bamboo.HotStuff.Network

/-! What holds in every reachable state of the network. All data of the replicas
and all messages come from proposals and from recorded votes; a view has at most
one proposal, because its leader takes every view off its channel only once; and
a proposal is made after the block it extends. -/
namespace Bamboo

open Library LockedVoting

/-- The announced views that have not been taken are new, and increasing. -/
structure Pacemaker.Pending (pm : Pacemaker) : Prop where
  nonneg : 0 ≤ pm.curView
  sorted : pm.newViewChan.Pairwise (· < ·)
  bounds : ∀ view ∈ pm.newViewChan, 0 < view ∧ view ≤ pm.curView

theorem Pacemaker.Pending.advances {pm pm' : Pacemaker} (h : pm.Pending) (hPm : pm.Advances pm') :
    pm'.Pending := by
  obtain ⟨hLe, views, hChan, hSorted, hBounds⟩ := hPm
  refine ⟨h.nonneg.trans hLe, ?_, ?_⟩
  · rw [hChan]
    refine List.pairwise_append.mpr ⟨h.sorted, hSorted, fun view hView view' hView' => ?_⟩
    exact (h.bounds view hView).2.trans_lt (hBounds view' hView').1
  · intro view hView
    rw [hChan] at hView
    rcases List.mem_append.mp hView with hOld | hNew
    · exact ⟨(h.bounds view hOld).1, (h.bounds view hOld).2.trans hLe⟩
    · exact ⟨h.nonneg.trans_lt (hBounds view hNew).1, (hBounds view hNew).2⟩

/-- A view below everything on the channel stays there while views are announced. -/
theorem Pacemaker.Advances.above {pm pm' : Pacemaker} (hPm : pm.Advances pm') {view : View}
    (hLe : view ≤ pm.curView) (hBelow : ∀ later ∈ pm.newViewChan, view < later) :
    view ≤ pm'.curView ∧ ∀ later ∈ pm'.newViewChan, view < later := by
  obtain ⟨hView, views, hChan, _, hBounds⟩ := hPm
  refine ⟨hLe.trans hView, fun later hMem => ?_⟩
  rw [hChan] at hMem
  rcases List.mem_append.mp hMem with hOld | hNew
  · exact hBelow later hOld
  · exact hLe.trans_lt (hBounds later hNew).1

namespace Network

/-- A quorum of replicas has voted for the block of a certificate, and one of
these votes was in the certificate's view. -/
def Certifies (net : Network) (peers : Finset NodeID) (qc : QC) : Prop :=
  (∃ signers ⊆ peers, 2 * peers.card < 3 * signers.card ∧
    ∀ s ∈ signers, ∃ record ∈ (net.replicas s).voteLog, record.block.id = qc.blockID) ∧
  ∃ s ∈ peers, ∃ record ∈ (net.replicas s).voteLog,
    record.block.id = qc.blockID ∧ record.block.view = qc.view

/-- The sources of all data in the network. -/
def origins (net : Network) (peers : Finset NodeID) : Origins where
  qc := fun qc => (qc.view = 0 ∧ qc.blockID = 0) ∨ net.Certifies peers qc
  vote := fun vote => vote.voter ∈ peers ∧ ∃ record ∈ (net.replicas vote.voter).voteLog,
    record.block.id = vote.blockID ∧ record.block.view = vote.view
  block := fun b => b.toBlockHeader ∈ net.headers

/-- Votes and proposals are never forgotten. -/
structure Grows (net net' : Network) : Prop where
  voteLog : ∀ r, (net.replicas r).voteLog <+: (net'.replicas r).voteLog
  headers : ∀ h ∈ net.headers, h ∈ net'.headers

section Grows

variable {net net' : Network} {peers : Finset NodeID} (hGrows : net.Grows net')

include hGrows

theorem Grows.qc (qc : QC) (h : (net.origins peers).qc qc) : (net'.origins peers).qc qc := by
  rcases h with hGenesis | ⟨⟨signers, hSub, hCard, hVotes⟩, s, hs, record, hRecord, hBoth⟩
  · exact Or.inl hGenesis
  · refine Or.inr ⟨⟨signers, hSub, hCard, fun s hs => ?_⟩, s, hs, record, ?_, hBoth⟩
    · obtain ⟨record, hRecord, hId⟩ := hVotes s hs
      exact ⟨record, (hGrows.voteLog s).subset hRecord, hId⟩
    · exact (hGrows.voteLog s).subset hRecord

theorem Grows.vote (vote : Vote) (h : (net.origins peers).vote vote) :
    (net'.origins peers).vote vote := by
  obtain ⟨hPeer, record, hRecord, hBoth⟩ := h
  exact ⟨hPeer, record, (hGrows.voteLog _).subset hRecord, hBoth⟩

theorem Grows.block (b : Block) (h : (net.origins peers).block b) :
    (net'.origins peers).block b :=
  hGrows.headers _ h

theorem Grows.covers {hs : HotStuff} (h : (net.origins peers).Covers hs) :
    (net'.origins peers).Covers hs :=
  h.mono hGrows.qc hGrows.vote hGrows.block

theorem Grows.message {m : Message} (h : (net.origins peers).message m) :
    (net'.origins peers).message m :=
  Origins.message_mono hGrows.qc hGrows.vote hGrows.block h

theorem Grows.event {e : HotStuff.Event} (h : (net.origins peers).event e) :
    (net'.origins peers).event e := by
  cases e with
  | block block => exact hGrows.block block h
  | vote vote => exact hGrows.vote vote h
  | tmo tmo => exact fun qc hQC => hGrows.qc qc (h qc hQC)
  | localTmo view => trivial
  | kickOff => trivial

end Grows

/-- Every proposal extends the block of a known certificate, which is the start or
was proposed before. -/
def Built (net : Network) (peers : Finset NodeID) : Prop :=
  ∀ before h after, net.headers = before ++ h :: after → ∃ qc, h.qc = some qc ∧
    h.prevID = qc.blockID ∧ (net.origins peers).qc qc ∧
    ((qc.view = 0 ∧ qc.blockID = 0) ∨ ∃ p ∈ before, p.id = qc.blockID)

/-- What is built stays built when no proposal is added. -/
theorem Built.grow {peers : Finset NodeID} {net net' : Network} (h : net.Built peers)
    (hGrows : net.Grows net') (hHeaders : net'.headers = net.headers) : net'.Built peers := by
  intro before header after hSplit
  obtain ⟨qc, hQC, hPrev, hKnown, hEarlier⟩ := h before header after (hHeaders ▸ hSplit)
  exact ⟨qc, hQC, hPrev, hGrows.qc qc hKnown, hEarlier⟩

/-- The part of the invariant that is about the replica `r`. -/
structure Local (cfg : Config) (o : Origins) (n : Nat) (r : NodeID) (hs : HotStuff) : Prop where
  id_eq : hs.id = r
  total_eq : hs.bc.quorum.total = n
  drained : hs.outbox = []
  recorded : hs.Recorded cfg
  covers : o.Covers hs
  pending : hs.pm.Pending

/-- A replica that is not touched. -/
theorem Local.mono {cfg : Config} {peers : Finset NodeID} {net net' : Network} {n : Nat}
    {r : NodeID} {hs : HotStuff} (h : Local cfg (net.origins peers) n r hs)
    (hGrows : net.Grows net') : Local cfg (net'.origins peers) n r hs :=
  { h with covers := hGrows.covers h.covers }

/-- A replica that has handled an event and whose messages have been taken. -/
theorem Local.react {cfg : Config} {o o' : Origins} {n : Nat} {r : NodeID} {hs hs' : HotStuff}
    {early : List Message} {e : HotStuff.Event} (h : Local cfg o n r hs)
    (hStep : { hs with outbox := early }.step cfg e = .ok hs') (hCovers : o'.Covers hs') :
    Local cfg o' n r { hs' with outbox := [] } := by
  have hProgress := HotStuff.step_progress hStep
  have hBefore : HotStuff.Recorded cfg { hs with outbox := early } := { h.recorded with }
  have hRecorded := hBefore.step hStep
  exact {
    id_eq := hProgress.id_eq.trans h.id_eq
    total_eq := hProgress.total_eq.trans h.total_eq
    drained := rfl
    recorded := { hRecorded with }
    covers := { hCovers with outbox := by simp }
    pending := h.pending.advances hProgress.pm }

/-- A replica that has taken a view off its channel. -/
theorem Local.takeView {cfg : Config} {o : Origins} {n : Nat} {r : NodeID} {hs : HotStuff}
    {view : View} {rest : List View} (h : Local cfg o n r hs)
    (hChan : hs.pm.newViewChan = view :: rest) :
    Local cfg o n r { hs with pm := { hs.pm with newViewChan := rest } } := by
  have hSorted := h.pending.sorted
  rw [hChan] at hSorted
  exact { h with
    recorded := { h.recorded with }
    covers := { h.covers with }
    pending := ⟨h.pending.nonneg, hSorted.of_cons, fun v hv =>
      h.pending.bounds v (hChan ▸ List.mem_cons_of_mem _ hv)⟩ }

structure Invariant (cfg : Config) (peers : Finset NodeID) (net : Network) : Prop where
  replica : ∀ r, Local cfg (net.origins peers) peers.card r (net.replicas r)
  sent : ∀ m ∈ net.sent, (net.origins peers).message m
  proposed : ∀ h ∈ net.headers, cfg.election.isLeader h.proposer h.view = true ∧ 0 < h.view ∧
    h.view ≤ (net.replicas h.proposer).pm.curView ∧
    ∀ view ∈ (net.replicas h.proposer).pm.newViewChan, h.view < view
  oneView : (net.headers.map BlockHeader.view).Nodup
  built : net.Built peers

theorem new_invariant (cfg : Config) (peers : Finset NodeID) :
    (new peers.card).Invariant cfg peers where
  replica r := {
    id_eq := rfl
    total_eq := rfl
    drained := rfl
    recorded := HotStuff.new_recorded cfg r peers.card
    covers := Origins.new_covers r false peers.card (Or.inl ⟨rfl, rfl⟩)
    pending := ⟨le_refl _, List.Pairwise.nil, by simp [new, HotStuff.new, Pacemaker.new]⟩ }
  sent m hm := by cases hm
  proposed h hh := by cases hh
  oneView := List.nodup_nil
  built before h after hSplit := by simp [new, headers] at hSplit

/-- Every certificate in a known block, and every one built from known votes, is
known. -/
theorem Built.closed {peers : Finset NodeID} {net : Network} (h : net.Built peers) :
    (net.origins peers).Closed peers.card where
  carried block qc hBlock hQC := by
    obtain ⟨before, after, hSplit⟩ := List.append_of_mem hBlock
    obtain ⟨qc', hQC', _, hKnown, _⟩ := h before _ after hSplit
    cases hQC.symm.trans hQC'
    exact hKnown
  quorum vote qc hVote hView hBlock hNodup hSize hSigners := by
    refine Or.inr ⟨⟨qc.signers.toFinset, ?_, ?_, ?_⟩, vote.voter, hVote.1, ?_⟩
    · intro s hs
      obtain ⟨found, hFound, _, rfl⟩ := hSigners s (List.mem_toFinset.mp hs)
      exact hFound.1
    · rw [List.toFinset_card_of_nodup hNodup]
      omega
    · intro s hs
      obtain ⟨found, ⟨_, record, hRecord, hId, _⟩, hFoundBlock, rfl⟩ :=
        hSigners s (List.mem_toFinset.mp hs)
      exact ⟨record, hRecord, hId.trans (hFoundBlock.trans hBlock.symm)⟩
    · obtain ⟨_, record, hRecord, hId, hRecordView⟩ := hVote
      exact ⟨record, hRecord, hId.trans hBlock.symm, hRecordView.trans hView.symm⟩

theorem setReplica_cases (net : Network) (r : NodeID) (hs : HotStuff) (r' : NodeID) :
    (r' = r ∧ (net.setReplica r hs).replicas r' = hs) ∨
      (r' ≠ r ∧ (net.setReplica r hs).replicas r' = net.replicas r') := by
  by_cases hr : r' = r
  · subst hr
    exact Or.inl ⟨rfl, Function.update_self _ _ _⟩
  · exact Or.inr ⟨hr, Function.update_of_ne hr _ _⟩

theorem headers_of_noProposal {net net' : Network} {sent : List Message}
    (hSent : net'.sent = net.sent ++ sent) (hNone : ∀ p, Message.proposal p ∉ sent) :
    net'.headers = net.headers := by
  have hEmpty : sent.filterMap Message.header = [] := by
    rw [List.filterMap_eq_nil_iff]
    intro m hm
    cases m with
    | proposal p => exact absurd hm (hNone p)
    | vote recipient vote => rfl
    | tmo tmo => rfl
  unfold headers
  rw [hSent, List.filterMap_append, hEmpty, List.append_nil]

/-- Handling an event whose data is known keeps the invariant. The replica may have sent some
messages before in the same call, which are in the network already. -/
theorem Invariant.react {cfg : Config} {peers : Finset NodeID} {net : Network} {r : NodeID}
    {e : HotStuff.Event} {hs : HotStuff} {early new : List Message} (h : net.Invariant cfg peers)
    (hr : r ∈ peers) (hEvent : (net.origins peers).event e) (hEarly : ∀ m ∈ early, m ∈ net.sent)
    (hStep : { net.replicas r with outbox := early }.step cfg e = .ok hs)
    (hNew : hs.outbox = early ++ new) :
    Invariant cfg peers { net.setReplica r { hs with outbox := [] } with sent := net.sent ++ new } := by
  have hLocal := h.replica r
  have hProgress := HotStuff.step_progress hStep
  generalize hNet : ({ net.setReplica r { hs with outbox := [] } with
    sent := net.sent ++ new } : Network) = net'
  have hSent : net'.sent = net.sent ++ new := by
    rw [← hNet]
  have hReplicas : ∀ r', (r' = r ∧ net'.replicas r' = { hs with outbox := [] }) ∨
      (r' ≠ r ∧ net'.replicas r' = net.replicas r') := by
    intro r'
    rw [← hNet]
    exact setReplica_cases net r _ r'
  have hHeaders : net'.headers = net.headers := by
    obtain ⟨sent, hOutbox, hNone⟩ := hProgress.outbox
    obtain rfl : new = sent := List.append_cancel_left (hNew.symm.trans hOutbox)
    exact headers_of_noProposal hSent hNone
  have hGrows : net.Grows net' := by
    refine ⟨fun r' => ?_, fun header hHeader => hHeaders ▸ hHeader⟩
    rcases hReplicas r' with ⟨rfl, hEq⟩ | ⟨_, hEq⟩
    · rw [hEq]
      exact hProgress.voteLog
    · rw [hEq]
  have hBuilt : net'.Built peers := h.built.grow hGrows hHeaders
  have hCovers : (net'.origins peers).Covers hs := by
    have hBefore : (net'.origins peers).Covers { net.replicas r with outbox := early } :=
      { hGrows.covers hLocal.covers with
        outbox := fun m hm => hGrows.message (h.sent m (hEarly m hm)) }
    refine hBefore.step (hLocal.total_eq ▸ hBuilt.closed) (hGrows.event hEvent) ?_ hStep
    -- a vote made in this event is in the replica's log afterwards
    intro record hRecord vote hVoter hView hId
    rw [hLocal.id_eq] at hVoter
    refine ⟨hVoter ▸ hr, record, ?_, hId.symm, hView.symm⟩
    rcases hReplicas vote.voter with ⟨_, hEq⟩ | ⟨hNe, _⟩
    · rw [hEq]
      exact hRecord
    · exact absurd hVoter hNe
  refine ⟨fun r' => ?_, fun m hm => ?_, fun header hHeader => ?_, hHeaders ▸ h.oneView, hBuilt⟩
  · rcases hReplicas r' with ⟨rfl, hEq⟩ | ⟨_, hEq⟩
    · rw [hEq]
      exact hLocal.react hStep hCovers
    · rw [hEq]
      exact (h.replica r').mono hGrows
  · rw [hSent] at hm
    rcases List.mem_append.mp hm with hOld | hLater
    · exact hGrows.message (h.sent m hOld)
    · exact hCovers.outbox m (hNew ▸ List.mem_append_right early hLater)
  · obtain ⟨hLeader, hPos, hLe, hBelow⟩ := h.proposed header (hHeaders ▸ hHeader)
    have hAdvances : (net.replicas header.proposer).pm.Advances
        (net'.replicas header.proposer).pm := by
      rcases hReplicas header.proposer with ⟨hEq', hEq⟩ | ⟨_, hEq⟩
      · rw [hEq, hEq']
        exact hProgress.pm
      · rw [hEq]
        exact .refl _
    exact ⟨hLeader, hPos, hAdvances.above hLe hBelow⟩

theorem Invariant.reacts {cfg : Config} {peers : Finset NodeID} {net net' : Network} {r : NodeID}
    {e : HotStuff.Event} (h : net.Invariant cfg peers) (hr : r ∈ peers)
    (hEvent : (net.origins peers).event e) (hReact : net.react cfg r e = .ok net') :
    net'.Invariant cfg peers := by
  obtain ⟨hs, hStep, hDone⟩ := Outcome.bind_eq_ok.mp hReact
  cases Outcome.pure_eq_ok.mp hDone
  have hIdle : { net.replicas r with outbox := [] } = net.replicas r := by
    rw [← (h.replica r).drained]
  rw [← hIdle] at hStep
  exact h.react hr hEvent (fun _ hm => absurd hm List.not_mem_nil) hStep rfl

/-- Taking a view off the channel of a replica. -/
theorem Invariant.takeView {cfg : Config} {peers : Finset NodeID} {net : Network} {r : NodeID}
    {view : View} {rest : List View} (h : net.Invariant cfg peers)
    (hChan : (net.replicas r).pm.newViewChan = view :: rest) :
    Invariant cfg peers (net.setReplica r
      { net.replicas r with pm := { (net.replicas r).pm with newViewChan := rest } }) := by
  have hLocal := h.replica r
  have hReplicas := setReplica_cases net r
    { net.replicas r with pm := { (net.replicas r).pm with newViewChan := rest } }
  generalize hNet : net.setReplica r
    { net.replicas r with pm := { (net.replicas r).pm with newViewChan := rest } } = net'
    at hReplicas ⊢
  have hSent : net'.sent = net.sent := by rw [← hNet]; rfl
  have hHeaders : net'.headers = net.headers := by
    unfold headers
    rw [hSent]
  have hGrows : net.Grows net' := by
    refine ⟨fun r' => ?_, fun header hHeader => hHeaders ▸ hHeader⟩
    rcases hReplicas r' with ⟨rfl, hEq⟩ | ⟨_, hEq⟩ <;> rw [hEq]
  refine ⟨fun r' => ?_, fun m hm => hGrows.message (h.sent m (hSent ▸ hm)),
    fun header hHeader => ?_, hHeaders ▸ h.oneView, h.built.grow hGrows hHeaders⟩
  · rcases hReplicas r' with ⟨rfl, hEq⟩ | ⟨_, hEq⟩
    · rw [hEq]
      exact (hLocal.takeView hChan).mono hGrows
    · rw [hEq]
      exact (h.replica r').mono hGrows
  · obtain ⟨hLeader, hPos, hLe, hBelow⟩ := h.proposed header (hHeaders ▸ hHeader)
    rcases hReplicas header.proposer with ⟨hProposer, hEq⟩ | ⟨_, hEq⟩
    · rw [hEq]
      rw [hProposer] at hLe hBelow
      exact ⟨hLeader, hPos, hLe, fun v hv => hBelow v (hChan ▸ List.mem_cons_of_mem _ hv)⟩
    · rw [hEq]
      exact ⟨hLeader, hPos, hLe, hBelow⟩

/-- Sending a proposal for a view that has none, on top of the highest
certificate of its proposer. -/
theorem Invariant.announce {cfg : Config} {peers : Finset NodeID} {net : Network} {p : Proposal}
    (h : net.Invariant cfg peers) (hQC : p.qc = some (net.replicas p.proposer).highQC)
    (hPrev : p.prevID = (net.replicas p.proposer).highQC.blockID)
    (hLeader : cfg.election.isLeader p.proposer p.view = true) (hPos : 0 < p.view)
    (hLe : p.view ≤ (net.replicas p.proposer).pm.curView)
    (hBelow : ∀ view ∈ (net.replicas p.proposer).pm.newViewChan, p.view < view)
    (hFresh : ∀ header ∈ net.headers, header.view ≠ p.view) :
    Invariant cfg peers { net with sent := net.sent ++ [.proposal p] } := by
  have hHeaders : headers { net with sent := net.sent ++ [.proposal p] } =
      net.headers ++ [p.toBlockHeader] := by
    unfold headers
    rw [List.filterMap_append]
    rfl
  have hGrows : net.Grows { net with sent := net.sent ++ [.proposal p] } := by
    refine ⟨fun r => List.prefix_rfl, fun header hHeader => ?_⟩
    rw [hHeaders]
    exact List.mem_append_left _ hHeader
  have hKnown := (h.replica p.proposer).covers.highQC
  refine ⟨fun r => ?_, fun m hm => ?_, fun header hHeader => ?_, ?_,
    fun before header after hSplit => ?_⟩
  · exact (h.replica r).mono hGrows
  · rcases List.mem_append.mp hm with hOld | hNew
    · exact hGrows.message (h.sent m hOld)
    · cases List.mem_singleton.mp hNew
      intro payload
      change p.toBlockHeader ∈ headers { net with sent := net.sent ++ [.proposal p] }
      rw [hHeaders]
      exact List.mem_append_right _ (List.mem_singleton.mpr rfl)
  · rw [hHeaders] at hHeader
    rcases List.mem_append.mp hHeader with hOld | hNew
    · exact h.proposed header hOld
    · cases List.mem_singleton.mp hNew
      exact ⟨hLeader, hPos, hLe, hBelow⟩
  · rw [hHeaders, List.map_append]
    refine List.nodup_append.mpr ⟨h.oneView, List.nodup_singleton _, fun view hView view' hNew => ?_⟩
    cases List.mem_singleton.mp hNew
    obtain ⟨header, hHeader, rfl⟩ := List.mem_map.mp hView
    exact hFresh header hHeader
  · rw [hHeaders] at hSplit
    rcases List.eq_nil_or_concat after with rfl | ⟨middle, last, rfl⟩
    · -- the new proposal: a vote for its parent has been recorded, so the parent was proposed
      obtain ⟨rfl, hLast⟩ := List.append_inj' hSplit rfl
      cases hLast
      refine ⟨_, hQC, hPrev, hGrows.qc _ hKnown, ?_⟩
      rcases hKnown with hGenesis | ⟨_, s, _, record, hRecord, hId, _⟩
      · exact Or.inl hGenesis
      · have hVoted := ((h.replica s).covers.recorded record hRecord).1
        exact Or.inr ⟨record.block.toBlockHeader, hVoted, hId⟩
    · have hOld : net.headers = before ++ header :: middle := by
        have hEnds : net.headers ++ [p.toBlockHeader] = (before ++ header :: middle) ++ [last] := by
          simpa using hSplit
        exact (List.append_inj' hEnds rfl).1
      obtain ⟨qc, hQC, hPrev, hKnown, hEarlier⟩ := h.built before header middle hOld
      exact ⟨qc, hQC, hPrev, hGrows.qc qc hKnown, hEarlier⟩

theorem makeProposal_ok {cfg : Config} {hs : HotStuff} {view : View} {payload : List Identifier}
    {groupList : List Int} {ackNode : List (Finset NodeID)} {mbTime txNums : List Int} {p : Proposal}
    (hHonest : hs.isByz = false)
    (h : hs.makeProposal cfg view payload groupList ackNode mbTime txNums = .ok p) :
    p.view = view ∧ p.qc = some hs.highQC ∧ p.proposer = hs.id ∧ p.prevID = hs.highQC.blockID := by
  obtain ⟨qc, hChoice, hBuild⟩ := Outcome.bind_eq_ok.mp h
  unfold HotStuff.forkChoice at hChoice
  rw [if_pos (Or.inl hHonest)] at hChoice
  cases Outcome.pure_eq_ok.mp hChoice
  obtain ⟨hView, hQC, hProposer, hPrev, _⟩ := buildProposal_ok hBuild
  exact ⟨hView, hQC, hProposer, hPrev⟩

/-- A leader proposes for a view that has no proposal yet. -/
theorem Invariant.proposeBlock {cfg : Config} {peers : Finset NodeID} {net : Network} {r : NodeID}
    {view : View} {payload : Payload} {hs : HotStuff} (h : net.Invariant cfg peers) (hr : r ∈ peers)
    (hLeader : cfg.election.isLeader r view = true) (hPos : 0 < view)
    (hLe : view ≤ (net.replicas r).pm.curView)
    (hBelow : ∀ later ∈ (net.replicas r).pm.newViewChan, view < later)
    (hFresh : ∀ header ∈ net.headers, header.view ≠ view)
    (hStep : (net.replicas r).proposeBlock cfg view payload = .ok hs) :
    (net.after r hs).Invariant cfg peers := by
  have hLocal := h.replica r
  obtain ⟨p, hMake, hBlock⟩ := Outcome.bind_eq_ok.mp hStep
  obtain ⟨hView, hQC, hProposer, hPrev⟩ := makeProposal_ok hLocal.recorded.honest hMake
  have hOwner : p.proposer = r := hProposer.trans hLocal.id_eq
  have hAnnounced := h.announce (p := p)
  rw [hOwner, hView] at hAnnounced
  replace hAnnounced := hAnnounced hQC hPrev hLeader hPos hLe hBelow hFresh
  have hKnown : Message.proposal p ∈ net.sent ++ [.proposal p] :=
    List.mem_append_right _ (List.mem_singleton.mpr rfl)
  have hSend : (net.replicas r).send (.proposal p) =
      { net.replicas r with outbox := [.proposal p] } := by
    rw [HotStuff.send, hLocal.drained, List.nil_append]
  rw [hSend] at hBlock
  obtain ⟨new, hOutbox, _⟩ := (HotStuff.step_progress hBlock).outbox
  have hReacted := hAnnounced.react (e := .block (buildBlock p payload)) hr
    (hAnnounced.sent (.proposal p) hKnown payload)
    (fun m hm => List.mem_singleton.mp hm ▸ hKnown) hBlock hOutbox
  rw [after, hOutbox, ← List.append_assoc]
  exact hReacted

/-- A view that waits for its leader has no proposal yet: the proposer would be the same leader,
whose views on the channel are all new. -/
theorem Invariant.unproposed {cfg : Config} {peers : Finset NodeID} {net : Network} {r : NodeID}
    {view : View} (h : net.Invariant cfg peers) (hElection : cfg.election.Consistent)
    (hLeader : cfg.election.isLeader r view = true)
    (hMember : view ∈ (net.replicas r).pm.newViewChan) :
    ∀ header ∈ net.headers, header.view ≠ view := by
  intro header hHeader hSame
  obtain ⟨hOther, _, _, hBelow⟩ := h.proposed header hHeader
  rw [hSame] at hOther
  have hProposed : header.proposer = r :=
    ((hElection _ _).mp hOther).trans ((hElection _ _).mp hLeader).symm
  rw [hProposed] at hBelow
  exact absurd hSame (hBelow view hMember).ne

theorem Invariant.processNewView {cfg : Config} {peers : Finset NodeID} {net net' : Network}
    {r : NodeID} {payload : Payload} (h : net.Invariant cfg peers) (hElection : cfg.election.Consistent)
    (hr : r ∈ peers) (hStep : net.processNewView cfg r payload = .ok net') :
    net'.Invariant cfg peers := by
  unfold Network.processNewView at hStep
  dsimp only at hStep
  split at hStep
  · cases Outcome.pure_eq_ok.mp hStep
    exact h
  · next view rest hChan =>
      have hLocal := h.replica r
      have hMember : view ∈ (net.replicas r).pm.newViewChan := hChan ▸ List.mem_cons_self
      obtain ⟨hs, hHandled, hDone⟩ := Outcome.bind_eq_ok.mp hStep
      cases Outcome.pure_eq_ok.mp hDone
      have hTaken := h.takeView hChan
      let taken : HotStuff :=
        { net.replicas r with pm := { (net.replicas r).pm with newViewChan := rest } }
      have hSelf : (net.setReplica r taken).replicas r = taken := Function.update_self _ _ _
      rw [← net.after_setReplica r taken hs]
      unfold HotStuff.processNewView at hHandled
      split_ifs at hHandled with hLeader
      · have hSorted := hLocal.pending.sorted
        rw [hChan] at hSorted
        replace hLeader : cfg.election.isLeader r view = true := hLocal.id_eq ▸ hLeader
        obtain ⟨hPos, hLe⟩ := hLocal.pending.bounds view hMember
        have hPropose : ((net.setReplica r taken).replicas r).proposeBlock cfg view payload =
            .ok hs := by
          rw [hSelf]
          exact hHandled
        refine hTaken.proposeBlock hr hLeader hPos ?_ ?_ (h.unproposed hElection hLeader hMember)
          hPropose
        · rw [hSelf]
          exact hLe
        · rw [hSelf]
          exact fun later hLater => List.rel_of_pairwise_cons hSorted hLater
      · cases Outcome.pure_eq_ok.mp hHandled
        have hIdle : taken.outbox = [] := hLocal.drained
        rw [net.after_setReplica, after_of_drained hIdle]
        exact hTaken

theorem Invariant.step {cfg : Config} {peers : Finset NodeID} {net net' : Network} {e : Event}
    (h : net.Invariant cfg peers) (hElection : cfg.election.Consistent)
    (hStep : net.step cfg peers e = .ok net') : net'.Invariant cfg peers := by
  unfold Network.step at hStep
  split_ifs at hStep with hPeer
  · cases e with
    | newView r payload => exact h.processNewView hElection hPeer hStep
    | deliver r message payload =>
        dsimp only at hStep
        split_ifs at hStep with hDelivered
        · refine h.reacts hPeer ?_ hStep
          have hKnown := h.sent message hDelivered.1
          cases message with
          | proposal p => exact hKnown payload
          | vote recipient vote => exact hKnown
          | tmo tmo =>
              intro qc hQC
              obtain ⟨qc', hQC', hCertificate⟩ := hKnown
              cases hQC.symm.trans hQC'
              exact hCertificate
        · cases Outcome.pure_eq_ok.mp hStep
          exact h
    | localTmo r view => exact h.reacts (e := .localTmo view) hPeer trivial hStep
    | kickOff r => exact h.reacts (e := .kickOff) hPeer trivial hStep
  · cases Outcome.pure_eq_ok.mp hStep
    exact h

/-- The invariant holds in every reachable state of the network. -/
theorem run_network_invariant {cfg : Config} {peers : Finset NodeID} {events : List Event}
    {net : Network} (hElection : cfg.election.Consistent)
    (h : run (Network.step cfg peers) (new peers.card) events = .ok net) :
    net.Invariant cfg peers :=
  run_invariant (fun _ _ _ hPast hStep => hPast.step hElection hStep) h (new_invariant cfg peers)

end Network
end Bamboo
