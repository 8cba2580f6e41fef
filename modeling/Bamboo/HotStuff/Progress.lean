import Bamboo.HotStuff.FaultFree

/-! The network without faults. In every view the leader proposes, the proposal reaches the
other replicas in some order, and after that their votes reach the next leader in some order. No
timer fires. -/
namespace Bamboo

open Library

namespace Network

theorem react_eq {cfg : Config} {net : Network} {r : NodeID} {e : HotStuff.Event} {hs : HotStuff}
    (h : (net.replicas r).step cfg e = .ok hs) : net.react cfg r e = .ok (net.after r hs) := by
  rw [react, h]
  rfl

@[simp] theorem after_replicas_self (net : Network) (r : NodeID) (hs : HotStuff) :
    (net.after r hs).replicas r = { hs with outbox := [] } := by
  simp [after, setReplica]

theorem after_replicas_ne (net : Network) {r r' : NodeID} (hs : HotStuff) (h : r' ≠ r) :
    (net.after r hs).replicas r' = net.replicas r' := by
  simp [after, setReplica, h]

@[simp] theorem after_sent (net : Network) (r : NodeID) (hs : HotStuff) :
    (net.after r hs).sent = net.sent ++ hs.outbox := rfl

/-- The network once a replica has taken an announced view off its channel. -/
def taking (net : Network) (r : NodeID) (rest : List View) : Network :=
  net.setReplica r { net.replicas r with
    pm := { (net.replicas r).pm with newViewChan := rest } }

@[simp] theorem taking_replicas_self (net : Network) (r : NodeID) (rest : List View) :
    (net.taking r rest).replicas r =
      { net.replicas r with pm := { (net.replicas r).pm with newViewChan := rest } } := by
  simp [taking, setReplica]

theorem processNewView_eq {cfg : Config} {net : Network} {r : NodeID} {view : View}
    {rest : List View} (h : (net.replicas r).pm.newViewChan = view :: rest) {payload : Payload}
    {hs : HotStuff}
    (hStep : ((net.taking r rest).replicas r).processNewView cfg view payload = .ok hs) :
    net.processNewView cfg r payload = .ok (net.after r hs) := by
  rw [taking_replicas_self] at hStep
  unfold processNewView
  dsimp only
  rw [h]
  exact Outcome.bind_eq_ok.mpr ⟨hs, hStep, rfl⟩

theorem taking_replicas_ne (net : Network) {r r' : NodeID} (rest : List View) (h : r' ≠ r) :
    (net.taking r rest).replicas r' = net.replicas r' := by
  simp [taking, setReplica, h]

@[simp] theorem taking_sent (net : Network) (r : NodeID) (rest : List View) :
    (net.taking r rest).sent = net.sent := rfl

/-- A replica only takes a view that it does not lead off its channel. -/
theorem step_newView_taking {cfg : Config} {peers : Finset NodeID} {net : Network} {r : NodeID}
    {view : View} {rest : List View} (payload : Payload) (hr : r ∈ peers)
    (hChan : (net.replicas r).pm.newViewChan = view :: rest)
    (hDrained : (net.replicas r).outbox = [])
    (hOther : ¬cfg.election.isLeader (net.replicas r).id view = true) :
    net.step cfg peers (.newView r payload) = .ok (net.taking r rest) := by
  have hIdle : ((net.taking r rest).replicas r).processNewView cfg view payload =
      .ok ((net.taking r rest).replicas r) := by
    rw [taking_replicas_self]
    exact if_neg hOther
  unfold Network.step
  rw [Network.Event.replica, if_pos hr]
  refine (processNewView_eq hChan hIdle).trans (congrArg Except.ok ?_)
  rw [after_of_drained (by rw [taking_replicas_self]; exact hDrained), taking_replicas_self]
  rfl

end Network

namespace FaultFree

variable (s : FaultFree)

/-- A replica gets the proposal of a view, and then takes the view that it has entered with it
off its channel. -/
def hears (view : Nat) (r : NodeID) : List Network.Event :=
  [.deliver r (.proposal (s.proposal view)) (s.payload view r), .newView r {}]

/-- The vote of a replica reaches the next leader. -/
def counts (view : Nat) (r : NodeID) : Network.Event :=
  .deliver (s.leader (view + 1)) (.vote (s.leader (view + 1)) (s.ballot view r)) {}

/-- The events of a view. -/
def round (view : Nat) : List Network.Event :=
  .newView (s.leader view) (s.payload view (s.leader view)) ::
    (((s.order view).filter (· ≠ s.leader view)).flatMap (s.hears view) ++
      ((s.tally view).filter (· ≠ s.leader (view + 1))).map (s.counts view))

/-- The events of the first views. -/
def schedule : Nat → List Network.Event
  | 0 => [.kickOff (s.leader 1)]
  | views + 1 => schedule views ++ s.round (views + 1)

/-- The network after a view. The next leader has entered the next one. -/
def Between (last view : Nat) (net : Network) : Prop :=
  ∀ r ∈ s.peers,
    s.InStep last ∅ r (if r = s.leader (view + 1) then view + 1 else view) view (net.replicas r) ∧
    (net.replicas r).outbox = [] ∧
    (net.replicas r).pm.newViewChan = if r = s.leader (view + 1) then [(view + 1 : View)] else []

/-- The proposal of a view has reached the replicas in `done`. -/
structure Spreads (last seen : Nat) (done : List NodeID) (net : Network) : Prop where
  proposed : Message.proposal (s.proposal (seen + 1)) ∈ net.sent
  voted : ∀ r ∈ done, s.Voted last ∅ (seen + 1) r [] (net.replicas r) ∧
    (net.replicas r).outbox = []
  waiting : ∀ r ∈ s.peers, r ∉ done → s.InStep last ∅ r seen seen (net.replicas r) ∧
    (net.replicas r).outbox = [] ∧ (net.replicas r).pm.newViewChan = []
  sent : ∀ r ∈ done, ∀ m ∈ s.votesSent (seen + 1) r, m ∈ net.sent

/-- The votes of the replicas in `done` have reached the next leader. -/
structure Counts (last view : Nat) (done : List NodeID) (net : Network) : Prop where
  collects : s.Collects last ∅ view done [] (net.replicas (s.leader (view + 1)))
  others : ∀ r ∈ s.peers, r ≠ s.leader (view + 1) → s.InStep last ∅ r view view (net.replicas r) ∧
    (net.replicas r).pm.newViewChan = []
  idle : ∀ r ∈ s.peers, (net.replicas r).outbox = []
  sent : ∀ r ∈ s.peers, ∀ m ∈ s.votesSent view r, m ∈ net.sent

variable {s} {last seen view : Nat} {r : NodeID} {announced : List View} {hs : HotStuff}

theorem Voted.handled (h : s.Voted last ∅ view r announced hs) :
    s.Voted last ∅ view r announced { hs with outbox := [] } := by
  unfold Voted at h ⊢
  split_ifs at h ⊢
  · exact ⟨{ h.inStep with }, h.tallies, h.newViewChan⟩
  · exact ⟨{ h.1 with }, h.2⟩

theorem Voted.id (h : s.Voted last ∅ view r announced hs) : hs.id = r := by
  unfold Voted at h
  split_ifs at h with hCollector
  · exact h.inStep.id.trans hCollector.symm
  · exact h.1.id

/-- The replica takes an announced view. -/
theorem Voted.taken {first : View} (h : s.Voted last ∅ view r (first :: announced) hs) :
    ∃ rest, hs.pm.newViewChan = first :: rest ∧
      s.Voted last ∅ view r announced { hs with pm := { hs.pm with newViewChan := rest } } := by
  unfold Voted at h ⊢
  split_ifs at h ⊢
  · refine ⟨_, h.newViewChan, ⟨{ h.inStep with }, h.tallies, rfl⟩⟩
  · exact ⟨announced, h.2, { h.1 with }, rfl⟩

section Run

variable {net net' : Network} {done : List NodeID}

theorem Spreads.extend (h : s.Spreads last seen done net)
    (hOthers : ∀ r', r' ≠ r → net'.replicas r' = net.replicas r')
    (hSent : ∀ m ∈ net.sent, m ∈ net'.sent)
    (hVoted : s.Voted last ∅ (seen + 1) r [] (net'.replicas r))
    (hOutbox : (net'.replicas r).outbox = [])
    (hVotes : ∀ m ∈ s.votesSent (seen + 1) r, m ∈ net'.sent) :
    s.Spreads last seen (done ++ [r]) net' where
  proposed := hSent _ h.proposed
  voted r' hr' := by
    by_cases hSame : r' = r
    · rw [hSame]
      exact ⟨hVoted, hOutbox⟩
    · rw [hOthers r' hSame]
      exact h.voted r' (by simpa [hSame] using hr')
  waiting r' hPeer hr' := by
    simp only [List.mem_append, List.mem_singleton, not_or] at hr'
    rw [hOthers r' hr'.2]
    exact h.waiting r' hPeer hr'.1
  sent r' hr' m hm := by
    rcases List.mem_append.mp hr' with hOld | hNew
    · exact hSent m (h.sent r' hOld m hm)
    · rw [List.mem_singleton.mp hNew] at hm
      exact hVotes m hm

/-- The leader takes its view, proposes and votes. -/
theorem Between.propose (hDistinct : s.Distinct last) (h : s.Between last seen net)
    (hLast : seen + 1 ≤ last) :
    ∃ net', net.step s.cfg s.peers (.newView (s.leader (seen + 1))
        (s.payload (seen + 1) (s.leader (seen + 1)))) = .ok net' ∧
      s.Spreads last seen [s.leader (seen + 1)] net' := by
  obtain ⟨hStep, hOutbox, hChan⟩ := h _ (leader_mem_peers (seen + 1))
  rw [if_pos rfl] at hStep hChan
  have hLeader : s.cfg.election.isLeader (net.replicas (s.leader (seen + 1))).id
      (seen + 1 : Nat) = true := by
    rw [hStep.id]
    exact (s.isLeader_iff _ (leader_mem_peers _) _).mpr rfl
  let taken := (net.taking (s.leader (seen + 1)) []).replicas (s.leader (seen + 1))
  have hTaken : taken = { net.replicas (s.leader (seen + 1)) with
      pm := { (net.replicas (s.leader (seen + 1))).pm with newViewChan := [] } } :=
    Network.taking_replicas_self net _ []
  have hReady : s.InStep last ∅ (s.leader (seen + 1)) (seen + 1) seen taken := by
    rw [hTaken]
    exact { hStep with }
  have hSending : s.InStep last ∅ (s.leader (seen + 1)) (seen + 1) seen
      (taken.send (.proposal (s.proposal (seen + 1)))) := { hReady with }
  obtain ⟨hs', hProcess, hVoted, hSent⟩ :=
    hSending.processBlock hDistinct (if_pos rfl).symm (leader_mem_peers _) hLast
  have hChannel : (taken.send (.proposal (s.proposal (seen + 1)))).pm.newViewChan = [] := by
    rw [hTaken]
    rfl
  have hFirst : (taken.send (.proposal (s.proposal (seen + 1)))).outbox =
      [.proposal (s.proposal (seen + 1))] := by
    rw [hTaken, HotStuff.send, hOutbox]
    rfl
  rw [if_pos rfl, hChannel] at hVoted
  rw [hFirst] at hSent
  have hNewView : taken.processNewView s.cfg (seen + 1 : Nat)
      (s.payload (seen + 1) (s.leader (seen + 1))) = .ok hs' := by
    rw [HotStuff.processNewView, hTaken, if_pos hLeader, ← hTaken]
    exact Outcome.bind_eq_ok.mpr ⟨_, hReady.makeProposal,
      Outcome.bind_eq_ok.mpr ⟨_, hProcess, rfl⟩⟩
  refine ⟨net.after (s.leader (seen + 1)) hs', ?_, ?_, ?_, ?_, ?_⟩
  · unfold Network.step
    rw [Network.Event.replica, if_pos (leader_mem_peers _)]
    exact Network.processNewView_eq hChan hNewView
  · rw [Network.after_sent, hSent]
    simp
  · intro r hr
    rw [List.mem_singleton.mp hr, Network.after_replicas_self]
    exact ⟨hVoted.handled, rfl⟩
  · intro r hPeer hr
    rw [List.mem_singleton] at hr
    have hOther := h r hPeer
    rw [if_neg hr, if_neg hr] at hOther
    rw [Network.after_replicas_ne net hs' hr]
    exact hOther
  · intro r hr m hm
    rw [List.mem_singleton.mp hr] at hm
    rw [Network.after_sent, hSent]
    simp [hm]

/-- Another replica gets the proposal, votes, and takes the view it has entered. -/
theorem Spreads.hears (hDistinct : s.Distinct last) (h : s.Spreads last seen done net)
    (hLast : seen + 1 ≤ last) (hr : r ∈ s.peers) (hNew : r ∉ done)
    (hLeader : s.leader (seen + 1) ∈ done) :
    ∃ net', run (Network.step s.cfg s.peers) net (s.hears (seen + 1) r) = .ok net' ∧
      s.Spreads last seen (done ++ [r]) net' := by
  have hOther : r ≠ s.leader (seen + 1) := fun hSame => hNew (hSame ▸ hLeader)
  obtain ⟨hStep, hOutbox, hChan⟩ := h.waiting r hr hNew
  obtain ⟨hs', hProcess, hVoted, hSent⟩ :=
    hStep.processBlock hDistinct (if_neg hOther).symm hr hLast
  rw [if_neg hOther, hChan, List.nil_append] at hVoted
  rw [hOutbox, List.nil_append] at hSent
  have hReact : net.react s.cfg r (.block (s.block r (seen + 1))) = .ok (net.after r hs') :=
    Network.react_eq (Outcome.bind_eq_ok.mpr ⟨_, hProcess, rfl⟩)
  obtain ⟨rest, hAnnounced, hTaken⟩ := hVoted.handled.taken
  have hAfter := net.after_replicas_self r hs'
  refine ⟨(net.after r hs').taking r rest, ?_, h.extend ?_ ?_ ?_ ?_ ?_⟩
  · have hDeliver : net.step s.cfg s.peers (.deliver r (.proposal (s.proposal (seen + 1)))
        (s.payload (seen + 1) r)) = .ok (net.after r hs') := by
      unfold Network.step
      rw [Network.Event.replica, if_pos hr]
      dsimp only
      rw [if_pos ⟨h.proposed, decide_eq_true (Ne.symm hOther)⟩]
      exact hReact
    have hTake : (net.after r hs').step s.cfg s.peers (.newView r {}) =
        .ok ((net.after r hs').taking r rest) := by
      have hNext : ((net.after r hs').replicas r).pm.newViewChan =
          ((seen + 1 : Nat) : View) :: rest := by
        rw [hAfter]
        exact hAnnounced
      refine Network.step_newView_taking {} hr hNext ?_ ?_
      · rw [hAfter]
      · rw [hAfter, hVoted.handled.id, s.isLeader_iff r hr]
        exact hOther
    rw [FaultFree.hears, run, hDeliver, Outcome.ok_bind, run, hTake, Outcome.ok_bind]
    rfl
  · intro r' hr'
    rw [Network.taking_replicas_ne _ _ hr', Network.after_replicas_ne _ _ hr']
  · intro m hm
    simp [hm]
  · rw [Network.taking_replicas_self, hAfter]
    exact hTaken
  · rw [Network.taking_replicas_self, hAfter]
  · intro m hm
    simp [hSent, hm]

theorem Spreads.run (hDistinct : s.Distinct last) (hLast : seen + 1 ≤ last) {rest : List NodeID}
    (h : s.Spreads last seen done net) (hLeader : s.leader (seen + 1) ∈ done)
    (hNodup : (done ++ rest).Nodup) (hPeers : ∀ r ∈ rest, r ∈ s.peers) :
    ∃ net', Library.run (Network.step s.cfg s.peers) net (rest.flatMap (s.hears (seen + 1))) =
        .ok net' ∧ s.Spreads last seen (done ++ rest) net' := by
  induction rest generalizing done net with
  | nil => exact ⟨net, rfl, by rwa [List.append_nil]⟩
  | cons r rest ih =>
      have hSplit : (done ++ [r] ++ rest).Nodup := by simpa using hNodup
      have hNew : r ∉ done := by
        intro hOld
        have hDisjoint := List.disjoint_of_nodup_append hNodup
        exact hDisjoint hOld List.mem_cons_self
      obtain ⟨middle, hHears, hMiddle⟩ :=
        h.hears hDistinct hLast (hPeers r List.mem_cons_self) hNew hLeader
      obtain ⟨net', hRest, hEnd⟩ := ih hMiddle (List.mem_append_left _ hLeader) hSplit
        fun r' hr' => hPeers r' (List.mem_cons_of_mem r hr')
      refine ⟨net', ?_, by simpa using hEnd⟩
      rw [List.flatMap_cons, run_append, hHears, Outcome.ok_bind, hRest]

/-- When all replicas have voted, the next leader has its own vote. -/
theorem Spreads.counts (h : s.Spreads last seen done net) (hAll : ∀ r ∈ s.peers, r ∈ done) :
    s.Counts last (seen + 1) [s.leader (seen + 1 + 1)] net where
  collects := by
    have hVoted := (h.voted _ (hAll _ (leader_mem_peers (seen + 1 + 1)))).1
    unfold Voted at hVoted
    rwa [if_pos rfl] at hVoted
  others r hr hOther := by
    have hVoted := (h.voted r (hAll r hr)).1
    unfold Voted at hVoted
    rwa [if_neg hOther] at hVoted
  idle r hr := (h.voted r (hAll r hr)).2
  sent r hr := h.sent r (hAll r hr)

/-- Another vote reaches the next leader. -/
theorem Counts.step (hDistinct : s.Distinct last) (h : s.Counts last view done net)
    (hView : 1 ≤ view) (hLast : view ≤ last) (hr : r ∈ s.peers)
    (hOther : r ≠ s.leader (view + 1)) (hNext : done ++ [r] <+: s.voters view) :
    ∃ net', net.step s.cfg s.peers (s.counts view r) = .ok net' ∧
      s.Counts last view (done ++ [r]) net' := by
  have hVote : Message.vote (s.leader (view + 1)) (s.ballot view r) ∈ net.sent := by
    apply h.sent r hr
    rw [votesSent, if_neg hOther]
    exact List.mem_singleton_self _
  obtain ⟨hs', hProcess, hCollects, hOutbox⟩ :=
    h.collects.processVote hDistinct hView hLast hNext
  have hReact : net.react s.cfg (s.leader (view + 1)) (.vote (s.ballot view r)) =
      .ok (net.after (s.leader (view + 1)) hs') := Network.react_eq hProcess
  refine ⟨net.after (s.leader (view + 1)) hs', ?_, ?_, ?_, ?_, ?_⟩
  · unfold Network.step
    rw [counts, Network.Event.replica, if_pos (leader_mem_peers _)]
    dsimp only
    rw [if_pos ⟨hVote, decide_eq_true rfl⟩]
    exact hReact
  · rw [Network.after_replicas_self]
    exact ⟨{ hCollects.inStep with }, hCollects.tallies, hCollects.newViewChan⟩
  · intro r' hr' hOther'
    rw [Network.after_replicas_ne _ _ hOther']
    exact h.others r' hr' hOther'
  · intro r' hr'
    by_cases hSame : r' = s.leader (view + 1)
    · rw [hSame, Network.after_replicas_self]
    · rw [Network.after_replicas_ne _ _ hSame]
      exact h.idle r' hr'
  · intro r' hr' m hm
    rw [Network.after_sent]
    exact List.mem_append_left _ (h.sent r' hr' m hm)

theorem Counts.run (hDistinct : s.Distinct last) (hView : 1 ≤ view) (hLast : view ≤ last)
    {rest : List NodeID} (h : s.Counts last view done net)
    (hOthers : ∀ r ∈ rest, r ∈ s.peers ∧ r ≠ s.leader (view + 1))
    (hNext : done ++ rest <+: s.voters view) :
    ∃ net', Library.run (Network.step s.cfg s.peers) net (rest.map (s.counts view)) = .ok net' ∧
      s.Counts last view (done ++ rest) net' := by
  induction rest generalizing done net with
  | nil => exact ⟨net, rfl, by rwa [List.append_nil]⟩
  | cons r rest ih =>
      have hSplit : done ++ [r] ++ rest <+: s.voters view := by simpa using hNext
      obtain ⟨hr, hOther⟩ := hOthers r List.mem_cons_self
      obtain ⟨middle, hStep, hMiddle⟩ := h.step hDistinct hView hLast hr hOther
        ((List.prefix_append _ rest).trans hSplit)
      obtain ⟨net', hRest, hEnd⟩ := ih hMiddle
        (fun r' hr' => hOthers r' (List.mem_cons_of_mem r hr')) hSplit
      refine ⟨net', ?_, by simpa using hEnd⟩
      rw [List.map_cons, Library.run, hStep, Outcome.ok_bind, hRest]

theorem Counts.between (h : s.Counts last view (s.voters view) net) : s.Between last view net := by
  have hEnough : ¬(s.voters view).length < s.quorum := by
    rw [voters_length]
    exact not_lt.mpr quorum_le
  intro r hr
  refine ⟨?_, h.idle r hr, ?_⟩
  all_goals by_cases hCollector : r = s.leader (view + 1)
  · have hStep := h.collects.inStep
    rw [if_neg hEnough] at hStep
    rw [if_pos hCollector, hCollector]
    exact hStep
  · rw [if_neg hCollector]
    exact (h.others r hr hCollector).1
  · have hChan := h.collects.newViewChan
    rw [if_neg hEnough] at hChan
    rw [if_pos hCollector, hCollector]
    exact hChan
  · rw [if_neg hCollector]
    exact (h.others r hr hCollector).2

/-- A view takes the network from one state between views to the next. -/
theorem Between.round (hDistinct : s.Distinct last) (h : s.Between last seen net)
    (hLast : seen + 1 ≤ last) :
    ∃ net', Library.run (Network.step s.cfg s.peers) net (s.round (seen + 1)) = .ok net' ∧
      s.Between last (seen + 1) net' := by
  obtain ⟨opened, hPropose, hOpened⟩ := h.propose hDistinct hLast
  have hHears : ∀ r ∈ (s.order (seen + 1)).filter (· ≠ s.leader (seen + 1)), r ∈ s.peers := by
    intro r hr
    exact (s.mem_order _ r).mp (List.mem_filter.mp hr).1
  have hCounts : ∀ r ∈ (s.tally (seen + 1)).filter (· ≠ s.leader (seen + 1 + 1)),
      r ∈ s.peers ∧ r ≠ s.leader (seen + 1 + 1) := by
    intro r hr
    simpa [s.mem_tally] using hr
  obtain ⟨spread, hSpread, hHeard⟩ := hOpened.run hDistinct hLast List.mem_cons_self
    (show ([s.leader (seen + 1)] ++
        (s.order (seen + 1)).filter (· ≠ s.leader (seen + 1))).Nodup by
      apply List.nodup_cons.mpr
      exact ⟨by simp, (s.nodup_order _).filter _⟩)
    hHears
  have hAll : ∀ r ∈ s.peers, r ∈ [s.leader (seen + 1)] ++
      (s.order (seen + 1)).filter (· ≠ s.leader (seen + 1)) := by
    intro r hr
    by_cases hLeader : r = s.leader (seen + 1)
    · simp [hLeader]
    · simp [hLeader, s.mem_order, hr]
  obtain ⟨net', hCount, hEnd⟩ := (hHeard.counts hAll).run hDistinct (by omega) hLast
    hCounts (List.prefix_refl _)
  refine ⟨net', ?_, hEnd.between⟩
  rw [FaultFree.round, Library.run, hPropose, Outcome.ok_bind, run_append, hSpread,
    Outcome.ok_bind, hCount]

theorem new_between (last : Nat) :
    ∃ net, Library.run (Network.step s.cfg s.peers) (Network.new s.peers.card) (s.schedule 0) =
        .ok net ∧ s.Between last 0 net := by
  have hNew := new_inStep (s := s) last
  have hLeader : s.cfg.election.isLeader (s.leader 1) 1 = true :=
    (s.isLeader_iff _ (leader_mem_peers 1) 1).mpr rfl
  let kicked : HotStuff := (HotStuff.new (s.leader 1) false s.peers.card).advanceView 0
  have hReact : (Network.new s.peers.card).react s.cfg (s.leader 1) .kickOff =
      .ok ((Network.new s.peers.card).after (s.leader 1) kicked) := by
    apply Network.react_eq
    exact congrArg Except.ok (if_pos ⟨rfl, hLeader⟩)
  refine ⟨(Network.new s.peers.card).after (s.leader 1) kicked, ?_, ?_⟩
  · have hStep : (Network.new s.peers.card).step s.cfg s.peers (.kickOff (s.leader 1)) =
        .ok ((Network.new s.peers.card).after (s.leader 1) kicked) := by
      unfold Network.step
      rw [Network.Event.replica, if_pos (leader_mem_peers 1)]
      exact hReact
    rw [schedule, Library.run, hStep]
    rfl
  · intro r hr
    by_cases hFirst : r = s.leader (0 + 1)
    · rw [if_pos hFirst, if_pos hFirst, hFirst, Network.after_replicas_self]
      exact ⟨{ hNew (s.leader 1) with curView := rfl }, rfl, rfl⟩
    · rw [if_neg hFirst, if_neg hFirst, Network.after_replicas_ne _ _ hFirst]
      exact ⟨hNew r, rfl, rfl⟩

theorem schedule_between (hDistinct : s.Distinct last) {views : Nat} (hViews : views ≤ last) :
    ∃ net, Library.run (Network.step s.cfg s.peers) (Network.new s.peers.card)
        (s.schedule views) = .ok net ∧ s.Between last views net := by
  induction views with
  | zero => exact new_between last
  | succ views ih =>
      obtain ⟨middle, hRun, hMiddle⟩ := ih (by omega)
      obtain ⟨net, hRound, hNet⟩ := hMiddle.round hDistinct hViews
      refine ⟨net, ?_, hNet⟩
      rw [schedule, run_append, hRun, Outcome.ok_bind, hRound]

end Run

/-- Without faults every view commits. Whoever leads, in whatever order the proposal of a view
reaches the replicas, and in whatever order their votes arrive after that, after `views` views
every replica has committed the proposals of all but the last three, in order and nothing else;
the next leader has one more. Nothing is forked. -/
theorem every_view_commits (s : FaultFree) (views : Nat) (hDistinct : s.Distinct views) :
    ∃ net, run (Network.step s.cfg s.peers) (Network.new s.peers.card) (s.schedule views) =
        .ok net ∧
      ∀ r ∈ s.peers, (net.replicas r).committedBlocks = (List.range' 1
          ((if r = s.leader (views + 1) then views + 1 else views) - 3)).map (s.block r) ∧
        (net.replicas r).forkedBlocks = [] ∧
        (net.replicas r).pm.curView =
          if r = s.leader (views + 1) then views + 1 else views := by
  obtain ⟨net, hRun, hNet⟩ := schedule_between hDistinct (le_refl views)
  refine ⟨net, hRun, fun r hr => ?_⟩
  obtain ⟨hStep, _, _⟩ := hNet r hr
  refine ⟨hStep.committedBlocks, hStep.forkedBlocks, hStep.curView.trans ?_⟩
  split_ifs <;> simp

/-- Four replicas, of which two take turns in leading. -/
def alternating : FaultFree where
  cfg := Scenario.config fun view => if view % 2 = 0 then "1" else "2"
  peers := {"1", "2", "3", "4"}
  payload _ _ := {}
  order _ := ["4", "3", "2", "1"]
  tally _ := ["3", "1", "4", "2"]
  leader_mem view := by
    simp only [Scenario.config]
    split_ifs <;> decide
  isLeader_iff r _ view := by simp [Scenario.config]
  position := by decide
  verifies r _ data := by simp [Scenario.config, Scenario.keys]
  mem_order _ r := by
    simp only [List.mem_cons, List.not_mem_nil, or_false, Finset.mem_insert, Finset.mem_singleton]
    tauto
  nodup_order _ := by decide
  mem_tally _ r := by
    simp only [List.mem_cons, List.not_mem_nil, or_false, Finset.mem_insert, Finset.mem_singleton]
    tauto
  nodup_tally _ := by decide

theorem alternating_ident (k : Nat) : alternating.ident k = BitVec.ofNat 256 k := by
  cases k <;> rfl

theorem alternating_distinct (last : Nat) (hLast : last < 2 ^ 256) : alternating.Distinct last := by
  intro j k hj hk hSame
  rw [alternating_ident, alternating_ident] at hSame
  have := congrArg BitVec.toNat hSame
  simp only [BitVec.toNat_ofNat] at this
  omega

theorem every_view_commits_alternating :
    ∃ net, run (Network.step alternating.cfg alternating.peers) (Network.new 4)
        (alternating.schedule 5) = .ok net ∧
      ((net.replicas "1").committedBlocks.map fun b => b.view) = [1, 2, 3] ∧
      ((net.replicas "2").committedBlocks.map fun b => b.view) = [1, 2] := by
  obtain ⟨net, hRun, hNet⟩ :=
    every_view_commits alternating 5 (alternating_distinct 5 (by decide))
  refine ⟨net, hRun, ?_, ?_⟩
  · rw [(hNet "1" (by decide)).1]
    rfl
  · rw [(hNet "2" (by decide)).1]
    rfl

end FaultFree
end Bamboo
