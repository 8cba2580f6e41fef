import Bamboo.Replica.Availability

/-! Whose acks are counted with groups. A microblock is sent to the members of its
group, so that only they ack it; its maker is counted as well, wherever it belongs. -/
namespace Bamboo

open Library

namespace GroupManager

/-- All nodes have the same groups. -/
theorem initGroups_groupList (n memberNum : Nat) (id id' : NodeID) (count : Nat) (i start : Int) :
    (initGroups n memberNum id count i start).groupList =
      (initGroups n memberNum id' count i start).groupList := by
  induction count generalizing i start with
  | zero => rfl
  | succ count ih =>
      simp only [initGroups]
      rw [ih]

theorem isInGroup_new (cfg : Settings) (id id' : NodeID) (groupId : Int) (node : NodeID) :
    (new cfg id).isInGroup groupId node = (new cfg id').isInGroup groupId node := by
  unfold isInGroup getGroupListByGroupId new
  rw [initGroups_groupList]

theorem isInGroup_of_mem {gm : GroupManager} {groupId : Int} {nodes : Finset NodeID} {node : NodeID}
    (hNodes : gm.getGroupListByGroupId groupId = .ok nodes) (hMem : node ∈ nodes) :
    gm.isInGroup groupId node = .ok true := by
  refine Outcome.bind_eq_ok.mpr ⟨nodes, hNodes, ?_⟩
  rw [decide_eq_true hMem]
  rfl

end GroupManager

namespace Dissemination

variable {cfg : Settings} {keys : KeyRing} {sort : GroupSort} {peers : Finset NodeID}
  {net : Dissemination} {x : NodeID} {replica : Replica}

/-- The maker of a microblock is a member of its group. -/
def MadeByMember (cfg : Settings) (e : NodeID × Event) : Prop :=
  ∀ made ∈ e.2.makes, (GroupManager.new cfg e.1).isInGroup made.2 e.1 = .ok true

instance (cfg : Settings) (e : NodeID × Event) : Decidable (MadeByMember cfg e) :=
  inferInstanceAs (Decidable (∀ made ∈ e.2.makes, _))

/-- The node has sent an ack for the microblock: it was in flight after a part of
the run. -/
def Acked (cfg : Settings) (keys : KeyRing) (sort : GroupSort) (peers : Finset NodeID)
    (events : List (NodeID × Event)) (h : Identifier) (node : NodeID) : Prop :=
  ∃ before after, events = before ++ after ∧
    ∃ net, run (step cfg keys sort peers) (new cfg) before = .ok net ∧
      ∃ to' receipt, (to', .ack receipt) ∈ net.flight ∧ receipt.microblockID = h ∧
        receipt.receiver = node

theorem Acked.extend {events : List (NodeID × Event)} {h : Identifier} {node : NodeID}
    (hAcked : Acked cfg keys sort peers events h node) (e : NodeID × Event) :
    Acked cfg keys sort peers (events ++ [e]) h node := by
  obtain ⟨before, after, rfl, hFlight⟩ := hAcked
  exact ⟨before, after ++ [e], List.append_assoc before after [e], hFlight⟩

/-- Who can have the content of the microblock `mb`: members of its group who made
or acked it, and its maker has it too. -/
structure Entitled (cfg : Settings) (acked : Identifier → NodeID → Prop)
    (groups : Table Identifier Int) (net : Dissemination) (x : NodeID) (mb : MicroBlock) : Prop where
  group : groups.lookup mb.hash = some mb.groupId
  member : (GroupManager.new cfg x).isInGroup mb.groupId x = .ok true
  source : net.creator.lookup mb.hash = some x ∨ acked mb.hash x
  maker : ∃ c, net.creator.lookup mb.hash = some c ∧ (net.replicas c).sm.hasContent mb.hash = true

/-- Content stays in its group; `groups` are the groups of all microblocks made. -/
structure Confined (cfg : Settings) (acked : Identifier → NodeID → Prop)
    (groups : Table Identifier Int) (net : Dissemination) : Prop where
  made : ∀ h ∈ groups, h ∈ net.creator
  gm : ∀ x, (net.replicas x).sm.gm = .new cfg x
  flight : ∀ to' mb, (to', .microBlock mb) ∈ net.flight →
    groups.lookup mb.hash = some mb.groupId ∧
      (GroupManager.new cfg to').isInGroup mb.groupId to' = .ok true
  stored : ∀ x h mb, (net.replicas x).sm.microblockMap.lookup h = some mb → mb.isFake = false →
    Entitled cfg acked groups net x mb

theorem Entitled.mono {acked acked' : Identifier → NodeID → Prop}
    {groups groups' : Table Identifier Int} {net' : Dissemination} {mb : MicroBlock}
    (h : Entitled cfg acked groups net x mb)
    (hAcked : ∀ h node, acked h node → acked' h node)
    (hGroups : ∀ h g, groups.lookup h = some g → groups'.lookup h = some g)
    (hCreator : ∀ h c, net.creator.lookup h = some c → net'.creator.lookup h = some c)
    (hContent : ∀ c h, (net.replicas c).sm.hasContent h = true →
      (net'.replicas c).sm.hasContent h = true) : Entitled cfg acked' groups' net' x mb where
  group := hGroups _ _ h.group
  member := h.member
  source := h.source.imp (hCreator _ _) (hAcked _ _)
  maker := by
    obtain ⟨c, hMaker, hHas⟩ := h.maker
    exact ⟨c, hCreator _ _ hMaker, hContent c _ hHas⟩

namespace Confined

variable {acked acked' : Identifier → NodeID → Prop} {groups : Table Identifier Int}

theorem new_confined (cfg : Settings) (acked : Identifier → NodeID → Prop) :
    Confined cfg acked ∅ (new cfg) where
  made h hMem := absurd hMem Finmap.notMem_empty
  gm x := rfl
  flight to' mb hMem := by simp [new] at hMem
  stored x h mb hLookup := by simp [new, Replica.new, AckMem.new] at hLookup

theorem mono (h : Confined cfg acked groups net) (hAcked : ∀ h node, acked h node → acked' h node) :
    Confined cfg acked' groups net where
  made := h.made
  gm := h.gm
  flight := h.flight
  stored x hash mb hLookup hReal := (h.stored x hash mb hLookup hReal).mono hAcked
    (fun _ _ hGroup => hGroup) (fun _ _ hCreator => hCreator) fun _ _ hContent => hContent

/-- A new hash gets its creator and its group. -/
theorem create (h : Confined cfg acked groups net) {hash : Identifier} (hNew : hash ∉ net.creator)
    (groupId : Int) : Confined cfg acked (groups.insert hash groupId)
      { net with creator := net.creator.insert hash x } := by
  have hGroups : ∀ h' g, groups.lookup h' = some g →
      (groups.insert hash groupId).lookup h' = some g :=
    fun _ _ hGroup => Table.lookup_insert_of_new (fun hMem => hNew (h.made _ hMem)) hGroup
  constructor
  · exact Table.mem_insert_of_forall h.made
  · exact h.gm
  · intro to' mb hMem
    obtain ⟨hGroup, hMember⟩ := h.flight to' mb hMem
    exact ⟨hGroups _ _ hGroup, hMember⟩
  · intro y h' mb hLookup hReal
    exact (h.stored y h' mb hLookup hReal).mono (fun _ _ hAcked => hAcked) hGroups
      (fun _ _ hMade => Table.lookup_insert_of_new hNew hMade) fun _ _ hContent => hContent

theorem erase (h : Confined cfg acked groups net) (message : NodeID × MempoolMessage) :
    Confined cfg acked groups { net with flight := net.flight.erase message } where
  made := h.made
  gm := h.gm
  flight to' mb hMem := h.flight to' mb (Multiset.mem_of_mem_erase hMem)
  stored x hash mb hLookup hReal := (h.stored x hash mb hLookup hReal).mono
    (fun _ _ hAcked => hAcked) (fun _ _ hGroup => hGroup) (fun _ _ hCreator => hCreator)
    fun _ _ hContent => hContent

/-- A microblock that an event makes has its creator and its group. -/
theorem register (h : Confined cfg acked groups net) {event : Event}
    (hEnabled : net.enabled x event = true) :
    ∃ groups', Confined cfg acked groups' (net.register x event) ∧
      (∀ h g, groups.lookup h = some g → groups'.lookup h = some g) ∧
      ∀ hash groupId, event.makes = some (hash, groupId) →
        groups'.lookup hash = some groupId ∧ (net.register x event).creator.lookup hash = some x := by
  have hCreates : ∀ {hash : Identifier}, hash ∉ net.creator → ∀ groupId : Int,
      ∃ groups', Confined cfg acked groups' { net with creator := net.creator.insert hash x } ∧
        (∀ h g, groups.lookup h = some g → groups'.lookup h = some g) ∧
        ∀ hash' groupId', some (hash, groupId) = some (hash', groupId') →
          groups'.lookup hash' = some groupId' ∧
            (net.creator.insert hash x).lookup hash' = some x := by
    intro hash hNew groupId
    refine ⟨groups.insert hash groupId, h.create hNew groupId, fun h' g hGroup => ?_, ?_⟩
    · exact Table.lookup_insert_of_new (fun hMem => hNew (h.made _ hMem)) hGroup
    · rintro _ _ ⟨⟩
      exact ⟨Finmap.lookup_insert _, Finmap.lookup_insert _⟩
  have hNothing : ∀ hash groupId, (none : Option (Identifier × Int)) ≠ some (hash, groupId) :=
    fun _ _ hEq => by cases hEq
  cases event with
  | observePool hash groupId txns now sample =>
      exact hCreates (by simpa [enabled] using hEnabled) groupId
  | handleTxn hash groupId txns now =>
      exact hCreates (by simpa [enabled] using hEnabled) groupId
  | deliver now message =>
      exact ⟨groups, h.erase (x, message), fun _ _ hGroup => hGroup,
        fun _ _ hMakes => absurd hMakes (hNothing _ _)⟩
  | _ =>
      exact ⟨groups, h, fun _ _ hGroup => hGroup, fun _ _ hMakes => absurd hMakes (hNothing _ _)⟩

/-- A replica has handled an event. -/
theorem settle (h : Confined cfg acked groups net) (hReacts : Reacts cfg peers net x replica)
    (hGm : replica.sm.gm = (net.replicas x).sm.gm)
    (hStored : ∀ h mb, replica.sm.microblockMap.lookup h = some mb → mb.isFake = false →
      (net.replicas x).sm.microblockMap.lookup h = some mb ∨
        Entitled cfg acked groups (net.settle peers x replica) x mb)
    (hPosted : ∀ to' mb, (to', .microBlock mb) ∈ post peers x replica.flush.outbox →
      groups.lookup mb.hash = some mb.groupId ∧
        (GroupManager.new cfg to').isInGroup mb.groupId to' = .ok true) :
    Confined cfg acked groups (net.settle peers x replica) := by
  have hOld : ∀ y h' mb, (net.replicas y).sm.microblockMap.lookup h' = some mb →
      mb.isFake = false → Entitled cfg acked groups (net.settle peers x replica) y mb := by
    intro y h' mb hLookup hReal
    refine (h.stored y h' mb hLookup hReal).mono (fun _ _ hAcked => hAcked)
      (fun _ _ hGroup => hGroup) (fun _ _ hCreator => hCreator) fun c h'' hContent => ?_
    rcases settle_cases peers net x replica c with ⟨rfl, hAt⟩ | ⟨_, hAt⟩
    · rw [hAt]
      exact hReacts.content h'' hContent
    · rwa [hAt]
  constructor
  · exact h.made
  · intro y
    rcases settle_cases peers net x replica y with ⟨rfl, hAt⟩ | ⟨_, hAt⟩
    · rw [hAt]
      exact hGm.trans (h.gm y)
    · rw [hAt]
      exact h.gm y
  · intro to' mb hMem
    rcases Multiset.mem_add.mp hMem with hFlight | hNew
    · exact h.flight to' mb hFlight
    · exact hPosted to' mb hNew
  · intro y h' mb hLookup hReal
    rcases settle_cases peers net x replica y with ⟨rfl, hAt⟩ | ⟨_, hAt⟩
    · rw [hAt] at hLookup
      rcases hStored h' mb hLookup hReal with hBefore | hNow
      · exact hOld y h' mb hBefore hReal
      · exact hNow
    · rw [hAt] at hLookup
      exact hOld y h' mb hLookup hReal

/-- The handler did not touch any content. -/
theorem settle_of_retains (h : Confined cfg acked groups net)
    (hReacts : Reacts cfg peers net x replica) (hIdle : (net.replicas x).outbox = [])
    (hRetains : (net.replicas x).Retains replica) :
    Confined cfg acked groups (net.settle peers x replica) := by
  refine h.settle hReacts hRetains.gm (fun h' mb hLookup hReal =>
    Or.inl (hRetains.stored h' mb hLookup hReal)) fun to' mb hMem => ?_
  rcases hReacts.mem_posted hMem with ⟨_, _, hEq⟩ | ⟨recipients, hSent, _⟩
  · cases hEq
  · rw [hRetains.outbox, hIdle] at hSent
    exact absurd hSent List.not_mem_nil

/-- A new microblock is stored by its maker and sent to the members of its group. -/
theorem settle_of_makes (h : Confined cfg acked groups net) (hSound : net.Sound cfg peers)
    (hReacts : Reacts cfg peers net x replica) {hash : Identifier} {groupId : Int}
    (hCreator : net.creator.lookup hash = some x) (hGroup : groups.lookup hash = some groupId)
    (hMember : (GroupManager.new cfg x).isInGroup groupId x = .ok true)
    {txns : List Transaction} {now : Int} (hOn : cfg.broadcastByGroup = true)
    (hBalance : cfg.loadBalance = false)
    (hMakes : Replica.MakesFrom cfg (newMicroblock hash groupId txns now) (net.replicas x) replica) :
    Confined cfg acked groups (net.settle peers x replica) := by
  have hHolds := ((hSound.replica x).publishes hBalance rfl hMakes).holds
  obtain ⟨mb, sm, ⟨list, hops, rfl⟩, hAdd, ⟨_, recipients, hAddresses, rfl⟩ | ⟨hForwards, _⟩⟩ := hMakes
  swap
  · rw [hBalance] at hForwards
    cases hForwards
  obtain ⟨nodes, rfl, hNodes⟩ := hAddresses.group hOn
  refine h.settle hReacts (AckMem.addMicroblock_setup hAdd).gm (fun h' found hLookup _ => ?_)
    fun to' found hMem => ?_
  · rcases AckMem.lookup_of_addMicroblock hAdd hLookup with ⟨rfl, rfl⟩ | hOld
    · refine Or.inr ⟨hGroup, hMember, Or.inl hCreator, x, hCreator, ?_⟩
      rw [settle_self]
      exact hHolds
    · exact Or.inl hOld
  · rcases hReacts.mem_posted hMem with ⟨_, _, hEq⟩ | ⟨recipients, hSent, hIncludes⟩
    · cases hEq
    simp only [Replica.send, hSound.idle x, List.nil_append, List.mem_singleton,
      Prod.mk.injEq, MempoolMessage.microBlock.injEq] at hSent
    obtain ⟨rfl, rfl⟩ := hSent
    simp only [Recipients.includes, Bool.and_eq_true, decide_eq_true_eq] at hIncludes
    have hListed := GroupManager.isInGroup_of_mem hNodes hIncludes.2
    rw [h.gm x, GroupManager.isInGroup_new cfg x to'] at hListed
    exact ⟨hGroup, hListed⟩

/-- A microblock is stored by a member of its group, who acks it. -/
theorem settle_of_receives (h : Confined cfg acked groups net) (hSound : net.Sound cfg peers)
    (hReacts : Reacts cfg peers net x replica) (hBalance : cfg.loadBalance = false)
    {mb : MicroBlock} (hMessage : (MempoolMessage.microBlock mb).Grounded cfg (net.ledger peers) x)
    (hGroup : groups.lookup mb.hash = some mb.groupId)
    (hMember : (GroupManager.new cfg x).isInGroup mb.groupId x = .ok true)
    (hStep : (net.replicas x).handleMicroblock cfg keys mb = .ok replica)
    (hAcked : ∀ to' receipt, (to', .ack receipt) ∈ (net.settle peers x replica).flight →
      acked receipt.microblockID receipt.receiver) :
    Confined cfg acked groups (net.settle peers x replica) := by
  obtain ⟨_, hFirst, hCreator, hHolder, hOther⟩ := hMessage
  have hId : (net.replicas x).sm.id = x := (hSound.replica x).smId
  rcases Replica.handleMicroblock_cases hStep with ⟨hForwards, _⟩ | rfl |
    ⟨_, ⟨hRequested, _⟩ | ⟨_, sm, hAdd, hAck⟩⟩
  · rw [hBalance] at hForwards
    cases hForwards
  · exact h.settle_of_retains hReacts (hSound.idle x) (.of_sm rfl rfl rfl)
  · rw [hFirst] at hRequested
    cases hRequested
  have hSetup := AckMem.addMicroblock_setup hAdd
  rcases Replica.acknowledge_cases hAck with ⟨_, ack, hReceiver, hHash, rfl⟩ | ⟨hSelf, _⟩
  · obtain ⟨hPeer, hContent⟩ := mem_holders.mp hHolder
    refine h.settle hReacts hSetup.gm (fun h' found hLookup _ => ?_) fun to' found hMem => ?_
    · rcases AckMem.lookup_of_addMicroblock hAdd hLookup with ⟨rfl, rfl⟩ | hOld
      · -- the ack is on its way to the maker
        have hFlight := hAcked found.sender ack (Multiset.mem_add.mpr (Or.inr (mem_post.mpr
          ⟨.one found.sender, by simp [Replica.flush, Replica.send], hPeer,
            by simp [Recipients.includes]⟩)))
        rw [hHash, hReceiver.trans (hSetup.id.trans hId)] at hFlight
        refine Or.inr ⟨hGroup, hMember, Or.inr hFlight, found.sender, hCreator, ?_⟩
        rw [settle_other peers net _ hOther.symm]
        exact hContent
      · exact Or.inl hOld
    · rcases hReacts.mem_posted hMem with ⟨_, _, hEq⟩ | ⟨recipients, hSent, _⟩
      · cases hEq
      · simp [Replica.send, hSound.idle x] at hSent
  · exact absurd (hSelf.trans (hSetup.id.trans hId)).symm hOther

end Confined

/-- Every event keeps content in its group. -/
theorem handleEvent_confined (hGroup : cfg.broadcastByGroup = true)
    (hBalance : cfg.loadBalance = false)
    {acked : Identifier → NodeID → Prop} {groups : Table Identifier Int}
    (hSound : net.Sound cfg peers) (hConfined : Confined cfg acked groups net) (hPeer : x ∈ peers)
    {event : Event} (hEnabled : net.enabled x event = true) (hMember : MadeByMember cfg (x, event))
    (hStep : (net.replicas x).handleEvent cfg keys sort event = .ok replica)
    (hAcked : ∀ to' receipt,
      (to', .ack receipt) ∈ ((net.register x event).settle peers x replica).flight →
      acked receipt.microblockID receipt.receiver) :
    ∃ groups', Confined cfg acked groups' ((net.register x event).settle peers x replica) := by
  have hReacts := hSound.reacts hBalance hPeer hEnabled hStep
  have hAfter := hSound.register (x := x) hEnabled
  have hSame := register_replicas net x event
  obtain ⟨groups', hRegistered, hGroups, hMade⟩ := hConfined.register (x := x) hEnabled
  refine ⟨groups', ?_⟩
  rcases Replica.handleEvent_cases (hSound.replica x).wellFormed hStep with
    hRetains | ⟨hash, groupId, txns, now, hEvent, hMakes⟩ | ⟨pick, rfl, rfl⟩ |
      ⟨now, mb, rfl, hReceived⟩ | ⟨now, requesterID, mbID, rfl, _⟩
  · rw [← hSame] at hRetains
    exact hRegistered.settle_of_retains hReacts (hAfter.idle x) hRetains
  · obtain ⟨hOwn, hCreator⟩ := hMade hash groupId hEvent
    rw [← hSame] at hMakes
    exact hRegistered.settle_of_makes hAfter hReacts hCreator hOwn (hMember _ hEvent) hGroup
      hBalance hMakes
  · -- the channel is empty
    have hRetains : (net.replicas x).Retains ((net.replicas x).loadbalance cfg pick) := by
      rw [Replica.loadbalance_of_empty cfg (hSound.replica x).selfMBChan]
      exact .of_sm rfl rfl rfl
    exact hRegistered.settle_of_retains hReacts (hAfter.idle x) hRetains
  · have hFlight : (x, .microBlock mb) ∈ net.flight := by simpa [enabled] using hEnabled
    obtain ⟨hOwn, hMine⟩ := hConfined.flight x mb hFlight
    exact hRegistered.settle_of_receives hAfter hReacts hBalance (hSound.message x _ hFlight)
      (hGroups _ _ hOwn) hMine hReceived hAcked
  · -- nobody asks for anything
    have hFlight : (x, .missingStableMBRequest requesterID mbID) ∈ net.flight := by
      simpa [enabled] using hEnabled
    exact (hSound.message x _ hFlight).elim

theorem run_confined (hGroup : cfg.broadcastByGroup = true) (hBalance : cfg.loadBalance = false)
    {events : List (NodeID × Event)}
    (hRun : run (step cfg keys sort peers) (new cfg) events = .ok net)
    (hMembers : ∀ e ∈ events, MadeByMember cfg e) :
    ∃ groups, Confined cfg (Acked cfg keys sort peers events) groups net := by
  have hGuard : Guarded (step cfg keys sort peers) (fun _ e => MadeByMember cfg e) (new cfg)
      events := guarded_of_mem fun _ e hMem => hMembers e hMem
  have hEnd := run_history (P := fun past net =>
    run (step cfg keys sort peers) (new cfg) past = .ok net ∧
      ∃ groups, Confined cfg (Acked cfg keys sort peers past) groups net) ?_ hGuard hRun []
    ⟨rfl, ∅, .new_confined cfg _⟩
  · exact hEnd.2
  rintro past before e after ⟨hPast, groups, hConfined⟩ hMember hStep
  have hNow := (run_snoc (new cfg) after past e).mpr ⟨before, hPast, hStep⟩
  have hLater := hConfined.mono fun h node hAcked => Acked.extend hAcked e
  refine ⟨hNow, ?_⟩
  have hFlight : ∀ to' receipt, (to', .ack receipt) ∈ after.flight →
      Acked cfg keys sort peers (past ++ [e]) receipt.microblockID receipt.receiver :=
    fun to' receipt hMem => ⟨past ++ [e], [], (List.append_nil _).symm, after, hNow, to', receipt,
      hMem, rfl, rfl⟩
  rcases step_cases hStep with rfl | ⟨hPeer, hEnabled, replica, hHandled, rfl⟩
  · exact ⟨groups, hLater⟩
  · exact handleEvent_confined hGroup hBalance (run_sound hBalance hPast) hLater hPeer hEnabled
      hMember hHandled hFlight

/-- With groups and without load balancing, what is stable at its maker has been acked by
`Q` different members of its group, if every maker is a member. The maker is one of them. -/
theorem group_stability_counts_members (hGroup : cfg.broadcastByGroup = true)
    (hBalance : cfg.loadBalance = false) {events : List (NodeID × Event)}
    (hRun : run (step cfg keys sort peers) (new cfg) events = .ok net)
    (hMembers : ∀ e ∈ events, MadeByMember cfg e) {r : NodeID} {h : Identifier}
    (hMaker : net.creator.lookup h = some r) (hStable : (net.replicas r).sm.isStable h = true) :
    ∃ voters : Finset NodeID, (net.replicas r).sm.threshhold ≤ voters.card ∧
      ∀ node ∈ voters, (node = r ∨ Acked cfg keys sort peers events h node) ∧
        ∃ mb, (net.replicas r).sm.microblockMap.lookup h = some mb ∧ mb.isFake = false ∧
          (net.replicas r).sm.gm.isInGroup mb.groupId node = .ok true := by
  have hSound := run_sound hBalance hRun
  obtain ⟨groups, hConfined⟩ := run_confined hGroup hBalance hRun hMembers
  refine ⟨net.holders peers h, ?_, fun node hMem => ?_⟩
  · rw [(hSound.replica r).threshhold]
    exact hSound.available hStable
  obtain ⟨_, hContent⟩ := mem_holders.mp hMem
  obtain ⟨copy, hCopy, hReal⟩ := AckMem.hasContent_iff.mp hContent
  obtain ⟨past, hWell⟩ := (hSound.replica node).wellFormed
  obtain rfl : copy.hash = h := hWell.stored_hash h copy hCopy
  have hEntitled := hConfined.stored node _ copy hCopy hReal
  obtain ⟨c, hCreator, hHas⟩ := hEntitled.maker
  cases hMaker.symm.trans hCreator
  refine ⟨hEntitled.source.imp_left fun hSelf => Option.some.inj (hSelf.symm.trans hMaker), ?_⟩
  -- the copy at the node has the same group as the one at the maker
  obtain ⟨mb, hStored, hOwn⟩ := AckMem.hasContent_iff.mp hHas
  obtain ⟨past', hWell'⟩ := (hSound.replica r).wellFormed
  have hGroups := (hConfined.stored r _ mb hStored hOwn).group
  rw [hWell'.stored_hash _ mb hStored, hEntitled.group, Option.some.injEq] at hGroups
  refine ⟨mb, hStored, hOwn, ?_⟩
  rw [hConfined.gm r, GroupManager.isInGroup_new cfg r node, ← hGroups]
  exact hEntitled.member

end Dissemination

namespace Scenario

/-- Two groups: nodes 1, 2 and 3, and nodes 4, 1 and 2. -/
def twoGroups : Settings :=
  { pool with groupNum := 2, memberNum := 3, broadcastByGroup := true }

/-- Node `maker` makes the microblock 1 for the first group, and the others ack it. -/
def madeFor (maker : NodeID) (others : List (NodeID × Nat)) : List (NodeID × Dissemination.Event) :=
  let mb : MicroBlock := { newMicroblock 1 0 [] 0 with sender := maker }
  (maker, .handleTxn 1 0 [] 0) :: others.map (fun other => (other.1, .deliver 0 (.microBlock mb))) ++
    others.map fun other => (maker, .deliver 0 (.ack (signedAck other.1 other.2)))

end Scenario

namespace Dissemination

theorem group_stability_counts_members_one :
    ∃ net, run (step Scenario.twoGroups Scenario.keys Scenario.sortByGroup Scenario.four)
        (new Scenario.twoGroups) (Scenario.madeFor "1" [("2", 1), ("3", 2)]) = .ok net ∧
      (net.replicas "1").sm.isStable 1 = true ∧
      ∃ voters : Finset NodeID, (net.replicas "1").sm.threshhold ≤ voters.card ∧
        ∀ node ∈ voters, (node = "1" ∨ Acked Scenario.twoGroups Scenario.keys Scenario.sortByGroup
          Scenario.four (Scenario.madeFor "1" [("2", 1), ("3", 2)]) 1 node) ∧
          ∃ mb, (net.replicas "1").sm.microblockMap.lookup 1 = some mb ∧ mb.isFake = false ∧
            (net.replicas "1").sm.gm.isInGroup mb.groupId node = .ok true := by
  obtain ⟨net, hRun, hMaker, hStable⟩ := Outcome.of_test
    (P := fun net : Dissemination => net.creator.lookup 1 = some "1" ∧
      (net.replicas "1").sm.isStable 1 = true)
    (x := run (step Scenario.twoGroups Scenario.keys Scenario.sortByGroup Scenario.four)
      (new Scenario.twoGroups) (Scenario.madeFor "1" [("2", 1), ("3", 2)])) (by decide)
  exact ⟨net, hRun, hStable, group_stability_counts_members rfl rfl hRun (by decide) hMaker hStable⟩

/-- The node whose ack a message is. -/
def acker : MempoolMessage → Option NodeID
  | .ack receipt => some receipt.receiver
  | _ => none

/-- Only these nodes have sent acks. -/
theorem Acked.mem {events : List (NodeID × Event)} {nodes : List NodeID}
    (hSent : ∀ before ∈ events.inits, Outcome.test (run (step cfg keys sort peers) (new cfg) before)
      (fun net => ∀ entry ∈ net.flight, ∀ node ∈ acker entry.2, node ∈ nodes) = true)
    {h : Identifier} {node : NodeID} (hAcked : Acked cfg keys sort peers events h node) :
    node ∈ nodes := by
  obtain ⟨before, after, hSplit, net, hBefore, to', receipt, hFlight, _, rfl⟩ := hAcked
  have hTest := hSent before (List.mem_inits _ _ |>.mpr ⟨after, hSplit.symm⟩)
  obtain ⟨found, hFound, hOnly⟩ := Outcome.of_test hTest
  cases hBefore.symm.trans hFound
  exact hOnly _ hFlight receipt.receiver rfl

/-- The microblock 1 is stable at its maker, and too few members of its group have made or
acked it. -/
def StableWithoutQuorum (cfg : Settings) (events : List (NodeID × Event)) (maker : NodeID) : Prop :=
  ∃ net mb, run (step cfg Scenario.keys Scenario.sortByGroup Scenario.four) (new cfg) events =
      .ok net ∧
    net.creator.lookup 1 = some maker ∧ (net.replicas maker).sm.isStable 1 = true ∧
    (net.replicas maker).sm.microblockMap.lookup 1 = some mb ∧
    ∀ voters : Finset NodeID,
      (∀ node ∈ voters, (net.replicas maker).sm.gm.isInGroup mb.groupId node = .ok true ∧
        (node = maker ∨
          Acked cfg Scenario.keys Scenario.sortByGroup Scenario.four events 1 node)) →
      (voters.card : Int) < (net.replicas maker).sm.threshhold

/-- Node 4 is not in the first group. -/
theorem StableWithoutQuorum.of_test {events : List (NodeID × Event)} {maker : NodeID}
    (mb : MicroBlock) (nodes : List NodeID)
    (hRun : Outcome.test (run (step cfg Scenario.keys Scenario.sortByGroup Scenario.four) (new cfg)
        events)
      (fun net : Dissemination => (net.creator.lookup 1 = some maker ∧
        (net.replicas maker).sm.isStable 1 = true ∧
        (net.replicas maker).sm.gm.isInGroup mb.groupId "4" = .ok false ∧
        (net.replicas maker).sm.threshhold = 3) ∧
        (net.replicas maker).sm.microblockMap.lookup 1 = some mb) = true)
    (hSent : ∀ before ∈ events.inits, Outcome.test
      (run (step cfg Scenario.keys Scenario.sortByGroup Scenario.four) (new cfg) before)
      (fun net => ∀ entry ∈ net.flight, ∀ node ∈ acker entry.2, node ∈ nodes) = true)
    (hNodes : ∀ node ∈ maker :: nodes, node ∈ ["1", "2", "4"]) :
    StableWithoutQuorum cfg events maker := by
  obtain ⟨net, hRun, ⟨hMaker, hStable, hOutside, hThreshhold⟩, hStored⟩ := Outcome.of_test hRun
  refine ⟨net, mb, hRun, hMaker, hStable, hStored, fun voters hVoters => ?_⟩
  have hTwo : voters ⊆ {"1", "2"} := by
    intro node hMem
    obtain ⟨hMember, hVoted⟩ := hVoters node hMem
    have hOne : node ∈ maker :: nodes := by
      rcases hVoted with rfl | hAcked
      · exact List.mem_cons_self
      · exact List.mem_cons_of_mem maker (hAcked.mem hSent)
    have hThree := hNodes node hOne
    simp only [List.mem_cons, List.not_mem_nil, or_false] at hThree
    rcases hThree with rfl | rfl | rfl
    · simp
    · simp
    · cases hOutside.symm.trans hMember
  have hCard := Finset.card_le_card hTwo
  rw [hThreshhold]
  have hPair : ({"1", "2"} : Finset NodeID).card ≤ 2 := Finset.card_le_two
  omega

end Dissemination

namespace Scenario

def balanced : Settings :=
  { twoGroups with loadBalance := true }

/-- With load balancing, node 1 sends the microblock to all, and nodes 2 and 4 ack it. -/
def sentToAll : List (NodeID × Dissemination.Event) :=
  let mb : MicroBlock := { newMicroblock 1 0 [] 0 with sender := "1", hops := 1 }
  [("1", .handleTxn 1 0 [] 0), ("1", .balance none), ("2", .deliver 0 (.microBlock mb)),
    ("4", .deliver 0 (.microBlock mb)), ("1", .deliver 0 (.ack (signedAck "2" 1))),
    ("1", .deliver 0 (.ack (signedAck "4" 3)))]

end Scenario

namespace Dissemination

/-- Node 4 is not in the first group. It counts itself, and the acks of two members make
its microblock stable. With load balancing, the ack of node 4 counts for the microblock of a
member. -/
theorem group_stability_counts_outsider :
    StableWithoutQuorum Scenario.twoGroups (Scenario.madeFor "4" [("1", 0), ("2", 1)]) "4" ∧
    (∀ e ∈ Scenario.sentToAll, MadeByMember Scenario.balanced e) ∧
    StableWithoutQuorum Scenario.balanced Scenario.sentToAll "1" := by
  refine ⟨?_, by decide, ?_⟩
  · exact .of_test { newMicroblock 1 0 [] 0 with sender := "4" } ["1", "2"]
      (by decide) (by decide) (by decide)
  · exact .of_test { newMicroblock 1 0 [] 0 with sender := "1", hops := 1 } ["2", "4"]
      (by decide) (by decide) (by decide)

end Dissemination
end Bamboo
