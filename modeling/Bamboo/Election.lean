import Bamboo.HotStuff.Model
import Bamboo.Library.Int64
import Mathlib.Order.Interval.Finset.Nat

/-! The two elections of the configuration, and the system of the pacemakers of all
replicas under one of them. Views are announced on a replica's channel by any calls
of `AdvanceView`, below the largest `int64`; the replica takes them off one by one and
proposes in those that it leads. -/
namespace Bamboo

open Library

namespace Election

/-- The first eight bytes of a SHA-1 sum, in big-endian order. -/
def leadingUint64 (sum : BitVec 160) : Nat := sum.toNat / 2 ^ 96

/-- `Rotation`, over `peerNo` nodes. The last node leads the first views. -/
def rotation (sha1 : String → BitVec 160) (peerNo : Nat) : Election where
  isLeader id view :=
    if view ≤ 3 then decide ¬node id < peerNo
    else
      let data := leadingUint64 (sha1 (toString (view + 1)))
      decide (((data % peerNo : Nat) : Int) = (node id - 1) % UInt64.size)
  findLeaderFor view :=
    if view ≤ 3 then newNodeID peerNo
    else
      let data := leadingUint64 (sha1 (toString (view + 1)))
      newNodeID ((data % peerNo + 1 : Nat) : Int)

/-- `Static`: one node leads all views. -/
def static (master : NodeID) : Election where
  isLeader id _ := decide (id = master)
  findLeaderFor _ := master

end Election

/-- The identifiers of `n` replicas. -/
def replicaIDs (n : Nat) : Finset NodeID :=
  (Finset.Icc 1 n).image fun i : Nat => newNodeID i

/-- An election as `NewReplica` chooses it for `n` replicas. -/
inductive Election.Configured (n : Nat) : Election → Prop
  | rotation (sha1 : String → BitVec 160) : Configured n (.rotation sha1 n)
  | static {master : NodeID} (h : master ∈ replicaIDs n) : Configured n (.static master)

theorem mem_replicaIDs {n : Nat} {id : NodeID} :
    id ∈ replicaIDs n ↔ ∃ i, 1 ≤ i ∧ i ≤ n ∧ newNodeID i = id := by
  simp only [replicaIDs, Finset.mem_image, Finset.mem_Icc, and_assoc]

namespace Election

variable {n : Nat}

theorem rotation_findLeaderFor_mem (sha1 : String → BitVec 160) (hPos : 0 < n) (view : View) :
    (rotation sha1 n).findLeaderFor view ∈ replicaIDs n := by
  rw [mem_replicaIDs]
  simp only [rotation]
  split_ifs
  · exact ⟨n, hPos, le_refl n, rfl⟩
  · have hLess := Nat.mod_lt (leadingUint64 (sha1 (toString (view + 1)))) hPos
    exact ⟨_, by omega, by omega, rfl⟩

/-- Among the replicas, the two methods of the rotation agree. -/
theorem rotation_isLeader_iff (sha1 : String → BitVec 160) (hInt : n < UInt64.size / 2)
    {id : NodeID} (hId : id ∈ replicaIDs n) (view : View) :
    (rotation sha1 n).isLeader id view = true ↔ id = (rotation sha1 n).findLeaderFor view := by
  obtain ⟨i, hOne, hLe, rfl⟩ := mem_replicaIDs.mp hId
  have hNode : node (newNodeID i) = i := node_newNodeID (by omega)
  -- identifiers of different numbers in the range are different
  have hInj : ∀ j : Nat, j ≤ n → (newNodeID i = newNodeID j ↔ i = j) := by
    intro j hj
    constructor
    · intro hSame
      have hOther : node (newNodeID j) = j := node_newNodeID (by omega)
      rw [← hSame, hNode] at hOther
      omega
    · rintro rfl
      rfl
  simp only [rotation]
  by_cases hFirst : view ≤ 3
  · rw [if_pos hFirst, if_pos hFirst, hInj n (le_refl n), hNode, decide_eq_true_iff]
    omega
  · rw [if_neg hFirst, if_neg hFirst]
    have hLess := Nat.mod_lt (leadingUint64 (sha1 (toString (view + 1)))) (show 0 < n by omega)
    rw [hInj _ (by omega), hNode, decide_eq_true_iff]
    have hSize : ((i : Int) - 1) % UInt64.size = i - 1 := by
      apply Int.emod_eq_of_lt
      · omega
      · have : UInt64.size / 2 < UInt64.size := by decide
        omega
    rw [hSize]
    omega

/-- Every view has one leader among the replicas, which `FindLeaderFor` names. -/
theorem Configured.leader {election : Election} (h : Configured n election) (hPos : 0 < n)
    (hInt : n < UInt64.size / 2) (view : View) :
    election.findLeaderFor view ∈ replicaIDs n ∧ ∀ id ∈ replicaIDs n,
      (election.isLeader id view = true ↔ id = election.findLeaderFor view) := by
  cases h with
  | rotation sha1 =>
      exact ⟨rotation_findLeaderFor_mem sha1 hPos view, fun id hId =>
        rotation_isLeader_iff sha1 hInt hId view⟩
  | static hMaster => exact ⟨hMaster, fun id _ => decide_eq_true_iff⟩

end Election

/-- The pacemakers of all replicas. `taken` are the views that a replica has taken
off its channel, `proposed` the calls of `proposeBlock` in the system so far. -/
structure ViewSystem where
  pm : NodeID → Pacemaker
  taken : NodeID → List View
  proposed : List (NodeID × View)

namespace ViewSystem

def new (n : Nat) : ViewSystem :=
  { pm := fun _ => .new n, taken := fun _ => [], proposed := [] }

/-- Everything that was ever put on a replica's channel. -/
def announced (s : ViewSystem) (r : NodeID) : List View :=
  s.taken r ++ (s.pm r).newViewChan

/-- A certificate, a timeout or the start of the protocol may call `AdvanceView` at any
time. -/
inductive Event where
  | advanceView (r : NodeID) (view : View)
  | kickOff (r : NodeID)
  | newView (r : NodeID)

def Event.replica : Event → NodeID
  | .advanceView r _ => r
  | .kickOff r => r
  | .newView r => r

/-- The view after the one in which `AdvanceView` is called is an `int64`. -/
def Event.InRange : Event → Prop
  | .advanceView _ view => view < maxInt64
  | _ => True

instance : DecidablePred Event.InRange
  | .advanceView _ view => inferInstanceAs (Decidable (view < maxInt64))
  | .kickOff _ => .isTrue trivial
  | .newView _ => .isTrue trivial

def advanceView (s : ViewSystem) (r : NodeID) (view : View) : ViewSystem :=
  { s with pm := Function.update s.pm r ((s.pm r).advanceView view) }

def kickOff (election : Election) (s : ViewSystem) (r : NodeID) : ViewSystem :=
  if (s.pm r).curView = 0 ∧ election.isLeader r 1 then s.advanceView r 0 else s

/-- `processNewView` for the next announced view. -/
def processNewView (election : Election) (s : ViewSystem) (r : NodeID) : ViewSystem :=
  match (s.pm r).newViewChan with
  | [] => s
  | view :: rest =>
      { pm := Function.update s.pm r { s.pm r with newViewChan := rest }
        taken := Function.update s.taken r (s.taken r ++ [view])
        proposed := if election.isLeader r view then s.proposed ++ [(r, view)] else s.proposed }

def step (election : Election) (n : Nat) (s : ViewSystem) (e : Event) : ViewSystem :=
  if e.replica ∈ replicaIDs n then
    match e with
    | .advanceView r view => s.advanceView r view
    | .kickOff r => s.kickOff election r
    | .newView r => s.processNewView election r
  else s

/-- Views are announced in increasing order, up to the current one, none of them wraps
around, and a replica proposes only in views that it has taken off its channel and leads. -/
structure Orderly (election : Election) (n : Nat) (s : ViewSystem) : Prop where
  increasing : ∀ r, (s.announced r).Pairwise (· < ·)
  current : ∀ r, ∀ view ∈ s.announced r, view ≤ (s.pm r).curView
  inRange : ∀ r, (s.pm r).curView ≤ maxInt64
  leads : ∀ r view, (r, view) ∈ s.proposed →
    r ∈ replicaIDs n ∧ view ∈ s.taken r ∧ election.isLeader r view = true
  once : s.proposed.Nodup

variable {election : Election} {n : Nat} {s : ViewSystem}

theorem new_orderly (election : Election) (n : Nat) : (new n).Orderly election n where
  increasing r := List.Pairwise.nil
  current r view h := by cases h
  inRange r := show (0 : Int) ≤ maxInt64 by decide
  leads r view h := by cases h
  once := List.nodup_nil

theorem Orderly.advanceView (h : s.Orderly election n) (r : NodeID) {view : View}
    (hView : view < maxInt64) : (s.advanceView r view).Orderly election n := by
  obtain ⟨hLe, views, hChan, hSorted, hBounds⟩ := (s.pm r).advanceView_advances view
  have hAnnounced : (s.advanceView r view).announced r = s.announced r ++ views := by
    simp [announced, ViewSystem.advanceView, hChan]
  have hOther : ∀ other, other ≠ r →
      (s.advanceView r view).announced other = s.announced other := by
    intro other hOther
    simp [announced, ViewSystem.advanceView, hOther]
  refine ⟨fun other => ?_, fun other v hv => ?_, fun other => ?_, h.leads, h.once⟩
  · by_cases hSame : other = r
    · subst hSame
      rw [hAnnounced]
      apply List.pairwise_append.mpr
      refine ⟨h.increasing other, hSorted, fun old hOld new hNew => ?_⟩
      exact (h.current other old hOld).trans_lt (hBounds new hNew).1
    · rw [hOther other hSame]
      exact h.increasing other
  · by_cases hSame : other = r
    · subst hSame
      rw [hAnnounced] at hv
      simp only [ViewSystem.advanceView, Function.update_self]
      rcases List.mem_append.mp hv with hOld | hNew
      · exact (h.current other v hOld).trans hLe
      · exact (hBounds v hNew).2
    · rw [hOther other hSame] at hv
      simp only [ViewSystem.advanceView, Function.update_of_ne hSame]
      exact h.current other v hv
  · by_cases hSame : other = r
    · subst hSame
      simp only [ViewSystem.advanceView, Function.update_self]
      unfold Pacemaker.advanceView
      split_ifs
      · exact h.inRange other
      · exact hView
    · simp only [ViewSystem.advanceView, Function.update_of_ne hSame]
      exact h.inRange other

/-- What has been announced stays when the replica takes a view off its channel. -/
theorem processNewView_announced (election : Election) (s : ViewSystem) (r other : NodeID) :
    (s.processNewView election r).announced other = s.announced other := by
  unfold ViewSystem.processNewView
  cases hChan : (s.pm r).newViewChan with
  | nil => rfl
  | cons view rest =>
      by_cases hSame : other = r
      · subst hSame
        simp [announced, hChan]
      · simp [announced, hSame]

theorem processNewView_curView (election : Election) (s : ViewSystem) (r other : NodeID) :
    ((s.processNewView election r).pm other).curView = (s.pm other).curView := by
  unfold ViewSystem.processNewView
  cases hChan : (s.pm r).newViewChan with
  | nil => rfl
  | cons view rest =>
      by_cases hSame : other = r
      · subst hSame
        simp
      · simp [hSame]

theorem processNewView_taken (election : Election) (s : ViewSystem) (r : NodeID) {other : NodeID}
    {old : View} (h : old ∈ s.taken other) : old ∈ (s.processNewView election r).taken other := by
  unfold ViewSystem.processNewView
  cases hChan : (s.pm r).newViewChan with
  | nil => exact h
  | cons view rest =>
      by_cases hSame : other = r
      · subst hSame
        simp [h]
      · simpa [hSame] using h

/-- A call of `proposeBlock` is for the view that was taken last, in which the replica
leads. -/
theorem processNewView_proposed (election : Election) (s : ViewSystem) (r : NodeID) :
    (s.processNewView election r).proposed = s.proposed ∨
      ∃ view rest, (s.pm r).newViewChan = view :: rest ∧ election.isLeader r view = true ∧
        view ∈ (s.processNewView election r).taken r ∧
        (s.processNewView election r).proposed = s.proposed ++ [(r, view)] := by
  unfold ViewSystem.processNewView
  cases hChan : (s.pm r).newViewChan with
  | nil => exact Or.inl rfl
  | cons view rest =>
      by_cases hLeader : election.isLeader r view = true
      · exact Or.inr ⟨view, rest, rfl, hLeader, by simp, if_pos hLeader⟩
      · exact Or.inl (if_neg hLeader)

/-- A view that is still on the channel is above all that were taken before. -/
theorem Orderly.fresh (h : s.Orderly election n) {r : NodeID} {view : View} {rest : List View}
    (hChan : (s.pm r).newViewChan = view :: rest) : view ∉ s.taken r := by
  intro hOld
  have hIncreasing := h.increasing r
  rw [announced, hChan, List.pairwise_append] at hIncreasing
  exact lt_irrefl view (hIncreasing.2.2 view hOld view List.mem_cons_self)

theorem Orderly.processNewView (h : s.Orderly election n) {r : NodeID}
    (hReplica : r ∈ replicaIDs n) : (s.processNewView election r).Orderly election n where
  increasing other := by
    rw [processNewView_announced]
    exact h.increasing other
  current other view hView := by
    rw [processNewView_announced] at hView
    rw [processNewView_curView]
    exact h.current other view hView
  inRange other := by
    rw [processNewView_curView]
    exact h.inRange other
  leads other view hView := by
    have hOld : (other, view) ∈ s.proposed → other ∈ replicaIDs n ∧
        view ∈ (s.processNewView election r).taken other ∧
        election.isLeader other view = true := by
      intro hProposed
      obtain ⟨hMember, hTaken, hLeads⟩ := h.leads other view hProposed
      exact ⟨hMember, processNewView_taken election s r hTaken, hLeads⟩
    rcases processNewView_proposed election s r with hSame | ⟨new, _, _, hLeader, hTaken, hAdded⟩
    · rw [hSame] at hView
      exact hOld hView
    · rw [hAdded] at hView
      rcases List.mem_append.mp hView with hView | hNew
      · exact hOld hView
      · cases List.mem_singleton.mp hNew
        exact ⟨hReplica, hTaken, hLeader⟩
  once := by
    rcases processNewView_proposed election s r with hSame | ⟨new, _, hChan, _, _, hAdded⟩
    · rw [hSame]
      exact h.once
    · rw [hAdded]
      apply List.Nodup.append h.once (List.nodup_singleton _)
      intro pair hOld hNew
      cases List.mem_singleton.mp hNew
      exact h.fresh hChan (h.leads r new hOld).2.1

theorem Orderly.step (h : s.Orderly election n) {e : Event} (hRange : e.InRange) :
    (s.step election n e).Orderly election n := by
  unfold ViewSystem.step
  split_ifs with hReplica
  · cases e with
    | advanceView r view => exact h.advanceView r hRange
    | kickOff r =>
        change (s.kickOff election r).Orderly election n
        unfold ViewSystem.kickOff
        split_ifs
        · exact h.advanceView r (by decide)
        · exact h
    | newView r => exact h.processNewView hReplica
  · exact h

theorem Orderly.run (h : s.Orderly election n) {events : List Event}
    (hRange : ∀ e ∈ events, e.InRange) :
    (events.foldl (ViewSystem.step election n) s).Orderly election n := by
  induction events generalizing s with
  | nil => exact h
  | cons e rest ih =>
      obtain ⟨hFirst, hRest⟩ := List.forall_mem_cons.mp hRange
      exact ih (h.step hFirst) hRest

/-- Under a configured election of `n` replicas, whatever advances the views: each
replica's channel carries increasing views, which are `int64`, every view has exactly one
leader, which `FindLeaderFor` names, and there is at most one proposal for a view. -/
theorem one_proposal_per_view (election : Election) (n : Nat) (events : List Event)
    (hPos : 0 < n) (hInt : n < UInt64.size / 2) (hElection : election.Configured n)
    (hRange : ∀ e ∈ events, e.InRange) :
    let s := events.foldl (ViewSystem.step election n) (new n)
    (∀ r ∈ replicaIDs n,
      (s.announced r).Pairwise (· < ·) ∧ ∀ view ∈ s.announced r, view ≤ maxInt64) ∧
      (∀ view, election.findLeaderFor view ∈ replicaIDs n ∧ ∀ r ∈ replicaIDs n,
        (election.isLeader r view = true ↔ r = election.findLeaderFor view)) ∧
      (s.proposed.map Prod.snd).Nodup := by
  intro s
  have hOrderly : s.Orderly election n := (new_orderly election n).run hRange
  have hAnnounced : ∀ r, ∀ view ∈ s.announced r, view ≤ maxInt64 := fun r view hView =>
    (hOrderly.current r view hView).trans (hOrderly.inRange r)
  refine ⟨fun r _ => ⟨hOrderly.increasing r, hAnnounced r⟩, hElection.leader hPos hInt, ?_⟩
  apply List.Nodup.map_on _ hOrderly.once
  intro first hFirst second hSecond hView
  obtain ⟨r, view⟩ := first
  obtain ⟨r', view'⟩ := second
  change view = view' at hView
  subst hView
  obtain ⟨hMember, _, hLeads⟩ := hOrderly.leads r view hFirst
  obtain ⟨hMember', _, hLeads'⟩ := hOrderly.leads r' view hSecond
  -- both are the leader of the view
  have hLeader := (hElection.leader hPos hInt view).2
  rw [(hLeader r hMember).mp hLeads, (hLeader r' hMember').mp hLeads']

end ViewSystem

namespace Scenario

/-- A rotation whose hash always picks the second of four replicas. -/
def fixedRotation : Election := .rotation (fun _ => BitVec.ofNat 160 (2 ^ 96)) 4

/-- Replica 4 leads the first views; in view 4, which is reached by a timeout, the
other replicas take part. -/
def viewChanges : List ViewSystem.Event :=
  [.kickOff "4", .kickOff "1", .newView "4", .advanceView "4" 1, .newView "4",
    .advanceView "2" 3, .advanceView "3" 3, .newView "3", .newView "2", .advanceView "2" 1]

end Scenario

namespace ViewSystem

theorem one_proposal_per_view_four_replicas :
    let s := Scenario.viewChanges.foldl (ViewSystem.step Scenario.fixedRotation 4) (new 4)
    s.proposed = [("4", 1), ("4", 2), ("2", 4)] ∧ (s.proposed.map Prod.snd).Nodup :=
  ⟨by decide, (one_proposal_per_view Scenario.fixedRotation 4 Scenario.viewChanges (by decide)
    (by decide) (.rotation _) (by decide)).2.2⟩

end ViewSystem
end Bamboo
