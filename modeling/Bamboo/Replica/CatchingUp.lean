import Bamboo.HotStuff.AnyOrder
import Bamboo.Replica.EventLoop

/-! A follower whose proposals reach the event loop in any order, while the views that it
announces are handed over. A call that takes up many waiting proposals announces as many views,
so that the places in the channel of new views decide whether it returns. -/
namespace Bamboo

open Library

namespace FaultFree

open EventLoop

variable {s : FaultFree} {capacity last : Nat} {r : NodeID} {arrived : List Nat} {reached : Nat}
  {loop loop' : EventLoop}

/-- A follower in a run without timeouts. -/
structure Following (s : FaultFree) (last : Nat) (r : NodeID) (arrived : List Nat) (reached : Nat)
    (loop : EventLoop) : Prop where
  caughtUp : s.CaughtUp last r loop.received arrived reached loop.hs
  handed : ∀ view, loop.listening = .hand view → view ∈ loop.received
  notExpired : loop.listening ≠ .expired
  notTimeout : loop.listening ≠ .timeout

theorem Following.of_select (hSelect : loop.listening = .select)
    (h : s.CaughtUp last r loop.received arrived reached loop.hs) :
    s.Following last r arrived reached loop where
  caughtUp := h
  handed view hHand := by cases hSelect.symm.trans hHand
  notExpired hExpired := by cases hSelect.symm.trans hExpired
  notTimeout hTimeout := by cases hSelect.symm.trans hTimeout

/-- The channel holds no more views than the follower has announced. -/
theorem Following.chan_length_le (h : s.Following last r arrived reached loop) :
    loop.hs.pm.newViewChan.length ≤ reached := by
  have hLength := congrArg List.length h.caughtUp.announced
  rw [List.length_append, List.length_map, List.length_range'] at hLength
  omega

/-- One more proposal, taken after the last call has returned. -/
theorem Following.proposal (hDistinct : s.Distinct last) (hFollower : s.Follower last r)
    (h : s.Following last r arrived reached loop) (hArrived : ∀ view ∈ arrived, view ≤ last)
    (hFree : ¬loop.Sending capacity) {view : Nat} (hOne : 1 ≤ view) (hLast : view ≤ last) :
    ∃ loop' reached', loop.step s.cfg capacity (.handle (.block (s.block r view))) = .ok loop' ∧
      s.Following last r (arrived ++ [view]) reached' loop' := by
  obtain ⟨hs, reached', hProcess, hCaught⟩ :=
    h.caughtUp.deliver hDistinct hFollower hArrived hOne hLast
  have hStep : loop.hs.step s.cfg (.block (s.block r view)) = .ok hs :=
    Outcome.bind_eq_ok.mpr ⟨_, hProcess, rfl⟩
  exact ⟨{ loop with hs }, reached', step_handle rfl hFree hStep,
    { h with caughtUp := hCaught }⟩

/-- What handing over a view does: a follower leads none of the views, so nothing else
happens. -/
inductive HandsOver (capacity : Nat) (loop : EventLoop) : EventLoop → Prop where
  | stay : HandsOver capacity loop loop
  | receive {view : View} {rest : List View} (hSelect : loop.listening = .select)
      (hChan : loop.hs.pm.newViewChan = view :: rest) :
      HandsOver capacity loop
        { hs := { loop.hs with pm := { loop.hs.pm with newViewChan := rest } }
          listening := .hand view
          received := loop.received ++ [view] }
  | newView {view : View} (hHand : loop.listening = .hand view) (hFree : ¬loop.Sending capacity) :
      HandsOver capacity loop { loop with listening := .select }

/-- A follower proposes nothing in a view that it has announced. -/
theorem Following.processNewView (hFollower : s.Follower last r)
    (h : s.Following last r arrived reached loop) (hReached : reached ≤ last) {view : View}
    (hHand : loop.listening = .hand view) (payload : Payload) :
    loop.hs.processNewView s.cfg view payload = .ok loop.hs := by
  have hAnnounced : view ∈ loop.received ++ loop.hs.pm.newViewChan :=
    List.mem_append_left _ (h.handed view hHand)
  rw [h.caughtUp.announced] at hAnnounced
  obtain ⟨k, hk, rfl⟩ := List.mem_map.mp hAnnounced
  rw [List.mem_range'_1] at hk
  have hOther : s.cfg.election.isLeader loop.hs.id k = false := by
    rw [h.caughtUp.inStep.id, ← Bool.not_eq_true, s.isLeader_iff r hFollower.mem]
    exact hFollower.ne_leader k (by omega)
  exact if_neg (by simp [hOther])

theorem Following.quiet (hFollower : s.Follower last r)
    (h : s.Following last r arrived reached loop) (hReached : reached ≤ last) (capacity : Nat)
    {event : EventLoop.Event} (hQuiet : event.quiet = true) :
    ∃ loop', loop.step s.cfg capacity event = .ok loop' ∧ HandsOver capacity loop loop' := by
  cases event with
  | handle event => cases hQuiet
  | timer => cases hQuiet
  | localTmo => exact ⟨loop, if_neg fun hTmo => h.notExpired hTmo.1, .stay⟩
  | reset => exact ⟨loop, if_neg fun hReset => h.notTimeout hReset.1, .stay⟩
  | receive =>
      rw [step]
      split
      · rename_i view rest hSelect hChan
        exact ⟨_, rfl, .receive hSelect hChan⟩
      · exact ⟨loop, rfl, .stay⟩
  | newView payload =>
      rw [step]
      split
      · rename_i view hHand
        split_ifs with hSending
        · exact ⟨loop, rfl, .stay⟩
        · rw [h.processNewView hFollower hReached hHand]
          exact ⟨_, rfl, .newView hHand hSending⟩
      · exact ⟨loop, rfl, .stay⟩

theorem Following.handsOver (h : s.Following last r arrived reached loop)
    (hOver : HandsOver capacity loop loop') : s.Following last r arrived reached loop' := by
  cases hOver with
  | stay => exact h
  | receive hSelect hChan =>
      exact {
        caughtUp := h.caughtUp.receive hChan
        handed := by
          rintro view ⟨⟩
          simp
        notExpired := by simp
        notTimeout := by simp }
  | newView hHand hFree => exact .of_select rfl h.caughtUp

/-- What happens around a follower while no timer fires. -/
inductive Turn where
  /-- The event loop takes the proposal of a view from its handler. -/
  | proposal (view : Nat)
  | receive
  | newView (payload : Payload)

def Turn.arrival : Turn → Option Nat
  | .proposal view => some view
  | .receive | .newView _ => none

/-- The views whose proposals have been taken, in their order. -/
def arrivals (turns : List Turn) : List Nat := turns.filterMap Turn.arrival

def turn (s : FaultFree) (r : NodeID) : Turn → EventLoop.Event
  | .proposal view => .handle (.block (s.block r view))
  | .receive => .receive
  | .newView payload => .newView payload

/-- The event loop takes a proposal only after its last call has returned. -/
def Scheduled (s : FaultFree) (capacity : Nat) (r : NodeID) (turns : List Turn) : Prop :=
  Guarded (step s.cfg capacity) (fun loop event => event.quiet = true ∨ ¬loop.Sending capacity)
    (.new r false s.peers.card) (turns.map (s.turn r))

instance (capacity : Nat) (turns : List Turn) : Decidable (s.Scheduled capacity r turns) :=
  inferInstanceAs (Decidable (Guarded _ _ _ _))

theorem arrivals_concat (turns : List Turn) (next : Turn) :
    arrivals (turns ++ [next]) = arrivals turns ++ next.arrival.toList := by
  rw [arrivals, List.filterMap_append]
  cases next <;> rfl

theorem Following.turn (hDistinct : s.Distinct last) (hFollower : s.Follower last r)
    (h : s.Following last r arrived reached loop) (hArrived : ∀ view ∈ arrived, view ≤ last)
    {next : Turn} (hView : ∀ view ∈ next.arrival, 1 ≤ view ∧ view ≤ last)
    (hTaken : (s.turn r next).quiet = true ∨ ¬loop.Sending capacity) :
    ∃ loop' reached', loop.step s.cfg capacity (s.turn r next) = .ok loop' ∧
      s.Following last r (arrived ++ next.arrival.toList) reached' loop' := by
  have hQuiet : (s.turn r next).quiet = true → next.arrival = none →
      ∃ loop' reached', loop.step s.cfg capacity (s.turn r next) = .ok loop' ∧
        s.Following last r (arrived ++ next.arrival.toList) reached' loop' := by
    intro hQuiet hNone
    obtain ⟨loop', hStep, hOver⟩ :=
      h.quiet hFollower (h.caughtUp.reached_le hArrived) capacity hQuiet
    rw [hNone, Option.toList_none, List.append_nil]
    exact ⟨loop', reached, hStep, h.handsOver hOver⟩
  cases next with
  | proposal view =>
      obtain ⟨hOne, hLast⟩ := hView view rfl
      have hFree : ¬loop.Sending capacity := hTaken.resolve_left Bool.false_ne_true
      exact h.proposal hDistinct hFollower hArrived hFree hOne hLast
  | receive => exact hQuiet rfl rfl
  | newView payload => exact hQuiet rfl rfl

theorem run_following (hDistinct : s.Distinct last) (hFollower : s.Follower last r)
    {turns : List Turn} (hViews : ∀ view ∈ arrivals turns, 1 ≤ view ∧ view ≤ last)
    (hTaken : s.Scheduled capacity r turns) :
    ∃ loop reached, run (step s.cfg capacity) (.new r false s.peers.card) (turns.map (s.turn r)) =
      .ok loop ∧ s.Following last r (arrivals turns) reached loop := by
  induction turns using List.reverseRecOn with
  | nil => exact ⟨_, 0, rfl, .of_select rfl (new_caughtUp last r)⟩
  | append_singleton turns next ih =>
      rw [Scheduled, List.map_append] at hTaken
      rw [arrivals_concat] at hViews ⊢
      obtain ⟨loop, reached, hRun, h⟩ := ih
        (fun view hView => hViews view (List.mem_append_left _ hView)) hTaken.of_append
      obtain ⟨loop', reached', hStep, h'⟩ := h.turn hDistinct hFollower
        (fun view hView => (hViews view (List.mem_append_left _ hView)).2)
        (fun view hView => hViews view (List.mem_append_right _ (Option.mem_toList.mpr hView)))
        (hTaken.last hRun)
      rw [List.map_append]
      exact ⟨loop', reached', (run_snoc _ _ _ _).mpr ⟨loop, hRun, hStep⟩, h'⟩

/-- The order in which the proposals arrive makes no difference. Whatever proposals of the first
`last` views have been taken, in whatever order and however often, while the views are handed
over, a follower whose last call has returned is in the view before the first missing one; it has
committed all but the last three views before that, announced each view once, voted in exactly
these views, and keeps the proposals after the gap. All calls return if the channel of new views
has a place for each view. -/
theorem proposals_in_any_order (s : FaultFree) (capacity last : Nat) (hDistinct : s.Distinct last)
    {r : NodeID} (hFollower : s.Follower last r) (turns : List Turn)
    (hViews : ∀ view ∈ arrivals turns, 1 ≤ view ∧ view ≤ last)
    (hTaken : s.Scheduled capacity r turns) :
    ∃ loop reached, run (step s.cfg capacity) (.new r false s.peers.card) (turns.map (s.turn r)) =
        .ok loop ∧
      (last ≤ capacity → ¬loop.Sending capacity) ∧
      (¬loop.Sending capacity →
        (∀ view, 1 ≤ view → view ≤ reached → view ∈ arrivals turns) ∧
        reached + 1 ∉ arrivals turns ∧ loop.hs.pm.curView = reached ∧
        loop.announced = (List.range' 1 reached).map Nat.cast ∧
        loop.hs.committedBlocks = (List.range' 1 (reached - 3)).map (s.block r) ∧
        loop.hs.forkedBlocks = [] ∧
        (∀ message, message ∈ loop.hs.outbox ↔ ∃ view, 1 ≤ view ∧ view ≤ reached ∧
          message = .vote (s.leader (view + 1)) (s.ballot view r)) ∧
        ∀ (key : View) (block : Block), loop.hs.bufferedBlocks.lookup key = some block ↔
          ∃ view ∈ arrivals turns, reached + 1 < view ∧ key = (view : View) - 1 ∧
            block = s.block r view) := by
  obtain ⟨loop, reached, hRun, h⟩ := run_following hDistinct hFollower hViews hTaken
  have hReached := h.caughtUp.reached_le fun view hView => (hViews view hView).2
  have hCaught := h.caughtUp
  refine ⟨loop, reached, hRun, fun hRoom => ?_, fun _ => ⟨hCaught.mem_arrived, hCaught.missing,
    hCaught.inStep.curView, hCaught.announced, hCaught.inStep.committedBlocks,
    hCaught.inStep.forkedBlocks, hCaught.votes hFollower hReached, hCaught.buffered⟩⟩
  exact not_lt.mpr (h.chan_length_le.trans (hReached.trans hRoom))

/-- With two places in the channel the call for the first proposal waits until a view has been
received, and so does the one for the fourth. -/
def shuffled : List Turn :=
  [.proposal 3, .proposal 5, .proposal 2, .proposal 1, .receive, .newView {}, .receive,
    .newView {}, .proposal 3, .proposal 4, .receive]

theorem proposals_in_any_order_shuffled :
    ∃ loop, run (step alternating.cfg 2) (.new "3" false 4)
        (shuffled.map (alternating.turn "3")) = .ok loop ∧
      loop.hs.pm.curView = 5 ∧ (loop.hs.committedBlocks.map fun b => b.view) = [1, 2] := by
  obtain ⟨loop, hRun, hFree⟩ := Outcome.of_test (P := fun loop : EventLoop => ¬loop.Sending 2)
    (x := run (step alternating.cfg 2) (.new "3" false 4) (shuffled.map (alternating.turn "3")))
    (by decide)
  obtain ⟨found, reached, hFound, _, hReturned⟩ := proposals_in_any_order alternating 2 5
    (alternating_distinct 5 (by decide)) (alternating_follower 5) shuffled (by decide) (by decide)
  cases hRun.symm.trans hFound
  obtain ⟨hBefore, hMissing, hView, _, hCommitted, _⟩ := hReturned hFree
  have hReached : reached = 5 := by
    have hUpper : reached < 6 := not_le.mp fun h => absurd (hBefore 6 (by omega) h) (by decide)
    have hLower : ∀ k < 5, k + 1 ∈ arrivals shuffled := by decide
    exact (Nat.lt_succ_iff.mp hUpper).antisymm
      (not_lt.mp fun h => hMissing (hLower reached h))
  subst hReached
  exact ⟨loop, hRun, hView, by rw [hCommitted]; rfl⟩

/-- The proposals of some views reach the event loop through the handler. -/
def handling (s : FaultFree) (r : NodeID) (views : List Nat) : List EventLoop.Event :=
  views.map fun view => .handle (.block (s.block r view))

/-- While nothing has been announced every call returns. -/
theorem CaughtUp.step_proposal {hs hs' : HotStuff} (h : s.CaughtUp last r [] arrived 0 hs)
    {view : Nat} (hProcess : hs.processBlock s.cfg (s.block r view) = .ok (hs', .ok ()))
    (capacity : Nat) :
    step s.cfg capacity { hs } (.handle (.block (s.block r view))) = .ok { hs := hs' } := by
  have hFollowing : s.Following last r arrived 0 { hs } := .of_select rfl h
  exact step_handle rfl (not_lt.mpr (hFollowing.chan_length_le.trans (Nat.zero_le _)))
    (Outcome.bind_eq_ok.mpr ⟨_, hProcess, rfl⟩)

/-- Proposals that come before the first one are all kept, and nothing is announced. -/
theorem early_caughtUp (capacity : Nat) {early : List Nat}
    (hEarly : ∀ view ∈ early, 2 ≤ view ∧ view ≤ last) :
    ∃ hs, run (step s.cfg capacity) (.new r false s.peers.card) (s.handling r early) =
      .ok { hs } ∧ s.CaughtUp last r [] early 0 hs := by
  induction early using List.reverseRecOn with
  | nil => exact ⟨_, rfl, new_caughtUp last r⟩
  | append_singleton early view ih =>
      obtain ⟨hs, hRun, hCaught⟩ := ih fun found hFound =>
        hEarly found (List.mem_append_left _ hFound)
      have hView := hEarly view (by simp)
      obtain ⟨hs', hProcess, hCaught'⟩ := hCaught.delay (show 0 + 1 < view by omega)
      refine ⟨hs', ?_, hCaught'⟩
      rw [handling, List.map_append]
      exact (run_snoc _ _ _ _).mpr ⟨_, hRun, hCaught.step_proposal hProcess capacity⟩

/-- Once the first proposal comes, all views are announced in one call. -/
theorem late_caughtUp (capacity : Nat) (hDistinct : s.Distinct last)
    (hFollower : s.Follower last r) (hLast : 1 ≤ last) {early : List Nat}
    (hEarly : ∀ view, view ∈ early ↔ 2 ≤ view ∧ view ≤ last) :
    ∃ hs, run (step s.cfg capacity) (.new r false s.peers.card) (s.handling r (early ++ [1])) =
      .ok { hs } ∧ s.CaughtUp last r [] (early ++ [1]) last hs := by
  obtain ⟨hs, hRun, hCaught⟩ := early_caughtUp (s := s) (r := r) capacity fun view hView =>
    (hEarly view).mp hView
  obtain ⟨hs', reached, hProcess, hCaught'⟩ := hCaught.advance hDistinct hFollower
    (fun view hView => ((hEarly view).mp hView).2) hLast
  have hReached : reached = last := by
    have hMissing := hCaught'.missing
    have hUpper := hCaught'.reached_le fun view hView => by
      rcases List.mem_append.mp hView with hOld | hNew
      · exact ((hEarly view).mp hOld).2
      · rw [List.mem_singleton.mp hNew]
        exact hLast
    rw [List.mem_append, hEarly, List.mem_singleton] at hMissing
    omega
  subst hReached
  refine ⟨hs', ?_, hCaught'⟩
  rw [handling, List.map_append]
  exact (run_snoc _ _ _ _).mpr ⟨_, hRun, hCaught.step_proposal hProcess capacity⟩

/-- The announced views need at most one place more than there are, and none while
`ListenLocalEvent` is not receiving. -/
def Draining (capacity : Nat) (loop : EventLoop) : Prop :=
  loop.hs.pm.newViewChan.length ≤ if loop.listening = .select then capacity + 1 else capacity

theorem Draining.not_deadlocked (h : Draining capacity loop) : ¬loop.Deadlocked capacity := by
  rintro ⟨hSending, hListening⟩
  rw [Draining, if_neg hListening] at h
  exact absurd hSending (not_lt.mpr h)

theorem Draining.handsOver (h : Draining capacity loop) (hOver : HandsOver capacity loop loop') :
    Draining capacity loop' := by
  cases hOver with
  | stay => exact h
  | receive hSelect hChan =>
      rw [Draining, if_pos hSelect, hChan, List.length_cons] at h
      rw [Draining, if_neg (by simp)]
      exact Nat.le_of_succ_le_succ h
  | newView hHand hFree =>
      rw [Draining, if_pos rfl]
      exact (not_lt.mp hFree).trans (Nat.le_succ _)

/-- Handing over views keeps a follower and the room that it has. -/
theorem run_draining (hFollower : s.Follower last r) (hReached : reached ≤ last)
    (h : s.Following last r arrived reached loop) (hRoom : Draining capacity loop)
    {later : List EventLoop.Event} (hQuiet : ∀ event ∈ later, event.quiet = true)
    (hRun : run (step s.cfg capacity) loop later = .ok loop') : Draining capacity loop' := by
  have hGuard : Guarded (step s.cfg capacity) (fun _ event => event.quiet = true) loop later :=
    guarded_of_mem fun _ => hQuiet
  refine (guarded_run_invariant (P := fun loop =>
    s.Following last r arrived reached loop ∧ Draining capacity loop)
    (fun loop event loop' hBoth hEvent hStep => ?_) hGuard hRun ⟨h, hRoom⟩).2
  obtain ⟨found, hFound, hOver⟩ := hBoth.1.quiet hFollower hReached capacity hEvent
  cases hFound.symm.trans hStep
  exact ⟨hBoth.1.handsOver hOver, hBoth.2.handsOver hOver⟩

/-- A follower that gets the first proposal after those of the views up to `last`. If these are
at least two more than the channel of new views has places, then the call that catches up waits
for a place, and whatever comes next, as soon as `ListenLocalEvent` receives a view or its timer
fires, they wait for each other. If they are fewer, then handing over the views does not lead to
a deadlock. -/
theorem catching_up_blocks_iff (s : FaultFree) (capacity last : Nat) (hDistinct : s.Distinct last)
    {r : NodeID} (hFollower : s.Follower last r) (hLast : 1 ≤ last) (early : List Nat)
    (hEarly : ∀ view, view ∈ early ↔ 2 ≤ view ∧ view ≤ last) :
    ∃ loop, run (step s.cfg capacity) (.new r false s.peers.card) (s.handling r (early ++ [1])) =
        .ok loop ∧
      (capacity + 2 ≤ last →
        (∀ event, event = .receive ∨ event = .timer → ∃ blocked,
          loop.step s.cfg capacity event = .ok blocked ∧ blocked.Deadlocked capacity) ∧
        ∀ later loop', run (step s.cfg capacity) loop later = .ok loop' →
          loop' = loop ∨ loop'.Deadlocked capacity) ∧
      (last ≤ capacity + 1 → ∀ later loop', (∀ event ∈ later, event.quiet = true) →
        run (step s.cfg capacity) loop later = .ok loop' → ¬loop'.Deadlocked capacity) := by
  obtain ⟨hs, hRun, hCaught⟩ := late_caughtUp capacity hDistinct hFollower hLast hEarly
  have hLength : hs.pm.newViewChan.length = last := by
    rw [← List.nil_append hs.pm.newViewChan, hCaught.announced]
    simp
  refine ⟨{ hs }, hRun, fun hMany => ?_, fun hFew later loop' hQuiet hLater => ?_⟩
  · rw [← hLength] at hMany
    refine ⟨?_, fun later loop' hLater => run_deadlocked hMany hLater⟩
    rintro event (rfl | rfl)
    · obtain ⟨view, rest, hChan⟩ := List.exists_cons_of_length_pos
        (show 0 < hs.pm.newViewChan.length by omega)
      have hMove : Moves s.cfg capacity { hs } .receive _ := .receive rfl hChan
      exact ⟨_, step_receive rfl hChan, hMove.deadlocked hMany⟩
    · have hMove : Moves s.cfg capacity { hs } .timer _ := .timer rfl
      exact ⟨_, rfl, hMove.deadlocked hMany⟩
  · have hRoom : Draining capacity { hs } := hLength.trans_le hFew
    have hFollowing : s.Following last r (early ++ [1]) last { hs } := .of_select rfl hCaught
    exact (run_draining hFollower (le_refl _) hFollowing hRoom hQuiet hLater).not_deadlocked

/-- The channel of the source has 100 places: a follower that is 102 views behind blocks. -/
theorem catching_up_blocks_iff_hundred :
    ∃ loop, run (step alternating.cfg 100) (.new "3" false 4)
        (alternating.handling "3" (List.range' 2 101 ++ [1])) = .ok loop ∧
      ∀ event, event = .receive ∨ event = .timer → ∃ blocked,
        loop.step alternating.cfg 100 event = .ok blocked ∧ blocked.Deadlocked 100 := by
  obtain ⟨loop, hRun, hMany, _⟩ := catching_up_blocks_iff alternating 100 102
    (alternating_distinct 102 (by decide)) (alternating_follower 102) (by decide)
    (List.range' 2 101) (by simp only [List.mem_range'_1]; omega)
  exact ⟨loop, hRun, (hMany (by decide)).1⟩

end FaultFree
end Bamboo
