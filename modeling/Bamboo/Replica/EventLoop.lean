import Bamboo.Library.Int64
import Bamboo.HotStuff.NetworkInvariant
import Bamboo.HotStuff.Progress

/-! The goroutines around the event loop of a replica. `AdvanceView` writes the new view into a
channel with a fixed number of places and has the lock of the pacemaker meanwhile;
`ListenLocalEvent` takes a view out and hands it to the event loop, which is the one that calls
`AdvanceView`. A handler that announces more views than there are places has not returned. Apart
from these sends a handler runs at once, and one that cannot get the lock has not begun. -/
namespace Bamboo

open Library

/-- What comes to a replica through a handler. -/
def HotStuff.Event.arrives : HotStuff.Event → Bool
  | .block _ | .vote _ | .tmo _ | .kickOff => true
  | .localTmo _ => false

/-- Where `ListenLocalEvent` is. -/
inductive Listening where
  | select
  /-- Sending a view that it has received to the event loop. -/
  | hand (view : View)
  /-- In `GetCurView`, after the timer has fired. -/
  | expired
  /-- In `ProcessLocalTmo`. -/
  | timeout
deriving DecidableEq

/-- The channel of new views holds the first of the announced views, as many as it has places.
The others are still to be sent. -/
structure EventLoop where
  hs : HotStuff
  listening : Listening := .select
  /-- The views that `ListenLocalEvent` has received. `roundNo` is their number. -/
  received : List View := []

namespace EventLoop

inductive Event where
  /-- The event loop receives a block, a vote or a timeout message from its handler, or a
  handler calls `kickOff`. -/
  | handle (event : HotStuff.Event)
  /-- `ListenLocalEvent` receives a view. -/
  | receive
  /-- The event loop receives the view of `ListenLocalEvent`. -/
  | newView (payload : Payload)
  /-- The timer fires. -/
  | timer
  /-- `ListenLocalEvent` gets the current view and calls `ProcessLocalTmo`. -/
  | localTmo
  /-- `ProcessLocalTmo` returns. -/
  | reset

/-- No message arrives and the timer does not fire. -/
def Event.quiet : Event → Bool
  | .receive | .newView _ | .localTmo | .reset => true
  | .handle _ | .timer => false

def new (id : NodeID) (isByz : Bool) (n : Nat) : EventLoop := { hs := .new id isByz n }

def announced (s : EventLoop) : List View := s.received ++ s.hs.pm.newViewChan

/-- A call of `AdvanceView` waits for a place in the channel and has the lock. -/
def Sending (capacity : Nat) (s : EventLoop) : Prop :=
  capacity < s.hs.pm.newViewChan.length

instance (capacity : Nat) (s : EventLoop) : Decidable (s.Sending capacity) :=
  inferInstanceAs (Decidable (_ < _))

/-- A goroutine that cannot go on stays where it is. All handlers, and `ListenLocalEvent` after
the timer has fired, ask for the current view and need the lock for it. -/
def step (cfg : Config) (capacity : Nat) (s : EventLoop) : Event → Outcome EventLoop
  | .handle event =>
      if event.arrives = false ∨ s.Sending capacity then pure s
      else do
        let hs ← s.hs.step cfg event
        pure { s with hs }
  | .receive =>
      match s.listening, s.hs.pm.newViewChan with
      | .select, view :: rest =>
          pure { hs := { s.hs with pm := { s.hs.pm with newViewChan := rest } }
                 listening := .hand view
                 received := s.received ++ [view] }
      | _, _ => pure s
  | .newView payload =>
      match s.listening with
      | .hand view =>
          if s.Sending capacity then pure s
          else do
            let hs ← s.hs.processNewView cfg view payload
            pure { s with hs, listening := .select }
      | _ => pure s
  | .timer =>
      if s.listening = .select then pure { s with listening := .expired } else pure s
  | .localTmo =>
      if s.listening = .expired ∧ ¬s.Sending capacity then do
        let hs ← s.hs.processLocalTmo cfg s.hs.pm.curView
        pure { s with hs, listening := .timeout }
      else pure s
  | .reset =>
      if s.listening = .timeout ∧ ¬s.Sending capacity then pure { s with listening := .select }
      else pure s

/-- A call of `AdvanceView` waits for a place, and `ListenLocalEvent`, which alone makes one,
waits for the caller: it hands a view to the event loop, needs the lock, or made the call
itself. -/
def Deadlocked (capacity : Nat) (s : EventLoop) : Prop :=
  s.Sending capacity ∧ s.listening ≠ .select

instance (capacity : Nat) (s : EventLoop) : Decidable (s.Deadlocked capacity) :=
  inferInstanceAs (Decidable (_ ∧ _))

variable {cfg : Config} {capacity : Nat} {s s' : EventLoop}

/-- What an event does when its goroutine can go on. -/
inductive Moves (cfg : Config) (capacity : Nat) (s : EventLoop) : Event → EventLoop → Prop where
  | handle {event : HotStuff.Event} {hs : HotStuff} (hArrives : event.arrives = true)
      (hFree : ¬s.Sending capacity) (hStep : s.hs.step cfg event = .ok hs) :
      Moves cfg capacity s (.handle event) { s with hs }
  | receive {view : View} {rest : List View} (hSelect : s.listening = .select)
      (hChan : s.hs.pm.newViewChan = view :: rest) :
      Moves cfg capacity s .receive
        { hs := { s.hs with pm := { s.hs.pm with newViewChan := rest } }
          listening := .hand view
          received := s.received ++ [view] }
  | newView {view : View} {payload : Payload} {hs : HotStuff} (hHand : s.listening = .hand view)
      (hFree : ¬s.Sending capacity) (hStep : s.hs.processNewView cfg view payload = .ok hs) :
      Moves cfg capacity s (.newView payload) { s with hs, listening := .select }
  | timer (hSelect : s.listening = .select) :
      Moves cfg capacity s .timer { s with listening := .expired }
  | localTmo {hs : HotStuff} (hExpired : s.listening = .expired) (hFree : ¬s.Sending capacity)
      (hStep : s.hs.processLocalTmo cfg s.hs.pm.curView = .ok hs) :
      Moves cfg capacity s .localTmo { s with hs, listening := .timeout }
  | reset (hTimeout : s.listening = .timeout) (hFree : ¬s.Sending capacity) :
      Moves cfg capacity s .reset { s with listening := .select }

theorem step_moves {event : Event} (h : s.step cfg capacity event = .ok s') :
    s' = s ∨ Moves cfg capacity s event s' := by
  cases event with
  | handle event =>
      rw [step] at h
      split_ifs at h with hBlocked
      · exact Or.inl (Outcome.pure_eq_ok.mp h).symm
      · obtain ⟨hs, hStep, hDone⟩ := Outcome.bind_eq_ok.mp h
        cases Outcome.pure_eq_ok.mp hDone
        simp only [not_or, Bool.not_eq_false] at hBlocked
        exact Or.inr (.handle hBlocked.1 hBlocked.2 hStep)
  | receive =>
      rw [step] at h
      split at h
      · rename_i view rest hSelect hChan
        cases Outcome.pure_eq_ok.mp h
        exact Or.inr (.receive hSelect hChan)
      · exact Or.inl (Outcome.pure_eq_ok.mp h).symm
  | newView payload =>
      rw [step] at h
      split at h
      · rename_i view hHand
        split_ifs at h with hSending
        · exact Or.inl (Outcome.pure_eq_ok.mp h).symm
        · obtain ⟨hs, hStep, hDone⟩ := Outcome.bind_eq_ok.mp h
          cases Outcome.pure_eq_ok.mp hDone
          exact Or.inr (.newView hHand hSending hStep)
      · exact Or.inl (Outcome.pure_eq_ok.mp h).symm
  | timer =>
      rw [step] at h
      split_ifs at h with hSelect
      · cases Outcome.pure_eq_ok.mp h
        exact Or.inr (.timer hSelect)
      · exact Or.inl (Outcome.pure_eq_ok.mp h).symm
  | localTmo =>
      rw [step] at h
      split_ifs at h with hTmo
      · obtain ⟨hs, hStep, hDone⟩ := Outcome.bind_eq_ok.mp h
        cases Outcome.pure_eq_ok.mp hDone
        exact Or.inr (.localTmo hTmo.1 hTmo.2 hStep)
      · exact Or.inl (Outcome.pure_eq_ok.mp h).symm
  | reset =>
      rw [step] at h
      split_ifs at h with hReset
      · cases Outcome.pure_eq_ok.mp h
        exact Or.inr (.reset hReset.1 hReset.2)
      · exact Or.inl (Outcome.pure_eq_ok.mp h).symm

theorem step_handle {event : HotStuff.Event} {hs : HotStuff} (hArrives : event.arrives = true)
    (hFree : ¬s.Sending capacity) (hStep : s.hs.step cfg event = .ok hs) :
    s.step cfg capacity (.handle event) = .ok { s with hs } := by
  rw [step, if_neg (by simp [hArrives, hFree]), hStep]
  rfl

theorem step_receive {view : View} {rest : List View} (hSelect : s.listening = .select)
    (hChan : s.hs.pm.newViewChan = view :: rest) :
    s.step cfg capacity .receive = .ok
      { hs := { s.hs with pm := { s.hs.pm with newViewChan := rest } }
        listening := .hand view
        received := s.received ++ [view] } := by
  simp only [step, hSelect, hChan, pure, Except.pure]

/-- Nothing ends a deadlock. -/
theorem Deadlocked.step_eq (h : s.Deadlocked capacity) (event : Event) :
    s.step cfg capacity event = .ok s := by
  obtain ⟨hSending, hListening⟩ := h
  cases event with
  | handle event => exact if_pos (Or.inr hSending)
  | receive =>
      rw [step]
      split
      · rename_i hSelect hChan
        exact absurd hSelect hListening
      · rfl
  | newView payload =>
      rw [step]
      split
      · exact if_pos hSending
      · rfl
  | timer => exact if_neg hListening
  | localTmo => exact if_neg fun hTmo => hTmo.2 hSending
  | reset => exact if_neg fun hReset => hReset.2 hSending

theorem Deadlocked.run_eq (h : s.Deadlocked capacity) (events : List Event) :
    run (step cfg capacity) s events = .ok s := by
  induction events with
  | nil => rfl
  | cons event events ih =>
      rw [run, h.step_eq, Outcome.ok_bind]
      exact ih

/-- While a call has two views too many for the channel, whatever `ListenLocalEvent` does is a
deadlock, and nobody else can do anything. -/
theorem Moves.deadlocked {event : Event} (h : Moves cfg capacity s event s')
    (hMany : capacity + 2 ≤ s.hs.pm.newViewChan.length) : s'.Deadlocked capacity := by
  have hSending : s.Sending capacity := show capacity < s.hs.pm.newViewChan.length by omega
  cases h with
  | handle hArrives hFree hStep => exact absurd hSending hFree
  | receive hSelect hChan =>
      rename_i view rest
      rw [hChan, List.length_cons] at hMany
      exact ⟨show capacity < rest.length by omega, by simp⟩
  | newView hHand hFree hStep => exact absurd hSending hFree
  | timer hSelect => exact ⟨hSending, by simp⟩
  | localTmo hExpired hFree hStep => exact absurd hSending hFree
  | reset hTimeout hFree => exact absurd hSending hFree

theorem run_deadlocked {events : List Event} (hMany : capacity + 2 ≤ s.hs.pm.newViewChan.length)
    (hRun : run (step cfg capacity) s events = .ok s') : s' = s ∨ s'.Deadlocked capacity := by
  refine run_invariant (P := fun found => found = s ∨ found.Deadlocked capacity) ?_ hRun
    (Or.inl rfl)
  rintro found event next (rfl | hDeadlocked) hStep
  · exact (step_moves hStep).imp_right fun hMove => hMove.deadlocked hMany
  · rw [hDeadlocked.step_eq event] at hStep
    cases hStep
    exact Or.inr hDeadlocked

/-- Only a deadlock is a standstill: otherwise `ListenLocalEvent` can go on, in its `select` at the
latest when the timer fires. -/
theorem deadlocked_of_step_eq (h : ∀ event, s.step cfg capacity event = .ok s) :
    s.Deadlocked capacity := by
  by_contra hNot
  have hFree : s.listening ≠ .select → ¬s.Sending capacity := fun hBusy hSending =>
    hNot ⟨hSending, hBusy⟩
  have hStays : ∀ next : EventLoop, (pure next : Outcome EventLoop) = .ok s →
      next.listening = s.listening := fun next hDone =>
    congrArg EventLoop.listening (Outcome.pure_eq_ok.mp hDone)
  cases hWhere : s.listening with
  | select =>
      have hStep := h .timer
      rw [step, if_pos hWhere] at hStep
      cases (hStays _ hStep).trans hWhere
  | hand view =>
      have hStep := h (.newView {})
      simp only [step, hWhere, if_neg (hFree (by simp [hWhere]))] at hStep
      obtain ⟨hs, _, hDone⟩ := Outcome.bind_eq_ok.mp hStep
      cases (hStays _ hDone).trans hWhere
  | expired =>
      have hStep := h .localTmo
      rw [step, if_pos ⟨hWhere, hFree (by simp [hWhere])⟩] at hStep
      obtain ⟨hs, _, hDone⟩ := Outcome.bind_eq_ok.mp hStep
      cases (hStays _ hDone).trans hWhere
  | timeout =>
      have hStep := h .reset
      rw [step, if_pos ⟨hWhere, hFree (by simp [hWhere])⟩] at hStep
      cases (hStays _ hStep).trans hWhere

theorem processNewView_advances {hs hs' : HotStuff} {view : View} {payload : Payload}
    (h : hs.processNewView cfg view payload = .ok hs') : hs.pm.Advances hs'.pm := by
  unfold HotStuff.processNewView at h
  split_ifs at h
  · obtain ⟨proposal, _, hStep⟩ := Outcome.bind_eq_ok.mp h
    exact (HotStuff.step_progress hStep).pm
  · cases Outcome.pure_eq_ok.mp h
    exact .refl _

/-- The announced views are different views up to the current one, and the one that is handed
over has been received last. -/
structure Announces (s : EventLoop) : Prop where
  pending : ({ s.hs.pm with newViewChan := s.announced } : Pacemaker).Pending
  handed : ∀ view, s.listening = .hand view → ∃ before, s.received = before ++ [view]

theorem new_announces (id : NodeID) (isByz : Bool) (n : Nat) : (new id isByz n).Announces where
  pending := ⟨le_refl _, List.Pairwise.nil, fun _ hView => absurd hView List.not_mem_nil⟩
  handed _ h := by cases h

/-- What is announced by a call comes after what has been received. -/
theorem Announces.advances (h : s.Announces) {hs : HotStuff} (hPm : s.hs.pm.Advances hs.pm) :
    ({ hs.pm with newViewChan := s.received ++ hs.pm.newViewChan } : Pacemaker).Pending := by
  obtain ⟨hLe, views, hChan, hSorted, hBounds⟩ := hPm
  refine h.pending.advances ⟨hLe, views, ?_, hSorted, hBounds⟩
  change s.received ++ hs.pm.newViewChan = s.received ++ s.hs.pm.newViewChan ++ views
  rw [hChan, List.append_assoc]

theorem Announces.moves {event : Event} (h : s.Announces) (hMove : Moves cfg capacity s event s') :
    s'.Announces := by
  cases hMove with
  | handle hArrives hFree hStep =>
      exact ⟨h.advances (HotStuff.step_progress hStep).pm, h.handed⟩
  | receive hSelect hChan =>
      rename_i view rest
      have hPending := h.pending
      rw [announced, hChan, List.append_cons] at hPending
      refine ⟨hPending, ?_⟩
      rintro found ⟨⟩
      exact ⟨s.received, rfl⟩
  | newView hHand hFree hStep =>
      exact ⟨h.advances (processNewView_advances hStep), fun _ hOther => by cases hOther⟩
  | timer hSelect => exact ⟨h.pending, fun _ hOther => by cases hOther⟩
  | localTmo hExpired hFree hStep =>
      exact ⟨h.advances (HotStuff.processLocalTmo_progress hStep).pm,
        fun _ hOther => by cases hOther⟩
  | reset hTimeout hFree => exact ⟨h.pending, fun _ hOther => by cases hOther⟩

theorem run_announces {id : NodeID} {isByz : Bool} {n : Nat} {events : List Event}
    (hRun : run (step cfg capacity) (new id isByz n) events = .ok s) : s.Announces := by
  refine run_invariant (fun s event s' h hStep => ?_) hRun (new_announces id isByz n)
  rcases step_moves hStep with rfl | hMove
  · exact h
  · exact h.moves hMove

/-- Whatever arrives and whenever the timer fires, the goroutines come to a standstill only in
a deadlock, and not before the replica has announced more views than the channel has places;
while a view is handed over it takes one more. In the range of `int64` these are different
views. -/
theorem blocks_only_beyond_capacity (cfg : Config) (capacity : Nat) {id : NodeID} {isByz : Bool}
    {n : Nat} {events : List Event}
    (hRun : run (step cfg capacity) (new id isByz n) events = .ok s) :
    (s.Deadlocked capacity ↔ ∀ later, run (step cfg capacity) s later = .ok s) ∧
      (s.Deadlocked capacity → capacity < s.announced.length ∧
        (∀ view, s.listening = .hand view → capacity + 1 < s.announced.length) ∧
        (s.hs.pm.curView ≤ maxInt64 → s.announced.Pairwise (· < ·))) := by
  have hAnnounces := run_announces hRun
  refine ⟨⟨fun h => h.run_eq, fun hStill => ?_⟩, fun hDeadlocked => ?_⟩
  · have hStep : ∀ event, s.step cfg capacity event = .ok s := fun event => by
      obtain ⟨next, hNext, hDone⟩ := Outcome.bind_eq_ok.mp (hStill [event])
      cases hDone
      exact hNext
    exact deadlocked_of_step_eq hStep
  · have hLength : s.announced.length = s.received.length + s.hs.pm.newViewChan.length :=
      List.length_append
    have hSending : capacity < s.hs.pm.newViewChan.length := hDeadlocked.1
    refine ⟨by omega, fun view hHand => ?_, fun _ => hAnnounces.pending.sorted⟩
    obtain ⟨before, hReceived⟩ := hAnnounces.handed view hHand
    rw [hReceived, List.length_append, List.length_singleton] at hLength
    omega

end EventLoop

namespace Scenario

/-- A follower gets the second proposal before the first view has been handed to it. -/
def overrun : List EventLoop.Event :=
  [.handle (.block (FaultFree.alternating.block "3" 1)), .receive,
    .handle (.block (FaultFree.alternating.block "3" 2))]

/-- The timer fires before the view of the first proposal has been received. -/
def outwaited : List EventLoop.Event :=
  [.handle (.block (FaultFree.alternating.block "3" 1)), .timer]

end Scenario

namespace EventLoop

theorem blocks_only_beyond_capacity_overrun :
    (∃ s, run (step FaultFree.alternating.cfg 0) (new "3" false 4) Scenario.overrun = .ok s ∧
      s.Deadlocked 0 ∧ 1 < s.announced.length) ∧
    ∃ s, run (step FaultFree.alternating.cfg 0) (new "3" false 4) Scenario.outwaited = .ok s ∧
      s.listening = .expired ∧
      ∀ later, run (step FaultFree.alternating.cfg 0) s later = .ok s := by
  constructor
  · obtain ⟨s, hRun, hDeadlocked, hHand⟩ := Outcome.of_test
      (P := fun s : EventLoop => s.Deadlocked 0 ∧ s.listening = .hand 1)
      (x := run (step FaultFree.alternating.cfg 0) (new "3" false 4) Scenario.overrun) (by decide)
    exact ⟨s, hRun, hDeadlocked,
      ((blocks_only_beyond_capacity _ 0 hRun).2 hDeadlocked).2.1 1 hHand⟩
  · obtain ⟨s, hRun, hDeadlocked, hExpired⟩ := Outcome.of_test
      (P := fun s : EventLoop => s.Deadlocked 0 ∧ s.listening = .expired)
      (x := run (step FaultFree.alternating.cfg 0) (new "3" false 4) Scenario.outwaited) (by decide)
    exact ⟨s, hRun, hExpired, (blocks_only_beyond_capacity _ 0 hRun).1.mp hDeadlocked⟩

end EventLoop
end Bamboo
