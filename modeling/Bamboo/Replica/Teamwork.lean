import Bamboo.Replica.Team

/-! The executors of all nodes, with groups. Each node executes the microblocks of its own groups,
and takes over the others on the results that it is sent. A result goes to few nodes: those of the
next group that are not in this one. Since it counts for all smaller numbers as well, that is
enough. -/
namespace Bamboo

open Library

/-- The executors and the results on their way. A result that has arrived may arrive again. -/
structure Teamwork where
  nodes : NodeID → Executor
  sent : Finset (NodeID × ExecuteResult) := ∅
  received : Finset (NodeID × ExecuteResult) := ∅

namespace Teamwork

inductive Event where
  /-- The next `count` committed microblocks reach the executor of a node. -/
  | hand (r : NodeID) (count : Nat)
  | deliver (r : NodeID) (result : ExecuteResult)

/-- Who gets a result: `Broadcast` and `BroadcastByGroup` leave out the sender. -/
def addressed (cfg : Settings) (r : NodeID) : Outgoing → Finset (NodeID × ExecuteResult)
  | .missingRequest _ _ => ∅
  | .result none result => ((peers cfg).erase r).image (·, result)
  | .result (some members) result => (members.erase r).image (·, result)

def letters (cfg : Settings) (r : NodeID) (outbox : List Outgoing) :
    Finset (NodeID × ExecuteResult) :=
  outbox.foldr (fun message others => addressed cfg r message ∪ others) ∅

theorem mem_letters {cfg : Settings} {r : NodeID} {outbox : List Outgoing}
    {x : NodeID × ExecuteResult} :
    x ∈ letters cfg r outbox ↔ ∃ message ∈ outbox, x ∈ addressed cfg r message := by
  induction outbox with
  | nil => simp [letters]
  | cons message rest ih =>
      rw [letters, List.foldr_cons, Finset.mem_union, List.exists_mem_cons_iff, ← ih]
      rfl

theorem mem_addressed {cfg : Settings} {r n : NodeID} {message : Outgoing} {result : ExecuteResult} :
    (n, result) ∈ addressed cfg r message ↔
      ∃ recipients, message = .result recipients result ∧
        n ∈ recipients.getD (peers cfg) ∧ n ≠ r := by
  cases message with
  | missingRequest recipients mbID => simp [addressed]
  | result recipients found => cases recipients <;> simp [addressed] <;> grind

/-- The executor of a node is the given one, and what it sends is on its way. -/
def after (cfg : Settings) (s : Teamwork) (r : NodeID) (e : Executor) : Teamwork where
  nodes := Function.update s.nodes r { e with outbox := [] }
  sent := s.sent ∪ letters cfg r e.outbox
  received := s.received

variable {cfg : Settings} {s : Teamwork} {r m : NodeID} {e : Executor}

@[simp] theorem after_nodes_self : (s.after cfg r e).nodes r = { e with outbox := [] } :=
  Function.update_self _ _ _

theorem after_nodes_of_ne (h : m ≠ r) : (s.after cfg r e).nodes m = s.nodes m :=
  Function.update_of_ne h _ _

end Teamwork

namespace Team

open Executor Teamwork

variable (T : Team)

def start : Teamwork where
  nodes r := { id := r, gm := .new T.cfg r }

/-- A node handles a call, and what it sends is on its way. -/
def perform (s : Teamwork) (r : NodeID) (call : Executor.Call) : Outcome Teamwork := do
  let e ← call.perform T.cfg T.keys (s.nodes r)
  pure (s.after T.cfg r e)

/-- What a node is handed next. -/
def nextBatch (s : Teamwork) (r : NodeID) (count : Nat) : List MicroBlock :=
  ((T.mbs r).drop (s.nodes r).delivered.length).take count

def step (s : Teamwork) : Teamwork.Event → Outcome Teamwork
  | .hand r count =>
      if r ∈ peers T.cfg then T.perform s r (.addMbToExecute (T.nextBatch s r count)) else pure s
  | .deliver r result =>
      if (r, result) ∈ s.sent then do
        let s ← T.perform s r (.handleResult result)
        pure { s with received := insert (r, result) s.received }
      else pure s

/-- What the executors are for the plan. -/
def view (nodes : NodeID → Executor) : Relay.State NodeID where
  position r := (nodes r).applied.length
  worked r := (nodes r).Executed
  heard r k := ((nodes r).reports ((k + 1 : Nat) : Int)).keys

/-- The result of a node for the microblock at a place. -/
def report (p : NodeID) (k : Nat) : ExecuteResult :=
  let hash := ((T.mbs p)[k]?.map MicroBlock.hash).getD 0
  { propsalId := p, sig := (T.keys.privSign hash p).toOption.getD [], mb := hash
    no := ((k + 1 : Nat) : Int) }

/-- The results on their way are those of the executed microblocks, to all who need them. -/
structure Sound (s : Teamwork) : Prop where
  working : ∀ r ∈ peers T.cfg, T.Working r (s.nodes r)
  consistent : T.plan.Consistent (view s.nodes)
  sent : ∀ x ∈ s.sent, x.1 ∈ peers T.cfg ∧
    ∃ p ∈ peers T.cfg, ∃ k < T.groups.length, (s.nodes p).Executed k ∧ x.2 = T.report p k
  told : ∀ m ∈ peers T.cfg, ∀ k, (s.nodes m).Executed k → ∀ n ∈ T.plan.audience k, n ≠ m →
    (n, T.report m k) ∈ s.sent
  received : s.received ⊆ s.sent
  heard : ∀ x ∈ s.received, ∀ k : Nat, ((k + 1 : Nat) : Int) ≤ x.2.no →
    x.2.propsalId ∈ ((s.nodes x.1).reports ((k + 1 : Nat) : Int)).keys

variable {T} {s s' : Teamwork} {r : NodeID} {e' : Executor} {call : Executor.Call}
  {taken worked : List MicroBlock}

theorem report_eq {k : Nat} {mb : MicroBlock} {sig : Signature} (hHere : (T.mbs r)[k]? = some mb)
    (hSig : T.keys.privSign mb.hash r = .ok sig) :
    T.report r k = { propsalId := r, sig, mb := mb.hash, no := mb.committedNo } := by
  have hNumber := (T.numbered r).number hHere
  unfold report
  rw [hHere]
  simp only [Option.map_some, Option.getD_some, hSig]
  rw [hNumber, Int.add_comm]
  rfl

/-- A message about a microblock of the queue is the report about its place, and reaches those
who need it. -/
theorem Working.reports {e : Executor} (h : T.Working r e) (hProper : T.Proper r e call)
    (hEffect : Effect T.cfg T.keys e call e' taken worked e'.outbox) {i : Nat} {message : Outgoing}
    (hReports : Reports T.keys e.id e.gm (worked ++ e'.mbs) i message) :
    e.applied.length + taken.length + i < T.groups.length ∧
      ∃ recipients, message = .result recipients (T.report r (e.applied.length + taken.length + i)) ∧
        recipients.getD (peers T.cfg) ⊆ peers T.cfg ∧
        T.plan.audience (e.applied.length + taken.length + i) ⊆ recipients.getD (peers T.cfg) := by
  have hPlace : ∀ {j : Nat} {mb : MicroBlock}, (worked ++ e'.mbs)[j]? = some mb →
      (T.mbs r)[e.applied.length + taken.length + j]? = some mb := by
    intro j mb hHere
    rw [Nat.add_assoc]
    apply h.place hProper
    rw [hEffect.queue, List.getElem?_append_right (Nat.le_add_right _ _), Nat.add_sub_cancel_left]
    exact hHere
  obtain ⟨mb, sig, recipients, hHere, hSig, hAddresses, rfl⟩ := hReports
  rw [h.id] at hSig ⊢
  refine ⟨?_, recipients, by rw [report_eq (hPlace hHere) hSig], ?_⟩
  · rw [← length_mbs r]
    exact (List.getElem?_eq_some_iff.mp (hPlace hHere)).1
  · unfold Addresses at hAddresses
    cases hNext : (worked ++ e'.mbs)[i + 1]? with
    | none =>
        rw [hNext] at hAddresses
        rw [hAddresses, Option.getD_none]
        refine ⟨le_refl _, ?_⟩
        unfold Relay.Plan.audience
        split_ifs with hMore
        · exact Finset.sdiff_subset.trans (T.plan.team_subset _ hMore)
        · exact le_refl _
    | some next =>
        rw [hNext] at hAddresses
        obtain ⟨_, current, later, hSame, hCurrent, hLater, rfl⟩ := hAddresses
        cases Option.some.inj (hHere.symm.trans hSame)
        rw [h.gm, getGroupList r (hPlace hHere)] at hCurrent
        rw [h.gm, getGroupList r (hPlace hNext)] at hLater
        cases hCurrent
        cases hLater
        have hMore : e.applied.length + taken.length + i + 1 < T.groups.length := by
          rw [← length_mbs r]
          exact (List.getElem?_eq_some_iff.mp (hPlace hNext)).1
        refine ⟨Finset.sdiff_subset.trans (T.plan.team_subset _ hMore), ?_⟩
        unfold Relay.Plan.audience
        rw [if_pos (show _ < T.plan.jobs from hMore)]
        exact le_refl _

/-- A call is a move of the plan. -/
theorem Working.moves (h : T.Working r (s.nodes r)) (hProper : T.Proper r (s.nodes r) call)
    (hEffect : Effect T.cfg T.keys (s.nodes r) call e' taken worked e'.outbox)
    (hTrue : ∀ k : Nat, ∀ m ∈ call.reporters ((k + 1 : Nat) : Int), m ∈ peers T.cfg ∧
      ∃ j, k ≤ j ∧ (s.nodes m).Executed j) :
    T.plan.Moves r ((s.nodes r).applied.length + taken.length) (view s.nodes)
      (view (s.after T.cfg r e').nodes) where
  others m hm := by simp [view, after_nodes_of_ne hm]
  middle_ge := Nat.le_add_right _ _
  position_ge := by
    simp only [view, after_nodes_self]
    rw [hEffect.length_applied]
    exact Nat.le_add_right _ _
  worked k := by
    simp only [view, after_nodes_self]
    exact hEffect.executed_iff k
  heard k m hm := by
    simp only [view, after_nodes_self] at hm ⊢
    have hKeys : m ∈ (e'.reports ((k + 1 : Nat) : Int)).keys := hm
    rw [hEffect.reports, Finset.mem_union] at hKeys
    exact hKeys.imp_right (hTrue k m)
  enough k hFrom hTo := by
    simp only [view, after_nodes_self] at hFrom ⊢
    have hIndex : k - (s.nodes r).applied.length < taken.length := by omega
    have hHere : ((s.nodes r).mbs ++ call.batch)[k - (s.nodes r).applied.length]? =
        some (taken.get ⟨_, hIndex⟩) := by
      rw [hEffect.queue, List.getElem?_append_left hIndex]
      exact List.getElem?_eq_getElem hIndex
    have hPlace := h.place hProper hHere
    have hNumber := (T.numbered r).number hPlace
    have hConfirmed := hEffect.confirmed _ (List.get_mem taken ⟨_, hIndex⟩)
    have hNo : (taken.get ⟨_, hIndex⟩).committedNo = ((k + 1 : Nat) : Int) := by omega
    rw [hNo] at hConfirmed
    exact hConfirmed
  mine k hFrom hTo := by
    simp only [view, after_nodes_self] at hTo
    rw [hEffect.length_applied] at hTo
    have hIndex : k - ((s.nodes r).applied.length + taken.length) < worked.length := by omega
    have hMem := List.get_mem worked ⟨_, hIndex⟩
    have hHere : ((s.nodes r).mbs ++ call.batch)[k - (s.nodes r).applied.length]? =
        some (worked.get ⟨_, hIndex⟩) := by
      rw [hEffect.queue, List.getElem?_append_right (by omega), Nat.sub_sub,
        List.getElem?_append_left hIndex]
      exact List.getElem?_eq_getElem hIndex
    have hPlace := h.place hProper hHere
    have hRunnable := (hEffect.runnable _ hMem).1
    rw [h.gm, isInMyGroup_iff hPlace] at hRunnable
    rw [show k = (s.nodes r).applied.length + (k - (s.nodes r).applied.length) by omega]
    exact hRunnable

/-- What a call changes: one executor, and there are more results on their way. -/
structure Called (s : Teamwork) (r : NodeID) (call : Executor.Call) (s' : Teamwork) : Prop where
  others : ∀ m, m ≠ r → s'.nodes m = s.nodes m
  delivered : (s'.nodes r).delivered = (s.nodes r).delivered ++ call.batch
  reports : ∀ no, ((s'.nodes r).reports no).keys = ((s.nodes r).reports no).keys ∪ call.reporters no
  sent : s.sent ⊆ s'.sent
  received : s'.received = s.received

theorem Called.heard (h : Called s r call s') {m p : NodeID} {no : Int}
    (hHeard : p ∈ ((s.nodes m).reports no).keys) : p ∈ ((s'.nodes m).reports no).keys := by
  by_cases hSame : m = r
  · subst hSame
    rw [h.reports]
    exact Finset.mem_union_left _ hHeard
  · rw [h.others m hSame]
    exact hHeard

/-- What nodes report is true. -/
theorem Sound.reporters_true (h : T.Sound s)
    (hSent : ∀ result, call = .handleResult result → (r, result) ∈ s.sent) (k : Nat) (m : NodeID)
    (hm : m ∈ call.reporters ((k + 1 : Nat) : Int)) :
    m ∈ peers T.cfg ∧ ∃ j, k ≤ j ∧ (s.nodes m).Executed j := by
  cases call with
  | addMbToExecute batch => exact absurd hm (Finset.notMem_empty m)
  | handleResult result =>
      obtain ⟨_, p, hp, j, _, hExecuted, hReport⟩ := h.sent _ (hSent result rfl)
      dsimp only at hReport
      rw [Executor.Call.reporters, hReport] at hm
      split_ifs at hm with hRange
      · cases Finset.mem_singleton.mp hm
        have hUpTo : ((k + 1 : Nat) : Int) ≤ ((j + 1 : Nat) : Int) := hRange.2
        exact ⟨hp, j, by omega, hExecuted⟩
      · exact absurd hm (Finset.notMem_empty m)

section After

variable (h : T.Sound s) (hr : r ∈ peers T.cfg) (hProper : T.Proper r (s.nodes r) call)
  (hEffect : Effect T.cfg T.keys (s.nodes r) call e' taken worked e'.outbox)
  (hMoves : T.plan.Moves r ((s.nodes r).applied.length + taken.length) (view s.nodes)
    (view (s.after T.cfg r e').nodes))

include hEffect in
theorem called_after : Called s r call (s.after T.cfg r e') where
  others m hm := after_nodes_of_ne hm
  delivered := by
    rw [after_nodes_self]
    exact hEffect.delivered
  reports no := by
    rw [after_nodes_self]
    exact hEffect.reports no
  sent := Finset.subset_union_left
  received := rfl

include h hr hProper hEffect hMoves

/-- Only true results are sent. -/
theorem Sound.sent_after {n : NodeID} {result : ExecuteResult}
    (hSent : (n, result) ∈ (s.after T.cfg r e').sent) :
    n ∈ peers T.cfg ∧ ∃ p ∈ peers T.cfg, ∃ k < T.groups.length,
      ((s.after T.cfg r e').nodes p).Executed k ∧ result = T.report p k := by
  rcases Finset.mem_union.mp hSent with hOld | hNew
  · obtain ⟨hTo, p, hp, k, hk, hBefore, hReport⟩ := h.sent _ hOld
    exact ⟨hTo, p, hp, k, hk, hMoves.worked_mono hBefore, hReport⟩
  · obtain ⟨message, hMessage, hAddressed⟩ := mem_letters.mp hNew
    obtain ⟨recipients, rfl, hTo, _⟩ := mem_addressed.mp hAddressed
    obtain ⟨i, hi, hReports⟩ := hEffect.only _ _ hMessage
    obtain ⟨hBound, _, hSame, hPeers, _⟩ := (h.working r hr).reports hProper hEffect hReports
    cases hSame
    refine ⟨hPeers hTo, r, hr, _, hBound, (hMoves.worked _).mpr (Or.inr ⟨by omega, ?_⟩), rfl⟩
    simp only [view, after_nodes_self]
    rw [hEffect.length_applied]
    omega

/-- All who need a result are sent it. -/
theorem Sound.told_after {m n : NodeID} (hm : m ∈ peers T.cfg) {k : Nat}
    (hDid : ((s.after T.cfg r e').nodes m).Executed k) (hn : n ∈ T.plan.audience k)
    (hOther : n ≠ m) : (n, T.report m k) ∈ (s.after T.cfg r e').sent := by
  by_cases hSame : m = r
  · subst hSame
    rcases (hMoves.worked k).mp hDid with hBefore | ⟨hFrom, hTo⟩
    · exact Finset.mem_union_left _ (h.told m hm k hBefore n hn hOther)
    · simp only [view, after_nodes_self] at hTo
      rw [hEffect.length_applied] at hTo
      obtain ⟨i, rfl⟩ : ∃ i, k = (s.nodes m).applied.length + taken.length + i :=
        ⟨k - ((s.nodes m).applied.length + taken.length), by omega⟩
      obtain ⟨message, hMessage, hReports⟩ := hEffect.reported i (by omega)
      obtain ⟨_, recipients, hSame, _, hAudience⟩ :=
        (h.working m hm).reports hProper hEffect hReports
      refine Finset.mem_union_right _ (mem_letters.mpr ⟨message, hMessage, ?_⟩)
      exact mem_addressed.mpr ⟨recipients, hSame, hAudience hn, hOther⟩
  · rw [after_nodes_of_ne hSame] at hDid
    exact Finset.mem_union_left _ (h.told m hm k hDid n hn hOther)

end After

theorem Sound.perform (h : T.Sound s) (hr : r ∈ peers T.cfg)
    (hProper : T.Proper r (s.nodes r) call)
    (hSent : ∀ result, call = .handleResult result → (r, result) ∈ s.sent) :
    ∃ s', T.perform s r call = .ok s' ∧ T.Sound s' ∧ Called s r call s' := by
  have hWorking := h.working r hr
  obtain ⟨e', taken, worked, hStep, hEffect, hAfter⟩ := hWorking.perform hr hProper
  have hMoves := hWorking.moves hProper hEffect (h.reporters_true hSent)
  have hCalled := called_after hEffect
  refine ⟨_, Outcome.bind_eq_ok.mpr ⟨e', hStep, rfl⟩, ?_, hCalled⟩
  exact {
    working := fun m hm => by
      by_cases hSame : m = r
      · subst hSame
        rw [after_nodes_self]
        exact hAfter
      · rw [after_nodes_of_ne hSame]
        exact h.working m hm
    consistent := h.consistent.moves hr hMoves
    sent := fun _ hx => h.sent_after hr hProper hEffect hMoves hx
    told := fun _ hm _ hDid _ => h.told_after hr hProper hEffect hMoves hm hDid
    received := h.received.trans hCalled.sent
    heard := fun x hx k hk => hCalled.heard (h.heard x hx k hk) }

theorem Sound.start (T : Team) : T.Sound T.start where
  working r _ := Working.start T r
  consistent := by
    refine ⟨fun r _ k hExecuted => ?_, fun r _ k m hm => ?_, fun r _ k hk => ?_⟩
    · obtain ⟨mb, hMb⟩ := hExecuted
      cases hMb
    · exact absurd hm (Finset.notMem_empty m)
    · exact absurd hk (Nat.not_lt_zero k)
  sent x hx := absurd hx (Finset.notMem_empty x)
  told m _ k hExecuted := by
    obtain ⟨mb, hMb⟩ := hExecuted
    cases hMb
  received := Finset.empty_subset _
  heard x hx := absurd hx (Finset.notMem_empty x)

theorem Working.nextBatch (h : T.Working r (s.nodes r)) (count : Nat) :
    (s.nodes r).delivered ++ T.nextBatch s r count <+: T.mbs r := by
  obtain ⟨rest, hRest⟩ := h.delivered
  have hDrop : (T.mbs r).drop (s.nodes r).delivered.length = rest := by
    rw [← hRest, List.drop_left]
  unfold Team.nextBatch
  rw [hDrop, ← hRest]
  exact (List.prefix_append_right_inj _).mpr (List.take_prefix count rest)

theorem Sound.hand (h : T.Sound s) (hr : r ∈ peers T.cfg) (count : Nat) :
    ∃ s', T.step s (.hand r count) = .ok s' ∧ T.Sound s' ∧
      Called s r (.addMbToExecute (T.nextBatch s r count)) s' := by
  have hProper : T.Proper r (s.nodes r) (.addMbToExecute (T.nextBatch s r count)) :=
    ⟨(h.working r hr).nextBatch count, fun _ hCall => nomatch hCall⟩
  obtain ⟨s', hStep, hSound, hCalled⟩ := h.perform hr hProper fun _ hCall => nomatch hCall
  exact ⟨s', (if_pos hr).trans hStep, hSound, hCalled⟩

theorem Sound.deliver (h : T.Sound s) {result : ExecuteResult} (hSent : (r, result) ∈ s.sent) :
    ∃ s', T.step s (.deliver r result) = .ok s' ∧ T.Sound s' ∧
      s'.received = insert (r, result) s.received ∧
      ∀ m, (s'.nodes m).delivered = (s.nodes m).delivered := by
  obtain ⟨hr, p, hp, j, hj, hExecuted, hReport⟩ := h.sent _ hSent
  have hNo : result.no = ((j + 1 : Nat) : Int) := congrArg ExecuteResult.no hReport
  have hProper : T.Proper r (s.nodes r) (.handleResult result) := by
    refine ⟨?_, fun _ hCall => ?_⟩
    · rw [Executor.Call.batch, List.append_nil]
      exact (h.working r hr).delivered
    · cases hCall
      omega
  obtain ⟨s', hStep, hSound, hCalled⟩ := h.perform hr hProper fun _ hCall => by
    cases hCall
    exact hSent
  refine ⟨{ s' with received := insert (r, result) s'.received },
    (if_pos hSent).trans (Outcome.bind_eq_ok.mpr ⟨s', hStep, rfl⟩), ?_, ?_, fun m => ?_⟩
  · refine { hSound with
      received := Finset.insert_subset (hCalled.sent hSent) hSound.received
      heard := fun x hx k hk => ?_ }
    rcases Finset.mem_insert.mp hx with rfl | hOld
    · rw [hCalled.reports]
      refine Finset.mem_union_right _ ?_
      rw [Executor.Call.reporters, if_pos ⟨by omega, hk⟩]
      exact Finset.mem_singleton_self _
    · exact hSound.heard x hOld k hk
  · rw [← hCalled.received]
  · by_cases hSame : m = r
    · subst hSame
      rw [hCalled.delivered, Executor.Call.batch, List.append_nil]
    · rw [hCalled.others m hSame]

theorem Sound.step (h : T.Sound s) (event : Teamwork.Event) :
    ∃ s', T.step s event = .ok s' ∧ T.Sound s' := by
  cases event with
  | hand r count =>
      by_cases hr : r ∈ peers T.cfg
      · obtain ⟨s', hStep, hSound, _⟩ := h.hand hr count
        exact ⟨s', hStep, hSound⟩
      · exact ⟨s, if_neg hr, h⟩
  | deliver r result =>
      by_cases hSent : (r, result) ∈ s.sent
      · obtain ⟨s', hStep, hSound, _⟩ := h.deliver hSent
        exact ⟨s', hStep, hSound⟩
      · exact ⟨s, if_neg hSent, h⟩

/-- The executors never fail, in any order of the events. -/
theorem Sound.returns (h : T.Sound s) (events : List Teamwork.Event) :
    ∃ s', run T.step s events = .ok s' ∧ T.Sound s' :=
  run_returns (fun _ event hSound => hSound.step event) h events

/-- All microblocks have been handed over and all results have arrived. -/
structure Quiet (T : Team) (s : Teamwork) : Prop where
  handed : ∀ r ∈ peers T.cfg, (s.nodes r).delivered = T.mbs r
  received : s.sent ⊆ s.received

/-- Then nobody can go on. -/
theorem Sound.settled (hStocked : T.Stocked) (h : T.Sound s) (hQuiet : T.Quiet s) :
    T.plan.Settled (view s.nodes) := by
  -- the microblock at the head of a queue that is not empty
  have hHead : ∀ r ∈ peers T.cfg, (s.nodes r).applied.length < T.groups.length →
      ∃ mb ∈ (s.nodes r).mbs.head?, (T.mbs r)[(s.nodes r).applied.length]? = some mb := by
    intro r hr hBehind
    have hHistory := (h.working r hr).history
    rw [hQuiet.handed r hr] at hHistory
    rw [← length_mbs r] at hBehind
    refine ⟨(T.mbs r).get ⟨_, hBehind⟩, ?_, List.getElem?_eq_getElem hBehind⟩
    have hHere : (T.mbs r)[(s.nodes r).applied.length]? = some ((T.mbs r).get ⟨_, hBehind⟩) :=
      List.getElem?_eq_getElem hBehind
    rw [Option.mem_def, ← hHere]
    conv_rhs => rw [← hHistory]
    rw [List.getElem?_append_right (by simp), List.length_map, Nat.sub_self, List.head?_eq_getElem?]
  refine ⟨fun r hr i j hij => ?_, fun m hm k hExecuted n hn hOther => ?_, fun r hr hBehind => ?_,
    fun r hr hBehind => ?_⟩
  · exact (h.working r hr).nested.subset _ _ (by omega) (by omega)
  · have hTold := hQuiet.received (h.told m hm k hExecuted n hn hOther)
    exact h.heard _ hTold k (le_refl _)
  · obtain ⟨mb, hMb, hPlace⟩ := hHead r hr hBehind
    have hWorking := h.working r hr
    intro hTeam
    have hMine := (isInMyGroup_iff hPlace).mpr hTeam
    refine hWorking.blocked mb hMb ⟨hWorking.gm ▸ hMine, ?_⟩
    exact hStocked r hr mb (List.mem_of_getElem? hPlace) hMine
  · obtain ⟨mb, hMb, hPlace⟩ := hHead r hr hBehind
    have hOpen := (h.working r hr).headOpen (hQuiet.handed r hr) mb hMb
    rw [(T.numbered r).number hPlace, Int.add_comm] at hOpen
    exact hOpen

theorem Sound.finished (h : T.Sound s) (hQuiet : T.Quiet s) (hr : r ∈ peers T.cfg)
    (hOver : T.groups.length ≤ (s.nodes r).applied.length) :
    (s.nodes r).mbs = [] ∧ (s.nodes r).applied.map Applied.microblock = T.mbs r := by
  have hHistory := (h.working r hr).history
  rw [hQuiet.handed r hr] at hHistory
  have hLengths := congrArg List.length hHistory
  rw [List.length_append, List.length_map, length_mbs] at hLengths
  have hEmpty : (s.nodes r).mbs = [] := List.eq_nil_of_length_eq_zero (by omega)
  rw [hEmpty, List.append_nil] at hHistory
  exact ⟨hEmpty, hHistory⟩

/-- All microblocks can be handed over. -/
theorem Sound.hand_all (h : T.Sound s) (rs : List NodeID) (hPeers : ∀ r ∈ rs, r ∈ peers T.cfg) :
    ∃ s', run T.step s (rs.map (.hand · T.groups.length)) = .ok s' ∧ T.Sound s' ∧
      (∀ r ∈ rs, (s'.nodes r).delivered = T.mbs r) ∧
      ∀ r, (s.nodes r).delivered = T.mbs r → (s'.nodes r).delivered = T.mbs r := by
  induction rs generalizing s with
  | nil => exact ⟨s, rfl, h, fun r hr => absurd hr List.not_mem_nil, fun _ hAll => hAll⟩
  | cons r rest ih =>
      have hr := hPeers r List.mem_cons_self
      obtain ⟨middle, hStep, hMiddle, hCalled⟩ := h.hand hr T.groups.length
      have hNow : (middle.nodes r).delivered = T.mbs r := by
        rw [hCalled.delivered]
        obtain ⟨later, hLater⟩ := (h.working r hr).delivered
        unfold Executor.Call.batch nextBatch
        rw [← length_mbs r, ← hLater, List.drop_left, List.take_of_length_le (by simp)]
      obtain ⟨s', hRun, hSound, hAll, hKept⟩ :=
        ih hMiddle fun r hMem => hPeers r (List.mem_cons_of_mem _ hMem)
      refine ⟨s', Outcome.bind_eq_ok.mpr ⟨middle, hStep, hRun⟩, hSound, fun other hMem => ?_,
        fun other hOther => hKept other ?_⟩
      · rcases List.mem_cons.mp hMem with rfl | hRest
        · exact hKept other hNow
        · exact hAll other hRest
      · by_cases hSame : other = r
        · exact hSame ▸ hNow
        · rw [hCalled.others other hSame]
          exact hOther

/-- Every result there can be, with every node it may be sent to. -/
def traffic (T : Team) : Finset (NodeID × ExecuteResult) :=
  (peers T.cfg ×ˢ (peers T.cfg ×ˢ Finset.range T.groups.length)).image
    fun x => (x.1, T.report x.2.1 x.2.2)

theorem Sound.sent_subset (h : T.Sound s) : s.sent ⊆ T.traffic := by
  intro x hx
  obtain ⟨hTo, p, hp, k, hk, _, hReport⟩ := h.sent x hx
  refine Finset.mem_image.mpr ⟨(x.1, p, k), ?_, Prod.ext rfl hReport.symm⟩
  exact Finset.mem_product.mpr ⟨hTo, Finset.mem_product.mpr ⟨hp, Finset.mem_range.mpr hk⟩⟩

/-- When all microblocks have been handed over, all results can be delivered: there are only so
many that have not arrived. -/
theorem Sound.deliver_all (h : T.Sound s)
    (hHanded : ∀ r ∈ peers T.cfg, (s.nodes r).delivered = T.mbs r) :
    ∃ more s', run T.step s more = .ok s' ∧ T.Sound s' ∧ T.Quiet s' := by
  obtain ⟨left, hLeft⟩ : ∃ left, (T.traffic \ s.received).card = left := ⟨_, rfl⟩
  induction left using Nat.strongRecOn generalizing s with
  | ind left ih =>
      by_cases hAll : s.sent ⊆ s.received
      · exact ⟨[], s, rfl, h, hHanded, hAll⟩
      · obtain ⟨⟨r, result⟩, hSent, hNew⟩ := Finset.not_subset.mp hAll
        obtain ⟨middle, hStep, hMiddle, hReceived, hSame⟩ := h.deliver hSent
        have hFewer : (T.traffic \ middle.received).card < left := by
          rw [← hLeft, hReceived]
          apply Finset.card_lt_card
          rw [Finset.ssubset_iff_of_subset
            (Finset.sdiff_subset_sdiff (le_refl _) (Finset.subset_insert _ _))]
          refine ⟨(r, result), Finset.mem_sdiff.mpr ⟨h.sent_subset hSent, hNew⟩, fun hMem => ?_⟩
          exact (Finset.mem_sdiff.mp hMem).2 (Finset.mem_insert_self _ _)
        obtain ⟨more, s', hRun, hEnd⟩ := ih _ hFewer hMiddle
          (fun r hr => (hSame r).trans (hHanded r hr)) rfl
        exact ⟨.deliver r result :: more, s', Outcome.bind_eq_ok.mpr ⟨middle, hStep, hRun⟩, hEnd⟩

/-- What has been handed over and sent can all arrive. -/
theorem Sound.quiets (h : T.Sound s) : ∃ more last, run T.step s more = .ok last ∧ T.Quiet last := by
  obtain ⟨middle, hHand, hMiddle, hHanded, _⟩ := h.hand_all (peers T.cfg).toList
    fun r hr => Finset.mem_toList.mp hr
  obtain ⟨more, last, hDeliver, _, hQuiet⟩ :=
    hMiddle.deliver_all fun r hr => hHanded r (Finset.mem_toList.mpr hr)
  exact ⟨_, last,
    (run_append _ _ _).trans (Outcome.bind_eq_ok.mpr ⟨middle, hHand, hDeliver⟩), hQuiet⟩

/-- All nodes are in all groups, or the groups are large enough. -/
theorem Sound.all_over (hStocked : T.Stocked) (h : T.Sound s) (hQuiet : T.Quiet s)
    (hEnough : T.cfg.n ≤ T.cfg.memberNum ∨ T.cfg.q ≤ T.cfg.memberNum) (hr : r ∈ peers T.cfg) :
    T.groups.length ≤ (s.nodes r).applied.length := by
  have hSettled := h.settled hStocked hQuiet
  by_cases hAll : T.cfg.n ≤ T.cfg.memberNum
  · refine hSettled.over_of_all_teams hr fun k hk => ?_
    have hCard : (peers T.cfg).card ≤ (T.team k).card := by
      rw [card_team T hk, Nat.min_eq_right hAll]
      exact Finset.card_image_le.trans_eq (Finset.card_range _)
    exact Finset.eq_of_subset_of_card_le (T.plan.team_subset k hk) hCard ▸ hr
  · refine hSettled.all_over h.consistent (fun k hk => ?_) hr
    show T.cfg.q ≤ (T.team k).card
    rw [card_team T hk, Nat.min_eq_left (not_le.mp hAll).le]
    exact hEnough.resolve_left hAll

/-- A node outside the first group, when the groups are too small. -/
theorem Sound.stuck (h : T.Sound s) (hGroups : T.groups ≠ [])
    (hSmall : ¬(T.cfg.n ≤ T.cfg.memberNum ∨ T.cfg.q ≤ T.cfg.memberNum)) :
    ∃ r ∈ peers T.cfg, (s.nodes r).applied.length = 0 := by
  have hFirst : 0 < T.groups.length := List.length_pos_of_ne_nil hGroups
  have hCard := card_team T hFirst
  have hPeers : (peers T.cfg).card = T.cfg.n := by
    rw [peers, Finset.card_image_of_injective, Finset.card_range]
    intro a b hSame
    exact Nat.succ_injective (newNodeID_inj.mp hSame)
  push Not at hSmall
  obtain ⟨r, hr, hOther⟩ := Finset.exists_mem_notMem_of_card_lt_card
    (show (T.team 0).card < (peers T.cfg).card by omega)
  refine ⟨r, hr, h.consistent.stuck ?_ hr hOther⟩
  show ((T.team 0).card : Int) < T.cfg.q
  omega

/-- Microblocks and results reach the executors in any order, and results may arrive more than
once, while every node has the content of what it is to execute. No executor fails, and
everything can arrive. When everything has arrived, every node has gone through all its
microblocks in their order, though most results were sent to few nodes: if and only if there are
none, all nodes are in all groups, or a group has as many members as are needed for others to
take a microblock over. -/
theorem group_execution_completes_iff (T : Team) (hStocked : T.Stocked) :
    (∀ events, ∃ s, run T.step T.start events = .ok s ∧
      ∃ more last, run T.step s more = .ok last ∧ T.Quiet last) ∧
    ((∀ events s, run T.step T.start events = .ok s → T.Quiet s → ∀ r ∈ peers T.cfg,
        (s.nodes r).mbs = [] ∧ (s.nodes r).applied.map Applied.microblock = T.mbs r) ↔
      T.groups = [] ∨ T.cfg.n ≤ T.cfg.memberNum ∨ T.cfg.q ≤ T.cfg.memberNum) := by
  refine ⟨fun events => ?_, fun hAll => ?_, fun hEnough events s hRun hQuiet r hr => ?_⟩
  · obtain ⟨s, hRun, hSound⟩ := (Sound.start T).returns events
    exact ⟨s, hRun, hSound.quiets⟩
  · by_contra hSmall
    rw [not_or] at hSmall
    obtain ⟨events, s, hRun, hQuiet⟩ := (Sound.start T).quiets
    obtain ⟨_, hRun', hSound⟩ := (Sound.start T).returns events
    cases hRun.symm.trans hRun'
    obtain ⟨r, hr, hNothing⟩ := hSound.stuck hSmall.1 hSmall.2
    have hApplied := (hAll events s hRun hQuiet r hr).2
    have hLength := congrArg List.length hApplied
    rw [List.length_map, hNothing, length_mbs] at hLength
    exact hSmall.1 (List.eq_nil_of_length_eq_zero hLength.symm)
  · obtain ⟨_, hRun', hSound⟩ := (Sound.start T).returns events
    cases hRun.symm.trans hRun'
    refine hSound.finished hQuiet hr ?_
    rcases hEnough with hNone | hEnough
    · rw [hNone]
      exact Nat.zero_le _
    · exact hSound.all_over hStocked hQuiet hEnough hr

end Team

deriving instance DecidableEq for Applied

namespace Scenario

/-- A committed microblock as a node has it. -/
def held (r : NodeID) (hash : Identifier) (groupId committedNo : Int) : MicroBlock :=
  { single hash groupId with
    committedNo, isFake := !(GroupManager.new grouped r).isInMyGroup groupId }

/-- Nodes 1 to 3 have the first and the third microblock, and nodes 4, 1 and 2 the second. -/
def threeShared : Team where
  cfg := grouped
  keys := keys
  groups := [0, 1, 0]
  mbs r := [held r 1 0 1, held r 2 1 2, held r 3 0 3]
  grouped := rfl
  positive := by decide
  readable := by decide
  keyed := by decide
  groups_lt := by decide
  numbered _ := ⟨rfl, rfl, rfl, trivial⟩
  groupIds _ := rfl

theorem threeShared_stocked : threeShared.Stocked := by
  intro r _ mb hMem hMine
  simp only [threeShared, List.mem_cons, List.not_mem_nil, or_false] at hMem
  rcases hMem with rfl | rfl | rfl <;> exact (congrArg (!·) hMine)

/-- All are handed the first microblock, and node 4 hears of it from the others. -/
def firstReported : List Teamwork.Event :=
  ["1", "2", "3", "4"].map (.hand · 1) ++
    ["1", "2", "3"].map fun p => .deliver "4" (threeShared.report p 0)

end Scenario

namespace Team

theorem group_execution_completes_iff_shared :
    (∃ s, run Scenario.threeShared.step Scenario.threeShared.start Scenario.firstReported = .ok s ∧
      ∃ more last, run Scenario.threeShared.step s more = .ok last ∧
        Scenario.threeShared.Quiet last) ∧
    ∀ events s, run Scenario.threeShared.step Scenario.threeShared.start events = .ok s →
      Scenario.threeShared.Quiet s → ∀ r ∈ peers Scenario.grouped,
        (s.nodes r).applied.map Applied.microblock = Scenario.threeShared.mbs r := by
  obtain ⟨hReturns, hCompletes⟩ :=
    group_execution_completes_iff Scenario.threeShared Scenario.threeShared_stocked
  have hMembers : Scenario.threeShared.cfg.q ≤ Scenario.threeShared.cfg.memberNum := by decide
  refine ⟨hReturns Scenario.firstReported, fun events s hRun hQuiet r hr => ?_⟩
  exact (hCompletes.mpr (Or.inr (Or.inr hMembers)) events s hRun hQuiet r hr).2

/-- A node takes over a microblock only after enough members of its group have executed it, also
if the results that it counted are about later ones. -/
theorem only_executed_taken_over (T : Team) {events : List Teamwork.Event} {s : Teamwork}
    (hRun : run T.step T.start events = .ok s) {r : NodeID} (hr : r ∈ peers T.cfg) {k : Nat}
    {mb : MicroBlock} (hTaken : (s.nodes r).applied[k]? = some (.updated mb)) :
    ∃ workers ⊆ T.team k, T.cfg.q ≤ workers.card ∧
      ∀ m ∈ workers, ∃ mb, (s.nodes m).applied[k]? = some (.executed mb) := by
  obtain ⟨s', hRun', hSound⟩ := (Sound.start T).returns events
  cases hRun.symm.trans hRun'
  have hBound : k < (s.nodes r).applied.length := (List.getElem?_eq_some_iff.mp hTaken).1
  rcases hSound.consistent.passed r hr k hBound with
    ⟨other, hOther⟩ | ⟨workers, hNodes, hEnough, hAll⟩
  · cases hTaken.symm.trans hOther
  · exact ⟨workers, fun m hm => (hSound.consistent.worked m (hNodes hm) k (hAll m hm)).1, hEnough,
      hAll⟩

theorem only_executed_taken_over_first :
    ∃ s, run Scenario.threeShared.step Scenario.threeShared.start Scenario.firstReported = .ok s ∧
      (s.nodes "4").applied = [.updated (Scenario.held "4" 1 0 1)] ∧
      ∃ workers ⊆ Scenario.threeShared.team 0, 3 ≤ (workers.card : Int) ∧
        ∀ m ∈ workers, ∃ mb, (s.nodes m).applied[0]? = some (.executed mb) := by
  obtain ⟨s, hRun, hTaken⟩ := Outcome.of_test
    (P := fun s : Teamwork => (s.nodes "4").applied = [.updated (Scenario.held "4" 1 0 1)])
    (x := run Scenario.threeShared.step Scenario.threeShared.start Scenario.firstReported)
    (by decide +kernel)
  have hPeer : "4" ∈ peers Scenario.threeShared.cfg := by decide
  have hFirst : (s.nodes "4").applied[0]? = some (.updated (Scenario.held "4" 1 0 1)) := by
    rw [hTaken]
    rfl
  exact ⟨s, hRun, hTaken, only_executed_taken_over _ hRun hPeer hFirst⟩

end Team
end Bamboo
