import Bamboo.Replica.Model

/-! The transaction pool and the two processes around it. `AddTx` holds the lock of the
pool during its whole loop and sends a signal for every transaction; `observePool`
receives a signal and then takes the lock for a look at the length and once more to fetch.
The channel of the signals has as many places as the pool. -/
namespace Bamboo

open Library

structure Txpool where
  transactions : List Transaction := []
  poolsize : Nat
  len : Nat := 0
  receiveNum : Nat := 0
  /-- The number of signals in the channel, which are all alike. -/
  fetchSignal : Nat := 0

namespace Txpool

def new (poolsize : Nat) : Txpool := { poolsize }

/-- A transaction is taken into the pool. -/
def push (pool : Txpool) (tx : Transaction) : Txpool :=
  { pool with
    len := pool.len + 1
    receiveNum := pool.receiveNum + 1
    transactions := pool.transactions ++ [tx] }

def fetchTx (pool : Txpool) (nums : Nat) : List Transaction × Txpool :=
  if pool.len < nums then (pool.transactions, { pool with transactions := [], len := 0 })
  else (pool.transactions.take nums,
    { pool with
      transactions := pool.transactions.drop nums
      len := (pool.transactions.drop nums).length })

end Txpool

/-- Where `AddTx` is. It holds the lock from its first line to its last. -/
inductive Adding where
  | idle
  /-- At the head of the loop, with `left` turns to go. -/
  | loop (left : Nat)
  /-- Sending the signal for a transaction, with `left` turns to go after it. -/
  | signal (left : Nat)
  /-- Sending the signal of a full pool, after which the loop is left. -/
  | refuse
deriving DecidableEq

/-- Where the loop of `observePool` is. The lock is taken and released again within
`TxLen` and within `FetchTx`. -/
inductive Observing where
  | receive
  /-- At the call of `TxLen`. -/
  | measure
  /-- At the call of `FetchTx`. -/
  | fetch
  /-- With transactions that have left the pool. -/
  | build (txs : List Transaction)
deriving DecidableEq

/-- `AddTx` is at a send on the channel. -/
def Adding.sends : Adding → Bool
  | .idle | .loop _ => false
  | .signal _ | .refuse => true

/-- `observePool` is at a call that takes the lock. -/
def Observing.waits : Observing → Bool
  | .receive | .build _ => false
  | .measure | .fetch => true

/-- The transactions that `observePool` holds. -/
def Observing.inHand : Observing → List Transaction
  | .receive | .measure | .fetch => []
  | .build txs => txs

structure Pooling where
  pool : Txpool
  adding : Adding := .idle
  observing : Observing := .receive
  replica : Replica
  /-- The microblocks that `observePool` has built and added to the mempool. -/
  built : List MicroBlock := []

namespace Pooling

inductive Event where
  /-- `AddTx(nums)` is called and takes the lock. -/
  | addTx (nums : Int)
  /-- One turn of its loop up to the signal; `tx` is what `generateTx` makes. -/
  | turn (tx : Transaction)
  | send
  | receive
  | txLen
  | fetchTx
  | build (hash : Identifier) (groupId now : Int) (sample : Finset NodeID)
  /-- Whatever the other handlers make of the replica and its mempool. -/
  | others (replica : Replica)

def new (poolsize : Nat) (replica : Replica) : Pooling :=
  { pool := .new poolsize, replica }

/-- The mempool takes no microblock from the pool. -/
def Full (s : Pooling) : Prop :=
  s.replica.sm.memsize ≤ s.replica.sm.remainingMB

instance (s : Pooling) : Decidable s.Full :=
  inferInstanceAs (Decidable (_ ≤ _))

/-- A process that cannot go on stays where it is. -/
def step (cfg : Settings) (nums : Nat) (s : Pooling) : Event → Outcome Pooling
  | .addTx count =>
      match s.adding with
      | .idle => pure { s with adding := .loop count.toNat }
      | _ => pure s
  | .turn tx =>
      match s.adding with
      | .loop 0 => pure { s with adding := .idle }
      | .loop (left + 1) =>
          if s.pool.len = s.pool.poolsize then pure { s with adding := .refuse }
          else pure { s with pool := s.pool.push tx, adding := .signal left }
      | _ => pure s
  | .send =>
      if s.pool.fetchSignal < s.pool.poolsize then
        let pool := { s.pool with fetchSignal := s.pool.fetchSignal + 1 }
        match s.adding with
        | .signal left => pure { s with pool, adding := .loop left }
        | .refuse => pure { s with pool, adding := .idle }
        | _ => pure s
      else pure s
  | .receive =>
      if s.observing = .receive ∧ 0 < s.pool.fetchSignal then
        pure { s with
          pool := { s.pool with fetchSignal := s.pool.fetchSignal - 1 }
          observing := .measure }
      else pure s
  | .txLen =>
      if s.observing = .measure ∧ s.adding = .idle then
        pure { s with observing := if nums < s.pool.len then .fetch else .receive }
      else pure s
  | .fetchTx =>
      if s.observing = .fetch ∧ s.adding = .idle then
        let (txs, pool) := s.pool.fetchTx nums
        pure { s with pool, observing := .build txs }
      else pure s
  | .build hash groupId now sample =>
      match s.observing with
      | .build txs => do
          let mb := newMicroblock hash groupId txs now
          let replica ← s.replica.observePool cfg mb sample
          pure { s with
            replica
            observing := .receive
            built := if s.Full then s.built else s.built ++ [mb] }
      | _ => pure s
  | .others replica => pure { s with replica }

/-- `AddTx` waits for a place in the channel and has the lock, and `observePool`, which
alone could make a place, waits for the lock. -/
def Deadlocked (s : Pooling) : Prop :=
  s.adding.sends = true ∧ s.pool.fetchSignal = s.pool.poolsize ∧ s.observing.waits = true

instance (s : Pooling) : Decidable s.Deadlocked :=
  inferInstanceAs (Decidable (_ ∧ _))

/-- What an event does when its process can go on. -/
inductive Moves (cfg : Settings) (nums : Nat) (s : Pooling) : Event → Pooling → Prop where
  | call (count : Int) (hIdle : s.adding = .idle) :
      Moves cfg nums s (.addTx count) { s with adding := .loop count.toNat }
  | leave (tx : Transaction) (hLoop : s.adding = .loop 0) :
      Moves cfg nums s (.turn tx) { s with adding := .idle }
  | refuse (tx : Transaction) (left : Nat) (hLoop : s.adding = .loop (left + 1))
      (hFull : s.pool.len = s.pool.poolsize) :
      Moves cfg nums s (.turn tx) { s with adding := .refuse }
  | push (tx : Transaction) (left : Nat) (hLoop : s.adding = .loop (left + 1))
      (hRoom : s.pool.len ≠ s.pool.poolsize) :
      Moves cfg nums s (.turn tx) { s with pool := s.pool.push tx, adding := .signal left }
  | signal (left : Nat) (hSignal : s.adding = .signal left)
      (hPlace : s.pool.fetchSignal < s.pool.poolsize) :
      Moves cfg nums s .send
        { s with
          pool := { s.pool with fetchSignal := s.pool.fetchSignal + 1 }
          adding := .loop left }
  | refused (hRefuse : s.adding = .refuse) (hPlace : s.pool.fetchSignal < s.pool.poolsize) :
      Moves cfg nums s .send
        { s with
          pool := { s.pool with fetchSignal := s.pool.fetchSignal + 1 }
          adding := .idle }
  | receive (hReceive : s.observing = .receive) (hSignal : 0 < s.pool.fetchSignal) :
      Moves cfg nums s .receive
        { s with
          pool := { s.pool with fetchSignal := s.pool.fetchSignal - 1 }
          observing := .measure }
  | enough (hMeasure : s.observing = .measure) (hLock : s.adding = .idle)
      (hEnough : nums < s.pool.len) :
      Moves cfg nums s .txLen { s with observing := .fetch }
  | few (hMeasure : s.observing = .measure) (hLock : s.adding = .idle)
      (hFew : ¬nums < s.pool.len) :
      Moves cfg nums s .txLen { s with observing := .receive }
  | fetch (hFetch : s.observing = .fetch) (hLock : s.adding = .idle) :
      Moves cfg nums s .fetchTx
        { s with pool := (s.pool.fetchTx nums).2, observing := .build (s.pool.fetchTx nums).1 }
  | build (hash : Identifier) (groupId now : Int) (sample : Finset NodeID) (txs : List Transaction)
      (replica : Replica) (hBuild : s.observing = .build txs) :
      Moves cfg nums s (.build hash groupId now sample)
        { s with
          replica
          observing := .receive
          built := if s.Full then s.built else s.built ++ [newMicroblock hash groupId txs now] }
  | others (replica : Replica) : Moves cfg nums s (.others replica) { s with replica }

variable {cfg : Settings} {nums : Nat} {s s' : Pooling} {event : Event}

theorem addTx_moves {count : Int} (h : s.step cfg nums (.addTx count) = .ok s') :
    s' = s ∨ Moves cfg nums s (.addTx count) s' := by
  simp only [step] at h
  cases hAdding : s.adding with
  | idle =>
      rw [hAdding] at h
      cases Outcome.pure_eq_ok.mp h
      exact Or.inr (.call count hAdding)
  | loop left | signal left | refuse =>
      rw [hAdding] at h
      exact Or.inl (Outcome.pure_eq_ok.mp h).symm

theorem turn_moves {tx : Transaction} (h : s.step cfg nums (.turn tx) = .ok s') :
    s' = s ∨ Moves cfg nums s (.turn tx) s' := by
  simp only [step] at h
  cases hAdding : s.adding with
  | loop left =>
      rw [hAdding] at h
      cases left with
      | zero =>
          cases Outcome.pure_eq_ok.mp h
          exact Or.inr (.leave tx hAdding)
      | succ left =>
          dsimp only at h
          split_ifs at h with hFull
          · cases Outcome.pure_eq_ok.mp h
            exact Or.inr (.refuse tx left hAdding hFull)
          · cases Outcome.pure_eq_ok.mp h
            exact Or.inr (.push tx left hAdding hFull)
  | idle | signal left | refuse =>
      rw [hAdding] at h
      exact Or.inl (Outcome.pure_eq_ok.mp h).symm

theorem send_moves (h : s.step cfg nums .send = .ok s') :
    s' = s ∨ Moves cfg nums s .send s' := by
  simp only [step] at h
  split_ifs at h with hPlace
  · cases hAdding : s.adding with
    | signal left =>
        rw [hAdding] at h
        cases Outcome.pure_eq_ok.mp h
        exact Or.inr (.signal left hAdding hPlace)
    | refuse =>
        rw [hAdding] at h
        cases Outcome.pure_eq_ok.mp h
        exact Or.inr (.refused hAdding hPlace)
    | idle | loop left =>
        rw [hAdding] at h
        exact Or.inl (Outcome.pure_eq_ok.mp h).symm
  · exact Or.inl (Outcome.pure_eq_ok.mp h).symm

theorem txLen_moves (h : s.step cfg nums .txLen = .ok s') :
    s' = s ∨ Moves cfg nums s .txLen s' := by
  simp only [step] at h
  by_cases hReady : s.observing = .measure ∧ s.adding = .idle
  · rw [if_pos hReady] at h
    cases Outcome.pure_eq_ok.mp h
    by_cases hEnough : nums < s.pool.len
    · rw [if_pos hEnough]
      exact Or.inr (.enough hReady.1 hReady.2 hEnough)
    · rw [if_neg hEnough]
      exact Or.inr (.few hReady.1 hReady.2 hEnough)
  · rw [if_neg hReady] at h
    exact Or.inl (Outcome.pure_eq_ok.mp h).symm

theorem build_moves {hash : Identifier} {groupId now : Int} {sample : Finset NodeID}
    (h : s.step cfg nums (.build hash groupId now sample) = .ok s') :
    s' = s ∨ Moves cfg nums s (.build hash groupId now sample) s' := by
  simp only [step] at h
  cases hObserving : s.observing with
  | build txs =>
      rw [hObserving] at h
      obtain ⟨replica, _, hDone⟩ := Outcome.bind_eq_ok.mp h
      cases Outcome.pure_eq_ok.mp hDone
      exact Or.inr (.build hash groupId now sample txs replica hObserving)
  | receive | measure | fetch =>
      rw [hObserving] at h
      exact Or.inl (Outcome.pure_eq_ok.mp h).symm

theorem step_moves (h : s.step cfg nums event = .ok s') : s' = s ∨ Moves cfg nums s event s' := by
  cases event with
  | addTx count => exact addTx_moves h
  | turn tx => exact turn_moves h
  | send => exact send_moves h
  | receive =>
      simp only [step] at h
      split_ifs at h with hReady
      · cases Outcome.pure_eq_ok.mp h
        exact Or.inr (.receive hReady.1 hReady.2)
      · exact Or.inl (Outcome.pure_eq_ok.mp h).symm
  | txLen => exact txLen_moves h
  | fetchTx =>
      simp only [step] at h
      split_ifs at h with hReady
      · cases Outcome.pure_eq_ok.mp h
        exact Or.inr (.fetch hReady.1 hReady.2)
      · exact Or.inl (Outcome.pure_eq_ok.mp h).symm
  | build hash groupId now sample => exact build_moves h
  | others replica =>
      cases Outcome.pure_eq_ok.mp h
      exact Or.inr (.others replica)

/-- The length is that of the list, and neither the pool nor the channel overflows. -/
structure Sound (s : Pooling) : Prop where
  length : s.pool.transactions.length = s.pool.len
  len : s.pool.len ≤ s.pool.poolsize
  fetchSignal : s.pool.fetchSignal ≤ s.pool.poolsize

theorem fetchTx_spec (pool : Txpool) (nums : Nat)
    (h : pool.transactions.length = pool.len) :
    (pool.fetchTx nums).2.transactions.length = (pool.fetchTx nums).2.len ∧
      (pool.fetchTx nums).1.length + (pool.fetchTx nums).2.len = pool.len ∧
      (pool.fetchTx nums).2.poolsize = pool.poolsize ∧
      (pool.fetchTx nums).2.receiveNum = pool.receiveNum ∧
      (pool.fetchTx nums).2.fetchSignal = pool.fetchSignal := by
  unfold Txpool.fetchTx
  split_ifs with hFew
  · exact ⟨rfl, h, rfl, rfl, rfl⟩
  · refine ⟨rfl, ?_, rfl, rfl, rfl⟩
    simp only [List.length_take, List.length_drop]
    omega

theorem Sound.moves (h : s.Sound) (hMove : Moves cfg nums s event s') : s'.Sound := by
  obtain ⟨hLength, hLen, hSignal⟩ := h
  cases hMove with
  | call | leave | refuse | enough | few | build | others => exact ⟨hLength, hLen, hSignal⟩
  | push tx left hLoop hRoom =>
      refine ⟨?_, Nat.lt_of_le_of_ne hLen hRoom, hSignal⟩
      simp [Txpool.push, hLength]
  | signal left hAdding hPlace => exact ⟨hLength, hLen, hPlace⟩
  | refused hRefuse hPlace => exact ⟨hLength, hLen, hPlace⟩
  | receive hReceive hSome => exact ⟨hLength, hLen, (Nat.sub_le _ _).trans hSignal⟩
  | fetch hFetch hLock =>
      obtain ⟨hList, hSum, hSize, _, hSame⟩ := fetchTx_spec s.pool nums hLength
      refine ⟨hList, ?_, ?_⟩
      · show (s.pool.fetchTx nums).2.len ≤ (s.pool.fetchTx nums).2.poolsize
        omega
      · show (s.pool.fetchTx nums).2.fetchSignal ≤ (s.pool.fetchTx nums).2.poolsize
        omega

/-- The number of transactions in the microblocks that were built and added. -/
def builtTxs (s : Pooling) : Nat :=
  (s.built.flatMap MicroBlock.txns).length

/-- Every transaction taken in is in the pool, in the hands of `observePool` or in a
microblock. -/
def Balanced (s : Pooling) : Prop :=
  s.pool.receiveNum = s.pool.len + s.observing.inHand.length + s.builtTxs

/-- A microblock is built of fetched transactions while the mempool has room for it. -/
def Event.FindsRoom (s : Pooling) : Event → Prop
  | .build _ _ _ _ => s.observing.inHand ≠ [] → ¬s.Full
  | .addTx _ | .turn _ | .send | .receive | .txLen | .fetchTx | .others _ => True

instance (s : Pooling) : (event : Event) → Decidable (event.FindsRoom s)
  | .build _ _ _ _ => inferInstanceAs (Decidable (s.observing.inHand ≠ [] → ¬s.Full))
  | .addTx _ | .turn _ | .send | .receive | .txLen | .fetchTx | .others _ =>
      inferInstanceAs (Decidable True)

theorem Balanced.moves (h : s.Balanced) (hSound : s.Sound) (hRoom : event.FindsRoom s)
    (hMove : Moves cfg nums s event s') : s'.Balanced := by
  unfold Balanced at h ⊢
  cases hMove with
  | call | leave | refuse | signal | refused | others => exact h
  | push tx left hLoop hPlace =>
      show s.pool.receiveNum + 1 = s.pool.len + 1 + s.observing.inHand.length + s.builtTxs
      omega
  | receive hReceive hSignal =>
      rw [hReceive] at h
      exact h
  | enough hMeasure hLock hEnough =>
      rw [hMeasure] at h
      exact h
  | few hMeasure hLock hFew =>
      rw [hMeasure] at h
      exact h
  | fetch hFetch hLock =>
      obtain ⟨_, hSum, _, hReceived, _⟩ := fetchTx_spec s.pool nums hSound.length
      rw [hFetch] at h
      show (s.pool.fetchTx nums).2.receiveNum =
        (s.pool.fetchTx nums).2.len + (s.pool.fetchTx nums).1.length + s.builtTxs
      simp only [Observing.inHand, List.length_nil] at h
      omega
  | build hash groupId now sample txs replica hBuild =>
      rw [hBuild] at h
      have hRoom : txs ≠ [] → ¬s.Full := by
        rw [Event.FindsRoom, hBuild] at hRoom
        exact hRoom
      simp only [Observing.inHand, builtTxs] at h ⊢
      by_cases hFull : s.Full
      · -- a full mempool is only met with empty hands
        have hNone : txs = [] := by
          by_contra hSome
          exact hRoom hSome hFull
        rw [if_pos hFull]
        rw [hNone] at h
        exact h
      · rw [if_neg hFull, List.flatMap_append, List.length_append]
        simp only [List.flatMap_cons, List.flatMap_nil, List.append_nil, List.length_nil,
          newMicroblock]
        omega

/-- While every microblock finds room in the mempool, no transaction is lost between the
pool and the mempool. -/
theorem transactions_conserved {poolsize : Nat} {replica : Replica} {events : List Event}
    (hRoom : Guarded (step cfg nums) (fun s event => event.FindsRoom s) (.new poolsize replica)
      events)
    (hRun : run (step cfg nums) (.new poolsize replica) events = .ok s) :
    s.pool.receiveNum = s.pool.len + s.observing.inHand.length + s.builtTxs := by
  have hKept : s.Sound ∧ s.Balanced := by
    refine guarded_run_invariant (P := fun s => s.Sound ∧ s.Balanced) ?_ hRoom hRun
      ⟨⟨rfl, Nat.zero_le _, Nat.zero_le _⟩, rfl⟩
    intro s event s' h hGuard hStep
    rcases step_moves hStep with rfl | hMove
    · exact h
    · exact ⟨h.1.moves hMove, h.2.moves h.1 hGuard hMove⟩
  exact hKept.2

end Pooling

namespace Scenario

/-- Room for one microblock. -/
def tight : Settings := { pool with memsize := 1 }

def tx : Transaction := { timestamp := 0 }

/-- Three transactions are added to the pool, and `observePool` takes one of them. -/
def oneFetched : List Pooling.Event :=
  [.addTx 3, .turn tx, .send, .turn tx, .send, .turn tx, .send, .turn tx,
    .receive, .txLen, .fetchTx, .build 7 0 0 ∅]

/-- It takes another one while the first microblock is pending. -/
def twoFetched : List Pooling.Event :=
  oneFetched ++ [.receive, .txLen, .fetchTx, .build 8 0 0 ∅]

end Scenario

namespace Pooling

theorem transactions_conserved_fetched :
    ∃ s, run (step Scenario.tight 1) (.new 3 (.new Scenario.tight "1")) Scenario.oneFetched = .ok s ∧
      s.pool.len = 2 ∧ s.builtTxs = 1 ∧
      s.pool.receiveNum = s.pool.len + s.observing.inHand.length + s.builtTxs := by
  obtain ⟨s, hRun, hLen, hBuilt⟩ := Outcome.of_test
    (P := fun s : Pooling => s.pool.len = 2 ∧ s.builtTxs = 1)
    (x := run (step Scenario.tight 1) (.new 3 (.new Scenario.tight "1")) Scenario.oneFetched)
    (by decide)
  have hRoom : Guarded (step Scenario.tight 1) (fun s event => event.FindsRoom s)
      (.new 3 (.new Scenario.tight "1")) Scenario.oneFetched := by decide
  exact ⟨s, hRun, hLen, hBuilt, transactions_conserved hRoom hRun⟩

/-- The second microblock finds the mempool full, and its transaction is gone. -/
theorem transactions_lost :
    ∃ s, run (step Scenario.tight 1) (.new 3 (.new Scenario.tight "1")) Scenario.twoFetched = .ok s ∧
      s.pool.receiveNum = 3 ∧ s.pool.len = 1 ∧ s.observing.inHand = [] ∧ s.builtTxs = 1 :=
  Outcome.of_test (by decide)

variable {cfg : Settings} {nums : Nat} {s s' : Pooling} {event : Event}

/-- The signals that `turns` turns of the loop send from here: one for each place in the
pool, and one more when it is full. -/
def signals (s : Pooling) (turns : Nat) : Nat :=
  min turns (s.pool.poolsize - s.pool.len + 1)

/-- The signals that can still be sent before `observePool` needs the lock: the places of
the channel, and the one it may take before it waits. -/
def places (s : Pooling) : Nat :=
  s.pool.poolsize - s.pool.fetchSignal + if s.observing.waits then 0 else 1

/-- A call of `AddTx` that finds a place for each of its signals. -/
def Event.Fits (s : Pooling) : Event → Prop
  | .addTx count => s.adding = .idle → s.signals count.toNat ≤ s.places
  | .turn _ | .send | .receive | .txLen | .fetchTx | .build _ _ _ _ | .others _ => True

instance (s : Pooling) : (event : Event) → Decidable (event.Fits s)
  | .addTx count => inferInstanceAs (Decidable (s.adding = .idle → s.signals count.toNat ≤ s.places))
  | .turn _ | .send | .receive | .txLen | .fetchTx | .build _ _ _ _ | .others _ =>
      inferInstanceAs (Decidable True)

/-- The signals that the call in progress has yet to send. -/
def toSend (s : Pooling) : Nat :=
  match s.adding with
  | .idle => 0
  | .loop left => s.signals left
  | .signal left => s.signals left + 1
  | .refuse => 1

/-- A call in progress gets by with the places there are. -/
theorem toSend_moves (h : s.toSend ≤ s.places) (hSound : s.Sound) (hFits : event.Fits s)
    (hMove : Moves cfg nums s event s') : s'.toSend ≤ s'.places := by
  obtain ⟨_, hLen, hSignal⟩ := hSound
  cases hMove with
  | call count hIdle => exact hFits hIdle
  | leave tx hLoop => exact Nat.zero_le _
  | refuse tx left hLoop hFull =>
      have hOne : s.toSend = 1 := by
        simp only [toSend, hLoop, signals, hFull]
        omega
      exact hOne.symm.trans_le h
  | push tx left hLoop hRoom =>
      have hSame : s.toSend = min left (s.pool.poolsize - (s.pool.len + 1) + 1) + 1 := by
        simp only [toSend, hLoop, signals]
        omega
      exact hSame.symm.trans_le h
  | signal left hAdding hPlace =>
      simp only [toSend, hAdding, signals, places] at h ⊢
      omega
  | refused hRefuse hPlace => exact Nat.zero_le _
  | receive hReceive hSome =>
      have hPlaces : s.places = s.pool.poolsize - (s.pool.fetchSignal - 1) + 0 := by
        simp only [places, hReceive, Observing.waits, Bool.false_eq_true, if_false]
        omega
      exact h.trans_eq hPlaces
  | enough hMeasure hLock hEnough => simp only [toSend, hLock, Nat.zero_le]
  | few hMeasure hLock hFew => simp only [toSend, hLock, Nat.zero_le]
  | fetch hFetch hLock => simp only [toSend, hLock, Nat.zero_le]
  | build hash groupId now sample txs replica hBuild =>
      simp only [places, hBuild] at h
      exact h
  | others replica => exact h

theorem not_deadlocked (h : s.toSend ≤ s.places) : ¬s.Deadlocked := by
  rintro ⟨hSends, hFull, hWaits⟩
  have hNone : s.places = 0 := by
    rw [places, hFull, hWaits, Nat.sub_self]
    rfl
  have hSome : 0 < s.toSend := by
    cases hAdding : s.adding with
    | idle => simp [hAdding, Adding.sends] at hSends
    | loop left => simp [hAdding, Adding.sends] at hSends
    | signal left => simp [toSend, hAdding]
    | refuse => simp [toSend, hAdding]
  omega

/-- The two processes do not block each other while every call of `AddTx` finds a place
for each of its signals. -/
theorem pool_never_deadlocks {poolsize : Nat} {replica : Replica} {events : List Event}
    (hFits : Guarded (step cfg nums) (fun s event => event.Fits s) (.new poolsize replica) events)
    (hRun : run (step cfg nums) (.new poolsize replica) events = .ok s) : ¬s.Deadlocked := by
  have hKept : s.Sound ∧ s.toSend ≤ s.places := by
    refine guarded_run_invariant (P := fun s => s.Sound ∧ s.toSend ≤ s.places) ?_ hFits hRun
      ⟨⟨rfl, Nat.zero_le _, Nat.zero_le _⟩, Nat.zero_le _⟩
    intro s event s' h hGuard hStep
    rcases step_moves hStep with rfl | hMove
    · exact h
    · exact ⟨h.1.moves hMove, toSend_moves h.2 h.1 hGuard hMove⟩
  exact not_deadlocked hKept.2

theorem pool_never_deadlocks_fetched :
    ∃ s, run (step Scenario.tight 1) (.new 3 (.new Scenario.tight "1")) Scenario.oneFetched = .ok s ∧
      ¬s.Deadlocked := by
  obtain ⟨s, hRun, _⟩ := Outcome.of_test (P := fun _ : Pooling => True)
    (x := run (step Scenario.tight 1) (.new 3 (.new Scenario.tight "1")) Scenario.oneFetched)
    (by decide)
  have hFits : Guarded (step Scenario.tight 1) (fun s event => event.Fits s)
      (.new 3 (.new Scenario.tight "1")) Scenario.oneFetched := by decide
  exact ⟨s, hRun, pool_never_deadlocks hFits hRun⟩

/-- A process that can go on does, apart from what `AddMicroblock` makes of a microblock. -/
theorem Moves.step_eq (h : Moves cfg nums s event s')
    (hOther : ∀ hash groupId now sample, event ≠ .build hash groupId now sample) :
    s.step cfg nums event = .ok s' := by
  cases h with
  | call count hIdle => simp only [step, hIdle, pure, Except.pure]
  | leave tx hLoop => simp only [step, hLoop, pure, Except.pure]
  | refuse tx left hLoop hFull => simp only [step, hLoop, if_pos hFull, pure, Except.pure]
  | push tx left hLoop hRoom => simp only [step, hLoop, if_neg hRoom, pure, Except.pure]
  | signal left hSignal hPlace => simp only [step, hSignal, if_pos hPlace, pure, Except.pure]
  | refused hRefuse hPlace => simp only [step, hRefuse, if_pos hPlace, pure, Except.pure]
  | receive hReceive hSignal =>
      simp only [step, if_pos (And.intro hReceive hSignal), pure, Except.pure]
  | enough hMeasure hLock hEnough =>
      simp only [step, if_pos (And.intro hMeasure hLock), if_pos hEnough, pure, Except.pure]
  | few hMeasure hLock hFew =>
      simp only [step, if_pos (And.intro hMeasure hLock), if_neg hFew, pure, Except.pure]
  | fetch hFetch hLock => simp only [step, if_pos (And.intro hFetch hLock), pure, Except.pure]
  | build hash groupId now sample => exact absurd rfl (hOther hash groupId now sample)
  | others replica => rfl

/-- Some run of the two processes leads from one state to the other. -/
def Reaches (cfg : Settings) (nums : Nat) (s s' : Pooling) : Prop :=
  ∃ events, run (step cfg nums) s events = .ok s'

theorem Reaches.move {s'' : Pooling} (h : Reaches cfg nums s s') (hMove : Moves cfg nums s' event s'')
    (hOther : ∀ hash groupId now sample, event ≠ .build hash groupId now sample := by nofun) :
    Reaches cfg nums s s'' := by
  obtain ⟨events, hRun⟩ := h
  exact ⟨events ++ [event], (run_snoc _ _ _ _).mpr ⟨s', hRun, hMove.step_eq hOther⟩⟩

/-- A call with a turn for every place left in the pool fills it and, with it, the
channel. -/
theorem reaches_full (tx : Transaction) (left : Nat) {start : Pooling}
    (h : Reaches cfg nums start s) (hLoop : s.adding = .loop left)
    (hLen : s.pool.len + left = s.pool.poolsize) (hSignal : s.pool.fetchSignal = s.pool.len) :
    ∃ s', Reaches cfg nums start s' ∧ s'.adding = .idle ∧ s'.observing = s.observing ∧
      s'.pool.len = s'.pool.poolsize ∧ s'.pool.fetchSignal = s'.pool.poolsize ∧
      s'.pool.poolsize = s.pool.poolsize := by
  induction left generalizing s with
  | zero =>
      refine ⟨_, h.move (.leave tx hLoop), rfl, rfl, hLen, ?_, rfl⟩
      exact hSignal.trans hLen
  | succ left ih =>
      have hPushed := h.move (.push tx left hLoop (by omega))
      have hPlace : s.pool.fetchSignal < s.pool.poolsize := by omega
      obtain ⟨s', hReaches, hRest⟩ := ih (hPushed.move (.signal left rfl hPlace)) rfl
        (show s.pool.len + 1 + left = s.pool.poolsize by omega)
        (show s.pool.fetchSignal + 1 = s.pool.len + 1 by omega)
      exact ⟨s', hReaches, hRest⟩

/-- The pool can block with every size and whatever number is fetched: it is filled,
`observePool` takes a signal, and two more calls overtake it. -/
theorem deadlock_reachable (cfg : Settings) (nums poolsize : Nat) (hSize : 1 ≤ poolsize)
    (replica : Replica) :
    ∃ s, Reaches cfg nums (.new poolsize replica) s ∧ s.Deadlocked := by
  have hStart : Reaches cfg nums (.new poolsize replica) (.new poolsize replica) := ⟨[], rfl⟩
  obtain ⟨full, hFull, hIdle, hReceive, hLen, hSignal, hPoolsize⟩ :=
    reaches_full Scenario.tx poolsize (hStart.move (.call poolsize rfl)) rfl (Nat.zero_add _) rfl
  have hSome : 0 < full.pool.fetchSignal := by
    rw [hSignal, hPoolsize]
    exact hSize
  have hTaken := hFull.move (.receive hReceive hSome)
  -- the first call puts back the signal that was taken, the second finds no place
  have hFirst := ((hTaken.move (.call 1 hIdle)).move (.refuse Scenario.tx 0 rfl hLen)).move
    (.refused rfl (show full.pool.fetchSignal - 1 < full.pool.poolsize by omega))
  have hSecond := (hFirst.move (.call 1 rfl)).move (.refuse Scenario.tx 0 rfl hLen)
  refine ⟨_, hSecond, rfl, ?_, rfl⟩
  show full.pool.fetchSignal - 1 + 1 = full.pool.poolsize
  omega

end Pooling

namespace Scenario

/-- A pool of two is filled; `observePool` has taken a signal when two more calls come. -/
def overtaken : List Pooling.Event :=
  [.addTx 2, .turn tx, .send, .turn tx, .send, .turn tx, .receive, .addTx 1, .turn tx, .send,
    .addTx 1, .turn tx]

end Scenario

namespace Pooling

/-- The second of the two calls sends and holds the lock that `observePool` waits for. -/
theorem pool_deadlocks :
    ∃ s, run (step Scenario.pool 1) (.new 2 (.new Scenario.pool "1")) Scenario.overtaken = .ok s ∧
      s.Deadlocked :=
  Outcome.of_test (by decide)

end Pooling
end Bamboo
