import Bamboo.Library.Int64
import Mathlib.Algebra.Order.Ring.Int
import Mathlib.Data.List.Basic
import Mathlib.Order.MinMax
import Mathlib.Tactic.Linarith
import Mathlib.Tactic.Ring

/-! The token bucket. It computes only when tokens are taken: the ticks since the last call
are added at once. It is compared with a bucket that is filled at every tick, and what it
lets through in a window of time is bounded. Times are in nanoseconds. Tokens, ticks and
durations are 64-bit integers, and neither the differences nor the products are checked: both
results need bounds on the time that passes and on what is asked for. -/
namespace Bamboo

open Library

/-- What a bucket is made with. -/
structure Rate where
  fillInterval : Int
  capacity : Int
  quantum : Int
  fillInterval_pos : 0 < fillInterval
  capacity_pos : 0 < capacity
  quantum_pos : 0 < quantum

structure Bucket extends Rate where
  startTime : Int
  availableTokens : Int
  latestTick : Int

namespace Bucket

/-- `NewBucketWithQuantumAndClock`; `none` is a panic. -/
def newBucketWithQuantumAndClock (now fillInterval capacity quantum : Int) : Option Bucket :=
  if hFill : fillInterval ≤ 0 then none
  else if hCapacity : capacity ≤ 0 then none
  else if hQuantum : quantum ≤ 0 then none
  else
    some
      { fillInterval, capacity, quantum, startTime := now, latestTick := 0
        availableTokens := capacity
        fillInterval_pos := by omega
        capacity_pos := by omega
        quantum_pos := by omega }

/-- The ticks since the start; Go's division rounds towards zero, and the difference of two
times stops at the longest duration. -/
def currentTick (tb : Bucket) (now : Int) : Int :=
  (saturate (now - tb.startTime)).tdiv tb.fillInterval

def adjustavailableTokens (tb : Bucket) (tick : Int) : Bucket :=
  let lastTick := tb.latestTick
  let tb := { tb with latestTick := tick }
  if tb.capacity ≤ tb.availableTokens then tb
  else
    let tb := { tb with
      availableTokens := int64 (tb.availableTokens + int64 (int64 (tick - lastTick) * tb.quantum)) }
    if tb.capacity < tb.availableTokens then { tb with availableTokens := tb.capacity } else tb

/-- The time to wait, and whether the tokens are taken. -/
def take (tb : Bucket) (now count maxWait : Int) : (Int × Bool) × Bucket :=
  if count ≤ 0 then ((0, true), tb)
  else
    let tick := tb.currentTick now
    let tb := tb.adjustavailableTokens tick
    let avail := int64 (tb.availableTokens - count)
    if 0 ≤ avail then ((0, true), { tb with availableTokens := avail })
    else
      let endTick := int64 (tick + (int64 (-avail + tb.quantum - 1)).tdiv tb.quantum)
      let endTime := tb.startTime + int64 (endTick * tb.fillInterval)
      let waitTime := saturate (endTime - now)
      if maxWait < waitTime then ((0, false), tb)
      else ((waitTime, true), { tb with availableTokens := avail })

def takeAvailable (tb : Bucket) (now count : Int) : Int × Bucket :=
  if count ≤ 0 then (0, tb)
  else
    let tb := tb.adjustavailableTokens (tb.currentTick now)
    if tb.availableTokens ≤ 0 then (0, tb)
    else
      -- what is subtracted is at most what is there
      let count := if tb.availableTokens < count then tb.availableTokens else count
      (count, { tb with availableTokens := tb.availableTokens - count })

def available (tb : Bucket) (now : Int) : Int × Bucket :=
  let tb := tb.adjustavailableTokens (tb.currentTick now)
  (tb.availableTokens, tb)

end Bucket

/-- The calls of a bucket. `Take` is `TakeMaxDuration` with the longest duration. -/
inductive TokenRequest where
  | takeMaxDuration (count maxWait : Int)
  | takeAvailable (count : Int)
  | available

inductive TokenReply where
  | wait (duration : Int) (taken : Bool)
  | tokens (number : Int)
deriving DecidableEq

/-- A bucket and the time since its start. The clock never goes back. -/
structure Limited where
  bucket : Bucket
  elapsed : Nat := 0

namespace Limited

def now (s : Limited) : Int :=
  s.bucket.startTime + s.elapsed

/-- A call after some more time. -/
def serve (s : Limited) (after : Nat) (request : TokenRequest) : TokenReply × Limited :=
  let s := { s with elapsed := s.elapsed + after }
  match request with
  | .takeMaxDuration count maxWait =>
      let ((duration, taken), bucket) := s.bucket.take s.now count maxWait
      (.wait duration taken, { s with bucket })
  | .takeAvailable count =>
      let (number, bucket) := s.bucket.takeAvailable s.now count
      (.tokens number, { s with bucket })
  | .available =>
      let (number, bucket) := s.bucket.available s.now
      (.tokens number, { s with bucket })

def serveAll (s : Limited) : List (Nat × TokenRequest) → List TokenReply
  | [] => []
  | (after, request) :: rest =>
      let (reply, s) := s.serve after request
      reply :: s.serveAll rest

end Limited

namespace Rate

variable (rate : Rate)

/-- The tokens after some ticks, each of which adds the quantum to a bucket that is not full. -/
def refill : Nat → Int → Int
  | 0, tokens => tokens
  | ticks + 1, tokens => refill ticks (min rate.capacity (tokens + rate.quantum))

/-- The ticks in a time. -/
def ticks (elapsed : Nat) : Nat :=
  elapsed / rate.fillInterval.toNat

/-- The ticks until a debt is paid. -/
def ticksFor (debt : Int) : Int :=
  (debt + rate.quantum - 1) / rate.quantum

/-- Nothing overflows in this time and with these debts: neither the tokens of all ticks in a
full bucket, nor the debt with a quantum, nor the time at which it is paid. -/
structure Fitting (elapsed : Nat) (debt : Int) : Prop where
  clock : elapsed ≤ maxInt64
  filled : rate.capacity + rate.ticks elapsed * rate.quantum ≤ maxInt64
  lent : debt + rate.quantum ≤ maxInt64
  paid : (rate.ticks elapsed + rate.ticksFor debt) * rate.fillInterval ≤ maxInt64

/-- The first tick at which a debt is paid. -/
structure Pays (tokens : Int) (k : Nat) : Prop where
  paid : 0 ≤ rate.refill k tokens
  before : ∀ j < k, rate.refill j tokens < 0

/-- What a call means when the bucket holds this many tokens. -/
inductive Meaning (elapsed : Nat) : Int → TokenRequest → TokenReply → Int → Prop
  | nothing {tokens count maxWait : Int} (hCount : count ≤ 0) :
      Meaning elapsed tokens (.takeMaxDuration count maxWait) (.wait 0 true) tokens
  | immediate {tokens count maxWait : Int} (hCount : 0 < count) (hEnough : count ≤ tokens) :
      Meaning elapsed tokens (.takeMaxDuration count maxWait) (.wait 0 true) (tokens - count)
  | later {tokens count maxWait : Int} {k : Nat} (hCount : 0 < count) (hShort : tokens < count)
      (hPays : rate.Pays (tokens - count) k)
      (hMax : (rate.ticks elapsed + k) * rate.fillInterval - elapsed ≤ maxWait) :
      Meaning elapsed tokens (.takeMaxDuration count maxWait)
        (.wait ((rate.ticks elapsed + k) * rate.fillInterval - elapsed) true) (tokens - count)
  | refuse {tokens count maxWait : Int} {k : Nat} (hCount : 0 < count) (hShort : tokens < count)
      (hPays : rate.Pays (tokens - count) k)
      (hMax : maxWait < (rate.ticks elapsed + k) * rate.fillInterval - elapsed) :
      Meaning elapsed tokens (.takeMaxDuration count maxWait) (.wait 0 false) tokens
  | takeNone {tokens count : Int} (hNone : count ≤ 0 ∨ tokens ≤ 0) :
      Meaning elapsed tokens (.takeAvailable count) (.tokens 0) tokens
  | takeSome {tokens count : Int} (hCount : 0 < count) (hTokens : 0 < tokens) :
      Meaning elapsed tokens (.takeAvailable count) (.tokens (min count tokens))
        (tokens - min count tokens)
  | available (tokens : Int) : Meaning elapsed tokens .available (.tokens tokens) tokens

/-- The replies to calls that follow one another, from a time and a number of tokens on. -/
inductive Meanings : Nat → Int → List (Nat × TokenRequest) → List TokenReply → Prop
  | nil (elapsed : Nat) (tokens : Int) : Meanings elapsed tokens [] []
  | cons {elapsed after : Nat} {tokens tokens' : Int} {request : TokenRequest} {reply : TokenReply}
      {rest : List (Nat × TokenRequest)} {replies : List TokenReply}
      (hCall : rate.Meaning (elapsed + after)
        (rate.refill (rate.ticks (elapsed + after) - rate.ticks elapsed) tokens) request reply tokens')
      (hRest : Meanings (elapsed + after) tokens' rest replies) :
      Meanings elapsed tokens ((after, request) :: rest) (reply :: replies)

variable {rate}

theorem refill_eq {tokens : Int} (h : tokens ≤ rate.capacity) (ticks : Nat) :
    rate.refill ticks tokens = min rate.capacity (tokens + ticks * rate.quantum) := by
  induction ticks generalizing tokens with
  | zero =>
      simp only [refill, Nat.cast_zero, zero_mul, add_zero]
      omega
  | succ ticks ih =>
      have hQuantum := rate.quantum_pos
      have hMore : 0 ≤ (ticks : Int) * rate.quantum := by positivity
      have hSucc : ((ticks + 1 : Nat) : Int) * rate.quantum = ticks * rate.quantum + rate.quantum := by
        push_cast
        ring
      rw [refill, ih (min_le_left _ _), hSucc]
      omega

theorem refill_le {tokens : Int} (h : tokens ≤ rate.capacity) (ticks : Nat) :
    rate.refill ticks tokens ≤ rate.capacity := by
  rw [refill_eq h]
  exact min_le_left _ _

theorem refill_refill {tokens : Int} (h : tokens ≤ rate.capacity) (first second : Nat) :
    rate.refill second (rate.refill first tokens) = rate.refill (first + second) tokens := by
  have hQuantum := rate.quantum_pos
  have hMore : 0 ≤ (second : Int) * rate.quantum := by positivity
  have hSum : ((first + second : Nat) : Int) * rate.quantum =
      first * rate.quantum + second * rate.quantum := by
    push_cast
    ring
  rw [refill_eq (refill_le h first), refill_eq h, refill_eq h, hSum]
  omega

theorem ticksFor_nonneg {debt : Int} (h : 0 ≤ debt) : 0 ≤ rate.ticksFor debt := by
  have hQuantum := rate.quantum_pos
  exact Int.ediv_nonneg (by omega) hQuantum.le

theorem ticksFor_mono {debt debt' : Int} (h : debt ≤ debt') :
    rate.ticksFor debt ≤ rate.ticksFor debt' :=
  Int.ediv_le_ediv rate.quantum_pos (by omega)

/-- The rounded quotient of a debt by the quantum. -/
theorem pays {debt : Int} (h : debt < 0) :
    ∃ k : Nat, rate.ticksFor (-debt) = k ∧ rate.Pays debt k := by
  have hQuantum := rate.quantum_pos
  have hCapacity := rate.capacity_pos
  have hNonneg : 0 ≤ rate.ticksFor (-debt) := rate.ticksFor_nonneg (by omega)
  obtain ⟨k, hk⟩ := Int.eq_ofNat_of_zero_le hNonneg
  have hLow := Int.ediv_mul_le (-debt + rate.quantum - 1) hQuantum.ne'
  have hHigh := Int.lt_ediv_add_one_mul_self (-debt + rate.quantum - 1) hQuantum
  rw [show (-debt + rate.quantum - 1) / rate.quantum = k from hk] at hLow hHigh
  refine ⟨k, hk, ?_, fun j hj => ?_⟩
  · rw [refill_eq (by omega)]
    have : ((k : Int) + 1) * rate.quantum = k * rate.quantum + rate.quantum := by ring
    omega
  · rw [refill_eq (by omega)]
    have hLess : ((j : Int) + 1) * rate.quantum ≤ k * rate.quantum := by
      apply mul_le_mul_of_nonneg_right _ hQuantum.le
      omega
    have : ((j : Int) + 1) * rate.quantum = j * rate.quantum + rate.quantum := by ring
    omega

theorem ticks_mono {elapsed elapsed' : Nat} (h : elapsed ≤ elapsed') :
    rate.ticks elapsed ≤ rate.ticks elapsed' :=
  Nat.div_le_div_right h

/-- Less time and smaller debts fit too. -/
theorem Fitting.mono {elapsed elapsed' : Nat} {debt debt' : Int} (h : rate.Fitting elapsed' debt')
    (hElapsed : elapsed ≤ elapsed') (hDebt : debt ≤ debt') : rate.Fitting elapsed debt := by
  have hTicks : (rate.ticks elapsed : Int) ≤ rate.ticks elapsed' := by
    exact_mod_cast rate.ticks_mono hElapsed
  have hTokens : rate.ticks elapsed * rate.quantum ≤ rate.ticks elapsed' * rate.quantum :=
    mul_le_mul_of_nonneg_right hTicks rate.quantum_pos.le
  have hTime : (rate.ticks elapsed + rate.ticksFor debt) * rate.fillInterval ≤
      (rate.ticks elapsed' + rate.ticksFor debt') * rate.fillInterval :=
    mul_le_mul_of_nonneg_right (add_le_add hTicks (rate.ticksFor_mono hDebt))
      rate.fillInterval_pos.le
  have := h.clock
  have := h.filled
  have := h.lent
  have := h.paid
  exact ⟨by omega, by omega, by omega, by omega⟩

end Rate

namespace Bucket

theorem currentTick_eq (tb : Bucket) {elapsed : Nat} (hElapsed : elapsed ≤ maxInt64) :
    tb.currentTick (tb.startTime + elapsed) = tb.toRate.ticks elapsed := by
  have hFill : ((tb.fillInterval.toNat : Nat) : Int) = tb.fillInterval :=
    Int.toNat_of_nonneg tb.fillInterval_pos.le
  rw [currentTick, add_sub_cancel_left, saturate_of_mem (by unfold minInt64; omega) hElapsed, ← hFill]
  exact (Int.ofNat_tdiv _ _).symm

/-- Adding the missed ticks at once is adding them one by one. -/
theorem adjustavailableTokens_eq {tb : Bucket} (h : tb.availableTokens ≤ tb.capacity)
    (hLow : -maxInt64 ≤ tb.availableTokens) {tick : Int} {missed : Nat}
    (hTick : tick = tb.latestTick + missed)
    (hHigh : tb.capacity + missed * tb.quantum ≤ maxInt64) :
    tb.adjustavailableTokens tick = { tb with
      latestTick := tick
      availableTokens := tb.toRate.refill missed tb.availableTokens } := by
  have hQuantum := tb.quantum_pos
  have hMore : 0 ≤ (missed : Int) * tb.quantum := by positivity
  have hCapacity := tb.capacity_pos
  have hMissed : int64 (tick - tb.latestTick) = missed := by
    have hLess : (missed : Int) * 1 ≤ missed * tb.quantum :=
      mul_le_mul_of_nonneg_left (by omega) (by omega)
    rw [int64_of_nonneg] <;> omega
  have hProduct : int64 (missed * tb.quantum) = missed * tb.quantum :=
    int64_of_nonneg hMore (by omega)
  have hSum : int64 (tb.availableTokens + missed * tb.quantum) =
      tb.availableTokens + missed * tb.quantum :=
    int64_of_mem (by unfold maxInt64 at hLow; unfold minInt64; omega) (by omega)
  rw [adjustavailableTokens, Rate.refill_eq h]
  simp only [hMissed, hProduct, hSum]
  split_ifs with hFull hOver
  · rw [min_eq_left (by omega)]
    congr 1
    omega
  · rw [min_eq_left (by omega)]
  · rw [min_eq_right (by omega)]

end Bucket

/-- What a call may add to the debt. -/
def TokenRequest.debt : TokenRequest → Int
  | .takeMaxDuration count _ => max 0 count
  | .takeAvailable _ | .available => 0

theorem TokenRequest.debt_nonneg (request : TokenRequest) : 0 ≤ request.debt := by
  cases request with
  | takeMaxDuration count maxWait => exact le_max_left _ _
  | takeAvailable count => exact le_refl _
  | available => exact le_refl _

/-- The time that passes. -/
def elapsedIn (events : List (Nat × TokenRequest)) : Nat :=
  (events.map Prod.fst).sum

/-- The debt, if all tokens that are asked for are lent. -/
def debtOf (events : List (Nat × TokenRequest)) : Int :=
  (events.map fun event => event.2.debt).sum

theorem debtOf_nonneg (events : List (Nat × TokenRequest)) : 0 ≤ debtOf events := by
  induction events with
  | nil => exact le_refl _
  | cons event rest ih =>
      have := event.2.debt_nonneg
      simp only [debtOf, List.map_cons, List.sum_cons] at ih ⊢
      omega

namespace Limited

/-- The bucket stands for this many tokens: those of its last call and those of the ticks
since. -/
structure Represents (rate : Rate) (lent : Int) (s : Limited) (tokens : Int) : Prop where
  rate_eq : s.bucket.toRate = rate
  le_capacity : s.bucket.availableTokens ≤ rate.capacity
  lent_le : -lent ≤ s.bucket.availableTokens
  tokens_eq : ∃ last : Nat, s.bucket.latestTick = last ∧ last ≤ rate.ticks s.elapsed ∧
    tokens = rate.refill (rate.ticks s.elapsed - last) s.bucket.availableTokens

/-- A new bucket is full. -/
theorem new_represents {now fillInterval capacity quantum : Int} {bucket : Bucket}
    (h : Bucket.newBucketWithQuantumAndClock now fillInterval capacity quantum = some bucket) :
    Represents bucket.toRate 0 { bucket } bucket.capacity := by
  unfold Bucket.newBucketWithQuantumAndClock at h
  split_ifs at h with hFill hCapacity hQuantum
  cases h
  refine ⟨rfl, le_refl _, ?_, 0, rfl, Nat.zero_le _, ?_⟩
  · show -0 ≤ capacity
    omega
  · rw [Rate.ticks, Nat.zero_div]
    rfl

section Calls

variable {rate : Rate} {lent : Int} {s : Limited} {tokens : Int}

/-- Time passes. -/
theorem Represents.wait (h : s.Represents rate lent tokens) (after : Nat) :
    { s with elapsed := s.elapsed + after }.Represents rate lent
      (rate.refill (rate.ticks (s.elapsed + after) - rate.ticks s.elapsed) tokens) := by
  obtain ⟨hRate, hLe, hLent, last, hLast, hBefore, rfl⟩ := h
  have hTicks := rate.ticks_mono (Nat.le_add_right s.elapsed after)
  refine ⟨hRate, hLe, hLent, last, hLast, le_trans hBefore hTicks, ?_⟩
  rw [Rate.refill_refill hLe]
  congr 1
  show _ = rate.ticks (s.elapsed + after) - last
  omega

theorem Represents.currentTick (h : s.Represents rate lent tokens)
    (hFitting : rate.Fitting s.elapsed lent) :
    s.bucket.currentTick s.now = rate.ticks s.elapsed := by
  rw [now, Bucket.currentTick_eq _ hFitting.clock, h.rate_eq]

/-- What a call sees after it has brought the bucket up to date. -/
theorem Represents.adjust (h : s.Represents rate lent tokens)
    (hFitting : rate.Fitting s.elapsed lent) :
    s.bucket.adjustavailableTokens (s.bucket.currentTick s.now) = { s.bucket with
      latestTick := rate.ticks s.elapsed
      availableTokens := tokens } := by
  rw [h.currentTick hFitting]
  obtain ⟨rfl, hLe, hLent, last, hLast, hBefore, rfl⟩ := h
  have hDebt := hFitting.lent
  have hTokens := hFitting.filled
  have hQuantum := s.bucket.quantum_pos
  have hMissed : ((s.bucket.toRate.ticks s.elapsed - last : Nat) : Int) * s.bucket.quantum ≤
      s.bucket.toRate.ticks s.elapsed * s.bucket.quantum :=
    mul_le_mul_of_nonneg_right (by omega) hQuantum.le
  refine Bucket.adjustavailableTokens_eq hLe (by omega) (by omega) ?_
  omega

theorem Represents.le (h : s.Represents rate lent tokens) : tokens ≤ rate.capacity := by
  obtain ⟨_, hLe, _, last, _, _, rfl⟩ := h
  exact Rate.refill_le hLe _

theorem Represents.ge (h : s.Represents rate lent tokens) : -lent ≤ tokens := by
  obtain ⟨_, hLe, hLent, last, _, _, rfl⟩ := h
  have hMore : 0 ≤ ((rate.ticks s.elapsed - last : Nat) : Int) * rate.quantum :=
    mul_nonneg (by omega) rate.quantum_pos.le
  rw [Rate.refill_eq hLe]
  omega

/-- A bucket that is up to date. -/
theorem represents_current {bucket : Bucket} {elapsed : Nat}
    (hRate : bucket.toRate = rate) (hTick : bucket.latestTick = rate.ticks elapsed)
    (hTokens : bucket.availableTokens = tokens) (hLe : tokens ≤ rate.capacity)
    (hLent : -lent ≤ tokens) : Represents rate lent { bucket, elapsed } tokens := by
  subst hTokens
  refine ⟨hRate, hLe, hLent, _, hTick, le_refl _, ?_⟩
  rw [Nat.sub_self]
  rfl

/-- The time that the caller is told fits. -/
theorem waitTime_eq (h : s.Represents rate lent tokens) {count : Int} {k : Nat}
    (hFitting : rate.Fitting s.elapsed (lent + count))
    (hShort : tokens - count < 0) (hk : rate.ticksFor (-(tokens - count)) = k) :
    saturate (s.bucket.startTime + int64 (int64 (rate.ticks s.elapsed +
        (int64 (-(tokens - count) + s.bucket.quantum - 1)).tdiv s.bucket.quantum) *
          s.bucket.fillInterval) - s.now) =
      (rate.ticks s.elapsed + k) * rate.fillInterval - s.elapsed := by
  have hQuantum : s.bucket.quantum = rate.quantum := by rw [← h.rate_eq]
  have hFill : s.bucket.fillInterval = rate.fillInterval := by rw [← h.rate_eq]
  have hQuantumPos := rate.quantum_pos
  have hFillPos := rate.fillInterval_pos
  have hGe := h.ge
  have hElapsed := hFitting.clock
  have hDebt := hFitting.lent
  have hTime := hFitting.paid
  have hTicks := rate.ticksFor_mono (show -(tokens - count) ≤ lent + count by omega)
  have hRounded : int64 (-(tokens - count) + rate.quantum - 1) =
      -(tokens - count) + rate.quantum - 1 := int64_of_nonneg (by omega) (by omega)
  have hDiv : (-(tokens - count) + rate.quantum - 1).tdiv rate.quantum = k := by
    rw [Int.tdiv_eq_ediv_of_nonneg (by omega)]
    exact hk
  have hProduct : (rate.ticks s.elapsed + (k : Int)) * rate.fillInterval ≤ maxInt64 :=
    le_trans (mul_le_mul_of_nonneg_right (by omega) hFillPos.le) hTime
  have hTick : (rate.ticks s.elapsed + (k : Int)) * 1 ≤
      (rate.ticks s.elapsed + k) * rate.fillInterval :=
    mul_le_mul_of_nonneg_left (by omega) (by omega)
  have hNonneg : 0 ≤ (rate.ticks s.elapsed + (k : Int)) * rate.fillInterval :=
    mul_nonneg (by omega) hFillPos.le
  have hEnd : int64 (rate.ticks s.elapsed + (k : Int)) = rate.ticks s.elapsed + k :=
    int64_of_nonneg (by omega) (by omega)
  rw [hQuantum, hFill, hRounded, hDiv, hEnd, int64_of_nonneg hNonneg hProduct, now,
    add_sub_add_left_eq_sub]
  refine saturate_of_mem ?_ (by omega)
  unfold maxInt64 at hElapsed
  unfold minInt64
  omega

theorem take_spec (h : s.Represents rate lent tokens) (count maxWait : Int)
    (hFitting : rate.Fitting s.elapsed (lent + max 0 count)) :
    ∃ tokens', rate.Meaning s.elapsed tokens (.takeMaxDuration count maxWait)
        (.wait (s.bucket.take s.now count maxWait).1.1 (s.bucket.take s.now count maxWait).1.2)
        tokens' ∧
      { s with bucket := (s.bucket.take s.now count maxWait).2 }.Represents rate
        (lent + max 0 count) tokens' := by
  by_cases hCount : count ≤ 0
  · rw [Bucket.take, if_pos hCount]
    refine ⟨tokens, .nothing hCount, ?_⟩
    rw [max_eq_left hCount, add_zero]
    exact h
  · have hPos : 0 < count := not_le.mp hCount
    rw [max_eq_right hPos.le] at hFitting ⊢
    have hLe := h.le
    have hGe := h.ge
    have hRate := h.rate_eq
    have hBefore := hFitting.mono (le_refl _) (show lent ≤ lent + count by omega)
    have hDebt := hFitting.lent
    have hCapacity := hBefore.filled
    have hTicks : 0 ≤ (rate.ticks s.elapsed : Int) * rate.quantum :=
      mul_nonneg (by omega) rate.quantum_pos.le
    have hAvail : int64 (tokens - count) = tokens - count := by
      have hQuantum := rate.quantum_pos
      refine int64_of_mem ?_ (by omega)
      unfold maxInt64 at hDebt
      unfold minInt64
      omega
    rw [Bucket.take, if_neg hCount]
    simp only [h.adjust hBefore, hAvail]
    by_cases hEnough : 0 ≤ tokens - count
    · rw [if_pos hEnough]
      exact ⟨tokens - count, .immediate hPos (by omega),
        represents_current hRate rfl rfl (by omega) (by omega)⟩
    · rw [if_neg hEnough]
      obtain ⟨k, hk, hPays⟩ := rate.pays (not_le.mp hEnough)
      simp only [h.currentTick hBefore, waitTime_eq h hFitting (not_le.mp hEnough) hk]
      by_cases hMax : maxWait < (rate.ticks s.elapsed + k) * rate.fillInterval - s.elapsed
      · rw [if_pos hMax]
        exact ⟨tokens, .refuse hPos (by omega) hPays hMax,
          represents_current hRate rfl rfl hLe (by omega)⟩
      · rw [if_neg hMax]
        exact ⟨tokens - count, .later hPos (by omega) hPays (not_lt.mp hMax),
          represents_current hRate rfl rfl (by omega) (by omega)⟩

theorem takeAvailable_spec (h : s.Represents rate lent tokens) (hLent : 0 ≤ lent)
    (hFitting : rate.Fitting s.elapsed lent) (count : Int) :
    ∃ tokens', rate.Meaning s.elapsed tokens (.takeAvailable count)
        (.tokens (s.bucket.takeAvailable s.now count).1) tokens' ∧
      { s with bucket := (s.bucket.takeAvailable s.now count).2 }.Represents rate lent tokens' := by
  by_cases hCount : count ≤ 0
  · rw [Bucket.takeAvailable, if_pos hCount]
    exact ⟨tokens, .takeNone (Or.inl hCount), h⟩
  · have hLe := h.le
    have hRate := h.rate_eq
    rw [Bucket.takeAvailable, if_neg hCount]
    simp only [h.adjust hFitting]
    by_cases hTokens : tokens ≤ 0
    · rw [if_pos hTokens]
      exact ⟨tokens, .takeNone (Or.inr hTokens), represents_current hRate rfl rfl hLe h.ge⟩
    · have hMin : (if tokens < count then tokens else count) = min count tokens := by
        split_ifs <;> omega
      rw [if_neg hTokens]
      simp only [hMin]
      exact ⟨tokens - min count tokens, .takeSome (not_le.mp hCount) (not_le.mp hTokens),
        represents_current hRate rfl rfl (by omega) (by omega)⟩

theorem available_spec (h : s.Represents rate lent tokens)
    (hFitting : rate.Fitting s.elapsed lent) :
    ∃ tokens', rate.Meaning s.elapsed tokens .available
        (.tokens (s.bucket.available s.now).1) tokens' ∧
      { s with bucket := (s.bucket.available s.now).2 }.Represents rate lent tokens' := by
  simp only [Bucket.available, h.adjust hFitting]
  exact ⟨tokens, .available tokens, represents_current h.rate_eq rfl rfl h.le h.ge⟩

theorem serve_spec (h : s.Represents rate lent tokens) (hLent : 0 ≤ lent) (after : Nat)
    (request : TokenRequest) (hFitting : rate.Fitting (s.elapsed + after) (lent + request.debt)) :
    ∃ tokens', rate.Meaning (s.elapsed + after)
        (rate.refill (rate.ticks (s.elapsed + after) - rate.ticks s.elapsed) tokens) request
        (s.serve after request).1 tokens' ∧
      (s.serve after request).2.Represents rate (lent + request.debt) tokens' ∧
      (s.serve after request).2.elapsed = s.elapsed + after := by
  have hWait := h.wait after
  cases request with
  | takeMaxDuration count maxWait =>
      obtain ⟨tokens', hMeaning, hAfter⟩ := take_spec hWait count maxWait hFitting
      exact ⟨tokens', hMeaning, hAfter, rfl⟩
  | takeAvailable count =>
      rw [TokenRequest.debt, add_zero] at hFitting ⊢
      obtain ⟨tokens', hMeaning, hAfter⟩ := takeAvailable_spec hWait hLent hFitting count
      exact ⟨tokens', hMeaning, hAfter, rfl⟩
  | available =>
      rw [TokenRequest.debt, add_zero] at hFitting ⊢
      obtain ⟨tokens', hMeaning, hAfter⟩ := available_spec hWait hFitting
      exact ⟨tokens', hMeaning, hAfter, rfl⟩

theorem serveAll_spec (h : s.Represents rate lent tokens) (hLent : 0 ≤ lent)
    {events : List (Nat × TokenRequest)}
    (hFitting : rate.Fitting (s.elapsed + elapsedIn events) (lent + debtOf events)) :
    rate.Meanings s.elapsed tokens events (s.serveAll events) := by
  induction events generalizing s lent tokens with
  | nil => exact .nil _ _
  | cons event rest ih =>
      obtain ⟨after, request⟩ := event
      have hLater := debtOf_nonneg rest
      have hDebt := request.debt_nonneg
      simp only [elapsedIn, debtOf, List.map_cons, List.sum_cons] at hFitting hLater ih
      obtain ⟨tokens', hMeaning, hAfter, hElapsed⟩ := serve_spec h hLent after request
        (hFitting.mono (by omega) (by omega))
      have hRest := ih hAfter (by omega) (by
        rw [hElapsed]
        exact hFitting.mono (by omega) (by omega))
      rw [hElapsed] at hRest
      exact .cons hMeaning hRest

end Calls

/-- A new bucket that computes only when it is called answers, at any times, like one that is
filled tick by tick, as long as nothing overflows. A caller that has to wait is told the first
tick at which its debt is paid, and a caller that would have to wait too long takes nothing. -/
theorem serveAll_refines {now fillInterval capacity quantum : Int} {bucket : Bucket}
    (hNew : Bucket.newBucketWithQuantumAndClock now fillInterval capacity quantum = some bucket)
    (events : List (Nat × TokenRequest))
    (hFitting : bucket.toRate.Fitting (elapsedIn events) (debtOf events)) :
    bucket.toRate.Meanings 0 bucket.capacity events (serveAll { bucket } events) := by
  refine serveAll_spec (new_represents hNew) (le_refl 0) ?_
  rw [Nat.zero_add, zero_add]
  exact hFitting

end Limited

/-- Two tokens every ten nanoseconds, at most three at once. -/
def Bucket.sample : Bucket :=
  { fillInterval := 10, capacity := 3, quantum := 2, startTime := 0, availableTokens := 3
    latestTick := 0, fillInterval_pos := by decide, capacity_pos := by decide
    quantum_pos := by decide }

/-- The second caller waits for the second tick. -/
def TokenRequest.sample : List (Nat × TokenRequest) :=
  [(0, .takeAvailable 5), (1, .takeMaxDuration 4 100)]

theorem Bucket.sample_fitting :
    Bucket.sample.toRate.Fitting (elapsedIn TokenRequest.sample) (debtOf TokenRequest.sample) :=
  ⟨by decide, by decide, by decide, by decide⟩

theorem Limited.serveAll_refines_sample :
    Limited.serveAll { bucket := Bucket.sample } TokenRequest.sample =
        [.tokens 3, .wait 19 true] ∧
      Bucket.sample.toRate.Meanings 0 3 TokenRequest.sample [.tokens 3, .wait 19 true] := by
  have hNew : Bucket.newBucketWithQuantumAndClock 0 10 3 2 = some Bucket.sample := rfl
  have hReplies : Limited.serveAll { bucket := Bucket.sample } TokenRequest.sample =
      [.tokens 3, .wait 19 true] := by decide
  refine ⟨hReplies, ?_⟩
  have hMeanings := Limited.serveAll_refines hNew TokenRequest.sample Bucket.sample_fitting
  rw [hReplies] at hMeanings
  exact hMeanings

/-! ### What is let through -/

/-- Tokens that a caller has, from a time on. -/
structure Grant where
  count : Int
  begins : Int

/-- What a reply grants to its caller, who waits before it goes on. -/
def TokenReply.grants (elapsed : Nat) : TokenRequest → TokenReply → List Grant
  | .takeMaxDuration count _, .wait duration true =>
      if 0 < count then [⟨count, elapsed + duration⟩] else []
  | .takeAvailable _, .tokens number => if 0 < number then [⟨number, elapsed⟩] else []
  | _, _ => []

/-- Everything that the replies to calls grant. -/
def grantsFrom (elapsed : Nat) : List (Nat × TokenRequest) → List TokenReply → List Grant
  | (after, request) :: rest, reply :: replies =>
      reply.grants (elapsed + after) request ++ grantsFrom (elapsed + after) rest replies
  | _, _ => []

namespace Rate

variable (rate : Rate)

/-- The tick in which a grant begins. -/
def tickOf (grant : Grant) : Int :=
  grant.begins / rate.fillInterval

/-- The tokens of the grants that begin from one tick to another. -/
def granted (grants : List Grant) (first last : Int) : Int :=
  ((grants.filter fun grant => first ≤ rate.tickOf grant ∧ rate.tickOf grant ≤ last).map
    Grant.count).sum

/-- The tokens of the grants that begin from one tick on. -/
def grantedFrom (grants : List Grant) (first : Int) : Int :=
  ((grants.filter fun grant => first ≤ rate.tickOf grant).map Grant.count).sum

/-- The most that is let through in one tick, when no request is for more than `most`. -/
def burst (most : Int) : Int :=
  max rate.capacity (most + rate.quantum - 1)

/-- What has been granted, against the tokens that are left. -/
structure Metered (most : Int) (elapsed : Nat) (tokens : Int) (grants : List Grant) : Prop where
  le_capacity : tokens ≤ rate.capacity
  owed : ∀ grant ∈ grants, rate.ticks elapsed < rate.tickOf grant →
    tokens + rate.quantum * (rate.tickOf grant - 1 - rate.ticks elapsed) < 0
  spent : ∀ first, (∃ grant ∈ grants, first ≤ rate.tickOf grant) →
    rate.grantedFrom grants first ≤
      rate.burst most + rate.quantum * (rate.ticks elapsed - first) - tokens
  window : ∀ first last, first ≤ last →
    rate.granted grants first last ≤ rate.burst most + rate.quantum * (last - first)

variable {rate} {most : Int} {elapsed : Nat} {tokens : Int} {grants : List Grant}

theorem metered_start (hMost : 0 ≤ most) : rate.Metered most elapsed rate.capacity [] := by
  have hQuantum := rate.quantum_pos
  refine ⟨le_refl _, by simp, by simp, fun first last hOrder => ?_⟩
  have hWidth : 0 ≤ rate.quantum * (last - first) := mul_nonneg hQuantum.le (by omega)
  simp only [granted, List.filter_nil, List.map_nil, List.sum_nil, burst]
  omega

/-- Time passes. -/
theorem Metered.wait (h : rate.Metered most elapsed tokens grants) (after : Nat) :
    rate.Metered most (elapsed + after)
      (rate.refill (rate.ticks (elapsed + after) - rate.ticks elapsed) tokens) grants := by
  have hTicks := rate.ticks_mono (Nat.le_add_right elapsed after)
  have hRefill : rate.refill (rate.ticks (elapsed + after) - rate.ticks elapsed) tokens ≤
      tokens + rate.quantum * (rate.ticks (elapsed + after) - rate.ticks elapsed) := by
    rw [refill_eq h.le_capacity, Nat.cast_sub hTicks, mul_comm]
    exact min_le_right _ _
  refine ⟨refill_le h.le_capacity _, fun grant hGrant hLater => ?_, fun first hFirst => ?_, h.window⟩
  · have := h.owed grant hGrant (by omega)
    rw [mul_sub, mul_sub] at this ⊢
    rw [mul_sub] at hRefill
    omega
  · have := h.spent first hFirst
    rw [mul_sub] at this hRefill ⊢
    omega

theorem grantedFrom_append (first : Int) (grant : Grant) :
    rate.grantedFrom (grants ++ [grant]) first =
      rate.grantedFrom grants first + if first ≤ rate.tickOf grant then grant.count else 0 := by
  simp only [grantedFrom, List.filter_append, List.map_append, List.sum_append]
  split_ifs with hFirst <;> simp [hFirst]

theorem granted_append (first last : Int) (grant : Grant) :
    rate.granted (grants ++ [grant]) first last = rate.granted grants first last +
      if first ≤ rate.tickOf grant ∧ rate.tickOf grant ≤ last then grant.count else 0 := by
  simp only [granted, List.filter_append, List.map_append, List.sum_append]
  split_ifs with hWindow
  · simp [hWindow]
  · simp only [List.filter_cons, decide_eq_true_eq, if_neg hWindow, List.filter_nil, List.map_nil,
      List.sum_nil]

theorem granted_eq_grantedFrom {last : Int} (hLast : ∀ grant ∈ grants, rate.tickOf grant ≤ last)
    (first : Int) : rate.granted grants first last = rate.grantedFrom grants first := by
  rw [granted, grantedFrom]
  congr 2
  refine List.filter_congr fun grant hGrant => ?_
  simp [hLast grant hGrant]

theorem grantedFrom_eq_zero {first : Int} (h : ∀ grant ∈ grants, rate.tickOf grant < first) :
    rate.grantedFrom grants first = 0 := by
  have hNone : grants.filter (fun grant => first ≤ rate.tickOf grant) = [] := by
    rw [List.filter_eq_nil_iff]
    intro grant hGrant
    have := h grant hGrant
    simpa using this
  rw [grantedFrom, hNone]
  rfl

/-- A grant that begins in the first tick at which its debt is paid. -/
structure Fits (rate : Rate) (most : Int) (elapsed : Nat) (tokens : Int) (grant : Grant) : Prop where
  pos : 0 < grant.count
  le_most : grant.count ≤ most
  future : rate.ticks elapsed ≤ rate.tickOf grant
  paid : 0 ≤ tokens - grant.count + rate.quantum * (rate.tickOf grant - rate.ticks elapsed)
  owed : rate.ticks elapsed < rate.tickOf grant →
    tokens - grant.count + rate.quantum * (rate.tickOf grant - 1 - rate.ticks elapsed) < 0

/-- Grants begin in the order of the calls. -/
theorem Metered.tickOf_le (h : rate.Metered most elapsed tokens grants) {grant grant' : Grant}
    (hFits : rate.Fits most elapsed tokens grant) (hGrant' : grant' ∈ grants) :
    rate.tickOf grant' ≤ rate.tickOf grant := by
  by_contra hLess
  have hQuantum := rate.quantum_pos
  have hFuture := hFits.future
  have hOwed := h.owed grant' hGrant' (by omega)
  have hPaid := hFits.paid
  have hPos := hFits.pos
  have hMul : rate.quantum * (rate.tickOf grant - rate.ticks elapsed) ≤
      rate.quantum * (rate.tickOf grant' - 1 - rate.ticks elapsed) :=
    mul_le_mul_of_nonneg_left (by omega) hQuantum.le
  omega

theorem Metered.grant (h : rate.Metered most elapsed tokens grants) {grant : Grant}
    (hFits : rate.Fits most elapsed tokens grant) :
    rate.Metered most elapsed (tokens - grant.count) (grants ++ [grant]) := by
  have hQuantum := rate.quantum_pos
  have hPos := hFits.pos
  have hCapacity := h.le_capacity
  have hMost := hFits.le_most
  have hBurst : rate.capacity ≤ rate.burst most ∧ most + rate.quantum - 1 ≤ rate.burst most :=
    ⟨le_max_left _ _, le_max_right _ _⟩
  have hSpent : ∀ first, first ≤ rate.tickOf grant →
      rate.grantedFrom (grants ++ [grant]) first ≤ rate.burst most +
        rate.quantum * (rate.ticks elapsed - first) - (tokens - grant.count) := by
    intro first hFirst
    rw [grantedFrom_append, if_pos hFirst]
    by_cases hBefore : ∃ grant' ∈ grants, first ≤ rate.tickOf grant'
    · have := h.spent first hBefore
      omega
    · push Not at hBefore
      rw [grantedFrom_eq_zero hBefore]
      have hMul : rate.quantum * (rate.ticks elapsed - rate.tickOf grant) ≤
          rate.quantum * (rate.ticks elapsed - first) :=
        mul_le_mul_of_nonneg_left (by omega) hQuantum.le
      rcases eq_or_lt_of_le hFits.future with hNow | hLater
      · rw [← hNow, sub_self, mul_zero] at hMul
        omega
      · have hOwed := hFits.owed hLater
        have hSplit : rate.quantum * (rate.tickOf grant - 1 - rate.ticks elapsed) =
            -(rate.quantum * (rate.ticks elapsed - rate.tickOf grant)) - rate.quantum := by ring
        omega
  constructor
  case le_capacity => omega
  case owed =>
    intro grant' hGrant' hLater
    rcases List.mem_append.mp hGrant' with hOld | hNew
    · have := h.owed grant' hOld hLater
      omega
    · cases List.mem_singleton.mp hNew
      exact hFits.owed hLater
  case spent =>
    rintro first ⟨grant', hGrant', hFirst⟩
    refine hSpent first ?_
    rcases List.mem_append.mp hGrant' with hOld | hNew
    · exact le_trans hFirst (h.tickOf_le hFits hOld)
    · cases List.mem_singleton.mp hNew
      exact hFirst
  case window =>
    intro first last hOrder
    by_cases hInside : first ≤ rate.tickOf grant ∧ rate.tickOf grant ≤ last
    · have hAll : ∀ grant' ∈ grants ++ [grant], rate.tickOf grant' ≤ last := by
        intro grant' hGrant'
        rcases List.mem_append.mp hGrant' with hOld | hNew
        · exact le_trans (h.tickOf_le hFits hOld) hInside.2
        · cases List.mem_singleton.mp hNew
          exact hInside.2
      have hMul : rate.quantum * (rate.tickOf grant - first) ≤ rate.quantum * (last - first) :=
        mul_le_mul_of_nonneg_left (by omega) hQuantum.le
      have hSplit : rate.quantum * (rate.tickOf grant - first) =
          rate.quantum * (rate.tickOf grant - rate.ticks elapsed) +
            rate.quantum * (rate.ticks elapsed - first) := by ring
      have := hSpent first hInside.1
      have := hFits.paid
      rw [granted_eq_grantedFrom hAll]
      omega
    · rw [granted_append, if_neg hInside]
      have := h.window first last hOrder
      omega

/-- The request is for at most `most` tokens. -/
def Modest (most : Int) : TokenRequest → Prop
  | .takeMaxDuration count _ => count ≤ most
  | .takeAvailable count => count ≤ most
  | .available => True

instance (most : Int) : DecidablePred (Modest most) := fun request =>
  match request with
  | .takeMaxDuration _ _ => inferInstanceAs (Decidable (_ ≤ _))
  | .takeAvailable _ => inferInstanceAs (Decidable (_ ≤ _))
  | .available => inferInstanceAs (Decidable True)

theorem tickOf_elapsed (elapsed : Nat) (count : Int) :
    rate.tickOf ⟨count, elapsed⟩ = rate.ticks elapsed := by
  have hFill : ((rate.fillInterval.toNat : Nat) : Int) = rate.fillInterval :=
    Int.toNat_of_nonneg rate.fillInterval_pos.le
  rw [tickOf, ← hFill]
  exact (Int.natCast_ediv _ _).symm

/-- Tokens that are there at once. -/
theorem fits_now {count : Int} (hPos : 0 < count) (hMost : count ≤ most) (hEnough : count ≤ tokens) :
    rate.Fits most elapsed tokens ⟨count, elapsed⟩ := by
  have hTick := rate.tickOf_elapsed elapsed count
  refine ⟨hPos, hMost, le_of_eq hTick.symm, ?_, fun hLater => ?_⟩
  · rw [hTick, sub_self, mul_zero]
    show 0 ≤ tokens - count + 0
    omega
  · rw [hTick] at hLater
    exact absurd hLater (lt_irrefl _)

/-- Tokens that are there after `k` more ticks. -/
theorem fits_later {count : Int} {k : Nat} (hPos : 0 < count) (hMost : count ≤ most)
    (hCapacity : tokens ≤ rate.capacity) (hPays : rate.Pays (tokens - count) k) :
    rate.Fits most elapsed tokens ⟨count, (rate.ticks elapsed + k) * rate.fillInterval⟩ := by
  have hTick : rate.tickOf ⟨count, (rate.ticks elapsed + k) * rate.fillInterval⟩ =
      rate.ticks elapsed + k :=
    Int.mul_ediv_cancel _ rate.fillInterval_pos.ne'
  have hRefill : ∀ j, rate.refill j (tokens - count) =
      min rate.capacity (tokens - count + j * rate.quantum) := refill_eq (by omega)
  have hCapacityPos := rate.capacity_pos
  refine ⟨hPos, hMost, by omega, ?_, fun hLater => ?_⟩
  · have hPaid := hPays.paid
    rw [hRefill] at hPaid
    rw [hTick, add_sub_cancel_left, mul_comm rate.quantum]
    show 0 ≤ tokens - count + _
    omega
  · rw [hTick] at hLater ⊢
    obtain ⟨j, rfl⟩ := Nat.exists_eq_add_of_lt (show 0 < k by omega)
    have hOwed := hPays.before (0 + j) (by omega)
    rw [hRefill] at hOwed
    have hSplit : (rate.ticks elapsed + ((0 + j + 1 : Nat) : Int) - 1 - rate.ticks elapsed) =
        ((0 + j : Nat) : Int) := by
      push_cast
      ring
    rw [hSplit, mul_comm rate.quantum]
    show tokens - count + _ < 0
    omega

/-- What one call grants. -/
theorem Metered.call (h : rate.Metered most elapsed tokens grants) {request : TokenRequest}
    {reply : TokenReply} {tokens' : Int} (hModest : Modest most request)
    (hCall : rate.Meaning elapsed tokens request reply tokens') :
    rate.Metered most elapsed tokens' (grants ++ reply.grants elapsed request) := by
  cases hCall with
  | nothing hCount =>
      rw [TokenReply.grants, if_neg (by omega), List.append_nil]
      exact h
  | immediate hCount hEnough =>
      rw [TokenReply.grants, if_pos hCount, add_zero]
      exact h.grant (fits_now hCount hModest hEnough)
  | later hCount hShort hPays hMax =>
      rw [TokenReply.grants, if_pos hCount, add_sub_cancel]
      exact h.grant (fits_later hCount hModest h.le_capacity hPays)
  | refuse hCount hShort hPays hMax =>
      show rate.Metered most elapsed tokens (grants ++ [])
      rw [List.append_nil]
      exact h
  | takeNone hNone =>
      rw [TokenReply.grants, if_neg (lt_irrefl 0), List.append_nil]
      exact h
  | takeSome hCount hTokens =>
      rw [TokenReply.grants, if_pos (by omega)]
      have hLe : min _ tokens ≤ most := le_trans (min_le_left _ _) hModest
      exact h.grant (fits_now (by omega) hLe (min_le_right _ _))
  | available =>
      show rate.Metered most elapsed tokens (grants ++ [])
      rw [List.append_nil]
      exact h

theorem Metered.run {events : List (Nat × TokenRequest)} {replies : List TokenReply}
    (hModest : ∀ event ∈ events, Modest most event.2)
    (hRun : rate.Meanings elapsed tokens events replies)
    (h : rate.Metered most elapsed tokens grants) :
    ∃ elapsed' tokens', rate.Metered most elapsed' tokens'
      (grants ++ grantsFrom elapsed events replies) := by
  induction hRun generalizing grants with
  | nil elapsed tokens =>
      refine ⟨elapsed, tokens, ?_⟩
      rw [grantsFrom, List.append_nil]
      · exact h
      · simp
  | cons hCall hRest ih =>
      have hStep := (h.wait _).call (hModest _ List.mem_cons_self) hCall
      obtain ⟨elapsed', tokens', hEnd⟩ := ih
        (fun event hEvent => hModest event (List.mem_cons_of_mem _ hEvent)) hStep
      refine ⟨elapsed', tokens', ?_⟩
      rw [grantsFrom, ← List.append_assoc]
      exact hEnd

end Rate

/-- Whatever the callers do, in a window from one tick to another they are let through with at
most the burst and the quanta of the ticks in between, as long as nothing overflows. The burst
is the capacity, or one request and what a quantum may exceed its debt by. -/
theorem limited_window {now fillInterval capacity quantum : Int} {bucket : Bucket}
    (hNew : Bucket.newBucketWithQuantumAndClock now fillInterval capacity quantum = some bucket)
    (most : Int) (hMost : 0 ≤ most) (events : List (Nat × TokenRequest))
    (hFitting : bucket.toRate.Fitting (elapsedIn events) (debtOf events))
    (hModest : ∀ event ∈ events, Rate.Modest most event.2) (first last : Int)
    (hOrder : first ≤ last) :
    bucket.toRate.granted (grantsFrom 0 events (Limited.serveAll { bucket } events)) first last ≤
      bucket.toRate.burst most + bucket.quantum * (last - first) := by
  have hMeanings : bucket.toRate.Meanings 0 bucket.capacity events
      (Limited.serveAll { bucket } events) := by
    refine Limited.serveAll_spec (Limited.new_represents hNew) (le_refl 0) ?_
    rw [Nat.zero_add, zero_add]
    exact hFitting
  obtain ⟨_, _, hEnd⟩ := Rate.Metered.run hModest hMeanings (bucket.toRate.metered_start hMost)
  exact hEnd.window first last hOrder

theorem limited_window_sample :
    Bucket.sample.toRate.granted (grantsFrom 0 TokenRequest.sample
        (Limited.serveAll { bucket := Bucket.sample } TokenRequest.sample)) 0 2 = 7 ∧
      (7 : Int) ≤ Bucket.sample.toRate.burst 5 + Bucket.sample.quantum * (2 - 0) := by
  have hNew : Bucket.newBucketWithQuantumAndClock 0 10 3 2 = some Bucket.sample := rfl
  refine ⟨by decide, ?_⟩
  have hBound := limited_window hNew 5 (by decide) TokenRequest.sample Bucket.sample_fitting
    (by decide) 0 2 (by decide)
  exact le_trans (by decide) hBound

end Bamboo
