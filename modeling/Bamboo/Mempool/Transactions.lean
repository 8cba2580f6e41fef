import Bamboo.Blockchain.Block

/-! Transactions that wait for a microblock. The mempools refuse a transaction for reasons
of their own and otherwise treat it alike: it is put into a list whose size in bytes is
kept beside it, and the list becomes a microblock when it reaches `msize` or when the next
transaction does not fit. -/
namespace Bamboo

/-- The transactions of a mempool that are in no microblock yet. -/
structure TxnBuffer where
  /-- Byte size of the transactions in a microblock. -/
  msize : Nat
  txnList : List Transaction := []
  currSize : Nat := 0

namespace TxnBuffer

/-- The loop of `makeTxnSlice`, which empties the list from its front. -/
def makeTxnSlice : List Transaction → List Transaction → List Transaction
  | allTxn, [] => allTxn
  | allTxn, e :: rest => makeTxnSlice (allTxn ++ [e]) rest

/-- The comparison of `AddTxn` for a transaction that is not refused, with the transactions
of the microblock if one is built. -/
def put (size : Transaction → Nat) (b : TxnBuffer) (txn : Transaction) :
    TxnBuffer × Option (List Transaction) :=
  let tranSize := size txn
  let totalSize := tranSize + b.currSize
  if b.msize < totalSize then
    -- the new transaction does not fit and is the first one of the next list
    ({ b with currSize := tranSize, txnList := [txn] }, some (makeTxnSlice [] b.txnList))
  else if totalSize = b.msize then
    ({ b with currSize := 0, txnList := [] }, some (makeTxnSlice [] b.txnList ++ [txn]))
  else ({ b with currSize := totalSize, txnList := b.txnList ++ [txn] }, none)

theorem makeTxnSlice_eq (allTxn txnList : List Transaction) :
    makeTxnSlice allTxn txnList = allTxn ++ txnList := by
  induction txnList generalizing allTxn with
  | nil => exact (List.append_nil _).symm
  | cons e rest ih =>
      rw [makeTxnSlice, ih, List.append_assoc]
      rfl

end TxnBuffer

/-- The size of a list of transactions. -/
def totalSize (size : Transaction → Nat) : List Transaction → Nat
  | [] => 0
  | txn :: rest => size txn + totalSize size rest

theorem totalSize_append (size : Transaction → Nat) (txns txns' : List Transaction) :
    totalSize size (txns ++ txns') = totalSize size txns + totalSize size txns' := by
  induction txns with
  | nil => exact (Nat.zero_add _).symm
  | cons txn rest ih =>
      rw [List.cons_append, totalSize, totalSize, ih, Nat.add_assoc]

/-- Where the accepted transactions are: in the microblocks built so far, which are not
empty and not too large, and then in the list, whose size is known. -/
structure Batched (size : Transaction → Nat) (msize : Nat) (b : TxnBuffer)
    (accepted : List Transaction) (built : List MicroBlock) : Prop where
  msize_eq : b.msize = msize
  kept : built.flatMap MicroBlock.txns ++ b.txnList = accepted
  built_size : ∀ mb ∈ built, mb.txns ≠ [] ∧ totalSize size mb.txns ≤ msize
  currSize_eq : b.currSize = totalSize size b.txnList
  currSize_le : b.currSize ≤ msize

section Batched

variable {size : Transaction → Nat} {msize : Nat} {b : TxnBuffer} {accepted : List Transaction}
  {built : List MicroBlock}

theorem Batched.start (size : Transaction → Nat) (msize : Nat) :
    Batched size msize { msize } [] [] where
  msize_eq := rfl
  kept := rfl
  built_size mb hmb := by cases hmb
  currSize_eq := rfl
  currSize_le := Nat.zero_le _

/-- A transaction that fits into a microblock is put behind the others. -/
theorem Batched.put (h : Batched size msize b accepted built) {txn : Transaction}
    (hFits : size txn ≤ b.msize) {make : List Transaction → MicroBlock}
    (hMake : ∀ txns, (make txns).txns = txns) :
    Batched size msize (b.put size txn).1 (accepted ++ [txn])
      (built ++ ((b.put size txn).2.map make).toList) := by
  have hSingle : totalSize size [txn] = size txn := rfl
  have hSize := h.currSize_eq
  have hMsize := h.msize_eq
  unfold TxnBuffer.put
  dsimp only
  split_ifs with hOver hExact
  · -- the list is not empty, for else the transaction alone would be too large
    have hSome : b.txnList ≠ [] := by
      intro hEmpty
      rw [hEmpty] at hSize
      change b.currSize = 0 at hSize
      omega
    refine ⟨hMsize, ?_, fun mb hmb => ?_, rfl, hMsize ▸ hFits⟩
    · simp [TxnBuffer.makeTxnSlice_eq, hMake, ← h.kept]
    · rcases List.mem_append.mp hmb with hOld | hNew
      · exact h.built_size mb hOld
      · rw [Option.map_some, Option.toList_some, List.mem_singleton] at hNew
        rw [hNew, hMake, TxnBuffer.makeTxnSlice_eq, List.nil_append, ← hSize]
        exact ⟨hSome, h.currSize_le⟩
  · refine ⟨hMsize, ?_, fun mb hmb => ?_, rfl, Nat.zero_le _⟩
    · simp [TxnBuffer.makeTxnSlice_eq, hMake, ← h.kept]
    · rcases List.mem_append.mp hmb with hOld | hNew
      · exact h.built_size mb hOld
      · rw [Option.map_some, Option.toList_some, List.mem_singleton] at hNew
        rw [hNew, hMake, TxnBuffer.makeTxnSlice_eq, List.nil_append, totalSize_append, hSingle]
        exact ⟨by simp, by omega⟩
  · refine ⟨hMsize, ?_, ?_, ?_, ?_⟩
    · simp [← h.kept]
    · simpa using h.built_size
    · change size txn + b.currSize = totalSize size (b.txnList ++ [txn])
      rw [totalSize_append, hSingle, hSize, Nat.add_comm]
    · exact hMsize ▸ not_lt.mp hOver

end Batched

/-- A mempool with states `σ`, as far as `AddTxn` is concerned. -/
structure TxnPool (size : Transaction → Nat) (σ : Type) where
  txns : σ → TxnBuffer
  /-- There is no room for another transaction. -/
  Full : σ → Prop
  decidable : DecidablePred Full
  addTxn : (List Transaction → MicroBlock) → σ → Transaction → σ × Option MicroBlock
  /-- What other calls make of the mempool: the second state, with the transactions of the
  first one. -/
  after : σ → σ → σ
  txns_after : ∀ s s', txns (after s s') = txns s
  refuses : ∀ make s txn, Full s ∨ (txns s).msize < size txn →
    txns (addTxn make s txn).1 = txns s ∧ (addTxn make s txn).2 = none
  accepts : ∀ make s txn, ¬(Full s ∨ (txns s).msize < size txn) →
    txns (addTxn make s txn).1 = ((txns s).put size txn).1 ∧
      (addTxn make s txn).2 = ((txns s).put size txn).2.map make

namespace TxnPool

variable {size : Transaction → Nat} {msize : Nat} {σ : Type} (pool : TxnPool size σ)

attribute [instance] TxnPool.decidable

/-- A call of `AddTxn`, with what a new microblock gets, or calls that leave the
transactions alone. -/
inductive Event (σ : Type) where
  | addTxn (txn : Transaction) (hash : Identifier) (groupId now : Int)
  | others (s : σ)

/-- A mempool with the transactions that were not refused and the microblocks it returned,
oldest first. -/
structure Log (σ : Type) where
  mem : σ
  accepted : List Transaction := []
  built : List MicroBlock := []

def step (log : Log σ) : Event σ → Log σ
  | .addTxn txn hash groupId now =>
      let result := pool.addTxn (fun txns => newMicroblock hash groupId txns now) log.mem txn
      { mem := result.1
        accepted := if pool.Full log.mem ∨ (pool.txns log.mem).msize < size txn then log.accepted
          else log.accepted ++ [txn]
        built := log.built ++ result.2.toList }
  | .others s => { log with mem := pool.after log.mem s }

theorem step_batched {log : Log σ} (event : Event σ)
    (h : Batched size msize (pool.txns log.mem) log.accepted log.built) :
    Batched size msize (pool.txns (pool.step log event).mem) (pool.step log event).accepted
      (pool.step log event).built := by
  cases event with
  | others s =>
      change Batched size msize (pool.txns (pool.after log.mem s)) log.accepted log.built
      rw [pool.txns_after]
      exact h
  | addTxn txn hash groupId now =>
      unfold step
      dsimp only
      by_cases hRefused : pool.Full log.mem ∨ (pool.txns log.mem).msize < size txn
      · obtain ⟨hTxns, hNone⟩ := pool.refuses
          (fun txns => newMicroblock hash groupId txns now) log.mem txn hRefused
        rw [hTxns, hNone, if_pos hRefused, Option.toList_none, List.append_nil]
        exact h
      · obtain ⟨hTxns, hBuilt⟩ := pool.accepts
          (fun txns => newMicroblock hash groupId txns now) log.mem txn hRefused
        rw [hTxns, hBuilt, if_neg hRefused]
        exact h.put (not_lt.mp fun hLarge => hRefused (Or.inr hLarge)) fun _ => rfl

/-- Nothing is lost or reordered by any calls. -/
theorem run_batched (events : List (Event σ)) {log : Log σ}
    (h : Batched size msize (pool.txns log.mem) log.accepted log.built) :
    Batched size msize (pool.txns (events.foldl pool.step log).mem)
      (events.foldl pool.step log).accepted (events.foldl pool.step log).built := by
  exact List.foldlRecOn (motive := fun log : Log σ =>
    Batched size msize (pool.txns log.mem) log.accepted log.built) events _ h
    fun log h event _ => pool.step_batched event h

end TxnPool
end Bamboo
