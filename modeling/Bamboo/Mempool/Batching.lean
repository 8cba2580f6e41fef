import Bamboo.Mempool.NaiveMem
import Bamboo.Mempool.TimeMem

/-! `AddTxn` of the three mempools. They differ in what they call full and in the place
where a transaction is counted; what becomes of an accepted transaction is the same. -/
namespace Bamboo

/-- The mempool with acks, together with its transactions. -/
structure AckMem.WithTxns extends AckMem where
  txns : TxnBuffer
  totalTx : Int := 0

namespace AckMem.WithTxns

def remainingTx (am : WithTxns) : Int := am.txns.txnList.length

/-- Here a transaction is counted before its size is looked at. -/
def addTxn (size : Transaction → Nat) (make : List Transaction → MicroBlock) (am : WithTxns)
    (txn : Transaction) : WithTxns × Option MicroBlock :=
  if am.memsize ≤ am.remainingTx then (am, none)
  else if am.memsize ≤ am.remainingMB then (am, none)
  else
    let am := { am with totalTx := am.totalTx + 1 }
    if am.txns.msize < size txn then (am, none)
    else
      let (txns, batch) := am.txns.put size txn
      ({ am with txns }, batch.map make)

/-- There is no room for another transaction. -/
def Full (am : WithTxns) : Prop :=
  am.memsize ≤ am.remainingTx ∨ am.memsize ≤ am.remainingMB

instance (am : WithTxns) : Decidable am.Full :=
  inferInstanceAs (Decidable (_ ∨ _))

section AddTxn

variable (size : Transaction → Nat) (make : List Transaction → MicroBlock) {am : WithTxns}
  (txn : Transaction)

theorem addTxn_full (h : am.Full) : am.addTxn size make txn = (am, none) := by
  unfold addTxn
  rcases h with hTx | hMB
  · rw [if_pos hTx]
  · split_ifs
    · rfl
    · rfl

theorem addTxn_not_full (h : ¬am.Full) : am.addTxn size make txn =
    if am.txns.msize < size txn then ({ am with totalTx := am.totalTx + 1 }, none)
    else ({ am with txns := (am.txns.put size txn).1, totalTx := am.totalTx + 1 },
      (am.txns.put size txn).2.map make) := by
  unfold addTxn
  rw [if_neg fun hTx => h (Or.inl hTx), if_neg fun hMB => h (Or.inr hMB)]

end AddTxn

/-- `AckMem` as a pool of transactions. -/
def pool (size : Transaction → Nat) : TxnPool size WithTxns where
  txns := txns
  Full := Full
  decidable am := inferInstance
  addTxn := addTxn size
  after am am' := { am' with txns := am.txns, totalTx := am.totalTx }
  txns_after _ _ := rfl
  refuses make am txn h := by
    by_cases hFull : am.Full
    · rw [addTxn_full size make txn hFull]
      exact ⟨rfl, rfl⟩
    · rw [addTxn_not_full size make txn hFull, if_pos (h.resolve_left hFull)]
      exact ⟨rfl, rfl⟩
  accepts make am txn h := by
    rw [addTxn_not_full size make txn fun hFull => h (Or.inl hFull),
      if_neg fun hLarge => h (Or.inr hLarge)]
    exact ⟨rfl, rfl⟩

end AckMem.WithTxns

/-- After any calls on a mempool that had no transactions, the accepted ones are in the
microblocks and then in the list, in the order of the calls. -/
theorem transactions_batched (size : Transaction → Nat) (msize : Nat) :
    (∀ (am : AckMem.WithTxns) (events : List (TxnPool.Event AckMem.WithTxns)),
      let log := events.foldl (AckMem.WithTxns.pool size).step
        { mem := { am with txns := { msize } } }
      Batched size msize log.mem.txns log.accepted log.built) ∧
    (∀ (nm : NaiveMem) (events : List (TxnPool.Event NaiveMem)),
      let log := events.foldl (NaiveMem.pool size).step { mem := { nm with txns := { msize } } }
      Batched size msize log.mem.txns log.accepted log.built) ∧
    (∀ (tm : Timemem) (events : List (TxnPool.Event Timemem)),
      let log := events.foldl (Timemem.pool size).step { mem := { tm with txns := { msize } } }
      Batched size msize log.mem.txns log.accepted log.built) := by
  refine ⟨fun am events => ?_, fun nm events => ?_, fun tm events => ?_⟩
  · exact (AckMem.WithTxns.pool size).run_batched events (Batched.start size msize)
  · exact (NaiveMem.pool size).run_batched events (Batched.start size msize)
  · exact (Timemem.pool size).run_batched events (Batched.start size msize)

/-- A transaction that fills a microblock, one that is too large, and two that do not fit
together. -/
example :
    let size := fun txn : Transaction => txn.timestamp.toNat
    let events := [5, 6, 3, 4].map fun n =>
      TxnPool.Event.addTxn (σ := NaiveMem) { timestamp := n } 0 0 0
    let log := events.foldl (NaiveMem.pool size).step { mem := NaiveMem.new 2 10 5 }
    (log.built.map fun mb => mb.txns.map Transaction.timestamp) = [[5], [3]] ∧
      log.mem.txns.txnList.map Transaction.timestamp = [4] ∧ log.mem.txns.currSize = 4 := by
  decide

end Bamboo
