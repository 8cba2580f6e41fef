import Bamboo.Mempool.Transactions
import Bamboo.Mempool.AckMem

/-! `NaiveMem` counts no acks and keeps its microblocks in the order of their arrival. -/
namespace Bamboo

open Library

structure NaiveMem where
  microblocks : List MicroBlock := []
  microblockMap : Table Identifier MicroBlock := ∅
  bsize : Int
  memsize : Int
  txns : TxnBuffer
  totalTx : Int := 0

namespace NaiveMem

def new (bsize memsize : Int) (msize : Nat) : NaiveMem :=
  { bsize, memsize, txns := { msize } }

def remainingTx (nm : NaiveMem) : Int := nm.txns.txnList.length

def remainingMB (nm : NaiveMem) : Int := nm.microblocks.length

def addTxn (size : Transaction → Nat) (make : List Transaction → MicroBlock) (nm : NaiveMem)
    (txn : Transaction) : NaiveMem × Option MicroBlock :=
  if nm.memsize ≤ nm.remainingTx then (nm, none)
  else if nm.memsize ≤ nm.remainingMB then (nm, none)
  else if nm.txns.msize < size txn then (nm, none)
  else
    let (txns, batch) := nm.txns.put size txn
    ({ nm with txns, totalTx := nm.totalTx + 1 }, batch.map make)

def addMicroblock (nm : NaiveMem) (mb : MicroBlock) : NaiveMem :=
  if mb.hash ∈ nm.microblockMap then nm
  else
    { nm with
      microblocks := nm.microblocks ++ [mb]
      microblockMap := nm.microblockMap.insert mb.hash mb }

/-- The next payload: the oldest microblocks, `bsize` of them if there are so many. -/
def generatePayload (nm : NaiveMem) : NaiveMem × Payload :=
  let batchSize := if nm.bsize ≤ nm.microblocks.length then nm.bsize else nm.microblocks.length
  ({ nm with microblocks := nm.microblocks.drop batchSize.toNat },
    { microblockList := nm.microblocks.take batchSize.toNat })

def removeMicroblock (nm : NaiveMem) (id : Identifier) : NaiveMem :=
  { nm with microblockMap := nm.microblockMap.erase id }

/-- The loop of `FillProposal`. A microblock leaves the queue and stays in the map. -/
def fillAll : NaiveMem → List Identifier → NaiveMem × List MicroBlock × Finset Identifier
  | nm, [] => (nm, [], ∅)
  | nm, h :: rest =>
      match nm.microblockMap.lookup h with
      | some block =>
          let (nm, later, missing) :=
            fillAll { nm with microblocks := nm.microblocks.erase block } rest
          (nm, block :: later, missing)
      | none =>
          let (nm, later, missing) := fillAll nm rest
          (nm, later, insert h missing)

/-- `FillProposal`, and its two group variants, which have the same body. -/
def fillProposal (nm : NaiveMem) (p : Proposal) : NaiveMem × PendingBlock :=
  let (nm, existing, missing) := nm.fillAll p.hashList
  (nm, { payload := { microblockList := existing }, proposal := p, missingMap := missing })

/-- The calls that change the mempool. -/
inductive Call where
  | addTxn (txn : Transaction) (hash : Identifier) (groupId now : Int)
  | addMicroblock (mb : MicroBlock)
  | generatePayload
  | removeMicroblock (id : Identifier)
  | fillProposal (p : Proposal)

def Call.perform (size : Transaction → Nat) (nm : NaiveMem) : Call → NaiveMem
  | .addTxn txn hash groupId now =>
      (nm.addTxn size (fun txns => newMicroblock hash groupId txns now) txn).1
  | .addMicroblock mb => nm.addMicroblock mb
  | .generatePayload => nm.generatePayload.1
  | .removeMicroblock id => nm.removeMicroblock id
  | .fillProposal p => (nm.fillProposal p).1

/-- Microblocks are stored under their own hashes. -/
def WellKeyed (nm : NaiveMem) : Prop :=
  ∀ h mb, nm.microblockMap.lookup h = some mb → mb.hash = h

theorem addTxn_microblockMap (size : Transaction → Nat) (make : List Transaction → MicroBlock)
    (nm : NaiveMem) (txn : Transaction) :
    (nm.addTxn size make txn).1.microblockMap = nm.microblockMap := by
  unfold addTxn
  split_ifs <;> rfl

theorem fillAll_microblockMap (nm : NaiveMem) (hs : List Identifier) :
    (nm.fillAll hs).1.microblockMap = nm.microblockMap := by
  induction hs generalizing nm with
  | nil => rfl
  | cons h rest ih =>
      unfold fillAll
      cases nm.microblockMap.lookup h with
      | none => exact ih nm
      | some block => exact ih { nm with microblocks := nm.microblocks.erase block }

theorem WellKeyed.of_eq {nm nm' : NaiveMem} (h : nm.WellKeyed)
    (hMap : nm'.microblockMap = nm.microblockMap) : nm'.WellKeyed := by
  unfold WellKeyed
  rw [hMap]
  exact h

theorem Call.perform_wellKeyed (size : Transaction → Nat) {nm : NaiveMem} (h : nm.WellKeyed)
    (call : Call) : (call.perform size nm).WellKeyed := by
  cases call with
  | addTxn txn hash groupId now => exact h.of_eq (addTxn_microblockMap size _ nm txn)
  | addMicroblock mb =>
      intro h' found hFound
      simp only [Call.perform, NaiveMem.addMicroblock] at hFound
      split_ifs at hFound
      · exact h h' found hFound
      · rcases Table.of_lookup_insert hFound with ⟨hSame, rfl⟩ | hOld
        · exact hSame.symm
        · exact h h' found hOld
  | generatePayload => exact h
  | removeMicroblock id => exact fun h' found hFound => h h' found (Table.of_lookup_erase hFound)
  | fillProposal p => exact h.of_eq (fillAll_microblockMap nm p.hashList)

/-- After any calls on a new mempool the keys are right. -/
theorem run_wellKeyed (size : Transaction → Nat) (bsize memsize : Int) (msize : Nat)
    (calls : List Call) : (calls.foldl (Call.perform size) (new bsize memsize msize)).WellKeyed := by
  refine List.foldlRecOn calls _ ?_ fun nm h call _ => Call.perform_wellKeyed size h call
  intro h mb hLookup
  simp [new] at hLookup

/-- There is no room for another transaction. -/
def Full (nm : NaiveMem) : Prop :=
  nm.memsize ≤ nm.remainingTx ∨ nm.memsize ≤ nm.remainingMB

instance (nm : NaiveMem) : Decidable nm.Full :=
  inferInstanceAs (Decidable (_ ∨ _))

section AddTxn

variable (size : Transaction → Nat) (make : List Transaction → MicroBlock) {nm : NaiveMem}
  {txn : Transaction}

theorem addTxn_refused (h : nm.Full ∨ nm.txns.msize < size txn) :
    nm.addTxn size make txn = (nm, none) := by
  unfold addTxn
  split_ifs with hTx hMB hLarge
  · rfl
  · rfl
  · rfl
  · rcases h with (hFull | hFull) | hFull <;> contradiction

theorem addTxn_accepted (h : ¬(nm.Full ∨ nm.txns.msize < size txn)) :
    nm.addTxn size make txn =
      ({ nm with txns := (nm.txns.put size txn).1, totalTx := nm.totalTx + 1 },
        (nm.txns.put size txn).2.map make) := by
  simp only [Full, not_or] at h
  unfold addTxn
  rw [if_neg h.1.1, if_neg h.1.2, if_neg h.2]

end AddTxn

/-- `NaiveMem` as a pool of transactions. -/
def pool (size : Transaction → Nat) : TxnPool size NaiveMem where
  txns := txns
  Full := Full
  decidable nm := inferInstance
  addTxn := addTxn size
  after nm nm' := { nm' with txns := nm.txns, totalTx := nm.totalTx }
  txns_after _ _ := rfl
  refuses make nm txn h := by
    rw [addTxn_refused size make h]
    exact ⟨rfl, rfl⟩
  accepts make nm txn h := by
    rw [addTxn_accepted size make h]
    exact ⟨rfl, rfl⟩

end NaiveMem
end Bamboo
