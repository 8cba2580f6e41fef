import Bamboo.Mempool.Transactions
import Bamboo.Mempool.AckMem
import Bamboo.PriorityQueue

/-! `Timemem` counts no acks and has its microblocks in a queue ordered by their timestamps, and
in a map from hashes that also keeps what has been handed out. `FillProposal` takes a microblock
out of both, and its hash can then be accepted once more. -/
namespace Bamboo

open Library

/-- A microblock and the time by which it is ordered. -/
structure Timed where
  mb : MicroBlock
  futureTimestamp : Int
deriving DecidableEq

def Timed.hash (mb : Timed) : Identifier :=
  mb.mb.hash

structure Timemem where
  mbpq : PriorityQueue Timed := {}
  microblockMap : Table Identifier Timed := ∅
  bsize : Int
  memsize : Int
  txns : TxnBuffer

namespace Timemem

def new (bsize memsize : Int) (msize : Nat) : Timemem :=
  { bsize, memsize, txns := { msize } }

def addTxn (size : Transaction → Nat) (make : List Transaction → MicroBlock) (tm : Timemem)
    (txn : Transaction) : Timemem × Option MicroBlock :=
  if tm.memsize ≤ tm.mbpq.len then (tm, none)
  else if tm.txns.msize < size txn then (tm, none)
  else
    let (txns, batch) := tm.txns.put size txn
    ({ tm with txns }, batch.map make)

/-- `Timemem` as a pool of transactions. -/
def pool (size : Transaction → Nat) : TxnPool size Timemem where
  txns := txns
  Full tm := tm.memsize ≤ tm.mbpq.len
  decidable tm := inferInstance
  addTxn := addTxn size
  after tm tm' := { tm' with txns := tm.txns }
  txns_after _ _ := rfl
  refuses make tm txn h := by
    unfold addTxn
    split_ifs with hMB hLarge
    · exact ⟨rfl, rfl⟩
    · exact ⟨rfl, rfl⟩
    · rcases h with hFull | hFull <;> contradiction
  accepts make tm txn h := by
    simp only [not_or] at h
    unfold addTxn
    rw [if_neg h.1, if_neg h.2]
    exact ⟨rfl, rfl⟩

def addMicroblock (tm : Timemem) (mb : Timed) : Timemem :=
  if mb.hash ∈ tm.microblockMap then tm
  else
    { tm with
      mbpq := tm.mbpq.insert mb mb.futureTimestamp
      microblockMap := tm.microblockMap.insert mb.hash mb }

/-- `GeneratePayload`; the microblocks stay in the map. -/
def generatePayload (tm : Timemem) : Outcome (List Timed × Timemem) := do
  let batchSize : Int := if tm.bsize ≤ tm.mbpq.len then tm.bsize else tm.mbpq.len
  let (microblockList, mbpq) ← tm.mbpq.popMany batchSize.toNat
  pure (microblockList, { tm with mbpq })

/-- The loop of `FillProposal`: the microblocks that are there and the hashes that are
missing. That a microblock is not in the queue any more is only logged. -/
def fillAll : Timemem → List Identifier → Outcome (Timemem × List Timed × Finset Identifier)
  | tm, [] => pure (tm, [], ∅)
  | tm, id :: rest =>
      match tm.microblockMap.lookup id with
      | some mb => do
          let (_, mbpq) ← tm.mbpq.remove mb
          let (tm, existing, missing) ←
            fillAll { tm with mbpq, microblockMap := tm.microblockMap.erase mb.hash } rest
          pure (tm, mb :: existing, missing)
      | none => do
          let (tm, existing, missing) ← fillAll tm rest
          pure (tm, existing, insert id missing)

/-- The microblocks that wait for a payload. -/
def pending (tm : Timemem) : Finset Timed :=
  tm.mbpq.values

/-- The queue is in order, holds microblocks of the map and orders them by their times. -/
structure Sound (tm : Timemem) : Prop where
  queue : tm.mbpq.WellFormed
  keyed : ∀ id mb, tm.microblockMap.lookup id = some mb → mb.hash = id
  known : ∀ mb ∈ tm.pending, tm.microblockMap.lookup mb.hash = some mb
  timed : ∀ mb ∈ tm.pending, tm.mbpq.priority mb = some mb.futureTimestamp

theorem new_sound (bsize memsize : Int) (msize : Nat) : (new bsize memsize msize).Sound where
  queue := PriorityQueue.new_wellFormed
  keyed id mb hLookup := by simp [new] at hLookup
  known mb hMem := by simp [new, pending, PriorityQueue.values] at hMem
  timed mb hMem := by simp [new, pending, PriorityQueue.values] at hMem

namespace Sound

variable {tm : Timemem}

theorem mem_pending (h : tm.Sound) {mb : Timed} : mb ∈ tm.pending ↔ tm.mbpq.priority mb ≠ none :=
  h.queue.mem_values

theorem addMicroblock (h : tm.Sound) (mb : Timed) :
    (tm.addMicroblock mb).Sound ∧ (tm.addMicroblock mb).pending =
      if mb.hash ∈ tm.microblockMap then tm.pending else insert mb tm.pending := by
  by_cases hOld : mb.hash ∈ tm.microblockMap
  · rw [Timemem.addMicroblock, if_pos hOld, if_pos hOld]
    exact ⟨h, rfl⟩
  · have hFresh : mb ∉ tm.pending := fun hMem => hOld (Table.mem_of_lookup (h.known mb hMem))
    have hNone : tm.mbpq.priority mb = none := by
      rw [h.mem_pending, not_not] at hFresh
      exact hFresh
    obtain ⟨hWell, hPriority⟩ := PriorityQueue.insert_spec h.queue mb mb.futureTimestamp
    have hPending : (tm.addMicroblock mb).pending = insert mb tm.pending := by
      ext other
      rw [Finset.mem_insert, h.mem_pending]
      rw [Timemem.addMicroblock, if_neg hOld, pending, hWell.mem_values, hPriority]
      by_cases hSame : other = mb <;> simp [hSame, hNone]
    rw [if_neg hOld]
    refine ⟨⟨?_, ?_, ?_, ?_⟩, hPending⟩
    · rw [Timemem.addMicroblock, if_neg hOld]
      exact hWell
    · intro id found hLookup
      rw [Timemem.addMicroblock, if_neg hOld] at hLookup
      rcases Table.of_lookup_insert hLookup with ⟨rfl, rfl⟩ | hBefore
      · rfl
      · exact h.keyed id found hBefore
    · intro other hMem
      rw [hPending, Finset.mem_insert] at hMem
      rw [Timemem.addMicroblock, if_neg hOld]
      rcases hMem with rfl | hMem
      · exact Finmap.lookup_insert _
      · exact Table.lookup_insert_of_new hOld (h.known other hMem)
    · intro other hMem
      rw [hPending, Finset.mem_insert] at hMem
      rw [Timemem.addMicroblock, if_neg hOld]
      show (tm.mbpq.insert mb mb.futureTimestamp).priority other = _
      rw [hPriority]
      rcases hMem with rfl | hMem
      · simp [hNone]
      · rw [if_neg, h.timed other hMem]
        rintro ⟨rfl, _⟩
        exact hFresh hMem

/-- The next payload: the earliest microblocks, in order. -/
theorem generatePayload (h : tm.Sound) :
    ∃ payload tm', tm.generatePayload = .ok (payload, tm') ∧ tm'.Sound ∧
      tm'.bsize = tm.bsize ∧ tm'.microblockMap = tm.microblockMap ∧
      payload.length = min tm.bsize.toNat tm.pending.card ∧ payload.Nodup ∧
      (∀ mb ∈ payload, mb ∈ tm.pending) ∧ tm'.pending = tm.pending \ payload.toFinset ∧
      payload.Pairwise (fun mb mb' => mb.futureTimestamp ≤ mb'.futureTimestamp) ∧
      ∀ mb ∈ payload, ∀ mb' ∈ tm'.pending, mb.futureTimestamp ≤ mb'.futureTimestamp := by
  have hLen : tm.mbpq.len = tm.pending.card := h.queue.card_values.symm
  generalize hBatch : (if tm.bsize ≤ (tm.mbpq.len : Int) then tm.bsize else tm.mbpq.len) = batchSize
  have hSize : batchSize.toNat = min tm.bsize.toNat tm.pending.card := by
    rw [← hBatch, ← hLen]
    split_ifs <;> omega
  obtain ⟨payload, mbpq, hPop, hLength, hDrains⟩ :=
    PriorityQueue.popMany_spec h.queue (n := batchSize.toNat) (by omega)
  have hStay : ∀ mb ∈ mbpq.values, mb ∈ tm.pending := by
    intro mb hMem
    rw [hDrains.values] at hMem
    exact (Finset.mem_sdiff.mp hMem).1
  refine ⟨payload, { tm with mbpq }, ?_, ⟨hDrains.wellFormed, h.keyed, ?_, ?_⟩, rfl, rfl,
    hLength.trans hSize, hDrains.nodup, hDrains.mem, hDrains.values, ?_, ?_⟩
  · simp only [Timemem.generatePayload, hBatch, hPop, Outcome.ok_bind]
    rfl
  · exact fun mb hMem => h.known mb (hStay mb hMem)
  · intro mb hMem
    show mbpq.priority mb = _
    rw [hDrains.priority mb hMem, h.timed mb (hStay mb hMem)]
  · exact hDrains.sorted.imp_of_mem fun {mb mb'} hMem hMem' hOrder =>
      hOrder _ _ (h.timed mb (hDrains.mem mb hMem)) (h.timed mb' (hDrains.mem mb' hMem'))
  · exact fun mb hMem mb' hMem' => hDrains.first mb hMem mb' hMem' _ _
      (h.timed mb (hDrains.mem mb hMem)) (h.timed mb' (hStay mb' hMem'))

/-- One microblock is taken out of the queue and of the map. -/
theorem withdraw (h : tm.Sound) {id : Identifier} {mb : Timed}
    (hLookup : tm.microblockMap.lookup id = some mb) :
    ∃ result mbpq, tm.mbpq.remove mb = .ok (result, mbpq) ∧
      { tm with mbpq, microblockMap := tm.microblockMap.erase mb.hash }.Sound ∧
      mbpq.values = tm.pending.erase mb := by
  have hKey := h.keyed id mb hLookup
  have hSound : ∀ mbpq : PriorityQueue Timed, mbpq.WellFormed →
      mbpq.values = tm.pending.erase mb →
      (∀ other ∈ mbpq.values, mbpq.priority other = tm.mbpq.priority other) →
      { tm with mbpq, microblockMap := tm.microblockMap.erase mb.hash : Timemem }.Sound := by
    intro mbpq hWell hValues hPriority
    have hStay : ∀ other ∈ mbpq.values, other ≠ mb ∧ other ∈ tm.pending := by
      intro other hMem
      rw [hValues] at hMem
      exact Finset.mem_erase.mp hMem
    refine ⟨hWell, fun id found hFound => h.keyed id found (Table.of_lookup_erase hFound), ?_, ?_⟩
    · intro other hMem
      obtain ⟨hOther, hMem⟩ := hStay other hMem
      show (tm.microblockMap.erase mb.hash).lookup other.hash = _
      rw [Table.lookup_erase_ite, if_neg, h.known other hMem]
      intro hSame
      have hFound := h.known other hMem
      rw [hSame, hKey, hLookup, Option.some.injEq] at hFound
      exact hOther hFound.symm
    · intro other hMem
      show mbpq.priority other = _
      rw [hPriority other hMem, h.timed other (hStay other hMem).2]
  match hPriority : tm.mbpq.priority mb with
  | none =>
      have hFresh : mb ∉ tm.pending := by
        rw [h.mem_pending, not_not]
        exact hPriority
      have hSame : tm.mbpq.values = tm.pending.erase mb := (Finset.erase_eq_of_notMem hFresh).symm
      exact ⟨_, _, PriorityQueue.remove_absent h.queue hPriority,
        hSound _ h.queue hSame fun _ _ => rfl, hSame⟩
  | some pr =>
      obtain ⟨mbpq, hRemove, hRemoves⟩ := PriorityQueue.remove_spec h.queue hPriority
      have hValues := hRemoves.values h.queue
      refine ⟨_, _, hRemove, hSound _ hRemoves.wellFormed hValues ?_, hValues⟩
      intro other hMem
      rw [hValues, Finset.mem_erase] at hMem
      rw [hRemoves.priority, if_neg hMem.1]

end Sound

/-- What `FillProposal` takes and what it misses. A hash that is listed again is missing the
second time. -/
structure Fills (ids : List Identifier) (tm tm' : Timemem) (existing : List Timed)
    (missing : Finset Identifier) : Prop where
  sound : tm'.Sound
  bsize : tm'.bsize = tm.bsize
  pending : tm'.pending = tm.pending \ existing.toFinset
  nodup : existing.Nodup
  existing : ∀ mb, mb ∈ existing ↔ mb.hash ∈ ids ∧ tm.microblockMap.lookup mb.hash = some mb
  missing : ∀ id, id ∈ missing ↔
    id ∈ ids ∧ (tm.microblockMap.lookup id = none ∨ 2 ≤ ids.count id)
  forgotten : ∀ id, tm'.microblockMap.lookup id =
    if id ∈ ids then none else tm.microblockMap.lookup id

theorem Fills.found {id : Identifier} {ids : List Identifier} {tm tm' : Timemem} {mb : Timed}
    {mbpq : PriorityQueue Timed} {existing : List Timed} {missing : Finset Identifier}
    (h : tm.Sound) (hLookup : tm.microblockMap.lookup id = some mb)
    (hValues : mbpq.values = tm.pending.erase mb)
    (hFills : Fills ids { tm with mbpq, microblockMap := tm.microblockMap.erase mb.hash } tm'
      existing missing) : Fills (id :: ids) tm tm' (mb :: existing) missing := by
  have hKey : mb.hash = id := h.keyed id mb hLookup
  have hErased : ∀ other, (tm.microblockMap.erase mb.hash).lookup other =
      if other = id then none else tm.microblockMap.lookup other := by
    intro other
    rw [Table.lookup_erase_ite, hKey]
  constructor
  case sound => exact hFills.sound
  case bsize => exact hFills.bsize
  case pending =>
    have hPending : tm'.pending = mbpq.values \ existing.toFinset := hFills.pending
    rw [hPending, hValues, List.toFinset_cons]
    ext other
    simp only [Finset.mem_sdiff, Finset.mem_erase, Finset.mem_insert]
    tauto
  case nodup =>
    refine List.nodup_cons.mpr ⟨fun hMem => ?_, hFills.nodup⟩
    have := ((hFills.existing mb).mp hMem).2
    rw [hErased, if_pos hKey] at this
    cases this
  case existing =>
    intro other
    rw [List.mem_cons, hFills.existing, List.mem_cons, hErased]
    constructor
    · rintro (rfl | ⟨hMem, hOther⟩)
      · exact ⟨Or.inl hKey, hKey ▸ hLookup⟩
      · split_ifs at hOther
        exact ⟨Or.inr hMem, hOther⟩
    · rintro ⟨hMem, hOther⟩
      by_cases hSame : other.hash = id
      · rw [hSame, hLookup, Option.some.injEq] at hOther
        exact Or.inl hOther.symm
      · rw [if_neg hSame]
        exact Or.inr ⟨hMem.resolve_left hSame, hOther⟩
  case missing =>
    intro other
    rw [hFills.missing, hErased, List.mem_cons, List.count_cons]
    by_cases hSame : other = id
    · subst hSame
      simp only [if_true, hLookup, beq_self_eq_true, true_or, and_true, true_and]
      rw [← List.count_pos_iff]
      simp
    · simp [hSame, Ne.symm hSame]
  case forgotten =>
    intro other
    rw [hFills.forgotten, hErased]
    by_cases hSame : other = id <;> simp [hSame]

theorem Fills.absent {id : Identifier} {ids : List Identifier} {tm tm' : Timemem}
    {existing : List Timed} {missing : Finset Identifier}
    (hLookup : tm.microblockMap.lookup id = none) (hFills : Fills ids tm tm' existing missing) :
    Fills (id :: ids) tm tm' existing (insert id missing) where
  sound := hFills.sound
  bsize := hFills.bsize
  pending := hFills.pending
  nodup := hFills.nodup
  existing mb := by
    rw [hFills.existing, List.mem_cons]
    refine and_congr_left fun hFound => ⟨Or.inr, fun hMem => hMem.resolve_left ?_⟩
    intro hSame
    rw [hSame, hLookup] at hFound
    cases hFound
  missing other := by
    rw [Finset.mem_insert, hFills.missing, List.mem_cons, List.count_cons]
    by_cases hSame : other = id
    · subst hSame
      simp [hLookup]
    · simp [hSame, Ne.symm hSame]
  forgotten other := by
    rw [hFills.forgotten]
    by_cases hSame : other = id
    · subst hSame
      simp [hLookup]
    · simp [hSame]

theorem fillAll_spec {tm : Timemem} (h : tm.Sound) (ids : List Identifier) :
    ∃ tm' existing missing, tm.fillAll ids = .ok (tm', existing, missing) ∧
      Fills ids tm tm' existing missing := by
  induction ids generalizing tm with
  | nil =>
      refine ⟨tm, [], ∅, rfl, h, rfl, by simp, List.nodup_nil, by simp, by simp, by simp⟩
  | cons id rest ih =>
      match hLookup : tm.microblockMap.lookup id with
      | none =>
          obtain ⟨tm', existing, missing, hRest, hFills⟩ := ih h
          refine ⟨tm', existing, insert id missing, ?_, hFills.absent hLookup⟩
          rw [fillAll, hLookup]
          simp only [hRest, Outcome.ok_bind]
          rfl
      | some mb =>
          obtain ⟨result, mbpq, hRemove, hSound, hValues⟩ := h.withdraw hLookup
          obtain ⟨tm', existing, missing, hRest, hFills⟩ := ih hSound
          refine ⟨tm', mb :: existing, missing, ?_, hFills.found h hLookup hValues⟩
          rw [fillAll, hLookup]
          simp only [hRemove, hRest, Outcome.ok_bind]
          rfl

/-- The calls that change the microblocks. -/
inductive Call where
  | addMicroblock (mb : Timed)
  | generatePayload
  | fillProposal (hashList : List Identifier)

/-- The mempool, with the microblocks that it has accepted, handed out in payloads, filled
into proposals, and those of the latter that were still waiting. -/
structure Log where
  store : Timemem
  accepted : List Timed := []
  handed : List Timed := []
  filled : List Timed := []
  withdrawn : List Timed := []

namespace Log

def step (log : Log) : Call → Outcome Log
  | .addMicroblock mb =>
      pure { log with
        store := log.store.addMicroblock mb
        accepted := if mb.hash ∈ log.store.microblockMap then log.accepted
          else log.accepted ++ [mb] }
  | .generatePayload => do
      let (payload, store) ← log.store.generatePayload
      pure { log with store, handed := log.handed ++ payload }
  | .fillProposal hashList => do
      let (store, existing, _) ← log.store.fillAll hashList
      pure { log with
        store
        filled := log.filled ++ existing
        withdrawn := log.withdrawn ++ existing.filter fun mb => mb ∈ log.store.pending }

/-- Where the accepted microblocks are. -/
structure Accounted (bsize : Int) (log : Log) : Prop where
  sound : log.store.Sound
  bsize : log.store.bsize = bsize
  conserved : (log.accepted : Multiset Timed) =
    log.handed + log.withdrawn + log.store.pending.val
  counted : ∀ id, (log.accepted.map Timed.hash).count id =
    (log.filled.map Timed.hash).count id + if id ∈ log.store.microblockMap then 1 else 0

/-- The part of a set that is in a list, and the rest. -/
theorem val_split (pending : Finset Timed) {taken : List Timed} (hNodup : taken.Nodup) :
    pending.val = (taken.filter fun mb => mb ∈ pending : List Timed) +
      (pending \ taken.toFinset).val := by
  have hDisjoint : Disjoint ((taken.filter fun mb => mb ∈ pending : List Timed) : Multiset Timed)
      (pending \ taken.toFinset).val := by
    rw [Multiset.disjoint_left]
    intro mb hTaken hRest
    exact (Finset.mem_sdiff.mp hRest).2 (List.mem_toFinset.mpr (List.mem_filter.mp hTaken).1)
  rw [Multiset.Nodup.ext pending.nodup]
  · intro mb
    rw [Multiset.mem_add, Finset.mem_val, Finset.mem_val, Finset.mem_sdiff, Multiset.mem_coe,
      List.mem_filter, List.mem_toFinset]
    by_cases hMem : mb ∈ taken <;> simp [hMem]
  · exact Multiset.nodup_add.mpr ⟨hNodup.filter _, Finset.nodup _, hDisjoint⟩

variable {bsize : Int} {log : Log}

theorem start_accounted (bsize memsize : Int) (msize : Nat) :
    Accounted bsize { store := .new bsize memsize msize } where
  sound := new_sound bsize memsize msize
  bsize := rfl
  conserved := by simp [new, pending, PriorityQueue.values]
  counted id := by simp [new, Finmap.notMem_empty]

theorem Accounted.addMicroblock (h : log.Accounted bsize) (mb : Timed) :
    ∃ log', log.step (.addMicroblock mb) = .ok log' ∧ log'.Accounted bsize := by
  obtain ⟨hSound, hPending⟩ := h.sound.addMicroblock mb
  have hSize : (log.store.addMicroblock mb).bsize = bsize := by
    rw [Timemem.addMicroblock]
    split_ifs <;> exact h.bsize
  refine ⟨_, rfl, hSound, hSize, ?_, fun id => ?_⟩
  · dsimp only
    rw [hPending]
    by_cases hOld : mb.hash ∈ log.store.microblockMap
    · rw [if_pos hOld, if_pos hOld, h.conserved]
    · have hFresh : mb ∉ log.store.pending := fun hMem =>
        hOld (Table.mem_of_lookup (h.sound.known mb hMem))
      rw [if_neg hOld, if_neg hOld, Finset.insert_val_of_notMem hFresh, Multiset.add_cons,
        ← h.conserved, ← Multiset.coe_add, Multiset.coe_singleton, add_comm]
      rfl
  · have hBefore := h.counted id
    dsimp only
    by_cases hOld : mb.hash ∈ log.store.microblockMap
    · rw [if_pos hOld, Timemem.addMicroblock, if_pos hOld]
      exact hBefore
    · rw [if_neg hOld, Timemem.addMicroblock, if_neg hOld, List.map_append, List.count_append, hBefore]
      by_cases hSame : id = mb.hash
      · subst hSame
        simp [hOld]
      · simp [hSame, Ne.symm hSame]

theorem Accounted.generatePayload (h : log.Accounted bsize) :
    ∃ log', log.step .generatePayload = .ok log' ∧ log'.Accounted bsize := by
  obtain ⟨payload, store, hGenerate, hSound, hSize, hMap, _, hNodup, hMem, hPending, _⟩ :=
    h.sound.generatePayload
  refine ⟨_, by rw [step, hGenerate, Outcome.ok_bind]; rfl, hSound, hSize.trans h.bsize, ?_,
    fun id => ?_⟩
  · have hAll : payload.filter (fun mb => mb ∈ log.store.pending) = payload :=
      List.filter_eq_self.mpr fun mb hIn => decide_eq_true (hMem mb hIn)
    dsimp only
    rw [h.conserved, val_split log.store.pending hNodup, hAll, ← hPending, ← Multiset.coe_add]
    ac_rfl
  · dsimp only
    rw [hMap]
    exact h.counted id

theorem Accounted.fillProposal (h : log.Accounted bsize) (hashList : List Identifier) :
    ∃ log', log.step (.fillProposal hashList) = .ok log' ∧ log'.Accounted bsize := by
  obtain ⟨store, existing, missing, hFill, hFills⟩ := Timemem.fillAll_spec h.sound hashList
  refine ⟨_, by rw [step, hFill, Outcome.ok_bind]; rfl, hFills.sound, hFills.bsize.trans h.bsize,
    ?_, fun id => ?_⟩
  · dsimp only
    rw [h.conserved, val_split log.store.pending hFills.nodup, ← hFills.pending,
      ← Multiset.coe_add]
    ac_rfl
  · have hHashes : (existing.map Timed.hash).Nodup := by
      refine List.Nodup.map_on (fun mb hMem mb' hMem' hSame => ?_) hFills.nodup
      have hFound := ((hFills.existing mb).mp hMem).2
      rw [hSame, ((hFills.existing mb').mp hMem').2, Option.some.injEq] at hFound
      exact hFound.symm
    have hListed : id ∈ existing.map Timed.hash ↔
        id ∈ hashList ∧ id ∈ log.store.microblockMap := by
      rw [List.mem_map]
      constructor
      · rintro ⟨mb, hMem, rfl⟩
        obtain ⟨hIn, hFound⟩ := (hFills.existing mb).mp hMem
        exact ⟨hIn, Table.mem_of_lookup hFound⟩
      · rintro ⟨hIn, hKnown⟩
        obtain ⟨mb, hFound⟩ := Finmap.mem_iff.mp hKnown
        have hKey := h.sound.keyed id mb hFound
        exact ⟨mb, (hFills.existing mb).mpr ⟨hKey ▸ hIn, hKey ▸ hFound⟩, hKey⟩
    have hKept : id ∈ store.microblockMap ↔ id ∉ hashList ∧ id ∈ log.store.microblockMap := by
      rw [← Finmap.lookup_isSome, hFills.forgotten, ← Finmap.lookup_isSome]
      by_cases hIn : id ∈ hashList <;> simp [hIn]
    dsimp only
    rw [h.counted id, List.map_append, List.count_append, hHashes.count, Nat.add_assoc]
    congr 1
    simp only [hListed, hKept]
    by_cases hIn : id ∈ hashList <;> simp [hIn]

theorem Accounted.step (h : log.Accounted bsize) (call : Call) :
    ∃ log', log.step call = .ok log' ∧ log'.Accounted bsize := by
  cases call with
  | addMicroblock mb => exact h.addMicroblock mb
  | generatePayload => exact h.generatePayload
  | fillProposal hashList => exact h.fillProposal hashList

theorem run_accounted (bsize memsize : Int) (msize : Nat) (calls : List Call) :
    ∃ log, run step { store := .new bsize memsize msize } calls = .ok log ∧ log.Accounted bsize :=
  run_returns (fun _ call h => h.step call) (start_accounted bsize memsize msize) calls

/-- Whatever is called on a new mempool, every call returns, and the next payload has the
earliest microblocks that wait, `bsize` of them if there are so many, in the order of their
times. -/
theorem run_payload_earliest (bsize memsize : Int) (msize : Nat) (calls : List Call) :
    ∃ log, run step { store := .new bsize memsize msize } calls = .ok log ∧
      ∃ payload store, log.store.generatePayload = .ok (payload, store) ∧
        payload.length = min bsize.toNat log.store.pending.card ∧ payload.Nodup ∧
        (∀ mb ∈ payload, mb ∈ log.store.pending) ∧
        store.pending = log.store.pending \ payload.toFinset ∧
        payload.Pairwise (fun mb mb' => mb.futureTimestamp ≤ mb'.futureTimestamp) ∧
        ∀ mb ∈ payload, ∀ mb' ∈ store.pending, mb.futureTimestamp ≤ mb'.futureTimestamp := by
  obtain ⟨log, hRun, hLog⟩ := run_accounted bsize memsize msize calls
  obtain ⟨payload, store, hGenerate, _, _, _, hRest⟩ := hLog.sound.generatePayload
  rw [hLog.bsize] at hRest
  exact ⟨log, hRun, payload, store, hGenerate, hRest⟩

/-- `FillProposal` returns after any calls. It takes the listed microblocks of the map, each
once; missing are the hashes that are not there, and also those that are listed twice, though
their microblocks were found. -/
theorem run_fillProposal_splits (bsize memsize : Int) (msize : Nat) (calls : List Call)
    (hashList : List Identifier) :
    ∃ log, run step { store := .new bsize memsize msize } calls = .ok log ∧
      ∃ store existing missing, log.store.fillAll hashList = .ok (store, existing, missing) ∧
        existing.Nodup ∧ store.pending = log.store.pending \ existing.toFinset ∧
        (∀ mb, mb ∈ existing ↔
          mb.hash ∈ hashList ∧ log.store.microblockMap.lookup mb.hash = some mb) ∧
        ∀ id, id ∈ missing ↔
          id ∈ hashList ∧ (log.store.microblockMap.lookup id = none ∨ 2 ≤ hashList.count id) := by
  obtain ⟨log, hRun, hLog⟩ := run_accounted bsize memsize msize calls
  obtain ⟨store, existing, missing, hFill, hFills⟩ := Timemem.fillAll_spec hLog.sound hashList
  exact ⟨log, hRun, store, existing, missing, hFill, hFills.nodup, hFills.pending, hFills.existing,
    hFills.missing⟩

/-- Every microblock that was accepted was handed out in a payload, was taken by
`FillProposal` while it waited, or still waits, and only one of these for every time it was
accepted. A hash is handed out at most once more than it was filled into proposals. -/
theorem run_conserved (bsize memsize : Int) (msize : Nat) (calls : List Call) :
    ∃ log, run step { store := .new bsize memsize msize } calls = .ok log ∧
      (log.accepted : Multiset Timed) = log.handed + log.withdrawn + log.store.pending.val ∧
      ∀ id, (log.handed.map Timed.hash).count id ≤ (log.filled.map Timed.hash).count id + 1 := by
  obtain ⟨log, hRun, hLog⟩ := run_accounted bsize memsize msize calls
  refine ⟨log, hRun, hLog.conserved, fun id => ?_⟩
  have hCounted := hLog.counted id
  have hHanded : (log.handed.map Timed.hash).count id ≤ (log.accepted.map Timed.hash).count id := by
    rw [← Multiset.coe_count, ← Multiset.coe_count, ← Multiset.map_coe, ← Multiset.map_coe,
      hLog.conserved, Multiset.map_add, Multiset.map_add, Multiset.count_add, Multiset.count_add]
    omega
  split_ifs at hCounted <;> omega

end Log
end Timemem
end Bamboo
