import Bamboo.Mempool.AckMem
import Mathlib.Data.List.Perm.Basic

/-! What each call does to the mempool, stated once per call. Everything about
runs of the mempool is derived from these case analyses. -/
namespace Bamboo
namespace AckMem

open Library

/-- A microblock and the nodes whose acks are buffered, counted one by one. -/
def withBuffered (am : AckMem) (h : Identifier) (pm : PendingMicroblock) : PendingMicroblock :=
  ((am.ackBuffer.lookup h).getD ∅).keys.foldl .count pm

/-- A fresh microblock becomes pending or, when enough acks were buffered, stable. -/
theorem addFresh_cases (am : AckMem) (mb : MicroBlock) (pm : PendingMicroblock) :
    am.addFresh mb pm = (am.store mb).setPending mb.hash (am.withBuffered mb.hash pm) ∨
      am.threshhold ≤ (am.withBuffered mb.hash pm).ackNum ∧
        (mb.hash ∈ am.stableMBs ∧ am.addFresh mb pm = am.store mb ∨
          mb.hash ∉ am.stableMBs ∧
            am.addFresh mb pm = ((am.store mb).dropPending mb.hash).markStable mb) := by
  unfold addFresh withBuffered
  cases hBuffer : am.ackBuffer.lookup mb.hash with
  | none => exact Or.inl rfl
  | some buffer =>
      simp only [Option.getD_some]
      by_cases hEnough : am.threshhold ≤ (buffer.keys.foldl PendingMicroblock.count pm).ackNum
      · rw [if_pos hEnough]
        by_cases hStable : mb.hash ∈ am.stableMBs
        · rw [if_pos hStable]
          exact Or.inr ⟨hEnough, Or.inl ⟨hStable, rfl⟩⟩
        · rw [if_neg hStable]
          exact Or.inr ⟨hEnough, Or.inr ⟨hStable, rfl⟩⟩
      · rw [if_neg hEnough]
        exact Or.inl rfl

/-- `AddMicroblock` keeps real content, replaces a placeholder, or adds what was
not known. -/
theorem addMicroblock_cases {am am' : AckMem} {mb : MicroBlock}
    (h : am.addMicroblock mb = .ok am') :
    (∃ old, am.microblockMap.lookup mb.hash = some old ∧ old.isFake = false ∧ am' = am) ∨
      (∃ old, am.microblockMap.lookup mb.hash = some old ∧ old.isFake = true ∧
        am' = am.store mb) ∨
      (am.microblockMap.lookup mb.hash = none ∧
        ∃ inGroup, am' = am.addFresh mb (.new mb inGroup)) := by
  unfold addMicroblock at h
  cases hOld : am.microblockMap.lookup mb.hash with
  | some old =>
      rw [hOld] at h
      have hResult := Outcome.pure_eq_ok.mp h
      cases hFake : old.isFake with
      | false => exact Or.inl ⟨old, rfl, hFake, by simpa [hFake] using hResult.symm⟩
      | true => exact Or.inr (Or.inl ⟨old, rfl, hFake, by simpa [hFake] using hResult.symm⟩)
  | none =>
      rw [hOld] at h
      obtain ⟨inGroup, _, hDone⟩ := Outcome.bind_eq_ok.mp h
      exact Or.inr (Or.inr ⟨rfl, inGroup, (Outcome.pure_eq_ok.mp hDone).symm⟩)

/-- `AddAck` updates a pending microblock, which may make it stable, or only
touches the buffer. -/
theorem addAck_cases (cfg : Settings) (am : AckMem) (ack : Ack) :
    (∃ target, am.pendingMicroblocks.lookup ack.microblockID = some target ∧
      (am.addAck cfg ack = am.setPending ack.microblockID (target.addAck cfg ack) ∨
        am.threshhold ≤ (target.addAck cfg ack).ackNum ∧
          (target.addAck cfg ack).microblock.hash ∉ am.stableMBs ∧
          am.addAck cfg ack = (am.setPending ack.microblockID (target.addAck cfg ack)).announce
            ack.microblockID (target.addAck cfg ack))) ∨
      (am.pendingMicroblocks.lookup ack.microblockID = none ∧
        (am.addAck cfg ack = am ∨ am.addAck cfg ack = am.bufferAck ack)) := by
  unfold addAck
  cases hTarget : am.pendingMicroblocks.lookup ack.microblockID with
  | none =>
      refine Or.inr ⟨rfl, ?_⟩
      cases ack.outGroup with
      | true => exact Or.inl rfl
      | false => exact Or.inr rfl
  | some target =>
      refine Or.inl ⟨target, rfl, ?_⟩
      dsimp only
      by_cases hReached : am.threshhold ≤ (target.addAck cfg ack).ackNum ∧
          (target.addAck cfg ack).microblock.hash ∉ am.stableMBs
      · rw [if_pos hReached]
        exact Or.inr ⟨hReached.1, hReached.2, rfl⟩
      · rw [if_neg hReached]
        exact Or.inl rfl

/-- Counting an ack leaves the microblock alone. -/
@[simp] theorem microblock_addAck (cfg : Settings) (pm : PendingMicroblock) (ack : Ack) :
    (pm.addAck cfg ack).microblock = pm.microblock := by
  unfold PendingMicroblock.addAck
  split <;> rfl

@[simp] theorem microblock_foldl_count (pm : PendingMicroblock) (nodes : List NodeID) :
    (nodes.foldl PendingMicroblock.count pm).microblock = pm.microblock := by
  induction nodes generalizing pm with
  | nil => rfl
  | cons node nodes ih => simp [ih, PendingMicroblock.count]

/-- `AddStable` for a microblock that was not stable. When pending microblocks
are known, it is queued as it is, as a placeholder, or not at all. -/
theorem addStable_cases {am am' : AckMem} {now : Int} {stable : Stable}
    (hKnown : ∀ pm, am.pendingMicroblocks.lookup stable.microblockID = some pm →
      stable.microblockID ∈ am.microblockMap)
    (h : am.addStable now stable = .ok am') :
    (stable.microblockID ∈ am.stableMBs ∧ am' = am) ∨
      (stable.microblockID ∉ am.stableMBs ∧
        ((∃ target, am.pendingMicroblocks.lookup stable.microblockID = some target ∧
            am' = ((am.note stable).dropPending stable.microblockID).markStable
              target.microblock) ∨
          (am.pendingMicroblocks.lookup stable.microblockID = none ∧
            stable.microblockID ∈ am.microblockMap ∧ am' = am.note stable) ∨
          (am.pendingMicroblocks.lookup stable.microblockID = none ∧
            stable.microblockID ∉ am.microblockMap ∧ ∃ txns,
              fakeTxns now stable.txNums = .ok txns ∧
              am' = ((am.note stable).store (announced stable txns)).markStable
                (announced stable txns)))) := by
  unfold addStable at h
  by_cases hStable : stable.microblockID ∈ am.stableMBs
  · rw [if_pos hStable] at h
    exact Or.inl ⟨hStable, (Outcome.pure_eq_ok.mp h).symm⟩
  rw [if_neg hStable] at h
  refine Or.inr ⟨hStable, ?_⟩
  cases hTarget : am.pendingMicroblocks.lookup stable.microblockID with
  | some target =>
      simp only [hTarget] at h
      rw [if_pos (hKnown target hTarget)] at h
      exact Or.inl ⟨target, rfl, (Outcome.pure_eq_ok.mp h).symm⟩
  | none =>
      simp only [hTarget] at h
      by_cases hMap : stable.microblockID ∈ am.microblockMap
      · rw [if_pos hMap] at h
        exact Or.inr (Or.inl ⟨rfl, hMap, (Outcome.pure_eq_ok.mp h).symm⟩)
      · rw [if_neg hMap] at h
        obtain ⟨txns, hTxns, hDone⟩ := Outcome.bind_eq_ok.mp h
        exact Or.inr (Or.inr ⟨rfl, hMap, txns, hTxns, (Outcome.pure_eq_ok.mp hDone).symm⟩)

/-- A batch is the front part of the queue. -/
theorem takeBatch_spec (cfg : Settings) (count : Nat) (am : AckMem) (payload : Payload) :
    (am.takeBatch cfg count payload).1 =
        { am with stableMicroblocks := am.stableMicroblocks.drop count } ∧
      (am.takeBatch cfg count payload).2.microblockList =
        payload.microblockList ++ am.stableMicroblocks.take count := by
  induction count generalizing am payload with
  | zero => simp [takeBatch]
  | succ count ih =>
      unfold takeBatch front
      cases hQueue : am.stableMicroblocks with
      | nil =>
          refine ⟨?_, by simp⟩
          cases am
          simpa using hQueue
      | cons mb rest =>
          have hNext := ih { am with stableMicroblocks := rest }
          simp only [List.drop_succ_cons, List.take_succ_cons]
          refine ⟨(hNext _).1, ?_⟩
          rw [(hNext _).2]
          simp

/-- What the batch says about each of its microblocks. -/
theorem takeBatch_lists (cfg : Settings) (count : Nat) (am : AckMem) (payload : Payload) :
    (am.takeBatch cfg count payload).2.ackNode =
        payload.ackNode ++ (am.stableMicroblocks.take count).map am.generateAckNodeList ∧
      (am.takeBatch cfg count payload).2.txNums =
        payload.txNums ++ (am.stableMicroblocks.take count).map fun mb => (mb.txns.length : Int) := by
  induction count generalizing am payload with
  | zero => simp [takeBatch]
  | succ count ih =>
      unfold takeBatch front
      cases hQueue : am.stableMicroblocks with
      | nil => simp
      | cons mb rest =>
          have hNext := ih { am with stableMicroblocks := rest }
          simp only [List.take_succ_cons, List.map_cons]
          refine ⟨?_, ?_⟩
          · rw [(hNext _).1, List.append_assoc]
            rfl
          · rw [(hNext _).2, List.append_assoc]
            rfl

/-- The number of microblocks in the next payload. -/
def batchSize (am : AckMem) : Nat :=
  (min am.bsize am.stableMicroblocks.length).toNat

/-- The queue in the order in which the next payload takes from it. -/
def arranged (cfg : Settings) (sort : GroupSort) (am : AckMem) : List MicroBlock :=
  if cfg.broadcastByGroup then sort.sort am.stableMicroblocks else am.stableMicroblocks

theorem arranged_perm (cfg : Settings) (sort : GroupSort) (am : AckMem) :
    (am.arranged cfg sort).Perm am.stableMicroblocks := by
  unfold arranged
  split
  · exact sort.perm _
  · exact List.Perm.refl _

/-- `GeneratePayload` takes a batch off the arranged queue. -/
theorem generatePayload_eq {cfg : Settings} (hWorker : cfg.onlyworker = false) (sort : GroupSort)
    (am : AckMem) :
    am.generatePayload cfg sort =
      .ok (takeBatch cfg am.batchSize { am with stableMicroblocks := am.arranged cfg sort } {}) := by
  have hSize : ∀ queue : List MicroBlock, queue.length = am.stableMicroblocks.length →
      (if am.bsize ≤ queue.length then am.bsize else queue.length).toNat = am.batchSize := by
    intro queue hLength
    rw [hLength, batchSize, min_def]
  unfold generatePayload arranged
  rw [if_neg (by simp [hWorker])]
  cases hGroup : cfg.broadcastByGroup with
  | true =>
      simp only [if_true]
      rw [hSize _ (sort.perm _).length_eq]
      rfl
  | false =>
      simp only [Bool.false_eq_true, if_false]
      rw [hSize _ rfl]
      rfl

/-- `GeneratePayload` moves the front part of a rearrangement of the queue into
the payload. -/
theorem generatePayload_spec {cfg : Settings} {sort : GroupSort} {am am' : AckMem}
    {payload : Payload} (h : am.generatePayload cfg sort = .ok (am', payload)) :
    cfg.onlyworker = false ∧ ∃ queue : List MicroBlock, queue.Perm am.stableMicroblocks ∧
      am' = { am with stableMicroblocks := queue.drop am.batchSize } ∧
      payload.microblockList = queue.take am.batchSize := by
  cases hWorker : cfg.onlyworker with
  | true =>
      unfold generatePayload at h
      rw [if_pos hWorker] at h
      cases h
  | false =>
      rw [generatePayload_eq hWorker] at h
      have hSpec := takeBatch_spec cfg am.batchSize
        { am with stableMicroblocks := am.arranged cfg sort } {}
      rw [Outcome.pure_eq_ok.mp h] at hSpec
      refine ⟨rfl, am.arranged cfg sort, am.arranged_perm cfg sort, ?_⟩
      simpa using hSpec

/-- Removing several identifiers. -/
def forgetAll (am : AckMem) (hs : List Identifier) : AckMem :=
  hs.foldl forget am

/-- Removing identifiers touches only the pending microblocks and the queue. -/
theorem forgetAll_spec (am : AckMem) (hs : List Identifier) :
    ∃ pending queue,
      am.forgetAll hs =
        { am with pendingMicroblocks := pending, stableMicroblocks := queue } ∧
      (∀ h pm, pending.lookup h = some pm →
        am.pendingMicroblocks.lookup h = some pm ∧ h ∉ hs) ∧
      queue.Sublist am.stableMicroblocks := by
  induction hs generalizing am with
  | nil => exact ⟨_, _, rfl, fun h pm hLookup => ⟨hLookup, List.not_mem_nil⟩, List.Sublist.refl _⟩
  | cons first rest ih =>
      obtain ⟨pending, queue, hEq, hPending, hQueue⟩ := ih (am.forget first)
      refine ⟨pending, queue, hEq, fun h pm hLookup => ?_, hQueue.trans List.eraseP_sublist⟩
      obtain ⟨hOld, hRest⟩ := hPending h pm hLookup
      have hErased : (am.pendingMicroblocks.erase first).lookup h = some pm := hOld
      rw [Table.lookup_erase_ite] at hErased
      by_cases hFirst : h = first
      · simp [hFirst] at hErased
      · rw [if_neg hFirst] at hErased
        exact ⟨hErased, by simp [hFirst, hRest]⟩

/-- Where a fetched microblock comes from: it is stored here, or it is a
placeholder that names no holders. -/
def FetchedFrom (am : AckMem) (h : Identifier) (mb : MicroBlock) : Prop :=
  am.microblockMap.lookup h = some mb ∨
    am.microblockMap.lookup h = none ∧ mb.hash = h ∧ mb.isFake = true ∧ mb.generateNodeList = ∅

/-- A number of transactions for which a slice can be made. -/
def Allocates (count : Int) : Prop := 0 ≤ count ∧ count ≤ maxTxns

theorem fakeTxns_eq_ok {now count : Int} {txns : List Transaction} :
    fakeTxns now count = .ok txns ↔
      Allocates count ∧ txns = List.replicate count.toNat { timestamp := now } := by
  unfold fakeTxns Allocates
  by_cases hCount : count < 0 ∨ maxTxns < count
  · rw [if_pos hCount]
    constructor
    · intro h
      cases h
    · rintro ⟨hSome, _⟩
      omega
  · rw [if_neg hCount, Outcome.pure_eq_ok]
    exact ⟨fun h => ⟨by omega, h.symm⟩, fun h => h.2.symm⟩

/-- The placeholder that `FetchMB` makes from what a proposal says. -/
def placeholder (now : Int) (h : Identifier) (count groupId timestamp : Int) : MicroBlock :=
  { isFake := true, hash := h, groupId, timestamp,
    txns := List.replicate count.toNat { timestamp := now } }

/-- What is fetched for an identifier: the stored record, or a placeholder from the
three lists of the proposal at that position. -/
theorem fetched_eq_ok {now : Int} {p : Proposal} {am : AckMem} {index : Nat} {h : Identifier}
    {mb : MicroBlock} :
    am.fetched now p index h = .ok mb ↔
      am.microblockMap.lookup h = some mb ∨
        am.microblockMap.lookup h = none ∧ ∃ count groupId timestamp,
          p.txNums[index]? = some count ∧ Allocates count ∧ p.groupList[index]? = some groupId ∧
            p.mbTime[index]? = some timestamp ∧ mb = placeholder now h count groupId timestamp := by
  unfold fetched
  cases hStored : am.microblockMap.lookup h with
  | some stored => simp [Outcome.pure_eq_ok]
  | none =>
      simp only [Outcome.bind_eq_ok, Outcome.index_eq_ok, fakeTxns_eq_ok, Outcome.pure_eq_ok,
        reduceCtorEq, true_and, false_or]
      constructor
      · rintro ⟨count, hCount, _, ⟨hSome, rfl⟩, groupId, hGroup, timestamp, hTime, rfl⟩
        exact ⟨count, groupId, timestamp, hCount, hSome, hGroup, hTime, rfl⟩
      · rintro ⟨count, groupId, timestamp, hCount, hSome, hGroup, hTime, rfl⟩
        exact ⟨count, hCount, _, ⟨hSome, rfl⟩, groupId, hGroup, timestamp, hTime, rfl⟩

theorem fetched_spec {now : Int} {p : Proposal} {am : AckMem} {index : Nat} {h : Identifier}
    {mb : MicroBlock} (hFetched : am.fetched now p index h = .ok mb) : am.FetchedFrom h mb := by
  rcases fetched_eq_ok.mp hFetched with hStored | ⟨hNone, _, _, _, _, _, _, _, rfl⟩
  · exact Or.inl hStored
  · exact Or.inr ⟨hNone, rfl, rfl, rfl⟩

/-- The loop of `FetchMB` removes the identifiers and fetches each with its position. -/
theorem fetchAll_eq_ok {now : Int} {p : Proposal} {am am' : AckMem} {index : Nat}
    {hs : List Identifier} {mbs : List MicroBlock} :
    fetchAll now p am index hs = .ok (am', mbs) ↔
      am' = am.forgetAll hs ∧
        List.Forall₂ (fun entry mb => am.fetched now p entry.2 entry.1 = .ok mb)
          (hs.zipIdx index) mbs := by
  induction hs generalizing am index mbs with
  | nil =>
      simp only [fetchAll, Outcome.pure_eq_ok, List.zipIdx_nil, List.forall₂_nil_left_iff,
        Prod.mk.injEq]
      exact and_congr eq_comm eq_comm
  | cons first rest ih =>
      constructor
      · intro h
        obtain ⟨mb, hMb, hRest⟩ := Outcome.bind_eq_ok.mp h
        obtain ⟨⟨last, later⟩, hLater, hDone⟩ := Outcome.bind_eq_ok.mp hRest
        cases Outcome.pure_eq_ok.mp hDone
        obtain ⟨hMem, hFetched⟩ := ih.mp hLater
        exact ⟨hMem, .cons hMb hFetched⟩
      · rintro ⟨hMem, hFetched⟩
        rw [List.zipIdx_cons] at hFetched
        cases hFetched with
        | cons hMb hLater =>
            exact Outcome.bind_eq_ok.mpr ⟨_, hMb,
              Outcome.bind_eq_ok.mpr ⟨(am', _), ih.mpr ⟨hMem, hLater⟩, rfl⟩⟩

theorem fetchMB_eq_ok {now : Int} {p : Proposal} {am am' : AckMem} {block : PendingBlock} :
    am.fetchMB now p = .ok (am', block) ↔
      am' = am.forgetAll p.hashList ∧
        block = { payload := { microblockList := block.payload.microblockList }, proposal := p } ∧
        List.Forall₂ (fun entry mb => am.fetched now p entry.2 entry.1 = .ok mb)
          p.hashList.zipIdx block.payload.microblockList := by
  constructor
  · intro h
    obtain ⟨⟨mem, mbs⟩, hAll, hDone⟩ := Outcome.bind_eq_ok.mp h
    cases Outcome.pure_eq_ok.mp hDone
    obtain ⟨hMem, hFetched⟩ := fetchAll_eq_ok.mp hAll
    exact ⟨hMem, rfl, hFetched⟩
  · rintro ⟨hMem, hBlock, hFetched⟩
    rw [hBlock]
    exact Outcome.bind_eq_ok.mpr ⟨_, fetchAll_eq_ok.mpr ⟨hMem, hFetched⟩, rfl⟩

/-- `FetchMB` removes the proposal's identifiers and finds a microblock for each. -/
theorem fetchAll_spec {now : Int} {p : Proposal} {am am' : AckMem} {index : Nat}
    {hs : List Identifier} {mbs : List MicroBlock}
    (h : fetchAll now p am index hs = .ok (am', mbs)) :
    am' = am.forgetAll hs ∧ List.Forall₂ am.FetchedFrom hs mbs := by
  obtain ⟨hMem, hFetched⟩ := fetchAll_eq_ok.mp h
  refine ⟨hMem, ?_⟩
  have hFrom : List.Forall₂ (fun (entry : Identifier × Nat) mb => am.FetchedFrom entry.1 mb)
      (hs.zipIdx index) mbs := hFetched.imp fun _ _ => fetched_spec
  rw [← List.forall₂_map_left_iff, List.zipIdx_map_fst] at hFrom
  exact hFrom

theorem fetchMB_spec {now : Int} {p : Proposal} {am am' : AckMem} {block : PendingBlock}
    (h : am.fetchMB now p = .ok (am', block)) :
    am' = am.forgetAll p.hashList ∧
      List.Forall₂ am.FetchedFrom p.hashList block.payload.microblockList := by
  obtain ⟨⟨mem, mbs⟩, hAll, hDone⟩ := Outcome.bind_eq_ok.mp h
  cases Outcome.pure_eq_ok.mp hDone
  exact fetchAll_spec hAll

/-- What was made of the configuration when the mempool was created. -/
structure SameSetup (am am' : AckMem) : Prop where
  id : am'.id = am.id
  gm : am'.gm = am.gm
  bsize : am'.bsize = am.bsize
  memsize : am'.memsize = am.memsize
  threshhold : am'.threshhold = am.threshhold

theorem addMicroblock_setup {am am' : AckMem} {mb : MicroBlock}
    (h : am.addMicroblock mb = .ok am') : am.SameSetup am' := by
  rcases addMicroblock_cases h with ⟨_, _, _, rfl⟩ | ⟨_, _, _, rfl⟩ | ⟨_, inGroup, rfl⟩
  · exact ⟨rfl, rfl, rfl, rfl, rfl⟩
  · exact ⟨rfl, rfl, rfl, rfl, rfl⟩
  · rcases addFresh_cases am mb (.new mb inGroup) with hEq | ⟨_, ⟨_, hEq⟩ | ⟨_, hEq⟩⟩ <;>
      exact hEq ▸ ⟨rfl, rfl, rfl, rfl, rfl⟩

theorem addAck_setup (cfg : Settings) (am : AckMem) (ack : Ack) :
    am.SameSetup (am.addAck cfg ack) := by
  rcases addAck_cases cfg am ack with ⟨_, _, hEq | ⟨_, _, hEq⟩⟩ | ⟨_, hEq | hEq⟩ <;>
    rw [hEq] <;> exact ⟨rfl, rfl, rfl, rfl, rfl⟩

theorem addStable_setup {am am' : AckMem} {now : Int} {stable : Stable}
    (hKnown : ∀ pm, am.pendingMicroblocks.lookup stable.microblockID = some pm →
      stable.microblockID ∈ am.microblockMap)
    (h : am.addStable now stable = .ok am') : am.SameSetup am' := by
  rcases addStable_cases hKnown h with ⟨_, rfl⟩ |
    ⟨_, ⟨_, _, rfl⟩ | ⟨_, _, rfl⟩ | ⟨_, _, _, _, rfl⟩⟩ <;> exact ⟨rfl, rfl, rfl, rfl, rfl⟩

theorem generatePayload_setup {cfg : Settings} {sort : GroupSort} {am am' : AckMem}
    {payload : Payload} (h : am.generatePayload cfg sort = .ok (am', payload)) :
    am.SameSetup am' := by
  obtain ⟨_, _, _, rfl, _⟩ := generatePayload_spec h
  exact ⟨rfl, rfl, rfl, rfl, rfl⟩

theorem forgetAll_setup (am : AckMem) (hs : List Identifier) :
    am.SameSetup (am.forgetAll hs) := by
  obtain ⟨_, _, hEq, _, _⟩ := forgetAll_spec am hs
  exact hEq ▸ ⟨rfl, rfl, rfl, rfl, rfl⟩

theorem fillAll_spec (am : AckMem) (hs : List Identifier) :
    (am.fillAll hs).1 = am.forgetAll hs := by
  induction hs generalizing am with
  | nil => rfl
  | cons h rest ih => exact ih (am.forget h)

end AckMem
end Bamboo
