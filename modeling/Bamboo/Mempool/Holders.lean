import Bamboo.Mempool.Records
import Bamboo.Mempool.Stability

/-! What a mempool may rely on about the other nodes. A ledger says who made a
microblock and who has its content; it only grows. A mempool is grounded in a
ledger when the nodes it counts are holders and what it calls stable has enough
of them. -/
namespace Bamboo

open Library

structure Ledger where
  creator : Table Identifier NodeID
  holders : Identifier → Finset NodeID

namespace Ledger

/-- Neither creators nor holders are lost. -/
structure Grows (ledger ledger' : Ledger) : Prop where
  creator : ∀ h c, ledger.creator.lookup h = some c → ledger'.creator.lookup h = some c
  holders : ∀ h, ledger.holders h ⊆ ledger'.holders h

/-- An announcement that is right: enough holders, and it names only holders. -/
structure Supports (ledger : Ledger) (threshhold : Int) (stable : Stable) : Prop where
  enough : threshhold ≤ (ledger.holders stable.microblockID).card
  named : stable.ackNodeList ⊆ ledger.holders stable.microblockID

variable {ledger ledger' : Ledger}

theorem Grows.card_le (h : ledger.Grows ledger') {threshhold : Int} {hash : Identifier}
    (hEnough : threshhold ≤ (ledger.holders hash).card) :
    threshhold ≤ (ledger'.holders hash).card := by
  have hCard := Finset.card_le_card (h.holders hash)
  omega

theorem Supports.mono {threshhold : Int} {stable : Stable}
    (h : ledger.Supports threshhold stable) (hGrows : ledger.Grows ledger') :
    ledger'.Supports threshhold stable :=
  ⟨hGrows.card_le h.enough, h.named.trans (hGrows.holders _)⟩

end Ledger

namespace AckMem

structure Grounded (ledger : Ledger) (am : AckMem) : Prop where
  created : ∀ h pm, am.pendingMicroblocks.lookup h = some pm → h ∈ ledger.creator
  backed : ∀ h pm, am.pendingMicroblocks.lookup h = some pm →
    pm.Backed (ledger.holders h) ∧ pm.microblock.sender ∈ ledger.holders h
  available : ∀ h ∈ am.stableMBs, am.threshhold ≤ (ledger.holders h).card
  buffered : ∀ h ∈ am.ackBuffer, h ∈ am.microblockMap
  inert : ∀ mb, am.Record mb → mb.Inert am.id
  announced : ∀ stable ∈ am.outbox, ledger.Supports am.threshhold stable

/-- Whose acks are in the entry of a pending microblock. -/
def ackMapOf (am : AckMem) (h : Identifier) : Finset NodeID :=
  match am.pendingMicroblocks.lookup h with
  | some pm => pm.ackMap
  | none => ∅

theorem mem_ackMapOf {am : AckMem} {h : Identifier} {node : NodeID} :
    node ∈ am.ackMapOf h ↔
      ∃ pm, am.pendingMicroblocks.lookup h = some pm ∧ node ∈ pm.ackMap := by
  unfold ackMapOf
  cases am.pendingMicroblocks.lookup h with
  | none => simp
  | some pm => simp

theorem hasContent_iff {am : AckMem} {h : Identifier} :
    am.hasContent h = true ↔ ∃ mb, am.microblockMap.lookup h = some mb ∧ mb.isFake = false := by
  unfold hasContent
  cases am.microblockMap.lookup h with
  | none => simp
  | some mb => simp

theorem new_grounded (cfg : Settings) (id : NodeID) (gm : GroupManager) (ledger : Ledger) :
    (new cfg id gm).Grounded ledger where
  created h pm hLookup := by simp [new] at hLookup
  backed h pm hLookup := by simp [new] at hLookup
  available h hMem := by simp [new] at hMem
  buffered h hMem := absurd hMem Finmap.notMem_empty
  inert mb hRecord := by
    cases hRecord with
    | stored hLookup => simp [new] at hLookup
    | queued hMem => simp [new] at hMem
    | pending hLookup => simp [new] at hLookup
  announced stable hMem := by simp [new] at hMem

namespace Grounded

variable {ledger ledger' : Ledger} {am : AckMem}

theorem mono (hGround : am.Grounded ledger) (hGrows : ledger.Grows ledger') :
    am.Grounded ledger' where
  created h pm hLookup := by
    obtain ⟨c, hCreator⟩ := Finmap.mem_iff.mp (hGround.created h pm hLookup)
    exact Table.mem_of_lookup (hGrows.creator h c hCreator)
  backed h pm hLookup := by
    obtain ⟨hBacked, hSender⟩ := hGround.backed h pm hLookup
    exact ⟨hBacked.mono (hGrows.holders h), hGrows.holders h hSender⟩
  available h hMem := hGrows.card_le (hGround.available h hMem)
  buffered := hGround.buffered
  inert := hGround.inert
  announced stable hMem := (hGround.announced stable hMem).mono hGrows

theorem store (hGround : am.Grounded ledger) {mb : MicroBlock} (hInert : mb.Inert am.id) :
    (am.store mb).Grounded ledger where
  created := hGround.created
  backed := hGround.backed
  available := hGround.available
  buffered h hMem := Finmap.mem_insert.mpr (Or.inr (hGround.buffered h hMem))
  inert mb' hRecord := by
    rcases hRecord.of_store with rfl | hOld
    · exact hInert
    · exact hGround.inert mb' hOld
  announced := hGround.announced

/-- A pending entry that is backed by holders. -/
theorem setPending (hGround : am.Grounded ledger) {h : Identifier} {pm : PendingMicroblock}
    (hCreated : h ∈ ledger.creator)
    (hBacked : pm.Backed (ledger.holders h) ∧ pm.microblock.sender ∈ ledger.holders h)
    (hInert : pm.microblock.Inert am.id) : (am.setPending h pm).Grounded ledger := by
  constructor
  · intro h' pm' hLookup
    rcases Table.of_lookup_insert hLookup with ⟨rfl, _⟩ | hOld
    · exact hCreated
    · exact hGround.created h' pm' hOld
  · intro h' pm' hLookup
    rcases Table.of_lookup_insert hLookup with ⟨rfl, rfl⟩ | hOld
    · exact hBacked
    · exact hGround.backed h' pm' hOld
  · exact hGround.available
  · exact hGround.buffered
  · intro mb hRecord
    rcases hRecord.of_setPending with rfl | hOld
    · exact hInert
    · exact hGround.inert mb hOld
  · exact hGround.announced

/-- Less may be pending and queued. -/
theorem shrink (hGround : am.Grounded ledger)
    {pending : Table Identifier PendingMicroblock} {queue : List MicroBlock}
    (hPending : ∀ h pm, pending.lookup h = some pm → am.pendingMicroblocks.lookup h = some pm)
    (hQueue : ∀ mb ∈ queue, mb ∈ am.stableMicroblocks) :
    Grounded ledger { am with pendingMicroblocks := pending, stableMicroblocks := queue } where
  created h pm hLookup := hGround.created h pm (hPending h pm hLookup)
  backed h pm hLookup := hGround.backed h pm (hPending h pm hLookup)
  available := hGround.available
  buffered := hGround.buffered
  inert mb hRecord := hGround.inert mb (hRecord.of_less rfl hQueue hPending)
  announced := hGround.announced

theorem dropPending (hGround : am.Grounded ledger) (h : Identifier) :
    (am.dropPending h).Grounded ledger :=
  hGround.shrink (fun _ _ => lookup_of_dropPending) fun _ hMem => hMem

/-- Queueing a microblock with enough holders. -/
theorem markStable (hGround : am.Grounded ledger) {mb : MicroBlock}
    (hEnough : am.threshhold ≤ (ledger.holders mb.hash).card) (hInert : mb.Inert am.id) :
    (am.markStable mb).Grounded ledger where
  created := hGround.created
  backed := hGround.backed
  available h hMem := by
    rcases Finset.mem_insert.mp hMem with rfl | hOld
    · exact hEnough
    · exact hGround.available h hOld
  buffered := hGround.buffered
  inert mb' hRecord := by
    rcases hRecord.of_markStable with rfl | hOld
    · exact hInert
    · exact hGround.inert mb' hOld
  announced := hGround.announced

/-- An announcement is kept and perhaps sent. -/
theorem tell (hGround : am.Grounded ledger) {stableBuffer : Table Identifier Stable}
    {outbox : List Stable} (hOutbox : ∀ stable ∈ outbox, ledger.Supports am.threshhold stable) :
    Grounded ledger { am with stableBuffer, outbox } where
  created := hGround.created
  backed := hGround.backed
  available := hGround.available
  buffered := hGround.buffered
  inert mb hRecord :=
    hGround.inert mb (hRecord.of_less rfl (fun _ hMem => hMem) fun _ _ hLookup => hLookup)
  announced := hOutbox

theorem note (hGround : am.Grounded ledger) (stable : Stable) : (am.note stable).Grounded ledger :=
  hGround.tell hGround.announced

theorem bufferAck (hGround : am.Grounded ledger) {ack : Ack}
    (hKnown : ack.microblockID ∈ am.microblockMap) : (am.bufferAck ack).Grounded ledger where
  created := hGround.created
  backed := hGround.backed
  available := hGround.available
  buffered h hMem := by
    rcases Finmap.mem_insert.mp hMem with rfl | hOld
    · exact hKnown
    · exact hGround.buffered h hOld
  inert mb hRecord :=
    hGround.inert mb (hRecord.of_less rfl (fun _ hMem => hMem) fun _ _ hLookup => hLookup)
  announced := hGround.announced

/-- With nothing buffered for what is not known, a new microblock only becomes
pending. -/
theorem addMicroblock_cases (hGround : am.Grounded ledger) {am' : AckMem} {mb : MicroBlock}
    (h : am.addMicroblock mb = .ok am') :
    (∃ old, am.microblockMap.lookup mb.hash = some old ∧ old.isFake = false ∧ am' = am) ∨
      (am' = am.store mb ∧ ∀ old, am.microblockMap.lookup mb.hash = some old → old.isFake = true) ∨
      (am.microblockMap.lookup mb.hash = none ∧
        ∃ inGroup, am' = (am.store mb).setPending mb.hash (.new mb inGroup)) := by
  rcases AckMem.addMicroblock_cases h with hSame | ⟨old, hOld, hFake, rfl⟩ | ⟨hNew, inGroup, rfl⟩
  · exact Or.inl hSame
  · refine Or.inr (Or.inl ⟨rfl, fun found hFound => ?_⟩)
    cases hOld.symm.trans hFound
    exact hFake
  · refine Or.inr (Or.inr ⟨hNew, inGroup, ?_⟩)
    have hBuffer : am.ackBuffer.lookup mb.hash = none :=
      Finmap.lookup_eq_none.mpr fun hMem =>
        Finmap.lookup_eq_none.mp hNew (hGround.buffered mb.hash hMem)
    unfold addFresh
    rw [hBuffer]

theorem addMicroblock (hGround : am.Grounded ledger) {am' : AckMem} {mb : MicroBlock}
    (hReal : mb.isFake = false) (hCreated : mb.hash ∈ ledger.creator)
    (hSender : mb.sender ∈ ledger.holders mb.hash) (h : am.addMicroblock mb = .ok am') :
    am'.Grounded ledger := by
  have hInert : mb.Inert am.id := fun hFake => by simp [hReal] at hFake
  rcases hGround.addMicroblock_cases h with ⟨_, _, _, rfl⟩ | ⟨rfl, _⟩ | ⟨_, inGroup, rfl⟩
  · exact hGround
  · exact hGround.store hInert
  · exact (hGround.store hInert).setPending hCreated
      ⟨PendingMicroblock.new_backed mb inGroup _, hSender⟩ hInert

/-- The content of the microblock is here afterwards, and no content is lost. -/
theorem addMicroblock_hasContent (hGround : am.Grounded ledger) {am' : AckMem} {mb : MicroBlock}
    (hReal : mb.isFake = false) (h : am.addMicroblock mb = .ok am') :
    am'.hasContent mb.hash = true ∧ ∀ hash, am.hasContent hash = true →
      am'.hasContent hash = true := by
  have hStored : (am.store mb).hasContent mb.hash = true ∧ ∀ hash, am.hasContent hash = true →
      (am.store mb).hasContent hash = true := by
    have hNow : (am.store mb).hasContent mb.hash = true := by
      simp [hasContent, AckMem.store, hReal]
    refine ⟨hNow, fun hash hContent => ?_⟩
    by_cases hSame : hash = mb.hash
    · exact hSame ▸ hNow
    · simpa [hasContent, AckMem.store, Table.lookup_insert_ite, hSame] using hContent
  rcases hGround.addMicroblock_cases h with ⟨old, hOld, hFake, rfl⟩ | ⟨rfl, _⟩ | ⟨_, _, rfl⟩
  · exact ⟨hasContent_iff.mpr ⟨old, hOld, hFake⟩, fun _ hContent => hContent⟩
  · exact hStored
  · exact hStored

/-- Only the sender can be new among the ackers. -/
theorem addMicroblock_ackMapOf (hGround : am.Grounded ledger) {am' : AckMem} {mb : MicroBlock}
    (h : am.addMicroblock mb = .ok am') {hash : Identifier} {node : NodeID}
    (hMem : node ∈ am'.ackMapOf hash) :
    node ∈ am.ackMapOf hash ∨ hash = mb.hash ∧ node = mb.sender := by
  rcases hGround.addMicroblock_cases h with ⟨_, _, _, rfl⟩ | ⟨rfl, _⟩ | ⟨_, _, rfl⟩
  · exact Or.inl hMem
  · exact Or.inl hMem
  · by_cases hSame : hash = mb.hash
    · subst hSame
      refine Or.inr ⟨rfl, ?_⟩
      simpa [ackMapOf, AckMem.setPending, PendingMicroblock.new] using hMem
    · refine Or.inl ?_
      simpa [ackMapOf, AckMem.setPending, AckMem.store, Table.lookup_insert_ite, hSame] using hMem

/-- A first ack of a holder. -/
theorem addAck (hGround : am.Grounded ledger) {past : List Identifier}
    (hWell : am.WellFormed past) {cfg : Settings} {ack : Ack}
    (hHolder : ack.receiver ∈ ledger.holders ack.microblockID)
    (hNew : ack.receiver ∉ am.ackMapOf ack.microblockID)
    (hKnown : ack.microblockID ∈ am.microblockMap) : (am.addAck cfg ack).Grounded ledger := by
  rcases addAck_cases cfg am ack with ⟨target, hTarget, hCases⟩ | ⟨_, hEq | hEq⟩
  · obtain ⟨hOld, hSender⟩ := hGround.backed _ _ hTarget
    have hBacked : (target.addAck cfg ack).Backed (ledger.holders ack.microblockID) :=
      hOld.addAck cfg hHolder (Or.inr fun hMem => hNew (mem_ackMapOf.mpr ⟨target, hTarget, hMem⟩))
    have hHash : (target.addAck cfg ack).microblock.hash = ack.microblockID := by
      rw [microblock_addAck]
      exact hWell.pending_hash _ _ hTarget
    have hInert : (target.addAck cfg ack).microblock.Inert am.id := by
      rw [microblock_addAck]
      exact hGround.inert _ (.pending hTarget)
    have hNamed : (target.addAck cfg ack).microblock.sender ∈ ledger.holders ack.microblockID := by
      rw [microblock_addAck]
      exact hSender
    have hSet := hGround.setPending (hGround.created _ _ hTarget) ⟨hBacked, hNamed⟩ hInert
    rcases hCases with hEq | ⟨hReached, _, hEq⟩
    · rw [hEq]
      exact hSet
    · have hInsert := Finset.insert_eq_of_mem hNamed
      have hEnough : am.threshhold ≤ (ledger.holders ack.microblockID).card := by
        have hQuorum := hBacked.quorum hReached
        rwa [hInsert] at hQuorum
      have hSupports : ledger.Supports am.threshhold ((target.addAck cfg ack).toStable am.id) := by
        refine ⟨?_, ?_⟩
        · rw [PendingMicroblock.toStable, hHash]
          exact hEnough
        · have hAcked := hBacked.acked
          rw [hInsert] at hAcked
          rw [PendingMicroblock.toStable, hHash]
          exact hAcked
      rw [hEq]
      refine ((hSet.markStable (hHash.symm ▸ hEnough) hInert).dropPending _).tell
        fun stable hMem => ?_
      rcases List.mem_append.mp hMem with hOld | hLast
      · exact hGround.announced stable hOld
      · cases List.mem_singleton.mp hLast
        exact hSupports
  · rw [hEq]
    exact hGround
  · rw [hEq]
    exact hGround.bufferAck hKnown

end Grounded

theorem microblockMap_addAck (cfg : Settings) (am : AckMem) (ack : Ack) :
    (am.addAck cfg ack).microblockMap = am.microblockMap := by
  rcases addAck_cases cfg am ack with ⟨_, _, hEq | ⟨_, _, hEq⟩⟩ | ⟨_, hEq | hEq⟩ <;> rw [hEq] <;> rfl

theorem ackMapOf_of_lookup {am am' : AckMem} {h : Identifier}
    (hPending : ∀ pm, am'.pendingMicroblocks.lookup h = some pm →
      am.pendingMicroblocks.lookup h = some pm) : am'.ackMapOf h ⊆ am.ackMapOf h := by
  intro node hMem
  obtain ⟨pm, hLookup, hNode⟩ := mem_ackMapOf.mp hMem
  exact mem_ackMapOf.mpr ⟨pm, hPending pm hLookup, hNode⟩

/-- Only the receiver can be new among the ackers. -/
theorem addAck_ackMapOf {cfg : Settings} {am : AckMem} {ack : Ack} {hash : Identifier}
    {node : NodeID} (hMem : node ∈ (am.addAck cfg ack).ackMapOf hash) :
    node ∈ am.ackMapOf hash ∨ hash = ack.microblockID ∧ node = ack.receiver := by
  rcases addAck_cases cfg am ack with ⟨target, hTarget, hCases⟩ | ⟨_, hEq | hEq⟩
  · have hSet : node ∈ (am.setPending ack.microblockID (target.addAck cfg ack)).ackMapOf hash := by
      rcases hCases with hEq | ⟨_, _, hEq⟩
      · rwa [hEq] at hMem
      · rw [hEq] at hMem
        exact ackMapOf_of_lookup (fun pm => lookup_of_dropPending) hMem
    by_cases hSame : hash = ack.microblockID
    · subst hSame
      have hNode : node ∈ insert ack.receiver target.ackMap := by
        simp only [ackMapOf, setPending, Finmap.lookup_insert] at hSet
        unfold PendingMicroblock.addAck at hSet
        by_cases hOut : (cfg.broadcastByGroup && ack.outGroup) = true
        · rwa [if_pos hOut] at hSet
        · rwa [if_neg hOut] at hSet
      rcases Finset.mem_insert.mp hNode with rfl | hOld
      · exact Or.inr ⟨rfl, rfl⟩
      · exact Or.inl (mem_ackMapOf.mpr ⟨target, hTarget, hOld⟩)
    · refine Or.inl ?_
      simpa [ackMapOf, setPending, Table.lookup_insert_ite, hSame] using hSet
  · rw [hEq] at hMem
    exact Or.inl hMem
  · rw [hEq] at hMem
    exact Or.inl hMem

namespace Grounded

variable {ledger : Ledger} {am : AckMem}

/-- A right announcement. The node is not among the holders it does not know. -/
theorem addStable (hGround : am.Grounded ledger) {past : List Identifier}
    (hWell : am.WellFormed past) {am' : AckMem} {now : Int} {stable : Stable}
    (hSupports : ledger.Supports am.threshhold stable)
    (hSelf : stable.microblockID ∉ am.microblockMap →
      am.id ∉ ledger.holders stable.microblockID)
    (h : am.addStable now stable = .ok am') : am'.Grounded ledger := by
  have hNoted := hGround.note stable
  rcases addStable_cases hWell.known_of_lookup h with ⟨_, rfl⟩ |
    ⟨_, ⟨target, hTarget, rfl⟩ | ⟨_, _, rfl⟩ | ⟨_, hUnknown, txns, _, rfl⟩⟩
  · exact hGround
  · have hHash : target.microblock.hash = stable.microblockID := hWell.pending_hash _ _ hTarget
    refine (hNoted.dropPending _).markStable ?_ (hGround.inert _ (.pending hTarget))
    rw [hHash]
    exact hSupports.enough
  · exact hNoted
  · have hInert : (AckMem.announced stable txns).Inert am.id := fun _ hNamed =>
      hSelf hUnknown (hSupports.named hNamed)
    exact (hNoted.store hInert).markStable hSupports.enough hInert

end Grounded

theorem addStable_hasContent {am am' : AckMem} {past : List Identifier}
    (hWell : am.WellFormed past) {now : Int} {stable : Stable}
    (h : am.addStable now stable = .ok am') {hash : Identifier}
    (hContent : am.hasContent hash = true) : am'.hasContent hash = true := by
  rcases addStable_cases hWell.known_of_lookup h with ⟨_, rfl⟩ |
    ⟨_, ⟨_, _, rfl⟩ | ⟨_, _, rfl⟩ | ⟨_, hUnknown, txns, _, rfl⟩⟩
  · exact hContent
  · exact hContent
  · exact hContent
  · obtain ⟨mb, hStored, hReal⟩ := hasContent_iff.mp hContent
    have hOther : hash ≠ stable.microblockID := fun hSame =>
      hUnknown (hSame ▸ Table.mem_of_lookup hStored)
    refine hasContent_iff.mpr ⟨mb, ?_, hReal⟩
    simpa [AckMem.markStable, AckMem.store, AckMem.note, announced, Table.lookup_insert_ite,
      hOther] using hStored

theorem addStable_ackMapOf {am am' : AckMem} {past : List Identifier}
    (hWell : am.WellFormed past) {now : Int} {stable : Stable}
    (h : am.addStable now stable = .ok am') (hash : Identifier) :
    am'.ackMapOf hash ⊆ am.ackMapOf hash := by
  rcases addStable_cases hWell.known_of_lookup h with ⟨_, rfl⟩ |
    ⟨_, ⟨_, _, rfl⟩ | ⟨_, _, rfl⟩ | ⟨_, _, txns, _, rfl⟩⟩
  · exact Finset.Subset.refl _
  · exact ackMapOf_of_lookup fun pm => lookup_of_dropPending
  · exact Finset.Subset.refl _
  · exact Finset.Subset.refl _

/-- A payload is made of records of the queue, and nothing else changes. -/
theorem generatePayload_records {cfg : Settings} {sort : GroupSort} {am am' : AckMem}
    {payload : Payload} (h : am.generatePayload cfg sort = .ok (am', payload)) :
    (∃ queue, am' = { am with stableMicroblocks := queue } ∧
        ∀ mb ∈ queue, mb ∈ am.stableMicroblocks) ∧
      ∀ mb ∈ payload.microblockList, mb ∈ am.stableMicroblocks := by
  obtain ⟨_, queue, hPerm, rfl, hPayload⟩ := generatePayload_spec h
  refine ⟨⟨_, rfl, fun mb hMem => hPerm.mem_iff.mp (List.mem_of_mem_drop hMem)⟩,
    fun mb hMem => hPerm.mem_iff.mp ?_⟩
  rw [hPayload] at hMem
  exact List.mem_of_mem_take hMem

/-- The microblocks of a block are records of the map or name no holders. -/
theorem Grounded.fetched_inert {ledger : Ledger} {am : AckMem} (hGround : am.Grounded ledger)
    {hs : List Identifier} {mbs : List MicroBlock} (h : List.Forall₂ am.FetchedFrom hs mbs) :
    ∀ mb ∈ mbs, mb.Inert am.id := by
  induction h with
  | nil => simp
  | @cons hash mb hs mbs hFrom _ ih =>
      intro found hMem
      rcases List.mem_cons.mp hMem with rfl | hRest
      · rcases hFrom with hStored | ⟨_, _, _, hNames⟩
        · exact hGround.inert found (.stored hStored)
        · intro _ hNamed
          simp [hNames] at hNamed
      · exact ih found hRest

end AckMem
end Bamboo
