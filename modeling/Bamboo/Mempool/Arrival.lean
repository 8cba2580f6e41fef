import Bamboo.Mempool.Calls

/-! The order in which a microblock and its acks arrive. An ack that comes before its
microblock is buffered, and `AddMicroblock` counts the buffered acks; a later one is
counted by `AddAck`. Both can make the microblock stable, but only `AddAck` keeps and
broadcasts a `Stable` message. -/
namespace Bamboo
namespace AckMem

open Library

/-- What can be seen of one identifier. -/
structure Sighting where
  isStable : Bool
  queued : Bool
  /-- `StableBuffer` has an entry. -/
  noted : Bool
  broadcast : Bool
deriving DecidableEq

namespace Sighting

def unstable : Sighting := ⟨false, false, false, false⟩

/-- Stable by acks that were buffered. -/
def silent : Sighting := ⟨true, true, false, false⟩

/-- Stable by an ack for the pending microblock. -/
def announced : Sighting := ⟨true, true, true, true⟩

end Sighting

def sighting (am : AckMem) (h : Identifier) : Sighting where
  isStable := am.isStable h
  queued := am.stableMicroblocks.any fun mb => mb.hash = h
  noted := (am.stableBuffer.lookup h).isSome
  broadcast := am.outbox.any fun stable => stable.microblockID = h

/-- Nothing is known of an identifier, except possibly acks. -/
structure Unknown (am : AckMem) (h : Identifier) : Prop where
  stored : am.microblockMap.lookup h = none
  pending : am.pendingMicroblocks.lookup h = none
  sighting : am.sighting h = .unstable

/-- The number of nodes whose acks are buffered for an identifier. -/
def bufferedAcks (am : AckMem) (h : Identifier) : Nat :=
  ((am.ackBuffer.lookup h).getD ∅).keys.length

/-- Acks for one identifier, none of them from outside the group. -/
def AcksFor (h : Identifier) (acks : List Ack) : Prop :=
  ∀ ack ∈ acks, ack.microblockID = h ∧ ack.outGroup = false

instance (h : Identifier) (acks : List Ack) : Decidable (AcksFor h acks) :=
  inferInstanceAs (Decidable (∀ ack ∈ acks, _))

/-- One order: the acks that come before the microblock, and those that come after it. -/
def arrivals (before : List Ack) (mb : MicroBlock) (after : List Ack) : List Call :=
  before.map .addAck ++ .addMicroblock mb :: after.map .addAck

variable {cfg : Settings} {am : AckMem} {h : Identifier} {mb : MicroBlock} {acks : List Ack}

theorem run_addAcks (cfg : Settings) (sort : GroupSort) (t : Trace) (acks : List Ack) :
    run (Trace.step cfg sort) t (acks.map .addAck) =
      .ok { t with mem := acks.foldl (addAck cfg) t.mem } := by
  induction acks generalizing t with
  | nil => rfl
  | cons ack rest ih => exact ih { t with mem := t.mem.addAck cfg ack }

theorem bufferAck_bufferedAcks (am : AckMem) (ack : Ack) :
    am.bufferedAcks ack.microblockID ≤ (am.bufferAck ack).bufferedAcks ack.microblockID ∧
      (am.bufferAck ack).bufferedAcks ack.microblockID ≤ am.bufferedAcks ack.microblockID + 1 := by
  have hKeys : (am.bufferAck ack).bufferedAcks ack.microblockID =
      (ack.receiver :: ((am.ackBuffer.lookup ack.microblockID).getD ∅).keys.erase
        ack.receiver).length := by
    unfold bufferedAcks bufferAck
    simp
  have hErase := List.length_erase_le (a := ack.receiver)
    (l := ((am.ackBuffer.lookup ack.microblockID).getD ∅).keys)
  have hErase' := List.le_length_erase (a := ack.receiver)
    (l := ((am.ackBuffer.lookup ack.microblockID).getD ∅).keys)
  rw [hKeys, List.length_cons]
  unfold bufferedAcks
  omega

/-- Acks for a microblock that is not pending only fill the buffer. -/
theorem addAcks_buffered (hPending : am.pendingMicroblocks.lookup h = none)
    (hAcks : AcksFor h acks) :
    ∃ buffer, acks.foldl (addAck cfg) am = { am with ackBuffer := buffer } ∧
      ((buffer.lookup h).isSome ↔ (am.ackBuffer.lookup h).isSome ∨ acks ≠ []) ∧
      am.bufferedAcks h ≤ (acks.foldl (addAck cfg) am).bufferedAcks h ∧
      (acks.foldl (addAck cfg) am).bufferedAcks h ≤ am.bufferedAcks h + acks.length := by
  induction acks generalizing am with
  | nil => exact ⟨am.ackBuffer, rfl, by simp, le_refl _, le_refl _⟩
  | cons ack rest ih =>
      obtain ⟨rfl, hInside⟩ := hAcks ack List.mem_cons_self
      have hFirst : am.addAck cfg ack = am.bufferAck ack := by
        unfold addAck
        rw [hPending, hInside]
        rfl
      obtain ⟨hLow, hHigh⟩ := bufferAck_bufferedAcks am ack
      have hLater : (am.bufferAck ack).pendingMicroblocks.lookup ack.microblockID = none := hPending
      obtain ⟨buffer, hEq, hSome, hLow', hHigh'⟩ :=
        ih hLater fun later hMem => hAcks later (List.mem_cons_of_mem ack hMem)
      rw [List.foldl_cons, hFirst]
      refine ⟨buffer, hEq, ?_, hLow.trans hLow', ?_⟩
      · rw [hSome]
        simp [bufferAck]
      · rw [List.length_cons]
        omega

theorem ackNum_foldl_count (pm : PendingMicroblock) (nodes : List NodeID) :
    (nodes.foldl PendingMicroblock.count pm).ackNum = pm.ackNum + nodes.length := by
  induction nodes generalizing pm with
  | nil => simp
  | cons node rest ih =>
      rw [List.foldl_cons, ih, List.length_cons]
      change pm.ackNum + 1 + (rest.length : Int) = _
      omega

theorem sighting_eq_unstable :
    am.sighting h = .unstable ↔ h ∉ am.stableMBs ∧ (∀ mb ∈ am.stableMicroblocks, mb.hash ≠ h) ∧
      am.stableBuffer.lookup h = none ∧ ∀ stable ∈ am.outbox, stable.microblockID ≠ h := by
  simp [sighting, Sighting.unstable, isStable]

theorem announce_sighting (am : AckMem) {pm : PendingMicroblock} (hHash : pm.microblock.hash = h) :
    (am.announce h pm).sighting h = .announced ∧
      (am.announce h pm).pendingMicroblocks.lookup h = none := by
  subst hHash
  constructor
  · simp [sighting, Sighting.announced, announce, note, dropPending, markStable, isStable,
      PendingMicroblock.toStable]
  · simp [announce, note, dropPending]

/-- What is not pending looks the same after more acks. -/
theorem addAcks_sighting (cfg : Settings) (hPending : am.pendingMicroblocks.lookup h = none)
    (hAcks : AcksFor h acks) : (acks.foldl (addAck cfg) am).sighting h = am.sighting h := by
  obtain ⟨buffer, hEq, _⟩ : ∃ buffer, acks.foldl (addAck cfg) am = { am with ackBuffer := buffer } ∧ _ :=
    addAcks_buffered hPending hAcks
  rw [hEq]
  rfl

/-- One ack for a pending microblock. -/
theorem addAck_counted {pm : PendingMicroblock} {ack : Ack}
    (hPending : am.pendingMicroblocks.lookup ack.microblockID = some pm)
    (hStable : pm.microblock.hash ∉ am.stableMBs) (hInside : ack.outGroup = false) :
    am.addAck cfg ack = if am.threshhold ≤ pm.ackNum + 1
      then (am.setPending ack.microblockID (pm.count ack.receiver)).announce ack.microblockID
        (pm.count ack.receiver)
      else am.setPending ack.microblockID (pm.count ack.receiver) := by
  have hCounted : pm.addAck cfg ack = pm.count ack.receiver := by
    unfold PendingMicroblock.addAck
    rw [hInside, Bool.and_false]
    rfl
  unfold addAck
  rw [hPending]
  dsimp only
  rw [hCounted]
  have hFresh : (pm.count ack.receiver).microblock.hash ∉ am.stableMBs := hStable
  simp only [hFresh, not_false_eq_true, and_true]
  rfl

/-- Each ack for a pending microblock is counted, until the count is reached. -/
theorem addAcks_pending {pm : PendingMicroblock}
    (hPending : am.pendingMicroblocks.lookup h = some pm) (hHash : pm.microblock.hash = h)
    (hSighting : am.sighting h = .unstable) (hAcks : AcksFor h acks) :
    (acks.foldl (addAck cfg) am).sighting h =
      if acks ≠ [] ∧ am.threshhold ≤ pm.ackNum + acks.length then .announced else .unstable := by
  induction acks generalizing am pm with
  | nil => simpa using hSighting
  | cons ack rest ih =>
      obtain ⟨rfl, hInside⟩ := hAcks ack List.mem_cons_self
      have hRest : AcksFor ack.microblockID rest :=
        fun later hMem => hAcks later (List.mem_cons_of_mem ack hMem)
      obtain ⟨hStable, _⟩ := sighting_eq_unstable.mp hSighting
      rw [List.foldl_cons, addAck_counted hPending (hHash ▸ hStable) hInside]
      by_cases hReached : am.threshhold ≤ pm.ackNum + 1
      · have hCounted : (pm.count ack.receiver).microblock.hash = ack.microblockID := hHash
        obtain ⟨hAnnounced, hDropped⟩ := announce_sighting
          (am.setPending ack.microblockID (pm.count ack.receiver)) hCounted
        rw [if_pos hReached, addAcks_sighting cfg hDropped hRest, hAnnounced, if_pos]
        refine ⟨List.cons_ne_nil _ _, ?_⟩
        rw [List.length_cons]
        omega
      · have hSet : (am.setPending ack.microblockID (pm.count ack.receiver)).pendingMicroblocks.lookup
            ack.microblockID = some (pm.count ack.receiver) := by
          simp [setPending]
        rw [if_neg hReached, ih hSet hHash hSighting hRest]
        have hSame : (rest ≠ [] ∧ am.threshhold ≤ pm.ackNum + 1 + rest.length) ↔
            (ack :: rest ≠ [] ∧ am.threshhold ≤ pm.ackNum + (ack :: rest).length) := by
          cases rest with
          | nil => simpa using hReached
          | cons later rest =>
              simp only [ne_eq, reduceCtorEq, not_false_eq_true, true_and, List.length_cons]
              omega
        exact if_congr hSame rfl rfl

/-- A microblock that was unknown is silently stable at once, or it is pending with the
buffered acks counted. -/
theorem addFresh_unknown (hUnknown : am.Unknown mb.hash) (inGroup : Bool) :
    (((am.ackBuffer.lookup mb.hash).isSome ∧ am.threshhold ≤ 1 + am.bufferedAcks mb.hash) ∧
      (am.addFresh mb (.new mb inGroup)).sighting mb.hash = .silent ∧
      (am.addFresh mb (.new mb inGroup)).pendingMicroblocks.lookup mb.hash = none) ∨
    (¬((am.ackBuffer.lookup mb.hash).isSome ∧ am.threshhold ≤ 1 + am.bufferedAcks mb.hash) ∧
      (am.addFresh mb (.new mb inGroup)).sighting mb.hash = .unstable ∧
      (am.addFresh mb (.new mb inGroup)).threshhold = am.threshhold ∧
      ∃ pm, (am.addFresh mb (.new mb inGroup)).pendingMicroblocks.lookup mb.hash = some pm ∧
        pm.microblock = mb ∧ pm.ackNum = 1 + am.bufferedAcks mb.hash) := by
  obtain ⟨hStable, hQueue, hNoted, hOutbox⟩ := sighting_eq_unstable.mp hUnknown.sighting
  unfold addFresh
  cases hBuffer : am.ackBuffer.lookup mb.hash with
  | none =>
      refine Or.inr ⟨by simp, hUnknown.sighting, rfl, .new mb inGroup, ?_, rfl, ?_⟩
      · simp [setPending]
      · simp [bufferedAcks, hBuffer, PendingMicroblock.new]
  | some buffer =>
      have hCount : (buffer.keys.foldl .count (PendingMicroblock.new mb inGroup)).ackNum =
          1 + am.bufferedAcks mb.hash := by
        rw [ackNum_foldl_count, bufferedAcks, hBuffer]
        rfl
      dsimp only
      rw [hCount]
      by_cases hEnough : am.threshhold ≤ 1 + am.bufferedAcks mb.hash
      · rw [if_pos hEnough, if_neg hStable]
        refine Or.inl ⟨⟨rfl, hEnough⟩, ?_, ?_⟩
        · simpa [sighting, Sighting.silent, dropPending, markStable, store, isStable] using
            ⟨hNoted, hOutbox⟩
        · simp [dropPending]
      · rw [if_neg hEnough]
        refine Or.inr ⟨fun hBoth => hEnough hBoth.2, hUnknown.sighting, rfl, _, ?_, ?_, hCount⟩
        · simp [setPending]
        · rw [microblock_foldl_count]
          rfl

/-- How an order ends, when acks of `count` nodes are buffered as the microblock
arrives. -/
def ending (am : AckMem) (h : Identifier) (before after : List Ack) (count : Nat) : Sighting :=
  if ((am.ackBuffer.lookup h).isSome ∨ before ≠ []) ∧ am.threshhold ≤ 1 + count then .silent
  else if after ≠ [] ∧ am.threshhold ≤ 1 + count + after.length then .announced
  else .unstable

theorem arrivals_ending (cfg : Settings) (sort : GroupSort) {inGroup : Bool}
    (hUnknown : am.Unknown mb.hash)
    (hGroup : am.gm.isInGroup mb.groupId am.id = .ok inGroup) {before after : List Ack}
    (hBefore : AcksFor mb.hash before) (hAfter : AcksFor mb.hash after) :
    ∃ t, run (Trace.step cfg sort) { mem := am } (arrivals before mb after) = .ok t ∧
      ∃ count, am.bufferedAcks mb.hash ≤ count ∧
        count ≤ am.bufferedAcks mb.hash + before.length ∧
        t.mem.sighting mb.hash = am.ending mb.hash before after count := by
  obtain ⟨buffer, hEq, hSome, hLow, hHigh⟩ :
      ∃ buffer, before.foldl (addAck cfg) am = { am with ackBuffer := buffer } ∧ _ :=
    addAcks_buffered hUnknown.pending hBefore
  rw [hEq] at hLow hHigh
  have hMiddle : ({ am with ackBuffer := buffer } : AckMem).Unknown mb.hash :=
    ⟨hUnknown.stored, hUnknown.pending, hUnknown.sighting⟩
  generalize hOpen : ({ am with ackBuffer := buffer } : AckMem) = middle at hEq hLow hHigh hMiddle
  have hAdded : middle.addMicroblock mb = .ok (middle.addFresh mb (.new mb inGroup)) := by
    unfold addMicroblock
    rw [hMiddle.stored, ← hOpen]
    exact Outcome.bind_eq_ok.mpr ⟨inGroup, hGroup, rfl⟩
  refine ⟨{ mem := after.foldl (addAck cfg) (middle.addFresh mb (.new mb inGroup)) }, ?_,
    middle.bufferedAcks mb.hash, hLow, hHigh, ?_⟩
  · unfold arrivals
    rw [run_append, run_addAcks, hEq]
    refine Outcome.bind_eq_ok.mpr ⟨{ mem := middle }, rfl, ?_⟩
    refine Outcome.bind_eq_ok.mpr ⟨{ mem := middle.addFresh mb (.new mb inGroup) }, ?_, ?_⟩
    · exact Outcome.bind_eq_ok.mpr ⟨_, hAdded, rfl⟩
    · exact run_addAcks cfg sort _ after
  · have hBuffer : middle.ackBuffer = buffer := by rw [← hOpen]
    have hThreshold : middle.threshhold = am.threshhold := by rw [← hOpen]
    rw [← hBuffer] at hSome
    unfold ending
    rcases addFresh_unknown hMiddle inGroup with ⟨hEnough, hSilent, hDropped⟩ |
      ⟨hFew, hUnstable, hSame, pm, hPending, hMb, hCount⟩
    · rw [hThreshold] at hEnough
      rw [addAcks_sighting cfg hDropped hAfter, hSilent, if_pos ⟨hSome.mp hEnough.1, hEnough.2⟩]
    · rw [hThreshold] at hFew hSame
      rw [if_neg fun hBoth => hFew ⟨hSome.mpr hBoth.1, hBoth.2⟩,
        addAcks_pending hPending (congrArg MicroBlock.hash hMb) hUnstable hAfter, hSame, hCount]

theorem AcksFor.of_perm {before after : List Ack} (hAcks : AcksFor h acks)
    (hPerm : (before ++ after).Perm acks) : AcksFor h before ∧ AcksFor h after := by
  constructor
  · intro ack hMem
    exact hAcks ack (hPerm.mem_iff.mp (List.mem_append_left after hMem))
  · intro ack hMem
    exact hAcks ack (hPerm.mem_iff.mp (List.mem_append_right before hMem))

/-- When the new acks decide nothing, the acks that were buffered do. -/
theorem ending_eq {before after : List Ack} {count : Nat}
    (hCases : acks = [] ∨
      ((am.ackBuffer.lookup h).isSome ∧ am.threshhold ≤ 1 + am.bufferedAcks h) ∨
      1 + am.bufferedAcks h + acks.length < am.threshhold)
    (hPerm : (before ++ after).Perm acks) (hLow : am.bufferedAcks h ≤ count)
    (hHigh : count ≤ am.bufferedAcks h + before.length) :
    am.ending h before after count =
      if (am.ackBuffer.lookup h).isSome ∧ am.threshhold ≤ 1 + am.bufferedAcks h then .silent
      else .unstable := by
  have hLength : before.length + after.length = acks.length := by
    rw [← List.length_append]
    exact hPerm.length_eq
  unfold ending
  rcases hCases with rfl | ⟨hSome, hEnough⟩ | hFew
  · obtain ⟨rfl, rfl⟩ := List.append_eq_nil_iff.mp hPerm.eq_nil
    have hCount : count = am.bufferedAcks h := by
      rw [List.length_nil] at hHigh
      omega
    simp [hCount]
  · rw [if_pos ⟨Or.inl hSome, by omega⟩, if_pos ⟨hSome, hEnough⟩]
  · rw [if_neg (fun hBoth => absurd hBoth.2 (by omega)),
      if_neg (fun hBoth => absurd hBoth.2 (by omega)),
      if_neg (fun hBoth => absurd hBoth.2 (by omega))]

/-- When the new acks decide, the microblock is announced if it comes first, and not if
it comes last. -/
theorem ending_first_ne_last (hSome : acks ≠ [])
    (hFew : ¬((am.ackBuffer.lookup h).isSome ∧ am.threshhold ≤ 1 + am.bufferedAcks h))
    (hMany : am.threshhold ≤ 1 + am.bufferedAcks h + acks.length) (count : Nat) :
    am.ending h [] acks (am.bufferedAcks h) ≠ am.ending h acks [] count := by
  have hFirst : am.ending h [] acks (am.bufferedAcks h) = .announced := by
    unfold ending
    rw [if_neg fun hBoth => hFew ⟨by simpa using hBoth.1, hBoth.2⟩, if_pos ⟨hSome, hMany⟩]
  have hLast : am.ending h acks [] count ≠ .announced := by
    unfold ending
    split_ifs with hEnough hNone
    · decide
    · exact absurd rfl hNone.1
    · decide
  rw [hFirst]
  exact hLast.symm

/-- A microblock that was unknown is only taken when its group exists. -/
theorem isInGroup_of_arrivals {sort : GroupSort} (hUnknown : am.Unknown mb.hash) {t : Trace}
    (hRun : run (Trace.step cfg sort) { mem := am } (arrivals [] mb acks) = .ok t) :
    ∃ inGroup, am.gm.isInGroup mb.groupId am.id = .ok inGroup := by
  obtain ⟨first, hFirst, _⟩ := Outcome.bind_eq_ok.mp hRun
  obtain ⟨mem, hAdded, _⟩ := Outcome.bind_eq_ok.mp hFirst
  unfold addMicroblock at hAdded
  rw [hUnknown.stored] at hAdded
  obtain ⟨inGroup, hGroup, _⟩ := Outcome.bind_eq_ok.mp hAdded
  exact ⟨inGroup, hGroup⟩

/-- The orders in which one microblock and its acks can arrive agree exactly when its
group exists and there are no acks, the acks that were buffered already suffice, or all
of them together do not. -/
theorem arrival_order_irrelevant_iff (cfg : Settings) (sort : GroupSort) (am : AckMem)
    (mb : MicroBlock) (acks : List Ack) (hUnknown : am.Unknown mb.hash)
    (hAcks : AcksFor mb.hash acks) :
    (∀ before after before' after', (before ++ after).Perm acks → (before' ++ after').Perm acks →
      ∃ t t', run (Trace.step cfg sort) { mem := am } (arrivals before mb after) = .ok t ∧
        run (Trace.step cfg sort) { mem := am } (arrivals before' mb after') = .ok t' ∧
        t.mem.sighting mb.hash = t'.mem.sighting mb.hash) ↔
    (∃ inGroup, am.gm.isInGroup mb.groupId am.id = .ok inGroup) ∧
    (acks = [] ∨
      ((am.ackBuffer.lookup mb.hash).isSome ∧ am.threshhold ≤ 1 + am.bufferedAcks mb.hash) ∨
      1 + am.bufferedAcks mb.hash + acks.length < am.threshhold) := by
  constructor
  · intro hAgree
    obtain ⟨t, t', hRun, hRun', hSame⟩ := hAgree [] acks acks [] (by simp) (by simp)
    have hKnown := isInGroup_of_arrivals hUnknown hRun
    refine ⟨hKnown, ?_⟩
    obtain ⟨inGroup, hGroup⟩ := hKnown
    by_contra hNot
    simp only [not_or, not_lt] at hNot
    obtain ⟨hSome, hFew, hMany⟩ := hNot
    have hNil : AcksFor mb.hash [] := fun ack hMem => by cases hMem
    -- the microblock first, and the microblock last
    obtain ⟨first, hFirst, count, hLow, hHigh, hAnnounced⟩ :=
      arrivals_ending cfg sort hUnknown hGroup hNil hAcks
    obtain ⟨last, hLast, count', _, _, hEnd⟩ :=
      arrivals_ending cfg sort hUnknown hGroup hAcks hNil
    cases hFirst.symm.trans hRun
    cases hLast.symm.trans hRun'
    have hCount : count = am.bufferedAcks mb.hash := by
      rw [List.length_nil] at hHigh
      omega
    rw [hAnnounced, hEnd, hCount] at hSame
    exact ending_first_ne_last hSome hFew hMany count' hSame
  · rintro ⟨⟨inGroup, hGroup⟩, hCases⟩ before after before' after' hPerm hPerm'
    obtain ⟨hBefore, hAfter⟩ := hAcks.of_perm hPerm
    obtain ⟨hBefore', hAfter'⟩ := hAcks.of_perm hPerm'
    obtain ⟨t, hRun, count, hLow, hHigh, hEnd⟩ :=
      arrivals_ending cfg sort hUnknown hGroup hBefore hAfter
    obtain ⟨t', hRun', count', hLow', hHigh', hEnd'⟩ :=
      arrivals_ending cfg sort hUnknown hGroup hBefore' hAfter'
    refine ⟨t, t', hRun, hRun', ?_⟩
    rw [hEnd, hEnd', ending_eq hCases hPerm hLow hHigh, ending_eq hCases hPerm' hLow' hHigh']

/-- With three acks needed, that of one other node decides nothing. -/
theorem arrival_order_irrelevant_one_ack :
    (AckMem.new Scenario.pool "1" Scenario.groups).Unknown 1 ∧
    ∀ before after before' after', (before ++ after).Perm [Scenario.ack 1 "2"] →
      (before' ++ after').Perm [Scenario.ack 1 "2"] →
      ∃ t t', run (Trace.step Scenario.pool Scenario.sortByGroup)
          { mem := .new Scenario.pool "1" Scenario.groups }
          (arrivals before (Scenario.microblock 1 "1") after) = .ok t ∧
        run (Trace.step Scenario.pool Scenario.sortByGroup)
          { mem := .new Scenario.pool "1" Scenario.groups }
          (arrivals before' (Scenario.microblock 1 "1") after') = .ok t' ∧
        t.mem.sighting 1 = t'.mem.sighting 1 := by
  refine ⟨⟨rfl, rfl, rfl⟩, ?_⟩
  exact (arrival_order_irrelevant_iff Scenario.pool Scenario.sortByGroup
    (.new Scenario.pool "1" Scenario.groups) (Scenario.microblock 1 "1") [Scenario.ack 1 "2"]
    ⟨rfl, rfl, rfl⟩ (by decide)).mpr ⟨⟨true, rfl⟩, Or.inr (Or.inr (by decide))⟩

/-- Two acks before their microblock make it stable without a word; after it, the
second one makes the node broadcast a `Stable` message. -/
theorem arrival_order_matters :
    (AckMem.new Scenario.pool "1" Scenario.groups).Unknown 1 ∧
    ∃ t t', run (Trace.step Scenario.pool Scenario.sortByGroup)
        { mem := .new Scenario.pool "1" Scenario.groups }
        (arrivals [] (Scenario.microblock 1 "1") [Scenario.ack 1 "2", Scenario.ack 1 "3"]) = .ok t ∧
      run (Trace.step Scenario.pool Scenario.sortByGroup)
        { mem := .new Scenario.pool "1" Scenario.groups }
        (arrivals [Scenario.ack 1 "2", Scenario.ack 1 "3"] (Scenario.microblock 1 "1") []) = .ok t' ∧
      t.mem.sighting 1 = .announced ∧ t'.mem.sighting 1 = .silent := by
  refine ⟨⟨rfl, rfl, rfl⟩, ?_⟩
  obtain ⟨t, hRun, hAnnounced⟩ := Outcome.of_test
    (x := run (Trace.step Scenario.pool Scenario.sortByGroup)
      { mem := .new Scenario.pool "1" Scenario.groups }
      (arrivals [] (Scenario.microblock 1 "1") [Scenario.ack 1 "2", Scenario.ack 1 "3"]))
    (P := fun t => t.mem.sighting 1 = .announced) (by decide)
  obtain ⟨t', hRun', hSilent⟩ := Outcome.of_test
    (x := run (Trace.step Scenario.pool Scenario.sortByGroup)
      { mem := .new Scenario.pool "1" Scenario.groups }
      (arrivals [Scenario.ack 1 "2", Scenario.ack 1 "3"] (Scenario.microblock 1 "1") []))
    (P := fun t => t.mem.sighting 1 = .silent) (by decide)
  exact ⟨t, t', hRun, hRun', hAnnounced, hSilent⟩

end AckMem
end Bamboo
