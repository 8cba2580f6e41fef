import Bamboo.Replica.Carrying

/-! The answers to requests for content. `FindMicroblock` reports a stored microblock with
content as not found and hands out placeholders, and both request handlers send what it
hands out. -/
namespace Bamboo

open Library

/-- The microblock that is sent back for an identifier. -/
def AckMem.reply (am : AckMem) (h : Identifier) : Option MicroBlock :=
  (am.findMicroblock h).map fun mb => { mb with isRequested := true }

theorem AckMem.findMicroblock_eq_some {am : AckMem} {h : Identifier} {mb : MicroBlock} :
    am.findMicroblock h = some mb ↔ am.microblockMap.lookup h = some mb ∧ mb.isFake = true := by
  unfold findMicroblock
  cases am.microblockMap.lookup h with
  | none => simp
  | some stored =>
      dsimp only
      by_cases hFake : stored.isFake = true
      · rw [if_pos hFake]
        refine ⟨fun hEq => ⟨hEq, ?_⟩, fun hBoth => hBoth.1⟩
        cases hEq
        exact hFake
      · rw [if_neg hFake]
        constructor
        · intro hEq
          cases hEq
        · rintro ⟨hEq, hReal⟩
          cases hEq
          exact absurd hReal hFake

theorem AckMem.reply_eq_some {am : AckMem} {h : Identifier} {found : MicroBlock} :
    am.reply h = some found ↔ ∃ mb, am.microblockMap.lookup h = some mb ∧ mb.isFake = true ∧
      found = { mb with isRequested := true } := by
  unfold reply
  rw [Option.map_eq_some_iff]
  constructor
  · rintro ⟨mb, hFound, rfl⟩
    obtain ⟨hStored, hFake⟩ := findMicroblock_eq_some.mp hFound
    exact ⟨mb, hStored, hFake, rfl⟩
  · rintro ⟨mb, hStored, hFake, rfl⟩
    exact ⟨mb, findMicroblock_eq_some.mpr ⟨hStored, hFake⟩, rfl⟩

theorem AckMem.reply_eq_none {am : AckMem} {h : Identifier} (hUnknown : h ∉ am.microblockMap) :
    am.reply h = none := by
  unfold reply findMicroblock
  rw [Finmap.lookup_eq_none.mpr hUnknown]
  rfl

/-- Marking a microblock as requested changes no later answer. -/
theorem AckMem.reply_store {am : AckMem} {past : List Identifier} (hWell : am.WellFormed past)
    {h : Identifier} {found : MicroBlock} (hReply : am.reply h = some found) (h' : Identifier) :
    (am.store found).reply h' = am.reply h' := by
  obtain ⟨mb, hStored, hFake, rfl⟩ := reply_eq_some.mp hReply
  have hHash : mb.hash = h := hWell.stored_hash h mb hStored
  by_cases hSame : h' = h
  · rw [hSame, hReply, reply_eq_some]
    refine ⟨{ mb with isRequested := true }, ?_, hFake, rfl⟩
    simp [store, hHash]
  · unfold reply findMicroblock
    simp only [store, Table.lookup_insert_ite, hHash, if_neg hSame]

namespace Replica

/-- `HandleMissingMBRequest`: the identifiers are answered one after the other. -/
def handleMissingMBRequest (r : Replica) (requesterID : NodeID) (missingMBList : List Identifier) :
    Replica :=
  missingMBList.foldl (fun r mbID => r.handleMissingStableMb requesterID mbID) r

/-- The messages that answer a request. -/
def answers (am : AckMem) (requesterID : NodeID) (hs : List Identifier) :
    List (Recipients × MempoolMessage) :=
  (hs.filterMap am.reply).map fun mb => (.one requesterID, .microBlock mb)

/-- How a request should be answered: with the microblocks whose content is here. -/
structure Serves (am : AckMem) (requesterID : NodeID) (hs : List Identifier)
    (sent : List (Recipients × MempoolMessage)) : Prop where
  answered : ∀ h ∈ hs,
    (∃ mb, (.one requesterID, .microBlock mb) ∈ sent ∧ mb.hash = h) ↔ am.hasContent h = true
  content : ∀ recipients message, (recipients, message) ∈ sent →
    ∃ mb, message = .microBlock mb ∧ mb.hash ∈ hs ∧ mb.isFake = false

variable {cfg : Settings} {keys : KeyRing} {sort : GroupSort} {r r' : Replica}

theorem handleMissingStableMb_cases (r : Replica) (requesterID : NodeID) (h : Identifier) :
    (r.sm.reply h = none ∧ r.handleMissingStableMb requesterID h = r) ∨
      ∃ mb, r.sm.reply h = some mb ∧ r.handleMissingStableMb requesterID h =
        { r with sm := r.sm.store mb }.send (.one requesterID) (.microBlock mb) := by
  unfold handleMissingStableMb AckMem.reply
  cases r.sm.findMicroblock h with
  | none => exact Or.inl ⟨rfl, rfl⟩
  | some mb => exact Or.inr ⟨_, rfl, rfl⟩

/-- Both handlers send the same answers. -/
theorem handleMissingMBRequest_outbox {past : List Identifier} (hWell : r.sm.WellFormed past)
    (requesterID : NodeID) (hs : List Identifier) :
    (r.handleMissingMBRequest requesterID hs).outbox = r.outbox ++ answers r.sm requesterID hs := by
  induction hs generalizing r with
  | nil => simp [handleMissingMBRequest, answers]
  | cons h rest ih =>
      change ((r.handleMissingStableMb requesterID h).handleMissingMBRequest requesterID rest).outbox =
        _
      rcases handleMissingStableMb_cases r requesterID h with ⟨hNone, hEq⟩ | ⟨mb, hSome, hEq⟩
      · rw [hEq, ih hWell]
        simp [answers, hNone]
      · have hStored := hWell.store mb
        have hSame : rest.filterMap (r.sm.store mb).reply = rest.filterMap r.sm.reply :=
          congrArg (rest.filterMap ·) (funext fun h' => AckMem.reply_store hWell hSome h')
        have hNext := ih (r := { r with sm := r.sm.store mb }.send (.one requesterID)
          (.microBlock mb)) hStored
        rw [hEq, hNext]
        simp only [answers, send, hSame, List.filterMap_cons, hSome, List.map_cons,
          List.append_assoc, List.singleton_append]

theorem mem_answers {am : AckMem} {requesterID : NodeID} {hs : List Identifier}
    {recipients : Recipients} {message : MempoolMessage} :
    (recipients, message) ∈ answers am requesterID hs ↔
      ∃ h ∈ hs, ∃ mb, am.reply h = some mb ∧ recipients = .one requesterID ∧
        message = .microBlock mb := by
  simp only [answers, List.mem_map, List.mem_filterMap, Prod.mk.injEq]
  constructor
  · rintro ⟨mb, ⟨h, hMem, hReply⟩, rfl, rfl⟩
    exact ⟨h, hMem, mb, hReply, rfl, rfl⟩
  · rintro ⟨h, hMem, mb, hReply, rfl, rfl⟩
    exact ⟨mb, ⟨h, hMem, hReply⟩, rfl, rfl⟩

/-- Whatever is stored under a requested identifier leads to a wrong answer: content is
not sent, and a placeholder is. -/
theorem serves_answers_iff {am : AckMem} (requesterID : NodeID) (hs : List Identifier) :
    Serves am requesterID hs (answers am requesterID hs) ↔ ∀ h ∈ hs, h ∉ am.microblockMap := by
  constructor
  · intro hServes h hMem hKnown
    obtain ⟨mb, hStored⟩ := Finmap.mem_iff.mp hKnown
    -- nothing that is sent has content
    have hOnly : ∀ found, (.one requesterID, .microBlock found) ∉ answers am requesterID hs := by
      intro found hSent
      obtain ⟨_, hEq, _, hReal⟩ := hServes.content _ _ hSent
      cases hEq
      obtain ⟨_, _, _, hReply, _, hEq⟩ := mem_answers.mp hSent
      cases hEq
      obtain ⟨_, _, hFake, rfl⟩ := AckMem.reply_eq_some.mp hReply
      exact Bool.false_ne_true (hReal.symm.trans hFake)
    cases hFake : mb.isFake with
    | true =>
        have hReply := AckMem.reply_eq_some.mpr ⟨mb, hStored, hFake, rfl⟩
        exact hOnly _ (mem_answers.mpr ⟨h, hMem, _, hReply, rfl, rfl⟩)
    | false =>
        have hContent : am.hasContent h = true := AckMem.hasContent_iff.mpr ⟨mb, hStored, hFake⟩
        obtain ⟨found, hSent, _⟩ := (hServes.answered h hMem).mpr hContent
        exact hOnly found hSent
  · intro hUnknown
    have hNothing : answers am requesterID hs = [] := by
      rw [answers, List.map_eq_nil_iff, List.filterMap_eq_nil_iff]
      exact fun h hMem => AckMem.reply_eq_none (hUnknown h hMem)
    rw [hNothing]
    refine ⟨fun h hMem => ⟨?_, ?_⟩, fun _ _ hSent => absurd hSent List.not_mem_nil⟩
    · rintro ⟨_, hSent, _⟩
      exact absurd hSent List.not_mem_nil
    · intro hContent
      obtain ⟨mb, hStored, _⟩ := AckMem.hasContent_iff.mp hContent
      exact absurd (Table.mem_of_lookup hStored) (hUnknown h hMem)

/-- Everything a replica can be given, requests for several microblocks included. -/
inductive Input where
  | event (event : Dissemination.Event)
  | missingMBRequest (requesterID : NodeID) (missingMBList : List Identifier)

/-- The identifiers that an input asks for. -/
def Input.requested : Input → List Identifier
  | .event (.deliver _ (.missingStableMBRequest _ mbID)) => [mbID]
  | .missingMBRequest _ missingMBList => missingMBList
  | _ => []

def react (cfg : Settings) (keys : KeyRing) (sort : GroupSort) (r : Replica) :
    Input → Outcome Replica
  | .event event => r.handleEvent cfg keys sort event
  | .missingMBRequest requesterID missingMBList =>
      pure (r.handleMissingMBRequest requesterID missingMBList)

/-- No placeholder is sent, except that a forwarded microblock goes to all as it came. -/
structure SendsContent (cfg : Settings) (r : Replica) : Prop where
  outbox : ∀ recipients mb, (recipients, .microBlock mb) ∈ r.outbox →
    mb.isFake = false ∨ cfg.loadBalance = true ∧ recipients = .all
  selfMBChan : ∀ mb ∈ r.selfMBChan, mb.isFake = false

namespace SendsContent

theorem of_eq (h : r.SendsContent cfg) (hOutbox : r'.outbox = r.outbox)
    (hChan : r'.selfMBChan = r.selfMBChan) : r'.SendsContent cfg where
  outbox := hOutbox ▸ h.outbox
  selfMBChan := hChan ▸ h.selfMBChan

theorem send (h : r.SendsContent cfg) {recipients : Recipients} {message : MempoolMessage}
    (hMessage : ∀ mb, message = .microBlock mb →
      mb.isFake = false ∨ cfg.loadBalance = true ∧ recipients = .all) :
    (r.send recipients message).SendsContent cfg where
  outbox recipients' mb hMem := by
    rcases List.mem_append.mp hMem with hOld | hNew
    · exact h.outbox recipients' mb hOld
    · obtain ⟨rfl, rfl⟩ := Prod.mk.inj (List.mem_singleton.mp hNew)
      exact hMessage mb rfl
  selfMBChan := h.selfMBChan

theorem makesFrom (h : r.SendsContent cfg) {mb : MicroBlock} (hReal : mb.isFake = false)
    (hStep : MakesFrom cfg mb r r') : r'.SendsContent cfg := by
  obtain ⟨copy, sm, ⟨list, hops, rfl⟩, _, ⟨_, recipients, _, rfl⟩ | ⟨_, rfl⟩⟩ := hStep
  · refine (h.of_eq rfl rfl : { r with sm }.SendsContent cfg).send fun found hEq => ?_
    cases hEq
    exact Or.inl hReal
  · refine ⟨h.outbox, fun found hMem => ?_⟩
    rcases List.mem_append.mp hMem with hOld | hNew
    · exact h.selfMBChan found hOld
    · cases List.mem_singleton.mp hNew
      exact hReal

theorem loadbalance (h : r.SendsContent cfg) (pick : Option NodeID) :
    (r.loadbalance cfg pick).SendsContent cfg := by
  rcases loadbalance_cases cfg r pick with ⟨_, hEq⟩ | ⟨mb, rest, recipients, isForward, hChan, hEq⟩
  · rw [hEq]
    exact h
  · have hAll : ∀ found ∈ mb :: rest, found.isFake = false := hChan ▸ h.selfMBChan
    have hRest : { r with selfMBChan := rest }.SendsContent cfg :=
      ⟨h.outbox, fun found hMem => hAll found (List.mem_cons_of_mem mb hMem)⟩
    rw [hEq]
    refine hRest.send fun found hSame => ?_
    cases hSame
    exact Or.inl (hAll mb List.mem_cons_self)

theorem handleMicroblock (h : r.SendsContent cfg) {mb : MicroBlock}
    (hStep : r.handleMicroblock cfg keys mb = .ok r') : r'.SendsContent cfg := by
  rcases handleMicroblock_cases hStep with
    ⟨hOn, rfl⟩ | rfl | ⟨_, ⟨_, rfl⟩ | ⟨_, sm, _, hAck⟩⟩
  · exact h.send fun _ _ => Or.inr ⟨hOn, rfl⟩
  · exact h
  · exact h.of_eq rfl rfl
  · rcases acknowledge_cases hAck with ⟨_, ack, _, _, rfl⟩ | ⟨_, rfl | ⟨ack, rfl⟩⟩
    · refine (h.of_eq rfl rfl : SendsContent cfg
        { r with receivedMBs := insert mb.hash r.receivedMBs, sm }).send fun found hEq => ?_
      cases hEq
    · exact h.of_eq rfl rfl
    · exact h.of_eq rfl rfl

/-- The only other microblocks that a replica sends are its answers. -/
theorem handleEvent (h : r.SendsContent cfg) {event : Dissemination.Event}
    (hWell : ∃ past, r.sm.WellFormed past)
    (hUnknown : ∀ h ∈ (Input.event event).requested, h ∉ r.sm.microblockMap)
    (hStep : r.handleEvent cfg keys sort event = .ok r') : r'.SendsContent cfg := by
  rcases handleEvent_cases hWell hStep with hRetains | ⟨_, _, _, _, _, hMakes⟩ | ⟨pick, _, rfl⟩ |
    ⟨_, _, _, hReceived⟩ | ⟨_, requesterID, mbID, rfl, rfl⟩
  · exact h.of_eq hRetains.outbox hRetains.selfMBChan
  · exact h.makesFrom rfl hMakes
  · exact h.loadbalance pick
  · exact h.handleMicroblock hReceived
  · have hNone := AckMem.reply_eq_none (hUnknown mbID (List.mem_singleton.mpr rfl))
    rcases handleMissingStableMb_cases r requesterID mbID with ⟨_, hEq⟩ | ⟨_, hSome, _⟩
    · rw [hEq]
      exact h
    · rw [hNone] at hSome
      cases hSome

end SendsContent

/-- Requests for what is unknown change nothing. -/
theorem handleMissingMBRequest_eq {requesterID : NodeID} {hs : List Identifier}
    (hUnknown : ∀ h ∈ hs, h ∉ r.sm.microblockMap) :
    r.handleMissingMBRequest requesterID hs = r := by
  induction hs with
  | nil => rfl
  | cons first rest ih =>
      have hRest := ih fun h hMem => hUnknown h (List.mem_cons_of_mem first hMem)
      change (r.handleMissingStableMb requesterID first).handleMissingMBRequest requesterID rest = r
      rcases handleMissingStableMb_cases r requesterID first with ⟨_, hEq⟩ | ⟨_, hSome, _⟩
      · rw [hEq]
        exact hRest
      · rw [AckMem.reply_eq_none (hUnknown first List.mem_cons_self)] at hSome
        cases hSome

theorem Carries.handleMissingMBRequest {P : MicroBlock → Prop} {Q : Stable → Prop}
    (hCopied : Copied P Q) (h : r.Carries P Q) (requesterID : NodeID) (hs : List Identifier) :
    (r.handleMissingMBRequest requesterID hs).Carries P Q := by
  induction hs generalizing r with
  | nil => exact h
  | cons first rest ih => exact ih (h.handleMissingStableMb hCopied requesterID first)

theorem react_carries {input : Input} (h : r.Carries (fun _ => True) fun _ => True)
    (hStep : r.react cfg keys sort input = .ok r') : r'.Carries (fun _ => True) fun _ => True := by
  cases input with
  | event event => exact h.handleEvent copied_true (event_carries_true event) hStep
  | missingMBRequest requesterID missingMBList =>
      cases Outcome.pure_eq_ok.mp hStep
      exact h.handleMissingMBRequest copied_true requesterID missingMBList

theorem run_carries {id : NodeID} {inputs : List Input}
    (hRun : run (react cfg keys sort) (new cfg id) inputs = .ok r) :
    r.Carries (fun _ => True) fun _ => True :=
  run_invariant (P := fun r => r.Carries (fun _ => True) fun _ => True)
    (fun _ _ _ h hStep => react_carries h hStep) hRun (new_carries cfg id)

theorem SendsContent.react {input : Input} (h : r.SendsContent cfg)
    (hWell : ∃ past, r.sm.WellFormed past)
    (hUnknown : ∀ h ∈ input.requested, h ∉ r.sm.microblockMap)
    (hStep : r.react cfg keys sort input = .ok r') : r'.SendsContent cfg := by
  cases input with
  | event event => exact h.handleEvent hWell hUnknown hStep
  | missingMBRequest requesterID missingMBList =>
      cases Outcome.pure_eq_ok.mp hStep
      have hNothing : ∀ h ∈ missingMBList, h ∉ r.sm.microblockMap := hUnknown
      rw [handleMissingMBRequest_eq hNothing]
      exact h

/-- In every state a replica can be brought into, requests are answered as they should be
exactly where nothing is stored under the requested identifiers. If all requests of a run
are like that, no placeholder is ever sent, except that with load balancing a forwarded
one goes to all as it came. -/
theorem retransmission_serves_content_iff {id : NodeID} {inputs : List Input}
    (hRun : run (react cfg keys sort) (new cfg id) inputs = .ok r) :
    (∀ requesterID h, ∃ sent, (r.handleMissingStableMb requesterID h).outbox = r.outbox ++ sent ∧
      (Serves r.sm requesterID [h] sent ↔ h ∉ r.sm.microblockMap)) ∧
    (∀ requesterID hs, ∃ sent, (r.handleMissingMBRequest requesterID hs).outbox = r.outbox ++ sent ∧
      (Serves r.sm requesterID hs sent ↔ ∀ h ∈ hs, h ∉ r.sm.microblockMap)) ∧
    (Guarded (react cfg keys sort) (fun r input => ∀ h ∈ input.requested, h ∉ r.sm.microblockMap)
        (new cfg id) inputs →
      ∀ recipients mb, (recipients, .microBlock mb) ∈ r.outbox →
        mb.isFake = false ∨ cfg.loadBalance = true ∧ recipients = .all) := by
  obtain ⟨past, hWell⟩ := (run_carries hRun).sm.wellFormed
  have hList : ∀ requesterID hs, ∃ sent,
      (r.handleMissingMBRequest requesterID hs).outbox = r.outbox ++ sent ∧
      (Serves r.sm requesterID hs sent ↔ ∀ h ∈ hs, h ∉ r.sm.microblockMap) :=
    fun requesterID hs => ⟨answers r.sm requesterID hs,
      handleMissingMBRequest_outbox hWell requesterID hs, serves_answers_iff requesterID hs⟩
  refine ⟨fun requesterID h => ?_, hList, fun hGuard => ?_⟩
  · obtain ⟨sent, hSent, hServes⟩ := hList requesterID [h]
    rw [List.forall_mem_singleton] at hServes
    exact ⟨sent, hSent, hServes⟩
  · have hEnd := guarded_run_invariant (P := fun r : Replica =>
      r.Carries (fun _ => True) (fun _ => True) ∧ r.SendsContent cfg)
      ?_ hGuard hRun ⟨new_carries cfg id, fun _ _ hSent => absurd hSent List.not_mem_nil,
        fun _ hWaiting => absurd hWaiting List.not_mem_nil⟩
    · exact hEnd.2.outbox
    rintro before input after ⟨hCarries, hSends⟩ hUnknown hStep
    exact ⟨react_carries hCarries hStep, hSends.react hCarries.sm.wellFormed hUnknown hStep⟩

end Replica

namespace Scenario

/-- The replica has made 1 and has heard that 2 is stable. -/
def oneAndTwo : List Replica.Input :=
  [.event (.handleTxn 1 0 [] 0), .event (.deliver 0 (.stable { microblockID := 2 }))]

/-- Then it is asked for 7 and 8. -/
def askedForUnknown : List Replica.Input :=
  oneAndTwo ++ [.missingMBRequest "3" [7, 8]]

end Scenario

namespace Replica

theorem retransmission_serves_content_unknown :
    ∃ r, run (react Scenario.pool Scenario.keys Scenario.sortByGroup) (new Scenario.pool "1")
        Scenario.askedForUnknown = .ok r ∧
      (∃ sent, (r.handleMissingStableMb "3" 7).outbox = r.outbox ++ sent ∧
        Serves r.sm "3" [7] sent) ∧
      ∀ recipients mb, (recipients, .microBlock mb) ∈ r.outbox → mb.isFake = false ∨
        Scenario.pool.loadBalance = true ∧ recipients = .all := by
  obtain ⟨r, hBefore, hSeven, hEight⟩ := Outcome.of_test
    (P := fun r : Replica => 7 ∉ r.sm.microblockMap ∧ 8 ∉ r.sm.microblockMap)
    (x := run (react Scenario.pool Scenario.keys Scenario.sortByGroup) (new Scenario.pool "1")
      Scenario.oneAndTwo) (by decide)
  have hUnknown : ∀ h ∈ [7, 8], h ∉ r.sm.microblockMap := by simpa using ⟨hSeven, hEight⟩
  have hRun : run (react Scenario.pool Scenario.keys Scenario.sortByGroup) (new Scenario.pool "1")
      Scenario.askedForUnknown = .ok r := by
    refine (run_snoc _ r Scenario.oneAndTwo _).mpr ⟨r, hBefore, ?_⟩
    exact congrArg Except.ok (handleMissingMBRequest_eq hUnknown)
  obtain ⟨hOne, _, hReal⟩ := retransmission_serves_content_iff hRun
  obtain ⟨sent, hSent, hServes⟩ := hOne "3" 7
  refine ⟨r, hRun, ⟨sent, hSent, hServes.mpr hSeven⟩,
    hReal (.append (guarded_of_mem ?_) hBefore ⟨hUnknown, fun _ _ => trivial⟩)⟩
  have hQuiet : ∀ input ∈ Scenario.oneAndTwo, Input.requested input = [] := by
    simp [Scenario.oneAndTwo, Input.requested]
  intro _ input hMem h hAsked
  rw [hQuiet input hMem] at hAsked
  exact absurd hAsked List.not_mem_nil

/-- The content of 1 is not sent. For 2 a placeholder is sent, and the requester takes it
for the missing microblock. -/
theorem retransmission_serves_placeholder :
    ∃ r placeholder requester, run (react Scenario.pool Scenario.keys Scenario.sortByGroup)
        (new Scenario.pool "1") Scenario.oneAndTwo = .ok r ∧
      r.sm.hasContent 1 = true ∧ (r.handleMissingStableMb "3" 1).outbox = r.outbox ∧
      r.sm.hasContent 2 = false ∧ placeholder.isFake = true ∧
      (r.handleMissingMBRequest "3" [1, 2]).outbox =
        r.outbox ++ [(.one "3", .microBlock placeholder)] ∧
      (new Scenario.pool "3").handleMicroblock Scenario.pool Scenario.keys placeholder =
        .ok requester ∧
      requester.sm.microblockMap.lookup 2 = some placeholder ∧ 2 ∈ requester.receivedMBs := by
  obtain ⟨r, hRun, hFirst, hNone, hSecond, hSome⟩ := Outcome.of_test
    (P := fun r : Replica => r.sm.hasContent 1 = true ∧ r.sm.reply 1 = none ∧
      r.sm.hasContent 2 = false ∧
      r.sm.reply 2 = some { hash := 2, isFake := true, isRequested := true })
    (x := run (react Scenario.pool Scenario.keys Scenario.sortByGroup) (new Scenario.pool "1")
      Scenario.oneAndTwo) (by decide)
  obtain ⟨requester, hTaken, hStored⟩ := Outcome.of_test
    (P := fun requester : Replica => requester.sm.microblockMap.lookup 2 =
        some { hash := 2, isFake := true, isRequested := true } ∧ 2 ∈ requester.receivedMBs)
    (x := (new Scenario.pool "3").handleMicroblock Scenario.pool Scenario.keys
      { hash := 2, isFake := true, isRequested := true }) (by decide)
  obtain ⟨past, hPast⟩ := (run_carries hRun).sm.wellFormed
  refine ⟨r, _, requester, hRun, hFirst, ?_, hSecond, rfl, ?_, hTaken, hStored⟩
  · rcases handleMissingStableMb_cases r "3" 1 with ⟨_, hEq⟩ | ⟨mb, hReply, _⟩
    · rw [hEq]
    · rw [hNone] at hReply
      cases hReply
  · rw [handleMissingMBRequest_outbox hPast, answers, List.filterMap_cons_none hNone,
      List.filterMap_cons_some hSome]
    rfl

end Replica
end Bamboo
