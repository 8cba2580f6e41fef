import Bamboo.HotStuff.Progress

/-! Proposals that arrive in any order, some of them twice. A proposal too far ahead waits in
the buffer; the one before it takes it up, and so on along the views that have arrived. What a
replica has stored, committed, announced and voted for is that of the views before the first
one that is missing. -/
namespace Bamboo

open Library

namespace FaultFree

variable (s : FaultFree)

/-- A replica that leads none of the views, so that it neither proposes nor counts votes. -/
structure Follower (last : Nat) (r : NodeID) : Prop where
  mem : r ∈ s.peers
  ne_leader : ∀ view, view ≤ last + 1 → r ≠ s.leader view

/-- What a follower holds after the proposals of some views, of which those up to `reached` are
the ones before the first gap, when some of the views it has announced have been received. -/
structure CaughtUp (last : Nat) (r : NodeID) (received : List View) (arrived : List Nat)
    (reached : Nat) (hs : HotStuff) : Prop where
  inStep : s.InStep last hs.bufferedBlocks r reached reached hs
  mem_arrived : ∀ view, 1 ≤ view → view ≤ reached → view ∈ arrived
  missing : reached + 1 ∉ arrived
  buffered : ∀ (key : View) (block : Block), hs.bufferedBlocks.lookup key = some block ↔
    ∃ view ∈ arrived, reached + 1 < view ∧ key = (view : View) - 1 ∧ block = s.block r view
  announced : received ++ hs.pm.newViewChan = (List.range' 1 reached).map Nat.cast
  sent : ∀ message, message ∈ hs.outbox ↔ ∃ view, 1 ≤ view ∧ view ≤ reached ∧
    message ∈ s.votesSent view r

variable {s} {last : Nat} {waiting : Table View Block} {r : NodeID} {seen : Nat} {hs : HotStuff}

theorem new_caughtUp (last : Nat) (r : NodeID) :
    s.CaughtUp last r [] [] 0 (.new r false s.peers.card) where
  inStep := new_inStep last r
  mem_arrived view hOne hReached := by omega
  missing := List.not_mem_nil
  buffered key block := by
    simp only [List.not_mem_nil, false_and, exists_false, iff_false]
    intro h
    cases (Finmap.lookup_empty key).symm.trans h
  announced := rfl
  sent message := by
    constructor
    · exact fun h => absurd h List.not_mem_nil
    · rintro ⟨view, hOne, hReached, _⟩
      omega

/-- The turn of a follower for the next proposal. -/
theorem InStep.follows (hDistinct : s.Distinct last) (hFollower : s.Follower last r)
    (h : s.InStep last waiting r seen seen hs) (hLast : seen + 1 ≤ last) :
    ∃ taken accept voted,
      (hs.logCall (s.block r (seen + 1))).takeUp s.cfg (s.block r (seen + 1)) =
        .ok (taken, .votes accept) ∧
      taken.castVote s.cfg ⟨s.block r (seen + 1), hs.snapshot, accept, taken.snapshot⟩ =
        .ok voted ∧
      s.InStep last waiting r (seen + 1) (seen + 1) voted ∧
      voted.pm.newViewChan = hs.pm.newViewChan ++ [((seen + 1 : Nat) : View)] ∧
      voted.outbox = hs.outbox ++ s.votesSent (seen + 1) r := by
  have hOther := hFollower.ne_leader (seen + 1) (by omega)
  obtain ⟨taken, accept, voted, hTakeUp, hCast, hVoted, hSent⟩ :=
    h.votes hDistinct (if_neg hOther).symm hFollower.mem hLast
  unfold Voted at hVoted
  rw [if_neg (hFollower.ne_leader (seen + 1 + 1) (by omega)), if_neg hOther] at hVoted
  exact ⟨taken, accept, voted, hTakeUp, hCast, hVoted.1, hVoted.2, hSent⟩

/-- The next proposal takes up those of the following views that wait, up to the first one that
does not. A block is removed from the buffer only after the call for it has returned. -/
theorem InStep.release (hDistinct : s.Distinct last) (hFollower : s.Follower last r)
    {count depth : Nat} (h : s.InStep last waiting r seen seen hs)
    (hLast : seen + 1 + count ≤ last)
    (hHeld : ∀ i < count,
      waiting.lookup ((seen + 1 + i : Nat) : View) = some (s.block r (seen + 1 + i + 1)))
    (hGap : waiting.lookup ((seen + 1 + count : Nat) : View) = none) (hDepth : count < depth) :
    ∃ hs', HotStuff.processBlockDepth s.cfg depth hs (s.block r (seen + 1)) = .ok (hs', .ok ()) ∧
      s.InStep last hs'.bufferedBlocks r (seen + 1 + count) (seen + 1 + count) hs' ∧
      (∀ key : View, hs'.bufferedBlocks.lookup key =
        if (seen : View) < key ∧ key < ((seen + 1 + count : Nat) : View) then none
        else waiting.lookup key) ∧
      hs'.pm.newViewChan = hs.pm.newViewChan ++ (List.range' (seen + 1) (count + 1)).map Nat.cast ∧
      hs'.outbox = hs.outbox ++ (List.range' (seen + 1) (count + 1)).flatMap (s.votesSent · r) := by
  induction count generalizing seen hs depth with
  | zero =>
      obtain ⟨depth, rfl⟩ := Nat.exists_eq_add_of_lt hDepth
      obtain ⟨taken, accept, voted, hTakeUp, hCast, hVoted, hChan, hSent⟩ :=
        h.follows hDistinct hFollower hLast
      refine ⟨voted, ?_, hVoted.bufferedBlocks ▸ hVoted, ?_, hChan, ?_⟩
      · have hNext : voted.bufferedBlocks.lookup (s.block r (seen + 1)).view = none := by
          rw [hVoted.bufferedBlocks]
          exact hGap
        rw [HotStuff.processBlockDepth, hTakeUp, Outcome.ok_bind]
        dsimp only
        rw [hCast, Outcome.ok_bind, hNext]
        rfl
      · intro key
        rw [hVoted.bufferedBlocks, if_neg (by lia)]
      · rw [hSent]
        simp
  | succ count ih =>
      obtain ⟨depth, rfl⟩ := Nat.exists_eq_add_of_lt hDepth
      obtain ⟨taken, accept, voted, hTakeUp, hCast, hVoted, hChan, hSent⟩ :=
        h.follows hDistinct hFollower (by omega)
      have hShift : ∀ i, seen + 1 + 1 + i = seen + 1 + (i + 1) := by omega
      obtain ⟨final, hProcess, hFinal, hTable, hFinalChan, hFinalSent⟩ :=
        ih hVoted (by omega) (fun i hi => hShift i ▸ hHeld (i + 1) (by omega))
          (hShift count ▸ hGap) (show count < count + 1 + depth by omega)
      have hNext : voted.bufferedBlocks.lookup (s.block r (seen + 1)).view =
          some (s.block r (seen + 1 + 1)) := by
        rw [hVoted.bufferedBlocks]
        exact hHeld 0 (by omega)
      refine ⟨{ final with
        bufferedBlocks := final.bufferedBlocks.erase (s.block r (seen + 1)).view }, ?_, ?_, ?_, ?_, ?_⟩
      · rw [HotStuff.processBlockDepth, hTakeUp, Outcome.ok_bind]
        dsimp only
        rw [hCast, Outcome.ok_bind, hNext]
        dsimp only
        rw [hProcess]
        rfl
      · rw [hShift] at hFinal
        exact { hFinal with bufferedBlocks := rfl }
      · intro key
        have hView : (s.block r (seen + 1)).view = ((seen + 1 : Nat) : View) := rfl
        dsimp only
        rw [Table.lookup_erase_ite, hView, hTable key]
        split_ifs <;> first | rfl | lia
      · dsimp only
        rw [hFinalChan, hChan, List.range'_succ, List.map_cons, List.append_assoc]
        rfl
      · dsimp only
        rw [hFinalSent, hSent, List.range'_succ (s := seen + 1), List.flatMap_cons, List.append_assoc]

/-- A proposal too far ahead waits. -/
theorem InStep.delay (h : s.InStep last waiting r seen seen hs) {view : Nat}
    (hAhead : seen + 1 < view) :
    ∃ hs', hs.processBlock s.cfg (s.block r view) = .ok (hs', .ok ()) ∧
      s.InStep last (waiting.insert ((view : View) - 1) (s.block r view)) r seen seen hs' ∧
      hs'.pm.newViewChan = hs.pm.newViewChan ∧ hs'.outbox = hs.outbox := by
  have hCurrent := h.curView
  have hView : (s.block r view).view = (view : View) := rfl
  let logged := hs.logCall (s.block r view)
  refine ⟨{ logged with
    bufferedBlocks := hs.bufferedBlocks.insert ((view : View) - 1) (s.block r view) }, ?_, ?_, rfl, rfl⟩
  · have hTakeUp : logged.takeUp s.cfg (s.block r view) = .ok ({ logged with
        bufferedBlocks := hs.bufferedBlocks.insert ((view : View) - 1) (s.block r view) },
          .returns (.ok ())) := by
      unfold HotStuff.takeUp
      rw [checkSignature_eq logged view (by omega), Outcome.ok_bind]
      exact if_pos (show hs.pm.curView + 1 < (view : View) by lia)
    rw [HotStuff.processBlock, HotStuff.processBlockDepth, hTakeUp]
    rfl
  · exact { h with bufferedBlocks := congrArg (Finmap.insert _ _) h.bufferedBlocks }

/-- The certificate of a proposal that is not ahead changes nothing. -/
theorem InStep.processBlockQC_old (hFollower : s.Follower last r)
    (h : s.InStep last waiting r seen seen hs) {view : Nat} (hOne : 1 ≤ view) (hOld : view ≤ seen)
    (hLast : seen ≤ last) :
    hs.processBlockQC s.cfg (s.block r view) (s.certified (view - 1)) = .ok hs := by
  have hHigh : hs.updateHighQC (s.certified (view - 1)) = hs := by
    unfold HotStuff.updateHighQC
    rw [h.highQC, certified_view, certified_view, if_neg (by lia)]
  have hCurrent := h.curView
  have hOther : (s.block r view).proposer ≠ hs.id := by
    rw [h.id]
    exact (hFollower.ne_leader view (by omega)).symm
  unfold HotStuff.processBlockQC
  rw [if_neg hOther, hHigh, HotStuff.processCertificate, certified_view, if_pos (by lia)]
  rfl

/-- A proposal of an earlier view is dropped. -/
theorem InStep.drop (hFollower : s.Follower last r) (h : s.InStep last waiting r seen seen hs)
    {view : Nat} (hOne : 1 ≤ view) (hOld : view < seen) (hLast : seen ≤ last) :
    hs.processBlock s.cfg (s.block r view) = .ok (hs.logCall (s.block r view), .ok ()) := by
  have hLogged : s.InStep last waiting r seen seen (hs.logCall (s.block r view)) := { h with }
  have hCurrent := hLogged.curView
  have hView : (s.block r view).view = (view : View) := rfl
  have hTakeUp := HotStuff.takeUp_stale rfl (checkSignature_eq _ view hOne) (by lia)
    (hLogged.processBlockQC_old hFollower hOne hOld.le hLast) (by lia)
  rw [HotStuff.processBlock, HotStuff.processBlockDepth, hTakeUp]
  rfl

/-- The proposal of the current view is stored once, but voted for again. -/
theorem InStep.again (hDistinct : s.Distinct last) (hFollower : s.Follower last r)
    (h : s.InStep last waiting r seen seen hs) (hOne : 1 ≤ seen) (hLast : seen ≤ last)
    (hGap : waiting.lookup (seen : View) = none) :
    ∃ hs', hs.processBlock s.cfg (s.block r seen) = .ok (hs', .ok ()) ∧
      s.InStep last waiting r seen seen hs' ∧
      hs'.pm.newViewChan = hs.pm.newViewChan ∧ hs'.outbox = hs.outbox ++ s.votesSent seen r := by
  let logged := hs.logCall (s.block r seen)
  have hLogged : s.InStep last waiting r seen seen logged := { h with }
  have hCurrent := hLogged.curView
  have hView : (s.block r seen).view = (seen : View) := rfl
  have hStored : logged.bc.addBlock (s.container r seen) = logged.bc := by
    rw [BlockChain.addBlock, hLogged.forrest.addVertex_again (consecutive hDistinct r) hOne
      (by omega) (le_refl _) hLast]
  have hStore : logged.storeBlock s.cfg (s.container r seen) = .ok logged := by
    have hNone : logged.bufferedQCs.lookup (s.block r seen).id = none := by
      rw [hLogged.bufferedQCs, Finmap.lookup_empty]
    unfold HotStuff.storeBlock
    dsimp only
    rw [hStored, show (s.container r seen).block = s.block r seen from rfl, hNone]
    rfl
  have hTakeUp := HotStuff.takeUp_votes rfl (checkSignature_eq logged seen hOne) (by lia)
    (hLogged.processBlockQC_old hFollower hOne (le_refl _) hLast) hCurrent.le
    ((s.isLeader_iff _ (s.leader_mem _) _).mpr rfl) hStore
    (hLogged.votingRule hDistinct hOne hLast)
  obtain ⟨voted, hCast, hVoted, hSent⟩ := hLogged.castVote hDistinct hFollower.mem hOne hLast
    (fun hLeader => absurd hLeader (hFollower.ne_leader _ (by omega)))
    ⟨s.block r seen, hs.snapshot, logged.snapshot, logged.snapshot⟩ rfl
  unfold Voted at hVoted
  rw [if_neg (hFollower.ne_leader _ (by omega))] at hVoted
  refine ⟨voted, ?_, hVoted.1, hVoted.2, hSent⟩
  rw [HotStuff.processBlock, HotStuff.processBlockDepth, hTakeUp, Outcome.ok_bind]
  dsimp only
  rw [hCast, Outcome.ok_bind, hVoted.1.bufferedBlocks, hView, hGap]
  rfl

section Deliveries

variable {received : List View} {arrived : List Nat} {reached : Nat}

theorem CaughtUp.reached_le (h : s.CaughtUp last r received arrived reached hs)
    (hArrived : ∀ view ∈ arrived, view ≤ last) : reached ≤ last := by
  rcases Nat.eq_zero_or_pos reached with hZero | hPositive
  · omega
  · exact hArrived reached (h.mem_arrived reached hPositive (le_refl _))

/-- Nothing new is learnt from a proposal that has been processed. -/
theorem CaughtUp.known {hs' : HotStuff} (h : s.CaughtUp last r received arrived reached hs) {view : Nat}
    (hReached : view ≤ reached)
    (hStep : s.InStep last hs.bufferedBlocks r reached reached hs')
    (hChan : hs'.pm.newViewChan = hs.pm.newViewChan)
    (hSent : ∀ message, message ∈ hs'.outbox ↔ message ∈ hs.outbox) :
    s.CaughtUp last r received (arrived ++ [view]) reached hs' where
  inStep := hStep.bufferedBlocks ▸ hStep
  mem_arrived found hOne hFound := List.mem_append_left _ (h.mem_arrived found hOne hFound)
  missing hMem := by
    rcases List.mem_append.mp hMem with hOld | hNew
    · exact h.missing hOld
    · have := List.mem_singleton.mp hNew
      omega
  buffered key block := by
    rw [hStep.bufferedBlocks, h.buffered]
    constructor
    · rintro ⟨found, hMem, hAhead, hRest⟩
      exact ⟨found, List.mem_append_left _ hMem, hAhead, hRest⟩
    · rintro ⟨found, hMem, hAhead, hRest⟩
      rcases List.mem_append.mp hMem with hOld | hNew
      · exact ⟨found, hOld, hAhead, hRest⟩
      · have := List.mem_singleton.mp hNew
        omega
  announced := hChan ▸ h.announced
  sent message := (hSent message).trans (h.sent message)

/-- A proposal too far ahead is one more that waits. -/
theorem CaughtUp.delay (h : s.CaughtUp last r received arrived reached hs) {view : Nat}
    (hAhead : reached + 1 < view) :
    ∃ hs', hs.processBlock s.cfg (s.block r view) = .ok (hs', .ok ()) ∧
      s.CaughtUp last r received (arrived ++ [view]) reached hs' := by
  obtain ⟨hs', hProcess, hStep, hChan, hOutbox⟩ := h.inStep.delay hAhead
  refine ⟨hs', hProcess, ?_⟩
  exact {
    inStep := hStep.bufferedBlocks ▸ hStep
    mem_arrived := fun found hOne hFound =>
      List.mem_append_left _ (h.mem_arrived found hOne hFound)
    missing := by
      intro hMem
      rcases List.mem_append.mp hMem with hOld | hNew
      · exact h.missing hOld
      · have := List.mem_singleton.mp hNew
        omega
    buffered := by
      intro key block
      rw [hStep.bufferedBlocks, Table.lookup_insert_ite]
      split_ifs with hKey
      · constructor
        · intro hBlock
          exact ⟨view, by simp, hAhead, hKey, (Option.some.inj hBlock).symm⟩
        · rintro ⟨found, _, _, hFound, rfl⟩
          rw [show found = view by lia]
      · rw [h.buffered]
        constructor
        · rintro ⟨found, hMem, hRest⟩
          exact ⟨found, List.mem_append_left _ hMem, hRest⟩
        · rintro ⟨found, hMem, hFar, hFound, hBlock⟩
          rcases List.mem_append.mp hMem with hOld | hNew
          · exact ⟨found, hOld, hFar, hFound, hBlock⟩
          · rw [List.mem_singleton.mp hNew] at hFound
            exact absurd hFound hKey
    announced := hChan ▸ h.announced
    sent := fun message => by rw [hOutbox, h.sent] }

/-- The first view after the missing one whose proposal is missing as well. -/
theorem exists_gap (hArrived : ∀ view ∈ arrived, view ≤ last) (hLast : reached + 1 ≤ last) :
    ∃ count, reached + 1 + count ≤ last ∧ reached + 1 + count + 1 ∉ arrived ∧
      ∀ i < count, reached + 1 + i + 1 ∈ arrived := by
  have hSomeGap : ∃ count, reached + 1 + count + 1 ∉ arrived :=
    ⟨last, fun hMem => by have := hArrived _ hMem; omega⟩
  have hHeld : ∀ i < Nat.find hSomeGap, reached + 1 + i + 1 ∈ arrived := fun i hi =>
    not_not.mp (Nat.find_min hSomeGap hi)
  refine ⟨Nat.find hSomeGap, ?_, Nat.find_spec hSomeGap, hHeld⟩
  rcases Nat.eq_zero_or_pos (Nat.find hSomeGap) with hZero | hPositive
  · omega
  · have := hArrived _ (hHeld (Nat.find hSomeGap - 1) (by omega))
    omega

/-- A block stands in the buffer under the view before its own. -/
theorem CaughtUp.lookup_eq_some (h : s.CaughtUp last r received arrived reached hs) {view : Nat}
    (hMem : view + 1 ∈ arrived) (hAhead : reached < view) :
    hs.bufferedBlocks.lookup (view : View) = some (s.block r (view + 1)) :=
  (h.buffered _ _).mpr ⟨_, hMem, by omega, by lia, rfl⟩

theorem CaughtUp.lookup_eq_none (h : s.CaughtUp last r received arrived reached hs) {view : Nat}
    (hMem : view + 1 ∉ arrived) : hs.bufferedBlocks.lookup (view : View) = none := by
  rw [Option.eq_none_iff_forall_ne_some]
  intro block hBlock
  obtain ⟨found, hFound, _, hKey, _⟩ := (h.buffered _ _).mp hBlock
  rw [show found = view + 1 by lia] at hFound
  exact hMem hFound

/-- Blocks under consecutive views are as many keys of the buffer. -/
theorem le_card_keys {waiting : Table View Block} {first count : Nat}
    (hHeld : ∀ i < count, ((first + i : Nat) : View) ∈ waiting) : count ≤ waiting.keys.card := by
  have hInjective : Function.Injective fun i : Nat => ((first + i : Nat) : View) := by
    intro i j hSame
    dsimp only at hSame
    lia
  rw [← Finset.card_range count, ← Finset.card_image_of_injective _ hInjective]
  apply Finset.card_le_card
  intro key hKey
  obtain ⟨i, hi, rfl⟩ := Finset.mem_image.mp hKey
  exact Finmap.mem_keys.mpr (hHeld i (Finset.mem_range.mp hi))

/-- The first missing proposal closes the gap up to the next one. -/
theorem CaughtUp.advance (hDistinct : s.Distinct last) (hFollower : s.Follower last r)
    (h : s.CaughtUp last r received arrived reached hs) (hArrived : ∀ view ∈ arrived, view ≤ last)
    (hLast : reached + 1 ≤ last) :
    ∃ hs' reached', hs.processBlock s.cfg (s.block r (reached + 1)) = .ok (hs', .ok ()) ∧
      s.CaughtUp last r received (arrived ++ [reached + 1]) reached' hs' := by
  obtain ⟨count, hCount, hGap, hHeld⟩ := exists_gap hArrived hLast
  have hFull : ∀ i < count, hs.bufferedBlocks.lookup ((reached + 1 + i : Nat) : View) =
      some (s.block r (reached + 1 + i + 1)) := fun i hi =>
    h.lookup_eq_some (hHeld i hi) (by omega)
  have hDepth : count < hs.bufferedBlocks.keys.card + 1 :=
    Nat.lt_succ_of_le (le_card_keys fun i hi => Table.mem_of_lookup (hFull i hi))
  obtain ⟨hs', hProcess, hStep, hTable, hChan, hOutbox⟩ :=
    h.inStep.release hDistinct hFollower hCount hFull (h.lookup_eq_none hGap) hDepth
  refine ⟨hs', reached + 1 + count, hProcess, ?_⟩
  exact {
    inStep := hStep
    mem_arrived := by
      intro view hOne hView
      rcases Nat.lt_trichotomy view (reached + 1) with hOld | rfl | hNew
      · exact List.mem_append_left _ (h.mem_arrived view hOne (by omega))
      · simp
      · apply List.mem_append_left
        rw [show view = reached + 1 + (view - reached - 2) + 1 by omega]
        exact hHeld _ (by omega)
    missing := by
      intro hMem
      rcases List.mem_append.mp hMem with hOld | hNew
      · exact hGap hOld
      · have := List.mem_singleton.mp hNew
        omega
    buffered := by
      intro key block
      rw [hTable]
      split_ifs with hTaken
      · simp only [false_iff]
        rintro ⟨view, _, hFar, hKey, _⟩
        lia
      · rw [h.buffered]
        constructor
        · rintro ⟨view, hMem, hFar, hKey, hBlock⟩
          have hOther : view ≠ reached + 1 + count + 1 := fun hSame => hGap (hSame ▸ hMem)
          exact ⟨view, List.mem_append_left _ hMem, by lia, hKey, hBlock⟩
        · rintro ⟨view, hMem, hFar, hKey, hBlock⟩
          rcases List.mem_append.mp hMem with hOld | hNew
          · exact ⟨view, hOld, by omega, hKey, hBlock⟩
          · have := List.mem_singleton.mp hNew
            omega
    announced := by
      rw [hChan, ← List.append_assoc, h.announced, ← List.map_append, Nat.add_comm reached 1,
        List.range'_append_1]
      congr 2
      omega
    sent := by
      intro message
      rw [hOutbox, List.mem_append, h.sent]
      simp only [List.mem_flatMap, List.mem_range'_1]
      constructor
      · rintro (⟨view, hOne, hView, hMem⟩ | ⟨view, hRange, hMem⟩)
        · exact ⟨view, hOne, by omega, hMem⟩
        · exact ⟨view, by omega, by omega, hMem⟩
      · rintro ⟨view, hOne, hView, hMem⟩
        by_cases hOld : view ≤ reached
        · exact Or.inl ⟨view, hOne, hOld, hMem⟩
        · exact Or.inr ⟨view, by omega, hMem⟩ }

/-- One more proposal. -/
theorem CaughtUp.deliver (hDistinct : s.Distinct last) (hFollower : s.Follower last r)
    (h : s.CaughtUp last r received arrived reached hs) (hArrived : ∀ view ∈ arrived, view ≤ last)
    {view : Nat} (hOne : 1 ≤ view) (hLast : view ≤ last) :
    ∃ hs' reached', hs.processBlock s.cfg (s.block r view) = .ok (hs', .ok ()) ∧
      s.CaughtUp last r received (arrived ++ [view]) reached' hs' := by
  have hReached := h.reached_le hArrived
  rcases Nat.lt_trichotomy view (reached + 1) with hOld | rfl | hAhead
  · rcases Nat.lt_or_ge view reached with hStale | hCurrent
    · refine ⟨_, reached, h.inStep.drop hFollower hOne hStale hReached, ?_⟩
      exact h.known hStale.le { h.inStep with } rfl fun _ => Iff.rfl
    · obtain rfl : view = reached := by omega
      obtain ⟨hs', hProcess, hStep, hChan, hOutbox⟩ :=
        h.inStep.again hDistinct hFollower hOne hLast (h.lookup_eq_none h.missing)
      refine ⟨hs', view, hProcess, h.known (le_refl _) hStep hChan fun message => ?_⟩
      rw [hOutbox, List.mem_append, or_iff_left_iff_imp]
      exact fun hMem => (h.sent message).mpr ⟨view, hOne, le_refl _, hMem⟩
  · exact h.advance hDistinct hFollower hArrived hLast
  · obtain ⟨hs', hProcess, hDelayed⟩ := h.delay hAhead
    exact ⟨hs', reached, hProcess, hDelayed⟩

/-- A view is taken off the channel. -/
theorem CaughtUp.receive (h : s.CaughtUp last r received arrived reached hs) {view : View}
    {rest : List View} (hChan : hs.pm.newViewChan = view :: rest) :
    s.CaughtUp last r (received ++ [view]) arrived reached
      { hs with pm := { hs.pm with newViewChan := rest } } :=
  { h with
    inStep := { h.inStep with }
    announced := by
      rw [← h.announced, hChan, List.append_assoc]
      rfl }

/-- A follower votes in every view up to the gap. -/
theorem CaughtUp.votes (hFollower : s.Follower last r)
    (h : s.CaughtUp last r received arrived reached hs) (hReached : reached ≤ last)
    (message : Message) :
    message ∈ hs.outbox ↔ ∃ view, 1 ≤ view ∧ view ≤ reached ∧
      message = .vote (s.leader (view + 1)) (s.ballot view r) := by
  rw [h.sent]
  have hVote : ∀ view, view ≤ reached →
      s.votesSent view r = [.vote (s.leader (view + 1)) (s.ballot view r)] := fun view hView =>
    if_neg (hFollower.ne_leader _ (by omega))
  constructor
  · rintro ⟨view, hOne, hView, hMem⟩
    rw [hVote view hView, List.mem_singleton] at hMem
    exact ⟨view, hOne, hView, hMem⟩
  · rintro ⟨view, hOne, hView, rfl⟩
    exact ⟨view, hOne, hView, by rw [hVote view hView]; exact List.mem_singleton.mpr rfl⟩

end Deliveries

theorem alternating_follower (last : Nat) : alternating.Follower last "3" where
  mem := by decide
  ne_leader view _ := by
    simp only [leader, alternating, Scenario.config]
    split_ifs <;> decide

end FaultFree
end Bamboo
