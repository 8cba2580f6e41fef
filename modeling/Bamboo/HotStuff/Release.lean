import Bamboo.HotStuff.HighQC

/-! The blocks that wait for their turn. A block whose view is too far ahead is kept under
the view before its own, and `ProcessBlock` takes it up after a vote for the block of that
view. Nothing else releases a block, so it stays when the view moves in another way. -/
namespace Bamboo

open Library

namespace HotStuff

/-- `processCertificate` enters the view after that of the certificate. -/
def Applies (cfg : Config) (hs : HotStuff) (qc : QC) : Prop :=
  hs.pm.curView ≤ qc.view ∧ hs.certificateVerified cfg qc = .ok true ∧
    (qc.view ≤ 2 ∨ (hs.bc.getParentBlock qc.blockID).isSome)

instance (cfg : Config) (hs : HotStuff) (qc : QC) : Decidable (hs.Applies cfg qc) :=
  inferInstanceAs (Decidable (_ ∧ _ ∧ _))

/-- The view that an action moves to. The move by the certificate of a block is counted
when `ProcessBlock` looks at that certificate first. -/
def Action.movesTo (cfg : Config) (hs : HotStuff) : Action → Option View
  | .raise block qc =>
      if block.proposer ≠ hs.id ∧ hs.Applies cfg qc then some (qc.view + 1) else none
  | .certificate .block _ => none
  | .certificate _ qc => if hs.Applies cfg qc then some (qc.view + 1) else none
  | .advance view => if hs.pm.curView ≤ view then some (view + 1) else none
  | _ => none

/-- The view of the block that `ProcessBlock` goes on with, if its proposer leads it. -/
def Action.ledView (cfg : Config) : Action → Option View
  | .raise block _ =>
      if cfg.election.isLeader block.proposer block.view then some block.view else none
  | _ => none

def Action.stored : Action → Option BlockContainer
  | .store container => some container
  | _ => none

/-- The keys of the buffered blocks that a move to `view` brings within reach. -/
def reached (hs : HotStuff) (view : View) : Finset View :=
  hs.bufferedBlocks.keys.filter fun key => hs.pm.curView < key ∧ key ≤ view

/-- A block within reach waits under `view`. -/
def Due (hs : HotStuff) (view : View) : Prop :=
  view ∈ hs.bufferedBlocks.keys ∧ view ≤ hs.pm.curView

instance (hs : HotStuff) (view : View) : Decidable (hs.Due view) :=
  inferInstanceAs (Decidable (_ ∧ _))

/-- Only the certificate of a block brings a buffered block within reach, the one of the
next view, and then the block is voted for. -/
def Timely (cfg : Config) (hs : HotStuff) (a : Action) : Prop :=
  (∀ view ∈ a.movesTo cfg hs, ∀ key ∈ hs.reached view, a.ledView cfg = some key ∧ view ≤ key) ∧
  ∀ container ∈ a.stored, hs.Due container.block.view →
    hs.bufferedQCs.lookup container.block.id = none ∧
      ({ hs with bc := hs.bc.addBlock container } : HotStuff).votingRule container.block = some true

instance (cfg : Config) (hs : HotStuff) (a : Action) : Decidable (hs.Timely cfg a) :=
  inferInstanceAs (Decidable ((∀ view ∈ a.movesTo cfg hs, ∀ key ∈ hs.reached view, _) ∧
    ∀ container ∈ a.stored, _))

/-- The blocks within reach are those that are being released, whose keys are in `keys`. -/
structure OnTime (keys : Set View) (hs : HotStuff) : Prop where
  honest : hs.isByz = false
  keyed : ∀ key block, hs.bufferedBlocks.lookup key = some block → block.view = key + 1
  due : ∀ key, hs.Due key → key ∈ keys

variable {cfg : Config} {keys : Set View} {hs hs' : HotStuff} {qc : QC} {block : Block}

theorem new_onTime (id : NodeID) (n : Nat) : (HotStuff.new id false n).OnTime ∅ where
  honest := rfl
  keyed key block hLookup := by
    have hEmpty : (∅ : Table View Block).lookup key = some block := hLookup
    rw [Finmap.lookup_empty] at hEmpty
    cases hEmpty
  due key hDue := by
    have hEmpty : key ∈ (∅ : Table View Block).keys := hDue.1
    simp at hEmpty

theorem OnTime.mono {keys' : Set View} (h : hs.OnTime keys) (hKeys : keys ⊆ keys') :
    hs.OnTime keys' :=
  ⟨h.honest, h.keyed, fun key hDue => hKeys (h.due key hDue)⟩

/-- What is not due need not be released. -/
theorem OnTime.drop {view : View} (h : hs.OnTime (insert view keys)) (hNot : ¬hs.Due view) :
    hs.OnTime keys where
  honest := h.honest
  keyed := h.keyed
  due key hDue := by
    rcases h.due key hDue with rfl | hOther
    · exact absurd hDue hNot
    · exact hOther

/-- The view may move where it brings nothing within reach that is not released. -/
theorem OnTime.moves (h : hs.OnTime keys) (hByz : hs'.isByz = hs.isByz)
    (hBuffer : hs'.bufferedBlocks = hs.bufferedBlocks)
    (hReached : ∀ key ∈ hs.reached hs'.pm.curView, key ∈ keys) : hs'.OnTime keys where
  honest := hByz.trans h.honest
  keyed := by
    rw [hBuffer]
    exact h.keyed
  due key hDue := by
    obtain ⟨hKey, hBelow⟩ := hDue
    rw [hBuffer] at hKey
    by_cases hOld : key ≤ hs.pm.curView
    · exact h.due key ⟨hKey, hOld⟩
    · exact hReached key (Finset.mem_filter.mpr ⟨hKey, not_le.mp hOld, hBelow⟩)

theorem reached_curView (hs : HotStuff) : hs.reached hs.pm.curView = ∅ := by
  apply Finset.filter_eq_empty_iff.mpr
  intro key _ hBoth
  exact absurd hBoth.2 (not_le.mpr hBoth.1)

theorem OnTime.of_same (h : hs.OnTime keys) (hByz : hs'.isByz = hs.isByz)
    (hBuffer : hs'.bufferedBlocks = hs.bufferedBlocks) (hView : hs'.pm.curView = hs.pm.curView) :
    hs'.OnTime keys := by
  apply h.moves hByz hBuffer
  rw [hView, reached_curView]
  intro key hKey
  cases hKey

theorem updatePreferredView_stored {locked : HotStuff}
    (h : hs.updatePreferredView qc = some locked) :
    qc.view ≤ 2 ∨ (hs.bc.getParentBlock qc.blockID).isSome := by
  unfold updatePreferredView at h
  split_ifs at h with hExempt
  · exact Or.inl hExempt
  · split at h
    · next hParent =>
        rw [hParent]
        exact Or.inr rfl
    · cases h

/-- The view after a certificate, and that it was applied if the view has moved. -/
theorem processCertificate_moves (hHonest : hs.isByz = false)
    (h : hs.processCertificate cfg qc = .ok hs') :
    hs'.pm.curView = hs.pm.curView ∨ (hs.Applies cfg qc ∧ hs'.pm.curView = qc.view + 1) := by
  rcases processCertificate_cases h with ⟨_, rfl⟩ | ⟨hCurrent, hVerified, hTaken⟩
  · exact Or.inl rfl
  · rcases hTaken with ⟨hByz, _⟩ | ⟨_, rfl⟩ | ⟨locked, hLocked, hApply⟩
    · rw [hHonest] at hByz
      cases hByz
    · exact Or.inl rfl
    · have hStored := updatePreferredView_stored hLocked
      obtain ⟨lock, rfl, _⟩ := updatePreferredView_eq_some hLocked
      obtain ⟨bc, committed, forked, rfl, _⟩ := applyCertificate_spec hApply
      exact Or.inr ⟨⟨hCurrent, hVerified, hStored⟩, Pacemaker.advanceView_curView hCurrent⟩

theorem OnTime.processCertificate (h : hs.OnTime keys)
    (hReached : hs.Applies cfg qc → ∀ key ∈ hs.reached (qc.view + 1), key ∈ keys)
    (hProcess : hs.processCertificate cfg qc = .ok hs') : hs'.OnTime keys := by
  have hQuiet := processCertificate_quiet hProcess
  rcases processCertificate_moves h.honest hProcess with hSame | ⟨hApplies, hView⟩
  · exact h.of_same hQuiet.isByz_eq hQuiet.bufferedBlocks_eq hSame
  · apply h.moves hQuiet.isByz_eq hQuiet.bufferedBlocks_eq
    rw [hView]
    exact hReached hApplies

theorem OnTime.release {view : View} (h : hs.OnTime (insert view keys)) :
    OnTime keys { hs with bufferedBlocks := hs.bufferedBlocks.erase view } where
  honest := h.honest
  keyed key block hLookup := h.keyed key block (Table.of_lookup_erase hLookup)
  due key hDue := by
    obtain ⟨hKey, hBelow⟩ := hDue
    have hErased : key ∈ (hs.bufferedBlocks.erase view).keys := hKey
    rw [Finmap.mem_keys, Finmap.mem_erase] at hErased
    exact (h.due key ⟨Finmap.mem_keys.mpr hErased.2, hBelow⟩).resolve_left hErased.1

/-- The actions of `ProcessBlock` on the block it is given, before the block is stored. -/
def Action.opens : Action → Bool
  | .delay _ | .raise _ _ | .certificate .block _ => true
  | _ => false

/-- Any other action brings nothing within reach. -/
theorem OnTime.act {a : Action} (h : hs.OnTime keys) (hOther : a.opens = false)
    (hTimely : hs.Timely cfg a) (hAct : hs.act cfg a = .ok hs') : hs'.OnTime keys := by
  have hNone : ∀ view ∈ a.movesTo cfg hs, ∀ key ∈ hs.reached view, key ∈ keys := by
    intro view hView key hKey
    obtain ⟨hLed, _⟩ := hTimely.1 view hView key hKey
    cases a with
    | raise => cases hOther
    | _ => cases hLed
  cases a with
  | certificate source qc =>
      refine h.processCertificate (fun hApplies => ?_) hAct
      cases source with
      | block => cases hOther
      | waiting | votes | timeout => exact hNone _ (if_pos hApplies)
  | advance view =>
      cases Outcome.pure_eq_ok.mp hAct
      by_cases hMoves : hs.pm.curView ≤ view
      · have hView : (hs.advanceView view).pm.curView = view + 1 :=
          Pacemaker.advanceView_curView hMoves
        refine h.moves rfl rfl ?_
        rw [hView]
        exact hNone _ (if_pos hMoves)
      · have hStays : hs.pm.advanceView view = hs.pm := if_pos (not_le.mp hMoves)
        exact h.of_same rfl rfl (congrArg Pacemaker.curView hStays)
  | collect tmo =>
      cases Outcome.pure_eq_ok.mp hAct
      exact h.of_same rfl rfl (hs.pm.processRemoteTmo_advances tmo).2
  | release view =>
      cases Outcome.pure_eq_ok.mp hAct
      exact (h.mono (Set.subset_insert view keys)).release
  | delay | raise => cases hOther
  | _ =>
      cases Outcome.pure_eq_ok.mp hAct
      exact h.of_same rfl rfl rfl

theorem OnTime.run {actions : List Action} (h : hs.OnTime keys)
    (hOther : ∀ a ∈ actions, a.opens = false)
    (hGuard : Guarded (HotStuff.act cfg) (Timely cfg) hs actions)
    (hRun : Library.run (HotStuff.act cfg) hs actions = .ok hs') : hs'.OnTime keys := by
  refine guarded_run_invariant ?_ (hGuard.and (guarded_mem hs actions)) hRun h
  rintro s a s' hs ⟨hTimely, hMember⟩ hAct
  exact hs.act (hOther a hMember) hTimely hAct

theorem voteActions_opens {vote : Vote} : ∀ a ∈ voteActions cfg hs vote, a.opens = false := by
  intro a ha
  rcases mem_voteActions ha with rfl | ⟨qc, rfl | rfl⟩
  all_goals rfl

theorem castActions_opens {record : VoteRecord} :
    ∀ a ∈ castActions cfg hs record, a.opens = false := by
  intro a ha
  rcases mem_castActions ha with rfl | ⟨message, rfl⟩ | ⟨hs', vote, ha⟩
  · rfl
  · rfl
  · exact voteActions_opens a ha

theorem storeActions_opens {container : BlockContainer} :
    ∀ a ∈ hs.storeActions container, a.opens = false := by
  intro a ha
  rcases List.mem_cons.mp ha with rfl | ha
  · rfl
  · split at ha
    · cases ha
    · rcases List.mem_cons.mp ha with rfl | ha
      · rfl
      · cases List.mem_singleton.mp ha
        rfl

theorem tmoActions_opens {tmo : TMO} : ∀ a ∈ tmoActions cfg hs tmo, a.opens = false := by
  intro a ha
  rcases mem_tmoActions ha with ⟨qc, rfl⟩ | rfl | ⟨view, rfl⟩
  all_goals rfl

theorem OnTime.delay (h : hs.OnTime keys) (hAhead : hs.pm.curView + 1 < block.view) :
    OnTime keys { hs with bufferedBlocks := hs.bufferedBlocks.insert (block.view - 1) block } where
  honest := h.honest
  keyed key found hLookup := by
    rcases Table.of_lookup_insert hLookup with ⟨hKey, rfl⟩ | hOld
    · lia
    · exact h.keyed key found hOld
  due key hDue := by
    obtain ⟨hKey, hBelow⟩ := hDue
    have hBelow : key ≤ hs.pm.curView := hBelow
    have hInsert : key ∈ (hs.bufferedBlocks.insert (block.view - 1) block).keys := hKey
    rw [Table.keys_insert, Finset.mem_insert] at hInsert
    rcases hInsert with rfl | hOld
    · lia
    · exact h.due key ⟨hOld, hBelow⟩

/-- The certificate of a block brings nothing within reach, or only the block of the next
view. In that case the block is not stale and its proposer leads it. -/
theorem OnTime.processBlockQC (h : hs.OnTime keys) (hTimely : hs.Timely cfg (.raise block qc))
    (hProcess : hs.processBlockQC cfg block qc = .ok hs') :
    hs'.OnTime keys ∨ (hs'.OnTime (insert block.view keys) ∧ hs'.pm.curView ≤ block.view ∧
      cfg.election.isLeader block.proposer block.view = true) := by
  have hRaised : (hs.updateHighQC qc).OnTime keys := by
    rw [updateHighQC_eq]
    exact h.of_same rfl rfl rfl
  unfold HotStuff.processBlockQC at hProcess
  by_cases hOwn : block.proposer = hs.id
  · rw [if_pos hOwn] at hProcess
    cases Outcome.pure_eq_ok.mp hProcess
    exact Or.inl hRaised
  rw [if_neg hOwn] at hProcess
  -- the higher certificate has no part in what follows
  have hSame : (hs.updateHighQC qc).Applies cfg qc ↔ hs.Applies cfg qc := by
    rw [updateHighQC_eq]
    rfl
  have hReach : (hs.updateHighQC qc).reached (qc.view + 1) = hs.reached (qc.view + 1) := by
    rw [updateHighQC_eq]
    rfl
  have hLed : hs.Applies cfg qc → ∀ key ∈ hs.reached (qc.view + 1), key = block.view ∧
      qc.view + 1 ≤ block.view ∧ cfg.election.isLeader block.proposer block.view = true := by
    intro hApplies key hKey
    obtain ⟨hView, hBelow⟩ := hTimely.1 _ (if_pos ⟨hOwn, hApplies⟩) key hKey
    dsimp only [Action.ledView] at hView
    split_ifs at hView with hLeader
    cases hView
    exact ⟨rfl, hBelow, hLeader⟩
  by_cases hNext : hs.Applies cfg qc ∧ qc.view + 1 ≤ block.view ∧
      cfg.election.isLeader block.proposer block.view = true
  · obtain ⟨hApplies, hView, hLeader⟩ := hNext
    refine Or.inr ⟨?_, ?_, hLeader⟩
    · have hWider := hRaised.mono (Set.subset_insert block.view keys)
      refine hWider.processCertificate (fun _ key hKey => ?_) hProcess
      rw [hReach] at hKey
      exact Or.inl (hLed hApplies key hKey).1
    · rcases processCertificate_moves hRaised.honest hProcess with hStays | ⟨_, hMoved⟩
      · have hView' : (hs.updateHighQC qc).pm.curView ≤ qc.view := (hSame.mpr hApplies).1
        lia
      · lia
  · refine Or.inl (hRaised.processCertificate (fun hApplies key hKey => ?_) hProcess)
    rw [hReach] at hKey
    obtain ⟨_, hBelow, hLeader⟩ := hLed (hSame.mp hApplies) key hKey
    exact absurd ⟨hSame.mp hApplies, hBelow, hLeader⟩ hNext

theorem anyOrigins_closed (total : Nat) : anyOrigins.Closed total :=
  (anyOrigins_unrestricted.inclusive total).toClosed

/-- Storing a block leaves its successor within reach only if the block is going to be
voted for. -/
theorem OnTime.storeBlock {container : BlockContainer}
    (h : hs.OnTime (insert container.block.view keys)) (hCovers : anyOrigins.Covers hs)
    (hView : hs.pm.curView ≤ container.block.view)
    (hLeader : cfg.election.isLeader container.block.proposer container.block.view = true)
    (hGuard : Guarded (HotStuff.act cfg) (Timely cfg) hs (hs.storeActions container))
    (hStored : hs.storeBlock cfg container = .ok hs') :
    hs'.OnTime keys ∨ (hs'.OnTime (insert container.block.view keys) ∧
      hs'.votingRule container.block = some true) := by
  by_cases hDue : hs.Due container.block.view
  · -- the guard of the store action is the voting rule's answer
    obtain ⟨hWaiting, hRule⟩ := hGuard.1.2 container rfl hDue
    unfold HotStuff.storeBlock at hStored
    dsimp only at hStored
    rw [hWaiting] at hStored
    cases Outcome.pure_eq_ok.mp hStored
    exact Or.inr ⟨h.of_same rfl rfl rfl, hRule⟩
  · have hPasses := Origins.storeActions_passes hCovers ⟨trivial, hView, hLeader⟩ hStored
    exact Or.inl ((h.drop hDue).run storeActions_opens hGuard hPasses.returns)

/-- Taking a block up leaves at most the block of the next view within reach, and that
one only if the block is going to be voted for. -/
theorem OnTime.takeUp {verdict : Verdict} (h : hs.OnTime keys) (hCovers : anyOrigins.Covers hs)
    (hGuard : Guarded (HotStuff.act cfg) (Timely cfg) hs (takeUpActions cfg hs block))
    (hTake : hs.takeUp cfg block = .ok (hs', verdict)) :
    hs'.OnTime (insert block.view keys) ∧
      ∀ result, verdict = .returns result → hs'.OnTime keys := by
  have hBoth : hs'.OnTime keys → hs'.OnTime (insert block.view keys) ∧
      ∀ result, verdict = .returns result → hs'.OnTime keys :=
    fun hEnd => ⟨hEnd.mono (Set.subset_insert _ _), fun _ _ => hEnd⟩
  obtain ⟨_, _, hRest⟩ := Outcome.bind_eq_ok.mp hTake
  by_cases hAhead : hs.pm.curView + 1 < block.view
  · rw [if_pos hAhead] at hRest
    cases Outcome.pure_eq_ok.mp hRest
    exact hBoth (h.delay hAhead)
  rw [if_neg hAhead] at hRest
  split at hRest
  · cases Outcome.pure_eq_ok.mp hRest
    exact hBoth h
  next qc hQC =>
    rw [Origins.takeUpActions_some hAhead hQC] at hGuard
    obtain ⟨admitted, hAdmitted, hRest⟩ := Outcome.bind_eq_ok.mp hRest
    have hFront := Origins.blockQCActions_passes hCovers trivial
      ⟨trivial, hQC, not_lt.mp hAhead⟩ hAdmitted
    have hBack := hGuard.split hFront.returns
    rw [hAdmitted] at hBack
    dsimp only at hBack
    have hAdmits := h.processBlockQC hGuard.1 hAdmitted
    by_cases hStale : block.view < admitted.pm.curView
    · rw [if_pos hStale] at hRest
      cases Outcome.pure_eq_ok.mp hRest
      apply hBoth
      rcases hAdmits with hEnd | ⟨_, hView, _⟩
      · exact hEnd
      · exact absurd hStale (not_lt.mpr hView)
    rw [if_neg hStale] at hRest hBack
    by_cases hLeader : cfg.election.isLeader block.proposer block.view = false
    · rw [if_pos hLeader] at hRest
      cases Outcome.pure_eq_ok.mp hRest
      apply hBoth
      rcases hAdmits with hEnd | ⟨_, _, hLeads⟩
      · exact hEnd
      · rw [hLeader] at hLeads
        cases hLeads
    rw [if_neg hLeader] at hRest hBack
    obtain ⟨stored, hStored, hRest⟩ := Outcome.bind_eq_ok.mp hRest
    have hOpen : admitted.OnTime (insert block.view keys) :=
      hAdmits.elim (fun hEnd => hEnd.mono (Set.subset_insert _ _)) fun hNext => hNext.1
    rcases hOpen.storeBlock (hCovers.processBlockQC trivial hAdmitted) (not_lt.mp hStale)
      (by simpa using hLeader) hBack hStored with hClosed | ⟨hStill, hRule⟩
    · have hEnd : stored = hs' := by
        split at hRest
        all_goals exact congrArg Prod.fst (Outcome.pure_eq_ok.mp hRest)
      rw [hEnd] at hClosed
      exact hBoth hClosed
    · rw [hRule] at hRest
      cases Outcome.pure_eq_ok.mp hRest
      exact ⟨hStill, fun result hReturns => by cases hReturns⟩

/-- A whole call releases what it brings within reach. The induction is on the depth of
the nested calls; the keys of the calls around it stay open. -/
theorem OnTime.processBlockDepth {depth : Nat} {result : Except BlockError Unit}
    (h : hs.OnTime keys) (hCovers : anyOrigins.Covers hs)
    (hGuard : Guarded (HotStuff.act cfg) (Timely cfg) hs (blockActions cfg depth hs block))
    (hProcess : processBlockDepth cfg depth hs block = .ok (hs', result)) : hs'.OnTime keys := by
  induction depth generalizing hs hs' block result keys with
  | zero => cases hProcess
  | succ depth ih =>
      obtain ⟨⟨taken, verdict⟩, hTaken, hRest⟩ := Outcome.bind_eq_ok.mp hProcess
      unfold blockActions at hGuard
      have hKnown : anyOrigins.block block := trivial
      have hLogged := hCovers.logCall block
      have hEnter : (hs.logCall block).OnTime keys := h.of_same rfl rfl rfl
      have hTaking := Origins.takeUpActions_passes hLogged (anyOrigins_closed _) hKnown hTaken
      have hInner := hGuard.2 (hs.logCall block) rfl
      obtain ⟨hOpen, hReturns⟩ := hEnter.takeUp hLogged hInner.of_append hTaken
      have hLater := hInner.split hTaking.returns
      rw [hTaken] at hLater
      cases verdict with
      | returns =>
          cases Outcome.pure_eq_ok.mp hRest
          exact hReturns _ rfl
      | votes accept =>
          obtain ⟨voted, hCast, hRest⟩ := Outcome.bind_eq_ok.mp hRest
          dsimp only at hLater
          rw [hCast] at hLater
          dsimp only at hLater
          have hTakenCovers := hLogged.takeUp (anyOrigins_closed _) hKnown hTaken
          have hRecorded := hTakenCovers.record hs.snapshot accept hKnown hCovers.stored
          have hCasting := Origins.castActions_passes hTakenCovers hRecorded
            (anyOrigins_closed _) (fun _ _ _ _ => trivial) hCast
          have hVoted := hOpen.run castActions_opens hLater.of_append hCasting.returns
          have hNested := hLater.split hCasting.returns
          cases hNext : voted.bufferedBlocks.lookup block.view with
          | none =>
              rw [hNext] at hRest
              cases Outcome.pure_eq_ok.mp hRest
              apply hVoted.drop
              rintro ⟨hKey, _⟩
              exact Finmap.lookup_eq_none.mp hNext (Finmap.mem_keys.mp hKey)
          | some next =>
              rw [hNext] at hRest hNested
              obtain ⟨⟨last, _⟩, hProcessed, hDone⟩ := Outcome.bind_eq_ok.mp hRest
              cases Outcome.pure_eq_ok.mp hDone
              have hVotedCovers := hCovers.turn (anyOrigins_closed _) hKnown
                (Turn.voted hTaken hCast) (fun _ _ _ _ _ _ => trivial)
              exact (ih hVoted hVotedCovers hNested.of_append hProcessed).release

/-- After an event nothing that is within reach is left. -/
theorem OnTime.step {e : Event} (h : hs.OnTime ∅) (hCovers : anyOrigins.Covers hs)
    (hGuard : Guarded (HotStuff.act cfg) (Timely cfg) hs (eventActions cfg hs e))
    (hPerformed : Library.run (HotStuff.act cfg) hs (eventActions cfg hs e) = .ok hs')
    (hStep : hs.step cfg e = .ok hs') : hs'.OnTime ∅ := by
  cases e with
  | block block =>
      obtain ⟨⟨_, _⟩, hBlock, hDone⟩ := Outcome.bind_eq_ok.mp hStep
      cases Outcome.pure_eq_ok.mp hDone
      exact h.processBlockDepth hCovers hGuard hBlock
  | vote vote => exact h.run voteActions_opens hGuard hPerformed
  | tmo tmo => exact h.run tmoActions_opens hGuard hPerformed
  | localTmo view =>
      refine h.run (fun a ha => ?_) hGuard hPerformed
      rcases List.mem_cons.mp ha with rfl | ha
      · rfl
      rcases List.mem_cons.mp ha with rfl | ha
      · rfl
      · exact tmoActions_opens a ha
  | kickOff =>
      refine h.run (fun a ha => ?_) hGuard hPerformed
      unfold eventActions at ha
      split_ifs at ha
      · cases List.mem_singleton.mp ha
        rfl
      · cases ha

/-- After every event the buffered blocks are more than one view ahead, if whatever comes
within reach is the successor of a block that is being voted for. -/
theorem buffered_blocks_ahead (cfg : Config) (id : NodeID) (n : Nat) (events : List Event)
    (hs : HotStuff) (hRun : run (step cfg) (HotStuff.new id false n) events = .ok hs)
    (hTimely : Guarded (HotStuff.act cfg) (Timely cfg) (HotStuff.new id false n)
      (runActions cfg (HotStuff.new id false n) events)) :
    ∀ key block, hs.bufferedBlocks.lookup key = some block → hs.pm.curView + 1 < block.view := by
  have hGuard : Guarded (step cfg) (fun _ e => anyOrigins.event e) (HotStuff.new id false n) events :=
    guarded_of_mem fun _ e _ => anyOrigins_unrestricted.event fun _ _ => trivial
  have hEnd : hs.OnTime ∅ ∧ anyOrigins.Covers hs := by
    refine expandAll_invariant (P := fun hs => hs.OnTime ∅ ∧ anyOrigins.Covers hs) ?_ hGuard
      hTimely hRun ⟨new_onTime id n, Origins.new_covers id false n trivial⟩
    rintro s e s' ⟨hOnTime, hCovers⟩ hEvent hActions hStep
    have hPasses := Origins.step_passes hCovers (anyOrigins_closed _) hEvent
      (fun _ _ _ _ _ _ => trivial) hStep
    refine ⟨hPasses.returns, hOnTime.step hCovers hActions hPasses.returns hStep, ?_⟩
    exact hCovers.step (anyOrigins_closed _) hEvent (fun _ _ _ _ _ _ => trivial) hStep
  intro key block hLookup
  have hAhead : ¬key ≤ hs.pm.curView := by
    intro hBelow
    exact hEnd.1.due key ⟨Finmap.mem_keys.mpr (Table.mem_of_lookup hLookup), hBelow⟩
  have hView := hEnd.1.keyed key block hLookup
  lia

/-- The block of view 2 waits for that of view 1. -/
theorem buffered_blocks_ahead_released :
    ∃ hs, run (step (Scenario.config fun _ => "1")) (HotStuff.new "2" false 4)
        [.block (Scenario.block 2 2 1), .block (Scenario.block 1 1 0)] = .ok hs ∧
      hs.votedViews = [1, 2] ∧
      ∀ key block, hs.bufferedBlocks.lookup key = some block →
        hs.pm.curView + 1 < block.view := by
  obtain ⟨hs, hRun, hViews⟩ := Outcome.of_test
    (x := run (step (Scenario.config fun _ => "1")) (HotStuff.new "2" false 4)
      [.block (Scenario.block 2 2 1), .block (Scenario.block 1 1 0)])
    (P := fun hs => hs.votedViews = [1, 2]) (by decide)
  exact ⟨hs, hRun, hViews, buffered_blocks_ahead _ _ _ _ hs hRun (by decide)⟩

/-- A block waits for that of view 2, and a timeout moves the replica to view 2. -/
theorem buffered_block_left :
    ∃ hs, run (step (Scenario.config fun _ => "1")) (HotStuff.new "2" false 4)
        [.block (Scenario.block 3 3 2), .localTmo 1] = .ok hs ∧
      ∃ block ∈ hs.bufferedBlocks.lookup 2, block.view ≤ hs.pm.curView + 1 :=
  Outcome.of_test (by decide)

end HotStuff
end Bamboo
