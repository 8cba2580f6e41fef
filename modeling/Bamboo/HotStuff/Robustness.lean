import Bamboo.Blockchain.Totality
import Bamboo.HotStuff.Buffering

/-! Messages that cannot stop a replica. The handlers use the names in a message to index
the keys, the signers of a certificate to index its signatures, and read two parts of
every signature, without looking at any length. A message is harmless when all of that
is there; what a certificate names as its leader decides whether it is looked at. -/
namespace Bamboo

open Library

namespace KeyRing

variable (keys : KeyRing)

/-- The node has a key. -/
def HasKey (id : NodeID) : Prop :=
  1 ≤ node id ∧ node id ≤ keys.size

instance (id : NodeID) : Decidable (keys.HasKey id) :=
  inferInstanceAs (Decidable (_ ∧ _))

/-- `PubVerify` finds the key and both parts of the signature. -/
def Readable (sig : Signature) (id : NodeID) : Prop :=
  keys.HasKey id ∧ 2 ≤ sig.length

instance (sig : Signature) (id : NodeID) : Decidable (keys.Readable sig id) :=
  inferInstanceAs (Decidable (_ ∧ _))

variable {keys}

theorem position_returns_iff {id : NodeID} : (∃ i, keys.position id = .ok i) ↔ keys.HasKey id := by
  unfold position HasKey
  by_cases hKey : 1 ≤ node id ∧ node id ≤ keys.size
  · rw [if_pos hKey]
    exact iff_of_true ⟨_, rfl⟩ hKey
  · rw [if_neg hKey]
    exact iff_of_false (by rintro ⟨_, h⟩; cases h) hKey

theorem pubVerify_returns_iff {sig : Signature} (data : Identifier) {id : NodeID} :
    (∃ verified, keys.pubVerify sig data id = .ok verified) ↔ keys.Readable sig id := by
  constructor
  · rintro ⟨verified, h⟩
    obtain ⟨i, hPosition, hRest⟩ := Outcome.bind_eq_ok.mp h
    refine ⟨position_returns_iff.mp ⟨i, hPosition⟩, not_lt.mp fun hShort => ?_⟩
    rw [if_pos hShort] at hRest
    cases hRest
  · rintro ⟨hKey, hParts⟩
    obtain ⟨i, hPosition⟩ := position_returns_iff.mpr hKey
    refine ⟨keys.verify i sig data, Outcome.bind_eq_ok.mpr ⟨i, hPosition, ?_⟩⟩
    rw [if_neg (not_lt.mpr hParts)]
    rfl

/-- A list of signatures that can be read next to every signer is checked to the end, or
to the first one that is wrong. -/
theorem verifyQuorumSignature_returns (data : Identifier) {sigs : AggSig} {signers : List NodeID}
    (hLength : signers.length ≤ sigs.length)
    (hEach : ∀ pair ∈ sigs.zip signers, keys.Readable pair.1 pair.2) :
    ∃ verified, keys.verifyQuorumSignature data sigs signers = .ok verified := by
  induction signers generalizing sigs with
  | nil => exact ⟨true, by cases sigs <;> rfl⟩
  | cons signer signers ih =>
      cases sigs with
      | nil => simp at hLength
      | cons sig sigs =>
          obtain ⟨correct, hFirst⟩ :=
            (pubVerify_returns_iff data).mpr (hEach (sig, signer) List.mem_cons_self)
          cases correct with
          | false => exact ⟨false, Outcome.bind_eq_ok.mpr ⟨false, hFirst, rfl⟩⟩
          | true =>
              obtain ⟨verified, hRest⟩ := ih (Nat.le_of_succ_le_succ hLength)
                fun pair hPair => hEach pair (List.mem_cons_of_mem _ hPair)
              exact ⟨verified, Outcome.bind_eq_ok.mpr ⟨true, hFirst, hRest⟩⟩

end KeyRing

/-- A certificate that the replica `id` can process: it names `id` as its leader and is not
checked, or every signer has a signature that can be read. -/
def QC.Checkable (keys : KeyRing) (id : NodeID) (qc : QC) : Prop :=
  qc.leader = id ∨ qc.signers.length ≤ qc.aggSig.length ∧
    ∀ pair ∈ qc.aggSig.zip qc.signers, keys.Readable pair.1 pair.2

instance (keys : KeyRing) (id : NodeID) (qc : QC) : Decidable (qc.Checkable keys id) :=
  inferInstanceAs (Decidable (_ ∨ _))

theorem QC.initial_checkable (keys : KeyRing) (id : NodeID) : QC.initial.Checkable keys id :=
  Or.inr ⟨Nat.le_refl 0, fun _ hPair => by cases hPair⟩

/-- A block that the replica `id` can take up. A replica does not check its own signature. -/
def Block.Checkable (keys : KeyRing) (id : NodeID) (block : Block) : Prop :=
  (block.proposer = id ∨ keys.Readable block.sig block.proposer) ∧
    ∀ qc ∈ block.qc, qc.Checkable keys id

instance (keys : KeyRing) (id : NodeID) (block : Block) : Decidable (block.Checkable keys id) :=
  inferInstanceAs (Decidable (_ ∧ _))

/-- The vertex that a block with a certificate is stored as. -/
def Block.container (block : Block) : Option BlockContainer :=
  match hQC : block.qc with
  | none => none
  | some qc => some ⟨block, qc, hQC⟩

theorem Block.container_eq {block : Block} {qc : QC} (hQC : block.qc = some qc) :
    block.container = some ⟨block, qc, hQC⟩ := by
  unfold container
  split
  · next hNone => cases hNone.symm.trans hQC
  · next found hFound =>
      cases hFound.symm.trans hQC
      rfl

namespace HotStuff

/-- A message with everything in it that the replica `id` reads. A timeout needs a
certificate. -/
def Event.Harmless (keys : KeyRing) (id : NodeID) : Event → Prop
  | .block proposed => proposed.Checkable keys id
  | .vote ballot => ballot.voter = id ∨ keys.Readable ballot.signature ballot.voter
  | .tmo notice => notice.highQC ≠ none ∧ ∀ qc ∈ notice.highQC, qc.Checkable keys id
  | .localTmo _ | .kickOff => True

instance (keys : KeyRing) (id : NodeID) : (e : Event) → Decidable (e.Harmless keys id)
  | .block _ => inferInstanceAs (Decidable (Block.Checkable _ _ _))
  | .vote _ => inferInstanceAs (Decidable (_ ∨ _))
  | .tmo _ => inferInstanceAs (Decidable (_ ∧ _))
  | .localTmo _ | .kickOff => inferInstanceAs (Decidable True)

/-- The vertices of the blocks that are given to a replica. -/
def fed (events : List Event) : List BlockContainer :=
  events.filterMap fun
    | .block block => block.container
    | .vote _ | .tmo _ | .localTmo _ | .kickOff => none

/-- A block whose vertex is one of the given ones. -/
def Known (blocks : List BlockContainer) (block : Block) : Prop :=
  ∀ vertex ∈ block.container, vertex ∈ blocks

theorem known_of_fed {events : List Event} {block : Block} (h : Event.block block ∈ events) :
    Known (fed events) block :=
  fun _ hVertex => List.mem_filterMap.mpr ⟨.block block, h, hVertex⟩

/-- The stored blocks are among the given ones, and nothing that waits can stop the
replica. -/
structure Robust (keys : KeyRing) (id : NodeID) (blocks : List BlockContainer) (hs : HotStuff) :
    Prop where
  self : hs.id = id
  forest : hs.bc.forrest.MadeOf blocks
  highQC : hs.highQC.Checkable keys id
  bufferedQCs : ∀ h qc, hs.bufferedQCs.lookup h = some qc → qc.Checkable keys id
  bufferedBlocks : ∀ view block, hs.bufferedBlocks.lookup view = some block →
    block.Checkable keys id ∧ Known blocks block
  waits : hs.WaitsInOrder

theorem new_robust (keys : KeyRing) (id : NodeID) (blocks : List BlockContainer) (isByz : Bool)
    (n : Nat) : (new id isByz n).Robust keys id blocks where
  self := rfl
  forest := LevelledForest.new_madeOf blocks
  highQC := QC.initial_checkable keys id
  bufferedQCs h qc hLookup := by simp [new] at hLookup
  bufferedBlocks view block hLookup := by simp [new] at hLookup
  waits := new_waitsInOrder id isByz n

namespace Robust

open Outcome (Ensures)

variable {cfg : Config} {id : NodeID} {blocks : List BlockContainer} {hs : HotStuff}

theorem advanceView (h : hs.Robust cfg.keys id blocks) (view : View) :
    (hs.advanceView view).Robust cfg.keys id blocks :=
  { h with }

theorem updateHighQC (h : hs.Robust cfg.keys id blocks) {qc : QC}
    (hQC : qc.Checkable cfg.keys id) : (hs.updateHighQC qc).Robust cfg.keys id blocks := by
  unfold HotStuff.updateHighQC
  by_cases hHigher : hs.highQC.view < qc.view
  · rw [if_pos hHigher]
    exact { h with highQC := hQC }
  · rw [if_neg hHigher]
    exact h

theorem bufferQC (h : hs.Robust cfg.keys id blocks) {qc : QC} (hQC : qc.Checkable cfg.keys id) :
    (hs.bufferQC qc).Robust cfg.keys id blocks := by
  refine { h with bufferedQCs := fun blockID found hLookup => ?_ }
  rcases Table.of_lookup_insert hLookup with ⟨_, rfl⟩ | hOld
  · exact hQC
  · exact h.bufferedQCs blockID found hOld

theorem commit (hAgree : LevelsAgree blocks) (h : hs.Robust cfg.keys id blocks) (block : Block) :
    Ensures (hs.commit block) (Robust cfg.keys id blocks) := by
  unfold HotStuff.commit
  refine (BlockChain.commitBlock_madeOf hAgree h.forest block.id hs.pm.curView).bind
    fun committed _ hMade => ?_
  obtain ⟨bc, result⟩ := committed
  cases result with
  | none => exact .pure { h with forest := hMade }
  | some found => exact .pure { h with forest := hMade }

theorem applyCertificate (hAgree : LevelsAgree blocks) (h : hs.Robust cfg.keys id blocks) {qc : QC}
    (hQC : qc.Checkable cfg.keys id) :
    Ensures (hs.applyCertificate qc) (Robust cfg.keys id blocks) := by
  have hRaised := (h.advanceView qc.view).updateHighQC hQC
  unfold HotStuff.applyCertificate
  by_cases hEarly : qc.view < 3
  · rw [if_pos hEarly]
    exact .pure hRaised
  · rw [if_neg hEarly]
    cases ((hs.advanceView qc.view).updateHighQC qc).commitRule qc with
    | none => exact .pure hRaised
    | some block => exact hRaised.commit hAgree block

theorem certificateVerified (h : hs.Robust cfg.keys id blocks) {qc : QC}
    (hQC : qc.Checkable cfg.keys id) :
    Ensures (hs.certificateVerified cfg qc) fun _ => True := by
  unfold HotStuff.certificateVerified
  by_cases hLeader : qc.leader = hs.id
  · rw [if_pos hLeader]
    exact .pure trivial
  · rw [if_neg hLeader]
    rcases hQC with hOwn | ⟨hLength, hEach⟩
    · exact absurd (hOwn.trans h.self.symm) hLeader
    · obtain ⟨verified, hVerified⟩ :=
        KeyRing.verifyQuorumSignature_returns qc.blockID hLength hEach
      exact ⟨verified, hVerified, trivial⟩

theorem processCertificate (hAgree : LevelsAgree blocks) (h : hs.Robust cfg.keys id blocks)
    {qc : QC} (hQC : qc.Checkable cfg.keys id) :
    Ensures (hs.processCertificate cfg qc) (Robust cfg.keys id blocks) := by
  unfold HotStuff.processCertificate
  by_cases hStale : qc.view < hs.pm.curView
  · rw [if_pos hStale]
    exact .pure h
  rw [if_neg hStale]
  refine (h.certificateVerified hQC).bind fun verified _ _ => ?_
  by_cases hRejected : verified = false
  · rw [if_pos hRejected]
    exact .pure h
  rw [if_neg hRejected]
  by_cases hFork : hs.isByz ∧ cfg.forkStrategy ∧ cfg.election.isLeader hs.id (qc.view + 1)
  · rw [if_pos hFork]
    exact .pure (h.advanceView qc.view)
  rw [if_neg hFork]
  cases hLock : hs.updatePreferredView qc with
  | none => exact .pure (h.bufferQC hQC)
  | some locked =>
      obtain ⟨lock, rfl, _, _⟩ := updatePreferredView_eq_some hLock
      have hLocked : ({ hs with preferredView := lock } : HotStuff).Robust cfg.keys id blocks :=
        { h with }
      exact hLocked.applyCertificate hAgree hQC

theorem voteVerified (h : hs.Robust cfg.keys id blocks) {vote : Vote}
    (hVote : vote.voter = id ∨ cfg.keys.Readable vote.signature vote.voter) :
    Ensures (hs.voteVerified cfg vote) fun _ => True := by
  unfold HotStuff.voteVerified
  by_cases hOwn : vote.voter = hs.id
  · rw [if_pos hOwn]
    exact .pure trivial
  · rw [if_neg hOwn]
    rcases hVote with hSelf | hReadable
    · exact absurd (hSelf.trans h.self.symm) hOwn
    · obtain ⟨verified, hVerified⟩ := (KeyRing.pubVerify_returns_iff vote.blockID).mpr hReadable
      exact ⟨verified, hVerified, trivial⟩

/-- A certificate made of votes names the replica itself. -/
theorem processVote (hAgree : LevelsAgree blocks) (h : hs.Robust cfg.keys id blocks) {vote : Vote}
    (hVote : vote.voter = id ∨ cfg.keys.Readable vote.signature vote.voter) :
    Ensures (hs.processVote cfg vote) (Robust cfg.keys id blocks) := by
  unfold HotStuff.processVote
  refine (h.voteVerified hVote).bind fun verified _ _ => ?_
  by_cases hRejected : verified = false
  · rw [if_pos hRejected]
    exact .pure h
  rw [if_neg hRejected]
  have hAdded : ({ hs with bc := (hs.bc.addVote vote).1 } : HotStuff).Robust cfg.keys id blocks :=
    { h with }
  dsimp only
  cases (hs.bc.addVote vote).2 with
  | none => exact .pure hAdded
  | some qc =>
      have hOwn : ({ qc with leader := hs.id } : QC).Checkable cfg.keys id := Or.inl h.self
      dsimp only
      cases (hs.bc.addVote vote).1.getBlockByID qc.blockID with
      | none => exact .pure (hAdded.bufferQC hOwn)
      | some block => exact hAdded.processCertificate hAgree hOwn

theorem checkSignature (h : hs.Robust cfg.keys id blocks) {block : Block}
    (hBlock : block.Checkable cfg.keys id) :
    Ensures (hs.checkSignature cfg block) fun _ => True := by
  unfold HotStuff.checkSignature
  by_cases hOwn : block.proposer = hs.id
  · rw [if_pos hOwn]
    exact .pure trivial
  · rw [if_neg hOwn]
    rcases hBlock.1 with hSelf | hReadable
    · exact absurd (hSelf.trans h.self.symm) hOwn
    · obtain ⟨verified, hVerified⟩ := (KeyRing.pubVerify_returns_iff block.id).mpr hReadable
      exact ⟨(), Outcome.bind_eq_ok.mpr ⟨verified, hVerified, rfl⟩, trivial⟩

theorem processBlockQC (hAgree : LevelsAgree blocks) (h : hs.Robust cfg.keys id blocks)
    (block : Block) {qc : QC} (hQC : qc.Checkable cfg.keys id) :
    Ensures (hs.processBlockQC cfg block qc) (Robust cfg.keys id blocks) := by
  have hRaised := h.updateHighQC hQC
  unfold HotStuff.processBlockQC
  by_cases hOwn : block.proposer = hs.id
  · rw [if_pos hOwn]
    exact .pure hRaised
  · rw [if_neg hOwn]
    exact hRaised.processCertificate hAgree hQC

theorem storeBlock (hAgree : LevelsAgree blocks) (h : hs.Robust cfg.keys id blocks)
    {container : BlockContainer} (hContainer : container ∈ blocks) :
    Ensures (hs.storeBlock cfg container) (Robust cfg.keys id blocks) := by
  have hAdded : ({ hs with bc := hs.bc.addBlock container } : HotStuff).Robust cfg.keys id blocks :=
    { h with forest := h.forest.addVertex hContainer }
  unfold HotStuff.storeBlock
  dsimp only
  cases hWaiting : hs.bufferedQCs.lookup container.block.id with
  | none => exact .pure hAdded
  | some qc =>
      have hQC := h.bufferedQCs container.block.id qc hWaiting
      refine (hAdded.processCertificate hAgree hQC).bind fun processed _ hProcessed => ?_
      exact .pure { hProcessed with
        bufferedQCs := fun blockID found hLookup =>
          hProcessed.bufferedQCs blockID found (Table.of_lookup_erase hLookup) }

/-- A block of a later view waits under the view before its own. -/
theorem bufferBlock (h : hs.Robust cfg.keys id blocks) {block : Block}
    (hBlock : block.Checkable cfg.keys id) (hKnown : Known blocks block) :
    ({ hs with bufferedBlocks := hs.bufferedBlocks.insert (block.view - 1) block } : HotStuff).Robust
      cfg.keys id blocks := by
  constructor
  · exact h.self
  · exact h.forest
  · exact h.highQC
  · exact h.bufferedQCs
  · intro view found hLookup
    rcases Table.of_lookup_insert hLookup with ⟨_, rfl⟩ | hOld
    · exact ⟨hBlock, hKnown⟩
    · exact h.bufferedBlocks view found hOld
  · intro view found hLookup
    rcases Table.of_lookup_insert hLookup with ⟨hView, rfl⟩ | hOld
    · lia
    · exact h.waits view found hOld

theorem dropBlock (h : hs.Robust cfg.keys id blocks) (view : View) :
    ({ hs with bufferedBlocks := hs.bufferedBlocks.erase view } : HotStuff).Robust
      cfg.keys id blocks :=
  { h with
    bufferedBlocks := fun v found hLookup =>
      h.bufferedBlocks v found (Table.of_lookup_erase hLookup)
    waits := fun v found hLookup => h.waits v found (Table.of_lookup_erase hLookup) }

theorem takeUp (hAgree : LevelsAgree blocks) (h : hs.Robust cfg.keys id blocks) {block : Block}
    (hBlock : block.Checkable cfg.keys id) (hKnown : Known blocks block) :
    Ensures (hs.takeUp cfg block) fun taken => taken.1.Robust cfg.keys id blocks := by
  unfold HotStuff.takeUp
  refine (h.checkSignature hBlock).bind fun _ _ _ => ?_
  by_cases hLater : hs.pm.curView + 1 < block.view
  · rw [if_pos hLater]
    exact .pure (h.bufferBlock hBlock hKnown)
  rw [if_neg hLater]
  split
  · exact .pure h
  · next qc hQC =>
      refine (h.processBlockQC hAgree block (hBlock.2 qc hQC)).bind
        fun admitted _ hAdmitted => ?_
      by_cases hStale : block.view < admitted.pm.curView
      · rw [if_pos hStale]
        exact .pure hAdmitted
      rw [if_neg hStale]
      by_cases hLeader : cfg.election.isLeader block.proposer block.view = false
      · rw [if_pos hLeader]
        exact .pure hAdmitted
      rw [if_neg hLeader]
      have hContainer := hKnown _ (Block.container_eq hQC)
      refine (hAdmitted.storeBlock hAgree hContainer).bind fun stored _ hStored => ?_
      cases stored.votingRule block with
      | none => exact .pure hStored
      | some vote => cases vote <;> exact .pure hStored

/-- The replica has a key of its own to sign the vote with. -/
theorem castVote (hAgree : LevelsAgree blocks) (hKey : cfg.keys.HasKey id)
    (h : hs.Robust cfg.keys id blocks) (record : VoteRecord) :
    Ensures (hs.castVote cfg record) (Robust cfg.keys id blocks) := by
  have hMade : Ensures (makeVote cfg.keys record.block.view hs.id record.block.id)
      fun vote => vote.voter = id := by
    obtain ⟨i, hPosition⟩ := KeyRing.position_returns_iff.mpr (h.self ▸ hKey)
    refine ⟨_, Outcome.bind_eq_ok.mpr ⟨cfg.keys.sign i record.block.id, ?_, rfl⟩, h.self⟩
    exact Outcome.bind_eq_ok.mpr ⟨i, hPosition, rfl⟩
  have hLogged : ({ hs with voteLog := hs.voteLog ++ [record] } : HotStuff).Robust cfg.keys id
      blocks := { h with }
  unfold HotStuff.castVote
  refine hMade.bind fun vote _ hVoter => ?_
  by_cases hSelf : cfg.election.findLeaderFor (record.block.view + 1) = hs.id
  · rw [if_pos hSelf]
    exact hLogged.processVote hAgree (Or.inl hVoter)
  · rw [if_neg hSelf]
    exact .pure { hLogged with }

/-- Each nested call is for a block that waits under a later view. -/
theorem processBlockDepth (hAgree : LevelsAgree blocks) (hKey : cfg.keys.HasKey id) {depth : Nat}
    (h : hs.Robust cfg.keys id blocks) {block : Block} (hBlock : block.Checkable cfg.keys id)
    (hKnown : Known blocks block) (hDepth : (hs.waitingFrom block.view).card < depth) :
    Ensures (processBlockDepth cfg depth hs block)
      fun processed => processed.1.Robust cfg.keys id blocks := by
  induction depth generalizing hs block with
  | zero => omega
  | succ depth ih =>
      have hLogged : (hs.logCall block).Robust cfg.keys id blocks := { h with }
      unfold HotStuff.processBlockDepth
      refine (hLogged.takeUp hAgree hBlock hKnown).bind fun result hTaken hRobust => ?_
      obtain ⟨taken, verdict⟩ := result
      cases verdict with
      | returns result => exact .pure hRobust
      | votes accept =>
          refine (hRobust.castVote hAgree hKey _).bind fun voted hCast hVoted => ?_
          cases hNext : voted.bufferedBlocks.lookup block.view with
          | none => exact .pure hVoted
          | some next =>
              have hFewer := waitingFrom_next hVoted.waits hNext
              have hSame : voted.waitingFrom block.view = hs.waitingFrom block.view := by
                rw [waitingFrom, waitingFrom, voted_bufferedBlocks hTaken hCast]
              rw [hSame] at hFewer
              obtain ⟨hChecked, hListed⟩ := hVoted.bufferedBlocks block.view next hNext
              exact (ih hVoted hChecked hListed (by omega)).bind fun _ _ hLast =>
                .pure (hLast.dropBlock block.view)

theorem processRemoteTmo (hAgree : LevelsAgree blocks) (h : hs.Robust cfg.keys id blocks)
    {tmo : TMO} {qc : QC} (hTmo : tmo.highQC = some qc) (hQC : qc.Checkable cfg.keys id) :
    Ensures (hs.processRemoteTmo cfg tmo) (Robust cfg.keys id blocks) := by
  unfold HotStuff.processRemoteTmo
  rw [hTmo]
  refine (h.processCertificate hAgree hQC).bind fun processed _ hProcessed => ?_
  have hCollected : ({ processed with pm := (processed.pm.processRemoteTmo tmo).1 } :
      HotStuff).Robust cfg.keys id blocks := { hProcessed with }
  dsimp only
  cases (processed.pm.processRemoteTmo tmo).2 with
  | none => exact .pure hCollected
  | some tc =>
      refine .pure ?_
      unfold HotStuff.processTC
      by_cases hOld : tc.view < (processed.pm.processRemoteTmo tmo).1.curView
      · rw [if_pos hOld]
        exact hCollected
      · rw [if_neg hOld]
        exact hCollected.advanceView tc.view

/-- An own timeout carries the highest certificate. -/
theorem processLocalTmo (hAgree : LevelsAgree blocks) (h : hs.Robust cfg.keys id blocks)
    (view : View) : Ensures (hs.processLocalTmo cfg view) (Robust cfg.keys id blocks) := by
  unfold HotStuff.processLocalTmo
  have hSent : ∀ message, ((hs.advanceView view).send message).Robust cfg.keys id blocks :=
    fun _ => { h with }
  exact (hSent _).processRemoteTmo hAgree rfl h.highQC

theorem kickOff (h : hs.Robust cfg.keys id blocks) :
    (hs.kickOff cfg).Robust cfg.keys id blocks := by
  unfold HotStuff.kickOff
  by_cases hFirst : hs.pm.curView = 0 ∧ cfg.election.isLeader hs.id 1
  · rw [if_pos hFirst]
    exact h.advanceView 0
  · rw [if_neg hFirst]
    exact h

/-- No harmless message stops a robust replica. -/
theorem step (hAgree : LevelsAgree blocks) (hKey : cfg.keys.HasKey id)
    (h : hs.Robust cfg.keys id blocks) {event : Event} (hEvent : event.Harmless cfg.keys id)
    (hKnown : ∀ block, event = .block block → Known blocks block) :
    Ensures (hs.step cfg event) (Robust cfg.keys id blocks) := by
  cases event with
  | block block =>
      have hDepth : (hs.waitingFrom block.view).card < hs.bufferedBlocks.keys.card + 1 :=
        Nat.lt_succ_of_le (Finset.card_filter_le _ _)
      exact (h.processBlockDepth hAgree hKey hEvent (hKnown block rfl) hDepth).bind
        fun _ _ hProcessed => .pure hProcessed
  | vote vote => exact h.processVote hAgree hEvent
  | tmo tmo =>
      obtain ⟨qc, hHighQC⟩ := Option.ne_none_iff_exists'.mp hEvent.1
      exact h.processRemoteTmo hAgree hHighQC (hEvent.2 qc hHighQC)
  | localTmo view => exact h.processLocalTmo hAgree view
  | kickOff => exact .pure h.kickOff

end Robust

variable {cfg : Config} {id : NodeID}

/-- Nothing stops a replica with a key that is only given harmless messages, if the blocks
agree on all levels. -/
theorem harmless_messages_never_crash (hKey : cfg.keys.HasKey id) (isByz : Bool) (n : Nat)
    {events : List Event} (hHarmless : ∀ e ∈ events, e.Harmless cfg.keys id)
    (hAgree : LevelsAgree (fed events)) :
    ∃ hs, run (step cfg) (new id isByz n) events = .ok hs := by
  have hGuard : Guarded (step cfg) (fun _ e => e.Harmless cfg.keys id ∧
      ∀ block, e = .block block → Known (fed events) block) (new id isByz n) events :=
    guarded_of_mem fun _ e hMem =>
      ⟨hHarmless e hMem, fun block hEq => known_of_fed (hEq ▸ hMem)⟩
  obtain ⟨hs, hRun, _⟩ := guarded_run_returns
    (fun _ _ h hEvent => Robust.step hAgree hKey h hEvent.1 hEvent.2) hGuard
    (new_robust cfg.keys id (fed events) isByz n)
  exact ⟨hs, hRun⟩

end HotStuff

namespace Scenario

/-- Four blocks of replica 1 with a vote and a timeout between them. The last certificate
commits the second block. -/
def goodMessages : List HotStuff.Event :=
  [.block (block 1 1 0), .block (block 2 2 1),
    .vote { view := 2, voter := "3", blockID := 2, signature := keys.sign 2 2 },
    .tmo { view := 2, nodeID := "4", highQC := some (certificate 2 2) },
    .block (block 3 3 2), .block (block 4 4 3), .block (block 5 5 4)]

end Scenario

namespace HotStuff

theorem harmless_messages_never_crash_chain :
    ∃ hs, run (step (Scenario.config fun _ => "1")) (new "2" false 4) Scenario.goodMessages =
      .ok hs := by
  have hAgree : LevelsAgree (fed Scenario.goodMessages) := ⟨by decide, by decide, by decide⟩
  have hKey : (Scenario.config fun _ => "1").keys.HasKey "2" := by decide
  exact harmless_messages_never_crash hKey false 4 (by decide) hAgree

/-- A name without a key, a signature with one part, a certificate with more signers than
signatures and a timeout without a certificate: each of them, sent to a replica that has
just started, stops it. -/
theorem message_crashes_replica :
    run (step (Scenario.config fun _ => "1")) (new "1" false 4)
        [.vote { view := 1, voter := "5", blockID := 1, signature := [[0], [0]] }] =
      .error .outOfRange ∧
    run (step (Scenario.config fun _ => "1")) (new "1" false 4)
        [.vote { view := 1, voter := "2", blockID := 1, signature := [[0]] }] =
      .error .outOfRange ∧
    run (step (Scenario.config fun _ => "1")) (new "2" false 4)
        [.block { Scenario.block 1 1 0 with
          qc := some { leader := "1", view := 0, signers := ["3"], aggSig := [] } }] =
      .error .outOfRange ∧
    run (step (Scenario.config fun _ => "1")) (new "1" false 4)
        [.tmo { view := 1, nodeID := "2", highQC := none }] =
      .error .nilDereference :=
  ⟨rfl, rfl, rfl, rfl⟩

end HotStuff
end Bamboo
