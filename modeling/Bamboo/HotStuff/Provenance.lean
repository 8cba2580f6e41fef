import Bamboo.HotStuff.Record

/-! Where the data of a replica comes from. `Origins` names the certificates,
votes and blocks that may turn up, `Closed` the closure properties the handlers
need, and `Covers` says that everything a replica stores, buffers, sends, records
or commits is among them. Each handler keeps `Covers` when its input is covered
and the replica's own votes are. -/
namespace Bamboo

open Library LockedVoting

structure Origins where
  qc : QC → Prop
  vote : Vote → Prop
  block : Block → Prop

namespace Origins

/-- What certificates and blocks may be derived from the given sources. -/
structure Closed (o : Origins) (total : Nat) : Prop where
  carried : ∀ block qc, o.block block → block.qc = some qc → o.qc qc
  quorum : ∀ vote qc, o.vote vote → qc.view = vote.view → qc.blockID = vote.blockID →
    qc.signers.Nodup → total * 2 / 3 < qc.signers.length →
    (∀ signer ∈ qc.signers, ∃ found, o.vote found ∧ found.blockID = vote.blockID ∧
      found.voter = signer) → o.qc qc

def message (o : Origins) : Message → Prop
  | .proposal p => ∀ payload, o.block (buildBlock p payload)
  | .vote _ vote => o.vote vote
  | .tmo tmo => ∃ qc, tmo.highQC = some qc ∧ o.qc qc

/-- `parent` is a known block that `block` points to. -/
def Parent (o : Origins) (block parent : Block) : Prop :=
  o.block parent ∧ parent.id = block.prevID

/-- A block below the head of a three-chain that a certificate completes. -/
def Committed (o : Origins) (b : Block) : Prop :=
  ∃ qc last parent head, o.qc qc ∧ 3 ≤ qc.view ∧ o.block last ∧ last.id = qc.blockID ∧
    o.Parent last parent ∧ o.Parent parent head ∧ head.view + 1 = parent.view ∧
    parent.view + 1 = qc.view ∧ Relation.ReflTransGen o.Parent head b

/-- A forest holds known blocks only, under their own identifiers. -/
def Stores (o : Origins) (f : LevelledForest) : Prop :=
  ∀ id v, f.getVertex id = some v → o.block v.block ∧ v.block.id = id

/-- All data of a replica comes from the given sources. -/
structure Covers (o : Origins) (hs : HotStuff) : Prop where
  keyed : hs.bc.forrest.WellKeyed
  stored : o.Stores hs.bc.forrest
  votes : hs.bc.quorum.Holds o.vote
  highQC : o.qc hs.highQC
  bufferedQCs : ∀ id qc, hs.bufferedQCs.lookup id = some qc → o.qc qc
  bufferedBlocks : ∀ view block, hs.bufferedBlocks.lookup view = some block → o.block block
  outbox : ∀ m ∈ hs.outbox, o.message m
  committed : ∀ b ∈ hs.committedBlocks, o.Committed b
  recorded : ∀ r ∈ hs.voteLog, o.block r.block ∧ o.Stores r.entry.forest ∧ o.Stores r.cast.forest

/-- A vote of the replica `id` that one of its records stands for. -/
def OwnVotes (o : Origins) (id : NodeID) (log : List VoteRecord) : Prop :=
  ∀ r ∈ log, ∀ vote : Vote, vote.voter = id → vote.view = r.block.view →
    vote.blockID = r.block.id → o.vote vote

variable {o : Origins}

theorem Stores.within {f g : LevelledForest} (h : o.Stores g) (hWithin : f.Within g) :
    o.Stores f := fun id v hv => h id v (hWithin id v hv)

theorem new_covers (id : NodeID) (isByz : Bool) (n : Nat) (hInitial : o.qc .initial) :
    o.Covers (HotStuff.new id isByz n) where
  keyed := LevelledForest.new_wellKeyed
  stored vid v hv := by
    have hNone := LevelledForest.new_getVertex vid
    cases hNone.symm.trans hv
  votes := Quorum.new_holds n o.vote
  highQC := hInitial
  bufferedQCs vid qc h := by simp [HotStuff.new] at h
  bufferedBlocks view block h := by simp [HotStuff.new] at h
  outbox m hm := by cases hm
  committed b hb := by cases hb
  recorded r hr := by cases hr

section Mono

variable {o' : Origins} (hQC : ∀ qc, o.qc qc → o'.qc qc) (hVote : ∀ v, o.vote v → o'.vote v)
  (hBlock : ∀ b, o.block b → o'.block b)

include hBlock in
theorem Parent.mono {block parent : Block} (h : o.Parent block parent) : o'.Parent block parent :=
  ⟨hBlock parent h.1, h.2⟩

include hBlock in
theorem Stores.mono {f : LevelledForest} (h : o.Stores f) : o'.Stores f :=
  fun id v hv => ⟨hBlock _ (h id v hv).1, (h id v hv).2⟩

include hQC hBlock in
theorem Committed.mono {b : Block} (h : o.Committed b) : o'.Committed b := by
  obtain ⟨qc, last, parent, head, hCertificate, hView, hLast, hId, hFirst, hSecond, hConsecutive,
    hTop, hReach⟩ := h
  refine ⟨qc, last, parent, head, hQC qc hCertificate, hView, hBlock last hLast, hId,
    hFirst.mono hBlock, hSecond.mono hBlock, hConsecutive, hTop, ?_⟩
  exact Relation.ReflTransGen.mono (fun _ _ hLink => Parent.mono hBlock hLink) _ _ hReach

include hQC hVote hBlock in
theorem message_mono {m : Message} (h : o.message m) : o'.message m := by
  cases m with
  | proposal p => exact fun payload => hBlock _ (h payload)
  | vote recipient vote => exact hVote vote h
  | tmo tmo =>
      obtain ⟨qc, hHigh, hCertificate⟩ := h
      exact ⟨qc, hHigh, hQC qc hCertificate⟩

include hQC hVote hBlock in
/-- More sources cover at least as much. -/
theorem Covers.mono {hs : HotStuff} (h : o.Covers hs) : o'.Covers hs where
  keyed := h.keyed
  stored := h.stored.mono hBlock
  votes := h.votes.mono hVote
  highQC := hQC _ h.highQC
  bufferedQCs id qc hLookup := hQC qc (h.bufferedQCs id qc hLookup)
  bufferedBlocks view block hLookup := hBlock block (h.bufferedBlocks view block hLookup)
  outbox m hm := message_mono hQC hVote hBlock (h.outbox m hm)
  committed b hb := (h.committed b hb).mono hQC hBlock
  recorded r hr := by
    obtain ⟨hVoted, hEntry, hCast⟩ := h.recorded r hr
    exact ⟨hBlock _ hVoted, hEntry.mono hBlock, hCast.mono hBlock⟩

end Mono

/-- The blocks of a chain that covers its blocks are linked by known parents. -/
theorem Covers.parent {hs : HotStuff} (h : o.Covers hs) {block parent : Block}
    (hLink : hs.bc.Parent block parent) : o.Parent block parent := by
  obtain ⟨v, hv, rfl⟩ := BlockChain.getBlockByID_eq_some.mp hLink
  exact h.stored _ v hv

theorem Covers.getBlockByID {hs : HotStuff} (h : o.Covers hs) {id : Identifier} {block : Block}
    (hBlock : hs.bc.getBlockByID id = some block) : o.block block ∧ block.id = id := by
  obtain ⟨v, hv, rfl⟩ := BlockChain.getBlockByID_eq_some.mp hBlock
  exact h.stored _ v hv

theorem Covers.committedBy {hs : HotStuff} (h : o.Covers hs) {qc : QC} (hQC : o.qc qc) {b : Block}
    (hCommitted : HotStuff.CommittedBy hs.bc qc b) : o.Committed b := by
  obtain ⟨last, parent, head, hLast, hParent, hHead, hFirst, hSecond, hView, top, hTop, hReach⟩ :=
    hCommitted
  obtain ⟨hLastKnown, hLastId⟩ := h.getBlockByID hLast
  -- the parent and the head are found again under their own identifiers
  obtain ⟨own, hOwn, hLink⟩ := BlockChain.getParentBlock_eq_some.mp hHead
  cases hOwn.symm.trans (BlockChain.getBlockByID_self h.keyed hParent)
  cases hTop.symm.trans (BlockChain.getBlockByID_self h.keyed hLink)
  refine ⟨qc, last, _, _, hQC, hView, hLastKnown, hLastId, h.parent hParent, h.parent hLink, hFirst,
    hSecond, ?_⟩
  exact Relation.ReflTransGen.mono (fun _ _ hStep => h.parent hStep) _ _ hReach

/-- Certificates, views and locks may change as long as they stay covered; blocks
may only disappear. -/
theorem Covers.of_quiet {hs hs' : HotStuff} (h : o.Covers hs) (hQuiet : hs.Quiet hs')
    (hVotes : hs'.bc.quorum.Holds o.vote) (hHigh : o.qc hs'.highQC)
    (hBuffered : ∀ id qc, hs'.bufferedQCs.lookup id = some qc → o.qc qc)
    (hCommitted : ∀ b ∈ hs'.committedBlocks, o.Committed b) : o.Covers hs' where
  keyed := hQuiet.keyed h.keyed
  stored := h.stored.within hQuiet.within
  votes := hVotes
  highQC := hHigh
  bufferedQCs := hBuffered
  bufferedBlocks := hQuiet.bufferedBlocks_eq ▸ h.bufferedBlocks
  outbox := hQuiet.outbox_eq ▸ h.outbox
  committed := hCommitted
  recorded := hQuiet.voteLog_eq ▸ h.recorded

theorem Covers.bufferQC {hs : HotStuff} (h : o.Covers hs) {qc : QC} (hQC : o.qc qc) :
    o.Covers (hs.bufferQC qc) := by
  refine h.of_quiet (HotStuff.bufferQC_quiet hs qc) h.votes h.highQC ?_ h.committed
  intro id found hFound
  rcases Table.of_lookup_insert hFound with ⟨_, rfl⟩ | hOld
  · exact hQC
  · exact h.bufferedQCs id found hOld

theorem Covers.updateHighQC {hs : HotStuff} (h : o.Covers hs) {qc : QC} (hQC : o.qc qc) :
    o.Covers (hs.updateHighQC qc) := by
  have hQuiet := HotStuff.updateHighQC_quiet hs qc
  rw [HotStuff.updateHighQC_eq] at hQuiet ⊢
  refine h.of_quiet hQuiet h.votes ?_ h.bufferedQCs h.committed
  change o.qc (if hs.highQC.view < qc.view then qc else hs.highQC)
  split_ifs
  · exact hQC
  · exact h.highQC

theorem Covers.advanceView {hs : HotStuff} (h : o.Covers hs) (view : View) :
    o.Covers (hs.advanceView view) :=
  h.of_quiet (HotStuff.advanceView_quiet hs view) h.votes h.highQC h.bufferedQCs h.committed

theorem Covers.processCertificate {cfg : Config} {hs hs' : HotStuff} {qc : QC}
    (hCovers : o.Covers hs) (hQC : o.qc qc) (h : hs.processCertificate cfg qc = .ok hs') :
    o.Covers hs' := by
  have hQuiet := HotStuff.processCertificate_quiet h
  rcases HotStuff.processCertificate_cases h with
    ⟨_, rfl⟩ | ⟨_, _, ⟨_, rfl⟩ | ⟨_, rfl⟩ | ⟨locked, hLocked, hApply⟩⟩
  · exact hCovers
  · exact hCovers.advanceView qc.view
  · exact hCovers.bufferQC hQC
  · obtain ⟨lock, rfl, _, _⟩ := HotStuff.updatePreferredView_eq_some hLocked
    obtain ⟨bc, committed, forked, rfl, hReduces, hCommitted⟩ :=
      HotStuff.applyCertificate_spec hApply
    refine hCovers.of_quiet hQuiet (hReduces.votes _ hCovers.votes) ?_ hCovers.bufferedQCs ?_
    · dsimp only
      split_ifs
      · exact hQC
      · exact hCovers.highQC
    · intro b hb
      rcases List.mem_append.mp hb with hOld | hNew
      · exact hCovers.committed b hOld
      · exact hCovers.committedBy hQC (hCommitted b hNew)

theorem Covers.addVote {hs : HotStuff} (h : o.Covers hs) {vote : Vote} (hVote : o.vote vote) :
    o.Covers { hs with bc := (hs.bc.addVote vote).1 } :=
  h.of_quiet (HotStuff.addVote_quiet hs vote) (h.votes.add hVote) h.highQC h.bufferedQCs h.committed

/-- The certificate that a vote completes is made of covered votes. -/
theorem Covers.built {hs : HotStuff} (h : o.Covers hs) (hClosed : o.Closed hs.bc.quorum.total)
    {vote : Vote} (hVote : o.vote vote) {qc : QC} (hBuilt : (hs.bc.quorum.add vote).2 = some qc) :
    o.qc { qc with leader := hs.id } := by
  have hAdd : hs.bc.quorum.add vote = ((hs.bc.quorum.add vote).1, some qc) := by
    rw [← hBuilt]
  obtain ⟨hView, hBlock, hNodup, hSize, hSigners⟩ := Quorum.add_certificate h.votes hVote hAdd
  exact hClosed.quorum vote _ hVote hView hBlock hNodup hSize hSigners

/-- A verified vote may complete a quorum. -/
theorem Covers.processVote {cfg : Config} {hs hs' : HotStuff} {vote : Vote}
    (hCovers : o.Covers hs) (hClosed : o.Closed hs.bc.quorum.total)
    (hVote : hs.voteVerified cfg vote = .ok true → o.vote vote)
    (h : hs.processVote cfg vote = .ok hs') : o.Covers hs' := by
  rcases HotStuff.processVote_cases h with ⟨_, rfl⟩ | ⟨hVerified, hRest⟩
  · exact hCovers
  have hKnown := hVote hVerified
  rcases hRest with ⟨_, rfl⟩ | ⟨qc, hBuilt, hEnd⟩
  · exact hCovers.addVote hKnown
  have hQC := hCovers.built hClosed hKnown hBuilt
  rcases hEnd with rfl | hCertificate
  · exact (hCovers.addVote hKnown).bufferQC hQC
  · exact (hCovers.addVote hKnown).processCertificate hQC hCertificate

theorem Covers.addBlock {hs : HotStuff} (h : o.Covers hs) {container : BlockContainer}
    (hBlock : o.block container.block) :
    o.Covers { hs with bc := hs.bc.addBlock container } := by
  obtain ⟨hKeyed, _, hVertex⟩ := LevelledForest.addVertex_spec h.keyed container
  refine ⟨hKeyed, fun id v hv => ?_, h.votes, h.highQC, h.bufferedQCs, h.bufferedBlocks, h.outbox,
    h.committed, h.recorded⟩
  have hEq := (hVertex id).symm.trans hv
  split_ifs at hEq with hNew
  · cases hEq
    exact ⟨hBlock, hNew.1.symm⟩
  · exact h.stored id v hEq

theorem Covers.storeBlock {cfg : Config} {hs hs' : HotStuff} {container : BlockContainer}
    (hCovers : o.Covers hs) (hBlock : o.block container.block)
    (h : hs.storeBlock cfg container = .ok hs') : o.Covers hs' := by
  obtain ⟨middle, hMiddle, hFrame, hBuffered⟩ := HotStuff.storeBlock_spec h
  have hMiddleCovers : o.Covers middle := by
    rcases hMiddle with rfl | ⟨qc, hFound, hCertificate⟩
    · exact hCovers.addBlock hBlock
    · exact (hCovers.addBlock hBlock).processCertificate (hCovers.bufferedQCs _ qc hFound)
        hCertificate
  have hKept : ∀ id qc, hs'.bufferedQCs.lookup id = some qc → o.qc qc := fun id qc hLookup =>
    hMiddleCovers.bufferedQCs id qc (hBuffered id qc hLookup)
  rw [hFrame]
  exact { hMiddleCovers with bufferedQCs := hKept }

theorem Covers.processBlockQC {cfg : Config} {hs hs' : HotStuff} {block : Block} {qc : QC}
    (hCovers : o.Covers hs) (hQC : o.qc qc) (h : hs.processBlockQC cfg block qc = .ok hs') :
    o.Covers hs' := by
  unfold HotStuff.processBlockQC at h
  split_ifs at h
  · cases Outcome.pure_eq_ok.mp h
    exact hCovers.updateHighQC hQC
  · exact (hCovers.updateHighQC hQC).processCertificate hQC h

theorem Covers.takeUp {cfg : Config} {hs hs' : HotStuff} {block : Block} {verdict : Verdict}
    (hCovers : o.Covers hs) (hClosed : o.Closed hs.bc.quorum.total) (hBlock : o.block block)
    (h : hs.takeUp cfg block = .ok (hs', verdict)) : o.Covers hs' := by
  rcases HotStuff.takeUp_cases h with
    ⟨_, _, rfl⟩ | ⟨_, _, _, rfl⟩ | ⟨qc, hQC, _, admitted, hAdmitted, hEnd⟩
  · refine { hCovers with bufferedBlocks := fun view found hFound => ?_ }
    rcases Table.of_lookup_insert hFound with ⟨_, rfl⟩ | hOld
    · exact hBlock
    · exact hCovers.bufferedBlocks view found hOld
  · exact hCovers
  · have hAdmittedCovers := hCovers.processBlockQC (hClosed.carried block qc hBlock hQC) hAdmitted
    rcases hEnd with ⟨_, rfl⟩ | ⟨_, _, hStored, _⟩
    · exact hAdmittedCovers
    · exact hAdmittedCovers.storeBlock hBlock hStored

theorem Covers.logCall {hs : HotStuff} (h : o.Covers hs) (block : Block) :
    o.Covers (hs.logCall block) :=
  { h with }

theorem Covers.send {hs : HotStuff} (h : o.Covers hs) {message : Message}
    (hMessage : o.message message) : o.Covers (hs.send message) := by
  refine { h with outbox := fun m hm => ?_ }
  rcases List.mem_append.mp hm with hOld | hNew
  · exact h.outbox m hOld
  · cases List.mem_singleton.mp hNew
    exact hMessage

/-- A vote record of covered data may be added. -/
theorem Covers.record {hs : HotStuff} (h : o.Covers hs) {block : Block} (entry accept : Snapshot)
    (hBlock : o.block block) (hEntry : o.Stores entry.forest) :
    o.Covers { hs with voteLog := hs.voteLog ++ [{ block, entry, accept, cast := hs.snapshot }] } := by
  refine { h with recorded := fun r hr => ?_ }
  rcases List.mem_append.mp hr with hOld | hNew
  · exact h.recorded r hOld
  · cases List.mem_singleton.mp hNew
    exact ⟨hBlock, hEntry, h.stored⟩

theorem Covers.turn {cfg : Config} {hs hs' : HotStuff} {block : Block} (hCovers : o.Covers hs)
    (hClosed : o.Closed hs.bc.quorum.total) (hBlock : o.block block)
    (hTurn : HotStuff.Turn cfg hs block hs') (hOwn : o.OwnVotes hs.id hs'.voteLog) :
    o.Covers hs' := by
  have hLogged := hCovers.logCall block
  cases hTurn with
  | returned hTaken => exact hLogged.takeUp hClosed hBlock hTaken
  | voted hTaken hCast =>
      rename_i taken accept
      have hSteady := HotStuff.takeUp_steady hTaken
      have hTakenCovers := hLogged.takeUp hClosed hBlock hTaken
      have hAdded := hTakenCovers.record hs.snapshot accept hBlock hCovers.stored
      have hMade := HotStuff.castVote_recorded hCast
      obtain ⟨vote, ⟨hVoter, hView, hId⟩, hEnd⟩ := HotStuff.castVote_spec hCast
      have hKnown : o.vote vote :=
        hOwn _ hMade vote (hVoter.trans hSteady.id_eq) hView hId
      rcases hEnd with hVote | ⟨recipient, rfl⟩
      · refine hAdded.processVote ?_ (fun _ => hKnown) hVote
        exact hSteady.total ▸ hClosed
      · exact hAdded.send hKnown

theorem OwnVotes.of_earlier {id : NodeID} {log log' : List VoteRecord} (h : o.OwnVotes id log')
    (hPrefix : log <+: log') : o.OwnVotes id log :=
  fun r hr => h r (hPrefix.subset hr)

theorem Covers.turns {cfg : Config} {hs hs' : HotStuff} {block : Block}
    (hTurns : HotStuff.Turns cfg hs block hs') (hCovers : o.Covers hs)
    (hClosed : o.Closed hs.bc.quorum.total) (hBlock : o.block block)
    (hOwn : o.OwnVotes hs.id hs'.voteLog) : o.Covers hs' := by
  induction hTurns with
  | last hTurn => exact hCovers.turn hClosed hBlock hTurn hOwn
  | nested hTurn hNext hRest ih =>
      -- the turn's own votes are still in the log when the nested call returns
      have hVoted := hCovers.turn hClosed hBlock hTurn (hOwn.of_earlier hRest.progress.voteLog)
      have hProgress := hTurn.progress
      have hLast := ih hVoted (hProgress.total_eq ▸ hClosed) (hVoted.bufferedBlocks _ _ hNext)
        (hProgress.id_eq ▸ hOwn)
      exact { hLast with
        bufferedBlocks := fun view found hFound =>
          hLast.bufferedBlocks view found (Table.of_lookup_erase hFound) }

theorem Covers.processRemoteTmo {cfg : Config} {hs hs' : HotStuff} {tmo : TMO}
    (hCovers : o.Covers hs) (hTmo : ∀ qc, tmo.highQC = some qc → o.qc qc)
    (h : hs.processRemoteTmo cfg tmo = .ok hs') : o.Covers hs' := by
  obtain ⟨qc, middle, hQC, hCertificate, _, hFrame⟩ := HotStuff.processRemoteTmo_spec h
  have hMiddle := hCovers.processCertificate (hTmo qc hQC) hCertificate
  rw [hFrame]
  exact { hMiddle with }

theorem Covers.processLocalTmo {cfg : Config} {hs hs' : HotStuff} {view : View}
    (hCovers : o.Covers hs) (h : hs.processLocalTmo cfg view = .ok hs') : o.Covers hs' := by
  unfold HotStuff.processLocalTmo at h
  refine ((hCovers.advanceView view).send ?_).processRemoteTmo ?_ h
  · exact ⟨hs.highQC, rfl, hCovers.highQC⟩
  · intro qc hQC
    cases hQC
    exact hCovers.highQC

theorem Covers.kickOff {hs : HotStuff} (h : o.Covers hs) (cfg : Config) :
    o.Covers (hs.kickOff cfg) := by
  unfold HotStuff.kickOff
  split_ifs
  · exact h.advanceView 0
  · exact h

/-- An event that brings only covered data. -/
def event (o : Origins) : HotStuff.Event → Prop
  | .block block => o.block block
  | .vote vote => o.vote vote
  | .tmo tmo => ∀ qc, tmo.highQC = some qc → o.qc qc
  | .localTmo _ => True
  | .kickOff => True

theorem Covers.step {cfg : Config} {hs hs' : HotStuff} {e : HotStuff.Event}
    (hCovers : o.Covers hs) (hClosed : o.Closed hs.bc.quorum.total) (hEvent : o.event e)
    (hOwn : o.OwnVotes hs.id hs'.voteLog) (h : hs.step cfg e = .ok hs') : o.Covers hs' := by
  cases e with
  | block block =>
      obtain ⟨⟨_, _⟩, hBlock, hDone⟩ := Outcome.bind_eq_ok.mp h
      cases Outcome.pure_eq_ok.mp hDone
      exact Covers.turns (HotStuff.processBlock_turns hBlock) hCovers hClosed hEvent hOwn
  | vote vote => exact hCovers.processVote hClosed (fun _ => hEvent) h
  | tmo tmo => exact hCovers.processRemoteTmo hEvent h
  | localTmo view => exact hCovers.processLocalTmo h
  | kickOff =>
      cases Outcome.pure_eq_ok.mp h
      exact hCovers.kickOff cfg

end Origins
end Bamboo
