import Bamboo.HotStuff.Frame

/-! Which certificates a replica acts on, and whose votes it counts. A certificate
from a peer is accepted after a loop over its own list of signers, so the list may
be empty or repeat a signer, and it is accepted unread when it names the replica
as its leader. Votes are verified under the number a voter's name stands for, but
counted by the name itself. -/
namespace Bamboo

open Library

/-- The certificate has valid signatures of more than two thirds of the keys. -/
def QC.Sound (keys : KeyRing) (qc : QC) : Prop :=
  2 * keys.size < 3 * (keys.validSigners qc.blockID qc.aggSig qc.signers).card

instance (keys : KeyRing) (qc : QC) : Decidable (qc.Sound keys) :=
  inferInstanceAs (Decidable (_ < _))

namespace HotStuff

theorem updatePreferredView_eq_none {hs : HotStuff} {qc : QC} :
    hs.updatePreferredView qc = none ↔
      2 < qc.view ∧ hs.bc.getParentBlock qc.blockID = none := by
  unfold updatePreferredView
  split_ifs with hExempt
  · simp [not_lt.mpr hExempt]
  · cases hParent : hs.bc.getParentBlock qc.blockID with
    | none => cases hs.bc.getBlockByID qc.blockID <;> simp [not_le.mp hExempt]
    | some parent =>
        obtain ⟨block, hBlock, _⟩ := BlockChain.getParentBlock_eq_some.mp hParent
        simp [hBlock]

/-- An accepted certificate changes the state unless it waits in the buffer already. -/
theorem processCertificate_changes {cfg : Config} {hs hs' : HotStuff} {qc : QC}
    (hHonest : hs.isByz = false) (hCurrent : hs.pm.curView ≤ qc.view)
    (hAccepts : cfg.Accepts hs.id qc) (h : hs.processCertificate cfg qc = .ok hs') :
    hs' = hs ↔ hs.bufferedQCs.lookup qc.blockID = some qc ∧ 2 < qc.view ∧
      hs.bc.getParentBlock qc.blockID = none := by
  rcases processCertificate_accepted hHonest hCurrent hAccepts h with
    ⟨hNone, rfl⟩ | ⟨locked, hLocked, hApply⟩
  · rw [and_iff_left (updatePreferredView_eq_none.mp hNone), ← Table.insert_eq_self_iff]
    constructor
    · intro hSame
      exact congrArg HotStuff.bufferedQCs hSame
    · intro hSame
      unfold bufferQC
      rw [hSame]
  · have hNotNone : hs.updatePreferredView qc ≠ none := by simp [hLocked]
    obtain ⟨lock, rfl, _, _⟩ := updatePreferredView_eq_some hLocked
    obtain ⟨bc, committed, forked, rfl, _⟩ := applyCertificate_spec hApply
    have hMoved := Pacemaker.advanceView_curView hCurrent
    constructor
    · intro hSame
      have hView : (hs.pm.advanceView qc.view).curView = hs.pm.curView :=
        congrArg (fun hs => hs.pm.curView) hSame
      lia
    · rintro ⟨_, hMissing⟩
      exact absurd (updatePreferredView_eq_none.mpr hMissing) hNotNone

/-- A certificate that changes the state is sound exactly when it names another
leader and enough different signers, or is sound to begin with; a certificate
that is old, rejected or already buffered changes nothing. -/
theorem certificate_sound_iff (cfg : Config) (hs hs' : HotStuff) (qc : QC)
    (hHonest : hs.isByz = false) (h : hs.processCertificate cfg qc = .ok hs') :
    (hs' ≠ hs → qc.Sound cfg.keys) ↔
      qc.view < hs.pm.curView ∨
      (qc.leader ≠ hs.id ∧
        cfg.keys.verifyQuorumSignature qc.blockID qc.aggSig qc.signers ≠ .ok true) ∨
      (hs.bufferedQCs.lookup qc.blockID = some qc ∧ 2 < qc.view ∧
        hs.bc.getParentBlock qc.blockID = none) ∨
      (qc.leader ≠ hs.id ∧ 2 * cfg.keys.size < 3 * (qc.signers.map node).toFinset.card) ∨
      (qc.leader = hs.id ∧ qc.Sound cfg.keys) := by
  by_cases hStale : qc.view < hs.pm.curView
  · have hSame : hs' = hs := by
      rcases processCertificate_cases h with ⟨_, hSame⟩ | ⟨hCurrent, _⟩
      · exact hSame
      · exact absurd hStale (not_lt.mpr hCurrent)
    exact iff_of_true (fun hChanged => absurd hSame hChanged) (Or.inl hStale)
  by_cases hAccepts : cfg.Accepts hs.id qc
  · have hChanges := processCertificate_changes hHonest (not_lt.mp hStale) hAccepts h
    have hNotRejected : ¬(qc.leader ≠ hs.id ∧
        cfg.keys.verifyQuorumSignature qc.blockID qc.aggSig qc.signers ≠ .ok true) := by
      rintro ⟨hLeader, hRejected⟩
      rcases hAccepts with hOwn | hVerified
      · exact hLeader hOwn
      · exact hRejected hVerified
    rw [or_iff_right hStale, or_iff_right hNotRejected, ← hChanges]
    by_cases hSame : hs' = hs
    · exact iff_of_true (fun hChanged => absurd hSame hChanged) (Or.inl hSame)
    rw [or_iff_right hSame]
    by_cases hLeader : qc.leader = hs.id
    · simp [hLeader, hSame]
    · -- the check has passed over every signer, so only repetitions are left
      have hVerified := hAccepts.resolve_left hLeader
      have hSigners := cfg.keys.validSigners_of_accepted _ _ _ hVerified
      simp [hLeader, hSame, QC.Sound, hSigners]
  · have hRejected : qc.leader ≠ hs.id ∧
        cfg.keys.verifyQuorumSignature qc.blockID qc.aggSig qc.signers ≠ .ok true :=
      not_or.mp hAccepts
    have hSame : hs' = hs := by
      rcases processCertificate_cases h with ⟨_, hSame⟩ | ⟨_, hVerified, _⟩
      · exact hSame
      · exact absurd (certificateVerified_iff.mp hVerified) hAccepts
    exact iff_of_true (fun hChanged => absurd hSame hChanged) (Or.inr (Or.inl hRejected))

theorem certificate_sound_three_signers :
    ∃ hs', processCertificate (Scenario.config fun _ => "1") (new "4" false 4)
        (Scenario.certificate 1 1) = .ok hs' ∧
      hs' ≠ new "4" false 4 ∧ (Scenario.certificate 1 1).Sound (Scenario.config fun _ => "1").keys := by
  obtain ⟨hs', hRun, hMoved⟩ := Outcome.of_test
    (x := processCertificate (Scenario.config fun _ => "1") (new "4" false 4)
      (Scenario.certificate 1 1))
    (P := fun hs' => hs'.pm.curView ≠ (new "4" false 4).pm.curView) (by decide)
  have hChanged : hs' ≠ new "4" false 4 := fun hSame => hMoved (by rw [hSame])
  refine ⟨hs', hRun, hChanged, ?_⟩
  exact (certificate_sound_iff _ _ hs' _ rfl hRun).mpr
    (Or.inr (Or.inr (Or.inr (Or.inl (by decide))))) hChanged

/-- A certificate without any signature moves a new replica to view 2. -/
theorem unsigned_certificate_accepted :
    ∃ hs', processCertificate (Scenario.config fun _ => "1") (new "4" false 4)
        { view := 1, blockID := 1 } = .ok hs' ∧
      hs' ≠ new "4" false 4 ∧
      ¬QC.Sound (Scenario.config fun _ => "1").keys { view := 1, blockID := 1 } := by
  obtain ⟨hs', hRun, hMoved⟩ := Outcome.of_test
    (x := processCertificate (Scenario.config fun _ => "1") (new "4" false 4)
      { view := 1, blockID := 1 })
    (P := fun hs' => hs'.pm.curView ≠ (new "4" false 4).pm.curView) (by decide)
  exact ⟨hs', hRun, fun hSame => hMoved (by rw [hSame]), by decide⟩

end HotStuff

namespace Quorum

/-- Every recorded vote satisfies `property`, and no number votes for a block under
two names. -/
structure Distinct (q : Quorum) (property : Vote → Prop) : Prop where
  holds : q.Holds property
  names : ∀ id, ∀ a ∈ (q.votesFor id).keys, ∀ b ∈ (q.votesFor id).keys, node a = node b → a = b

theorem new_distinct (total : Nat) (property : Vote → Prop) : (new total).Distinct property where
  holds := new_holds total property
  names id a ha := by simp [new, votesFor] at ha

theorem mem_keys_iff {q : Quorum} {id : Identifier} {voter : NodeID} :
    voter ∈ (q.votesFor id).keys ↔ ∃ vote, (q.votesFor id).lookup voter = some vote := by
  rw [← AList.mem_keys, ← AList.lookup_isSome, Option.isSome_iff_exists]

variable {property : Vote → Prop}

/-- Recording a vote under a name that no other recorded name stands beside. -/
theorem Distinct.record {q : Quorum} (h : q.Distinct property) {vote : Vote}
    (hVote : property vote) (hName : ∀ voter ∈ (q.votesFor vote.blockID).keys,
      node voter = node vote.voter → voter = vote.voter) : (q.record vote).Distinct property where
  holds := h.holds.record hVote
  names id a ha b hb hNode := by
    rw [votesFor_record] at ha hb
    split_ifs at ha hb with hId
    · rw [← AList.mem_keys, AList.mem_insert] at ha hb
      subst hId
      rcases ha with rfl | ha <;> rcases hb with rfl | hb
      · rfl
      · exact (hName b hb hNode.symm).symm
      · exact hName a ha hNode
      · exact h.names _ a ha b hb hNode
    · exact h.names id a ha b hb hNode

theorem Distinct.add {q : Quorum} (h : q.Distinct property) {vote : Vote} (hVote : property vote)
    (hName : ∀ voter ∈ (q.votesFor vote.blockID).keys,
      node voter = node vote.voter → voter = vote.voter) : (q.add vote).1.Distinct property := by
  rcases q.add_cases vote with hAdd | hAdd | ⟨hAdd, _⟩ <;> rw [hAdd]
  · exact h
  · exact h.record hVote hName
  · exact h.record hVote hName

end Quorum

/-- Committing only drops votes. -/
theorem BlockChain.Reduces.distinct {bc bc' : BlockChain} {property : Vote → Prop}
    (h : bc.Reduces bc') (hDistinct : bc.quorum.Distinct property) :
    bc'.quorum.Distinct property where
  holds := h.votes _ hDistinct.holds
  names id a ha b hb hNode := by
    -- every vote that is left is one of the votes recorded before
    have hOld := h.votes (fun vote => (bc.quorum.votesFor vote.blockID).lookup vote.voter = some vote)
      (fun id voter vote hVote => by
        obtain ⟨_, rfl, rfl⟩ := hDistinct.holds id voter vote hVote
        exact ⟨hVote, rfl, rfl⟩)
    have hKept : ∀ voter ∈ (bc'.quorum.votesFor id).keys, voter ∈ (bc.quorum.votesFor id).keys := by
      intro voter hVoter
      obtain ⟨vote, hVote⟩ := Quorum.mem_keys_iff.mp hVoter
      obtain ⟨hRecorded, hBlock, hName⟩ := hOld id voter vote hVote
      rw [hBlock, hName] at hRecorded
      exact Quorum.mem_keys_iff.mpr ⟨vote, hRecorded⟩
    exact hDistinct.names id a (hKept a ha) b (hKept b hb) hNode

namespace HotStuff

/-- The vote is the replica's own, or its signature is valid under the key of the
voter's number. -/
def Counted (cfg : Config) (id : NodeID) (vote : Vote) : Prop :=
  vote.voter = id ∨ cfg.keys.Valid vote.signature vote.blockID vote.voter

theorem voteVerified_iff {cfg : Config} {hs : HotStuff} {vote : Vote} :
    hs.voteVerified cfg vote = .ok true ↔ Counted cfg hs.id vote := by
  unfold voteVerified Counted
  split_ifs with hOwn
  · exact iff_of_true rfl (Or.inl hOwn)
  · exact (or_iff_right hOwn).symm

/-- The vote is rejected, or no voter recorded for its block has the same number
under another name. -/
def OneName (cfg : Config) (hs : HotStuff) (vote : Vote) : Prop :=
  Counted cfg hs.id vote → ∀ voter ∈ (hs.bc.quorum.votesFor vote.blockID).keys,
    node voter = node vote.voter → voter = vote.voter

instance (cfg : Config) (id : NodeID) (vote : Vote) : Decidable (Counted cfg id vote) :=
  inferInstanceAs (Decidable (_ ∨ _))

instance (cfg : Config) (hs : HotStuff) (vote : Vote) : Decidable (OneName cfg hs vote) :=
  inferInstanceAs (Decidable (_ → ∀ voter ∈ (hs.bc.quorum.votesFor vote.blockID).keys, _))

/-- A certificate only drops blocks and votes from the chain. -/
theorem processCertificate_reduces {cfg : Config} {hs hs' : HotStuff} {qc : QC}
    (h : hs.processCertificate cfg qc = .ok hs') : hs.bc.Reduces hs'.bc := by
  rcases processCertificate_cases h with ⟨_, rfl⟩ | ⟨_, _, ⟨_, rfl⟩ | ⟨_, rfl⟩ | hApplied⟩
  · exact .refl _
  · exact .refl _
  · exact .refl _
  · obtain ⟨locked, hLocked, hApply⟩ := hApplied
    obtain ⟨lock, rfl, _, _⟩ := updatePreferredView_eq_some hLocked
    obtain ⟨bc, committed, forked, rfl, hReduces, _⟩ := applyCertificate_spec hApply
    exact hReduces

theorem processVote_distinct {cfg : Config} {hs hs' : HotStuff} {vote : Vote}
    (hDistinct : hs.bc.quorum.Distinct (Counted cfg hs.id)) (hName : OneName cfg hs vote)
    (h : hs.processVote cfg vote = .ok hs') :
    hs'.bc.quorum.Distinct (Counted cfg hs.id) := by
  rcases processVote_cases h with ⟨_, rfl⟩ | ⟨hVerified, hRest⟩
  · exact hDistinct
  have hCounted := voteVerified_iff.mp hVerified
  have hAdded : (hs.bc.addVote vote).1.quorum.Distinct (Counted cfg hs.id) :=
    hDistinct.add hCounted (hName hCounted)
  rcases hRest with ⟨_, rfl⟩ | ⟨qc, _, rfl | hCertificate⟩
  · exact hAdded
  · exact hAdded
  · exact (processCertificate_reduces hCertificate).distinct hAdded

/-- After any votes under one name for each number, the votes are distinct. -/
theorem run_votes_distinct {cfg : Config} {hs₀ hs : HotStuff} {votes : List Vote}
    (hStart : hs₀.bc.quorum = .new cfg.keys.size)
    (hNames : Guarded (processVote cfg) (OneName cfg) hs₀ votes)
    (hRun : run (processVote cfg) hs₀ votes = .ok hs) :
    hs.id = hs₀.id ∧ hs.bc.quorum.total = cfg.keys.size ∧
      hs.bc.quorum.Distinct (Counted cfg hs₀.id) := by
  refine guarded_run_invariant (P := fun hs => hs.id = hs₀.id ∧
    hs.bc.quorum.total = cfg.keys.size ∧ hs.bc.quorum.Distinct (Counted cfg hs₀.id)) ?_ hNames hRun ?_
  · rintro hs vote hs' ⟨hId, hTotal, hDistinct⟩ hName hStep
    have hQuiet := processVote_quiet hStep
    refine ⟨hQuiet.id_eq.trans hId, hQuiet.total.trans hTotal, ?_⟩
    rw [← hId] at hDistinct ⊢
    exact processVote_distinct hDistinct hName hStep
  · rw [hStart]
    exact ⟨rfl, rfl, Quorum.new_distinct _ _⟩

/-- If no two counted votes for one block come from one number under two names,
then the signers of a certificate are more than two thirds of the numbers, so that
fewer than a third of the key holders cannot make one alone. -/
theorem certificate_signers_distinct (cfg : Config) (hs₀ hs : HotStuff) (votes : List Vote)
    (vote : Vote) (bc : BlockChain) (qc : QC) (hStart : hs₀.bc.quorum = .new cfg.keys.size)
    (hNames : Guarded (processVote cfg) (OneName cfg) hs₀ (votes ++ [vote]))
    (hRun : run (processVote cfg) hs₀ votes = .ok hs)
    (hVerified : hs.voteVerified cfg vote = .ok true)
    (hAdd : hs.bc.addVote vote = (bc, some qc)) :
    (qc.signers.map node).Nodup ∧ 2 * cfg.keys.size < 3 * (qc.signers.map node).length ∧
      ∀ holders : Finset Int, holders.card ≤ (cfg.keys.size - 1) / 3 →
        ∃ signer ∈ qc.signers, node signer ∉ holders ∧
          (signer = hs₀.id ∨ ∃ sig ∈ qc.aggSig, cfg.keys.Valid sig qc.blockID signer) := by
  obtain ⟨hId, hTotal, hDistinct⟩ := run_votes_distinct hStart hNames.of_append hRun
  have hCounted := voteVerified_iff.mp hVerified
  have hName := hNames.last hRun hCounted
  rw [hId] at hCounted
  have hBuilt : (hs.bc.quorum.add vote).2 = some qc := congrArg Prod.snd hAdd
  have hPair : hs.bc.quorum.add vote = ((hs.bc.quorum.add vote).1, some qc) := by
    rw [← hBuilt]
  obtain ⟨_, hBlock, hHolds, hSigners, hSigs, hSize⟩ :=
    Quorum.add_signers hDistinct.holds hCounted hPair
  have hAfter := (hDistinct.add hCounted hName).names vote.blockID
  rw [← hSigners] at hAfter
  have hNodup : (qc.signers.map node).Nodup :=
    List.Nodup.map_on (fun a ha b hb hNode => hAfter a ha b hb hNode)
      (hSigners ▸ AList.keys_nodup _)
  rw [hTotal] at hSize
  have hMany : 2 * cfg.keys.size < 3 * (qc.signers.map node).length := by
    rw [List.length_map]
    omega
  have hOutside : ∀ holders : Finset Int, holders.card ≤ (cfg.keys.size - 1) / 3 →
      ∃ signer ∈ qc.signers, node signer ∉ holders := by
    intro holders hFew
    by_contra hAlone
    have hInside : (qc.signers.map node).toFinset ⊆ holders := by
      intro number hNumber
      obtain ⟨signer, hSigner, rfl⟩ := List.mem_map.mp (List.mem_toFinset.mp hNumber)
      by_contra hOut
      exact hAlone ⟨signer, hSigner, hOut⟩
    have hCard := Finset.card_le_card hInside
    rw [List.toFinset_card_of_nodup hNodup] at hCard
    omega
  refine ⟨hNodup, hMany, fun holders hFew => ?_⟩
  obtain ⟨signer, hSigner, hOut⟩ := hOutside holders hFew
  refine ⟨signer, hSigner, hOut, ?_⟩
  rw [hSigners] at hSigner
  obtain ⟨found, hFound⟩ := Quorum.mem_keys_iff.mp hSigner
  obtain ⟨hOwn | hValid, hFiled, hVoter⟩ := hHolds vote.blockID signer found hFound
  · exact Or.inl (hVoter.symm.trans hOwn)
  · refine Or.inr ⟨found.signature, hSigs ▸ Quorum.getSigs_mem hFound, ?_⟩
    rw [hBlock, ← hFiled, ← hVoter]
    exact hValid

end HotStuff

namespace Scenario

/-- A vote for block 7 by the holder of a key, under a given name. -/
def voteAs (key : Nat) (name : NodeID) : Vote where
  view := 1
  voter := name
  blockID := 7
  signature := (config fun _ => "1").keys.sign key 7

end Scenario

namespace HotStuff

theorem certificate_signers_distinct_three :
    ∃ hs bc qc, run (processVote (Scenario.config fun _ => "1")) (new "4" false 4)
        [Scenario.voteAs 0 "1", Scenario.voteAs 1 "2"] = .ok hs ∧
      hs.bc.addVote (Scenario.voteAs 2 "3") = (bc, some qc) ∧ (qc.signers.map node).Nodup := by
  obtain ⟨hs, hRun, hVerified, hBuilt⟩ := Outcome.of_test
    (x := run (processVote (Scenario.config fun _ => "1")) (new "4" false 4)
      [Scenario.voteAs 0 "1", Scenario.voteAs 1 "2"])
    (P := fun hs =>
      hs.voteVerified (Scenario.config fun _ => "1") (Scenario.voteAs 2 "3") = .ok true ∧
      (hs.bc.addVote (Scenario.voteAs 2 "3")).2.isSome) (by decide)
  obtain ⟨qc, hQC⟩ := Option.isSome_iff_exists.mp hBuilt
  have hAdd : hs.bc.addVote (Scenario.voteAs 2 "3") =
      ((hs.bc.addVote (Scenario.voteAs 2 "3")).1, some qc) := Prod.ext rfl hQC
  refine ⟨hs, _, qc, hRun, hAdd, ?_⟩
  exact (certificate_signers_distinct (Scenario.config fun _ => "1") (new "4" false 4) hs
    [Scenario.voteAs 0 "1", Scenario.voteAs 1 "2"] (Scenario.voteAs 2 "3") _ qc rfl (by decide) hRun
    hVerified hAdd).1

/-- The holder of one key votes under three names, and a certificate is built. -/
theorem aliases_build_certificate :
    ∃ hs, run (processVote (Scenario.config fun _ => "1")) (new "4" false 4)
        [Scenario.voteAs 0 "1", Scenario.voteAs 0 "01"] = .ok hs ∧
      hs.voteVerified (Scenario.config fun _ => "1") (Scenario.voteAs 0 "001") = .ok true ∧
      ∃ qc ∈ (hs.bc.addVote (Scenario.voteAs 0 "001")).2, ¬(qc.signers.map node).Nodup :=
  Outcome.of_test (by decide)

/-- What holds for the recorded votes and for a new one holds for those recorded after it. -/
theorem processVote_holds {cfg : Config} {hs hs' : HotStuff} {vote : Vote} {property : Vote → Prop}
    (hHolds : hs.bc.quorum.Holds property) (hVote : property vote)
    (h : hs.processVote cfg vote = .ok hs') : hs'.bc.quorum.Holds property := by
  have hAdded : (hs.bc.addVote vote).1.quorum.Holds property := hHolds.add hVote
  rcases processVote_cases h with ⟨_, rfl⟩ | ⟨_, ⟨_, rfl⟩ | ⟨qc, _, rfl | hCertificate⟩⟩
  · exact hHolds
  · exact hAdded
  · exact hAdded
  · exact (processCertificate_reduces hCertificate).votes property hAdded

/-- After any votes, each recorded vote is one of them. -/
theorem run_votes_recorded {cfg : Config} {hs₀ hs : HotStuff} {n : Nat} {votes : List Vote}
    (hStart : hs₀.bc.quorum = .new n) (hRun : run (processVote cfg) hs₀ votes = .ok hs) :
    hs.bc.quorum.total = n ∧ hs.bc.quorum.Holds (· ∈ votes) := by
  refine run_history (P := fun past hs => hs.bc.quorum.total = n ∧ hs.bc.quorum.Holds (· ∈ past))
    ?_ (guarded_true hs₀ votes) hRun [] ?_
  · rintro past hs vote hs' ⟨hTotal, hHolds⟩ _ hStep
    refine ⟨(processVote_quiet hStep).total.trans hTotal, processVote_holds ?_ ?_ hStep⟩
    · exact hHolds.mono fun _ hMem => List.mem_append_left _ hMem
    · exact List.mem_append_right _ List.mem_cons_self
  · rw [hStart]
    exact ⟨rfl, Quorum.new_holds n _⟩

/-- Let the votes for a block carry the view `v`, except those of a faulty minority. Among
the signers of a certificate more than a third are correct and have voted with `v`. Its
view is nevertheless that of the one vote with which it is complete, so it is `v` exactly
when that vote is a correct replica's or carries `v` anyway. -/
theorem certificate_view_iff (cfg : Config) (hs₀ hs : HotStuff) (n : Nat) (votes : List Vote)
    (vote : Vote) (id : Identifier) (v : View) (faulty : Finset NodeID) (bc : BlockChain) (qc : QC)
    (hStart : hs₀.bc.quorum = .new n) (hFew : faulty.card ≤ (n - 1) / 3)
    (hVotes : ∀ w ∈ votes ++ [vote], w.blockID = id ∧ (w.voter ∉ faulty → w.view = v))
    (hRun : run (processVote cfg) hs₀ votes = .ok hs)
    (hAdd : hs.bc.addVote vote = (bc, some qc)) :
    qc.blockID = id ∧ (n - 1) / 3 < (qc.signers.toFinset \ faulty).card ∧
      (∀ signer ∈ qc.signers.toFinset \ faulty,
        ∃ w ∈ votes ++ [vote], w.voter = signer ∧ w.view = v) ∧
      (qc.view = v ↔ vote.voter ∉ faulty ∨ vote.view = v) := by
  obtain ⟨hTotal, hHolds⟩ := run_votes_recorded hStart hRun
  have hEarlier : hs.bc.quorum.Holds (· ∈ votes ++ [vote]) :=
    hHolds.mono fun _ hMem => List.mem_append_left _ hMem
  have hLast : vote ∈ votes ++ [vote] := List.mem_append_right _ List.mem_cons_self
  have hBuilt : (hs.bc.quorum.add vote).2 = some qc := congrArg Prod.snd hAdd
  have hPair : hs.bc.quorum.add vote = ((hs.bc.quorum.add vote).1, some qc) := by
    rw [← hBuilt]
  obtain ⟨hView, hBlock, hNodup, hSize, hSigned⟩ := Quorum.add_certificate hEarlier hLast hPair
  refine ⟨hBlock.trans (hVotes vote hLast).1, ?_, ?_, ?_⟩
  · have hCorrect := Finset.le_card_sdiff faulty qc.signers.toFinset
    rw [List.toFinset_card_of_nodup hNodup] at hCorrect
    rw [hTotal] at hSize
    omega
  · intro signer hSigner
    obtain ⟨hMem, hCorrect⟩ := Finset.mem_sdiff.mp hSigner
    obtain ⟨w, hw, _, rfl⟩ := hSigned signer (List.mem_toFinset.mp hMem)
    exact ⟨w, hw, rfl, (hVotes w hw).2 hCorrect⟩
  · rw [hView]
    constructor
    · exact Or.inr
    · rintro (hCorrect | hSame)
      · exact (hVotes vote hLast).2 hCorrect
      · exact hSame

/-- Node 3 is faulty and votes second, so that a correct vote completes the quorum. -/
theorem certificate_view_iff_second :
    ∃ hs bc qc, run (processVote (Scenario.config fun _ => "1")) (new "4" false 4)
        [Scenario.voteAs 0 "1", { Scenario.voteAs 2 "3" with view := 9 }] = .ok hs ∧
      hs.bc.addVote (Scenario.voteAs 1 "2") = (bc, some qc) ∧ qc.view = 1 := by
  obtain ⟨hs, hRun, hBuilt⟩ := Outcome.of_test
    (x := run (processVote (Scenario.config fun _ => "1")) (new "4" false 4)
      [Scenario.voteAs 0 "1", { Scenario.voteAs 2 "3" with view := 9 }])
    (P := fun hs => (hs.bc.addVote (Scenario.voteAs 1 "2")).2.isSome) (by decide)
  obtain ⟨qc, hQC⟩ := Option.isSome_iff_exists.mp hBuilt
  have hAdd : hs.bc.addVote (Scenario.voteAs 1 "2") =
      ((hs.bc.addVote (Scenario.voteAs 1 "2")).1, some qc) := Prod.ext rfl hQC
  refine ⟨hs, _, qc, hRun, hAdd, ?_⟩
  exact (certificate_view_iff (Scenario.config fun _ => "1") (new "4" false 4) hs 4
    [Scenario.voteAs 0 "1", { Scenario.voteAs 2 "3" with view := 9 }] (Scenario.voteAs 1 "2") 7 1
    {"3"} _ qc rfl (by decide) (by decide) hRun hAdd).2.2.2.mpr (Or.inl (by decide))

/-- One faulty replica of four votes last, under a valid signature, and chooses the view. -/
theorem faulty_vote_chooses_view :
    ∃ hs, run (processVote (Scenario.config fun _ => "1")) (new "4" false 4)
        [Scenario.voteAs 0 "1", Scenario.voteAs 1 "2"] = .ok hs ∧
      hs.voteVerified (Scenario.config fun _ => "1") { Scenario.voteAs 2 "3" with view := 9 } =
        .ok true ∧
      ∃ qc ∈ (hs.bc.addVote { Scenario.voteAs 2 "3" with view := 9 }).2,
        qc.blockID = 7 ∧ qc.view = 9 :=
  Outcome.of_test (by decide)

end HotStuff
end Bamboo
