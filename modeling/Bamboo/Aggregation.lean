import Bamboo.Library.Collector
import Bamboo.Library.LockedVoting
import Bamboo.Pacemaker

/-! When votes and timeouts make a certificate. The votes for a block and the timeouts
for a view are collected in the same way, so both are instances of one collector: the
certificate is made by the call at which the number of different voters passes two
thirds of the total. -/
namespace Bamboo

open Library Collector

namespace Quorum

/-- A quorum after a sequence of votes. -/
def addAll (n : Nat) (votes : List Vote) : Quorum :=
  votes.foldl (fun q vote => (q.add vote).1) (new n)

/-- The votes for a block, with their voters. -/
def cast (id : Identifier) (votes : List Vote) : List (NodeID × Vote) :=
  (votes.filter fun vote => vote.blockID = id).map fun vote => (vote.voter, vote)

theorem cast_snoc (id : Identifier) (votes : List Vote) (vote : Vote) :
    cast id (votes ++ [vote]) =
      if vote.blockID = id then cast id votes ++ [(vote.voter, vote)] else cast id votes := by
  unfold cast
  split_ifs with h
  · simp [h]
  · simp [h]

theorem superMajority_iff (q : Quorum) (id : Identifier) :
    q.superMajority id = true ↔ q.total * 2 / 3 < (q.votesFor id).toFinmap.keys.card := by
  rw [Listing.card_keys]
  exact decide_eq_true_iff

/-- Adding a vote is a step of the collector of its block. -/
theorem add_collects (q : Quorum) (vote : Vote) (id : Identifier) :
    ((q.add vote).1.votesFor id).toFinmap =
      if vote.blockID = id then
        (collect (q.total * 2 / 3) (q.votesFor id).toFinmap vote.voter vote).1
      else (q.votesFor id).toFinmap := by
  have hRecorded : ((q.record vote).votesFor id).toFinmap =
      if vote.blockID = id then (q.votesFor id).toFinmap.insert vote.voter vote
      else (q.votesFor id).toFinmap := by
    rw [votesFor_record]
    by_cases hId : vote.blockID = id
    · rw [if_pos hId.symm, if_pos hId]
      exact (Finmap.insert_toFinmap _ _ _).symm
    · rw [if_neg (Ne.symm hId), if_neg hId]
  unfold add
  by_cases hBefore : q.superMajority vote.blockID = true
  · rw [if_pos hBefore]
    split_ifs with hId
    · subst hId
      rw [collect, if_pos ((superMajority_iff q _).mp hBefore)]
    · rfl
  · rw [if_neg hBefore]
    have hSame : (if (q.record vote).superMajority vote.blockID = true then
        (q.record vote, some ((q.record vote).certificate vote))
        else (q.record vote, none)).1 = q.record vote := by
      split_ifs <;> rfl
    dsimp only
    rw [hSame, hRecorded]
    split_ifs with hId
    · subst hId
      rw [collect, if_neg (mt (superMajority_iff q _).mpr hBefore)]
    · rfl

/-- A certificate is returned exactly when the collector's count is passed. -/
theorem add_isSome_iff (q : Quorum) (vote : Vote) :
    (q.add vote).2.isSome = true ↔
      (collect (q.total * 2 / 3) (q.votesFor vote.blockID).toFinmap vote.voter vote).2 = true := by
  have hRecorded : ((q.record vote).votesFor vote.blockID).toFinmap =
      (q.votesFor vote.blockID).toFinmap.insert vote.voter vote := by
    rw [votesFor_record, if_pos rfl]
    exact (Finmap.insert_toFinmap _ _ _).symm
  unfold add collect
  by_cases hBefore : q.superMajority vote.blockID = true
  · rw [if_pos hBefore, if_pos ((superMajority_iff q _).mp hBefore)]
    simp
  · rw [if_neg hBefore, if_neg (mt (superMajority_iff q _).mpr hBefore)]
    have hAfter := superMajority_iff (q.record vote) vote.blockID
    rw [hRecorded] at hAfter
    dsimp only
    rw [decide_eq_true_iff]
    by_cases hPassed : (q.record vote).superMajority vote.blockID = true
    · rw [if_pos hPassed]
      exact iff_of_true rfl (hAfter.mp hPassed)
    · rw [if_neg hPassed]
      exact iff_of_false (by simp) (mt hAfter.mpr hPassed)

theorem addAll_snoc (n : Nat) (votes : List Vote) (vote : Vote) :
    addAll n (votes ++ [vote]) = ((addAll n votes).add vote).1 := by
  simp [addAll]

theorem addAll_total (n : Nat) (votes : List Vote) : (addAll n votes).total = n := by
  induction votes using List.reverseRecOn with
  | nil => rfl
  | append_singleton votes vote ih => rw [addAll_snoc, add_total, ih]

/-- The votes recorded for a block are those its collector has recorded. -/
theorem addAll_collects (n : Nat) (votes : List Vote) (id : Identifier) :
    ((addAll n votes).votesFor id).toFinmap = collectAll (n * 2 / 3) (cast id votes) := by
  induction votes using List.reverseRecOn with
  | nil => rfl
  | append_singleton votes vote ih =>
      rw [addAll_snoc, add_collects, addAll_total, cast_snoc]
      split_ifs
      · rw [collectAll_snoc, ih]
      · exact ih

end Quorum

/-- The lists of a certificate enumerate the voters among the votes for its block, each
once and next to the signature of the voter's last vote. -/
structure QC.Enumerates (qc : QC) (votes : List Vote) : Prop where
  nodup : qc.signers.Nodup
  signers : ∀ voter, voter ∈ qc.signers ↔ voter ∈ voters (Quorum.cast qc.blockID votes)
  length : qc.aggSig.length = qc.signers.length
  signatures : ∀ (i : Nat) (voter : NodeID), qc.signers[i]? = some voter →
    ∃ vote, lastBallot (Quorum.cast qc.blockID votes) voter = some vote ∧
      qc.aggSig[i]? = some vote.signature

namespace Quorum

/-- The certificate for a vote whose lists are read in a given order of the votes, as a
loop over the map may visit them. -/
def certificateInOrder (vote : Vote) (order : List Vote) : QC :=
  { view := vote.view, blockID := vote.blockID, aggSig := order.map Vote.signature,
    signers := order.map Vote.voter }

/-- The votes recorded for a block, in the map's own order. -/
def recordedVotes (q : Quorum) (id : Identifier) : List Vote :=
  (q.votesFor id).entries.map fun entry => entry.2

theorem addAll_holds (n : Nat) (votes : List Vote) : (addAll n votes).Holds fun _ => True := by
  induction votes using List.reverseRecOn with
  | nil => exact new_holds n _
  | append_singleton votes vote ih =>
      rw [addAll_snoc]
      exact ih.add trivial

/-- In whatever order the recorded votes are read, the two lists stay aligned. -/
theorem certificateInOrder_enumerates {q : Quorum} {votes : List Vote} {vote : Vote}
    (hHolds : q.Holds fun _ => True)
    (hRecords : Records (cast vote.blockID votes) (q.votesFor vote.blockID).toFinmap)
    {order : List Vote} (hOrder : order.Perm (q.recordedVotes vote.blockID)) :
    (certificateInOrder vote order).Enumerates votes := by
  obtain ⟨hKeys, hLast⟩ := hRecords
  have hSigners : (order.map Vote.voter).Perm (q.votesFor vote.blockID).keys := by
    rw [← getSigs_signers hHolds]
    exact hOrder.map Vote.voter
  have hFound : ∀ found ∈ order, lastBallot (cast vote.blockID votes) found.voter = some found := by
    intro found hMem
    obtain ⟨entry, hEntry, rfl⟩ := List.mem_map.mp (hOrder.subset hMem)
    have hLookup : (q.votesFor vote.blockID).lookup entry.1 = some entry.2 :=
      AList.mem_lookup_iff.mpr hEntry
    have hVoter := (hHolds vote.blockID entry.1 entry.2 hLookup).2.2
    rw [hVoter, ← hLast]
    exact hLookup
  exact {
    nodup := hSigners.nodup_iff.mpr (AList.keys_nodup _)
    signers := by
      intro voter
      change voter ∈ order.map Vote.voter ↔ voter ∈ voters (cast vote.blockID votes)
      rw [hSigners.mem_iff, ← hKeys, Finmap.mem_keys, ← AList.mem_keys]
      exact Finmap.mem_toFinmap.symm
    length := by simp [certificateInOrder]
    signatures := by
      intro i voter hVoter
      simp only [certificateInOrder, List.getElem?_map] at hVoter ⊢
      cases hAt : order[i]? with
      | none =>
          rw [hAt] at hVoter
          cases hVoter
      | some found =>
          rw [hAt] at hVoter
          cases hVoter
          exact ⟨found, hFound found (List.mem_of_getElem? hAt), rfl⟩ }

/-- The certificate of a vote is returned exactly when the vote is the first of the
voter that takes the count past two thirds. -/
theorem add_returns_iff (n : Nat) (votes : List Vote) (vote : Vote) :
    ((addAll n votes).add vote).2.isSome = true ↔
      (voters (cast vote.blockID votes)).card = n * 2 / 3 ∧
        (voters (cast vote.blockID (votes ++ [vote]))).card = n * 2 / 3 + 1 := by
  rw [add_isSome_iff, addAll_total, addAll_collects, collect_passes_iff, cast_snoc, if_pos rfl]

theorem add_returns_records {n : Nat} {votes : List Vote} {vote : Vote}
    (h : ((addAll n votes).add vote).2.isSome = true) :
    Records (cast vote.blockID (votes ++ [vote]))
      ((addAll n (votes ++ [vote])).votesFor vote.blockID).toFinmap := by
  rw [add_isSome_iff, addAll_total, addAll_collects] at h
  rw [addAll_snoc, add_collects, if_pos rfl, addAll_total, addAll_collects, cast_snoc, if_pos rfl]
  exact collect_passes_records h

/-- A returned certificate reads the recorded votes in the map's order. -/
theorem add_certificate_eq {q : Quorum} {vote : Vote} {qc : QC} (h : (q.add vote).2 = some qc) :
    qc = certificateInOrder vote ((q.add vote).1.recordedVotes vote.blockID) := by
  rcases q.add_cases vote with hCase | hCase | ⟨hCase, _⟩
  · rw [hCase] at h
    cases h
  · rw [hCase] at h
    cases h
  · rw [hCase] at h ⊢
    cases h
    rfl

end Quorum

namespace TimeoutController

/-- A timeout controller after a sequence of timeouts. -/
def addAll (n : Nat) (tmos : List TMO) : TimeoutController :=
  tmos.foldl (fun tcl tmo => (tcl.addTmo tmo).1) (new n)

/-- The timeouts for a view, with the nodes they come from. -/
def cast (view : View) (tmos : List TMO) : List (NodeID × TMO) :=
  (tmos.filter fun tmo => tmo.view = view).map fun tmo => (tmo.nodeID, tmo)

theorem cast_snoc (view : View) (tmos : List TMO) (tmo : TMO) :
    cast view (tmos ++ [tmo]) =
      if tmo.view = view then cast view tmos ++ [(tmo.nodeID, tmo)] else cast view tmos := by
  unfold cast
  split_ifs with h
  · simp [h]
  · simp [h]

theorem superMajority_iff (tcl : TimeoutController) (view : View) :
    tcl.superMajority view = true ↔ tcl.n * 2 / 3 < (tcl.timeoutsAt view).keys.card :=
  decide_eq_true_iff

theorem timeoutsAt_insert (tcl : TimeoutController) (filed view : View) (found : Table NodeID TMO) :
    timeoutsAt { tcl with timeouts := tcl.timeouts.insert filed found } view =
      if filed = view then found else tcl.timeoutsAt view := by
  simp only [timeoutsAt, Table.lookup_insert_ite]
  by_cases hView : view = filed
  · subst hView
    simp
  · simp [hView, Ne.symm hView]

/-- Adding a timeout is a step of the collector of its view, and a certificate for that
view is made exactly when the count is passed. -/
theorem addTmo_collects (tcl : TimeoutController) (tmo : TMO) :
    (tcl.addTmo tmo).1.n = tcl.n ∧
      (∀ view, (tcl.addTmo tmo).1.timeoutsAt view =
        if tmo.view = view then
          (collect (tcl.n * 2 / 3) (tcl.timeoutsAt view) tmo.nodeID tmo).1
        else tcl.timeoutsAt view) ∧
      (tcl.addTmo tmo).2 =
        if (collect (tcl.n * 2 / 3) (tcl.timeoutsAt tmo.view) tmo.nodeID tmo).2
        then some { view := tmo.view } else none := by
  unfold addTmo
  by_cases hBefore : tcl.superMajority tmo.view = true
  · rw [if_pos hBefore]
    have hPassed := (superMajority_iff tcl _).mp hBefore
    refine ⟨rfl, fun view => ?_, ?_⟩
    · split_ifs with hView
      · subst hView
        rw [collect, if_pos hPassed]
      · rfl
    · rw [collect, if_pos hPassed]
      rfl
  · rw [if_neg hBefore]
    have hNot := mt (superMajority_iff tcl _).mpr hBefore
    refine ⟨rfl, fun view => ?_, ?_⟩
    · dsimp only
      rw [timeoutsAt_insert]
      split_ifs with hView
      · subst hView
        rw [collect, if_neg hNot]
      · rfl
    · dsimp only
      rw [collect, if_neg hNot]
      simp only [superMajority_iff, timeoutsAt_insert, if_true, decide_eq_true_eq]

theorem addAll_snoc (n : Nat) (tmos : List TMO) (tmo : TMO) :
    addAll n (tmos ++ [tmo]) = ((addAll n tmos).addTmo tmo).1 := by
  simp [addAll]

/-- The timeouts kept for a view are those its collector has recorded. -/
theorem addAll_collects (n : Nat) (tmos : List TMO) :
    (addAll n tmos).n = n ∧
      ∀ view, (addAll n tmos).timeoutsAt view = collectAll (n * 2 / 3) (cast view tmos) := by
  induction tmos using List.reverseRecOn with
  | nil => exact ⟨rfl, fun view => rfl⟩
  | append_singleton tmos tmo ih =>
      obtain ⟨hN, hTimeouts⟩ := ih
      obtain ⟨hSame, hCollects, _⟩ := (addAll n tmos).addTmo_collects tmo
      rw [addAll_snoc]
      refine ⟨hSame.trans hN, fun view => ?_⟩
      rw [hCollects view, hN, hTimeouts view, cast_snoc]
      split_ifs
      · rw [collectAll_snoc]
      · rfl

end TimeoutController

/-- For any sequence of votes and any next vote: a certificate is returned exactly when
the vote brings the number of different voters of its block to two thirds of the total
and one more; in any order in which the recorded votes are read, it enumerates these
voters next to the signatures of their last votes. In the same way a timeout
certificate is made for a view, and the pacemaker makes none for a view that is past. -/
theorem one_certificate_per_subject (n : Nat) :
    (∀ (votes : List Vote) (vote : Vote),
      (((Quorum.addAll n votes).add vote).2.isSome = true ↔
        (voters (Quorum.cast vote.blockID votes)).card = n * 2 / 3 ∧
          (voters (Quorum.cast vote.blockID (votes ++ [vote]))).card = n * 2 / 3 + 1) ∧
      ∀ qc, ((Quorum.addAll n votes).add vote).2 = some qc →
        qc.blockID = vote.blockID ∧ qc.Enumerates (votes ++ [vote]) ∧
        ∀ order, order.Perm
            (((Quorum.addAll n votes).add vote).1.recordedVotes vote.blockID) →
          (Quorum.certificateInOrder vote order).Enumerates (votes ++ [vote])) ∧
    (∀ (tmos : List TMO) (tmo : TMO) (tc : TC),
      ((TimeoutController.addAll n tmos).addTmo tmo).2 = some tc ↔
        tc = { view := tmo.view } ∧
          (voters (TimeoutController.cast tmo.view tmos)).card = n * 2 / 3 ∧
          (voters (TimeoutController.cast tmo.view (tmos ++ [tmo]))).card = n * 2 / 3 + 1) ∧
    ∀ (pm : Pacemaker) (tmo : TMO) (tc : TC),
      (pm.processRemoteTmo tmo).2 = some tc → pm.curView ≤ tc.view := by
  refine ⟨fun votes vote => ⟨Quorum.add_returns_iff n votes vote, fun qc hQC => ?_⟩,
    fun tmos tmo tc => ?_, fun pm tmo tc h => ?_⟩
  · have hSome : ((Quorum.addAll n votes).add vote).2.isSome = true := by
      rw [hQC]
      rfl
    have hRecords := Quorum.add_returns_records hSome
    have hHolds := Quorum.addAll_holds n (votes ++ [vote])
    rw [Quorum.addAll_snoc] at hRecords hHolds
    have hOrder : ∀ order, order.Perm
        (((Quorum.addAll n votes).add vote).1.recordedVotes vote.blockID) →
        (Quorum.certificateInOrder vote order).Enumerates (votes ++ [vote]) :=
      fun order h => Quorum.certificateInOrder_enumerates hHolds hRecords h
    have hOwn := hOrder _ (List.Perm.refl _)
    rw [← Quorum.add_certificate_eq hQC] at hOwn
    refine ⟨?_, hOwn, hOrder⟩
    rw [Quorum.add_certificate_eq hQC]
    rfl
  · obtain ⟨hN, hTimeouts⟩ := TimeoutController.addAll_collects n tmos
    obtain ⟨_, _, hMade⟩ := (TimeoutController.addAll n tmos).addTmo_collects tmo
    have hIff := collect_passes_iff (n * 2 / 3) (TimeoutController.cast tmo.view tmos) tmo.nodeID tmo
    rw [hMade, hN, hTimeouts, TimeoutController.cast_snoc, if_pos rfl, ← hIff]
    split_ifs with hPassed
    · simp [hPassed, eq_comm]
    · simp [hPassed]
  · unfold Pacemaker.processRemoteTmo at h
    split_ifs at h with hOld
    have hView : tc = { view := tmo.view } := by
      obtain ⟨_, _, hMade⟩ := pm.timeoutController.addTmo_collects tmo
      change (pm.timeoutController.addTmo tmo).2 = some tc at h
      rw [hMade] at h
      split_ifs at h
      exact (Option.some.inj h).symm
    rw [hView]
    exact not_lt.mp hOld

namespace Quorum

/-- What happens to the votes of a chain: votes are added, and those for a committed
block are dropped. -/
inductive Call where
  | add (vote : Vote)
  | forget (blockID : Identifier)
deriving DecidableEq

def perform (q : Quorum) : Call → Quorum
  | .add vote => (q.add vote).1
  | .forget blockID => q.forget blockID

/-- A quorum after a sequence of calls. -/
def after (n : Nat) (calls : List Call) : Quorum :=
  calls.foldl perform (new n)

theorem after_snoc (n : Nat) (calls : List Call) (call : Call) :
    after n (calls ++ [call]) = (after n calls).perform call := by
  simp [after]

/-- The total never changes, and every recorded vote was added. -/
theorem after_holds (n : Nat) {calls : List Call} {property : Vote → Prop}
    (h : ∀ vote, .add vote ∈ calls → property vote) :
    (after n calls).total = n ∧ (after n calls).Holds property := by
  induction calls using List.reverseRecOn with
  | nil => exact ⟨rfl, new_holds n property⟩
  | append_singleton calls call ih =>
      obtain ⟨hTotal, hHolds⟩ := ih fun vote hMem => h vote (List.mem_append_left _ hMem)
      rw [after_snoc]
      cases call with
      | add vote =>
          have hVote : property vote := h vote (List.mem_append_right _ List.mem_cons_self)
          exact ⟨(add_total _ vote).trans hTotal, hHolds.add hVote⟩
      | forget blockID => exact ⟨hTotal, hHolds.forget blockID⟩

/-- The signers of a returned certificate are different ids of the voters, more than two
thirds of the total. -/
theorem signers_of_add {n : Nat} {ids : Finset NodeID} {calls : List Call} {vote : Vote} {qc : QC}
    (hVoters : ∀ w, .add w ∈ calls ++ [.add vote] → w.voter ∈ ids)
    (h : ((after n calls).add vote).2 = some qc) :
    qc.signers.toFinset ⊆ ids ∧ n * 2 / 3 < qc.signers.toFinset.card := by
  obtain ⟨hTotal, hHolds⟩ :
      (after n calls).total = n ∧ (after n calls).Holds fun w => w.voter ∈ ids :=
    after_holds n fun w hMem => hVoters w (List.mem_append_left _ hMem)
  have hVote : vote.voter ∈ ids := hVoters vote (List.mem_append_right _ List.mem_cons_self)
  have hAdd : (after n calls).add vote = (((after n calls).add vote).1, some qc) := by
    rw [← h]
  obtain ⟨_, _, hNodup, hSize, hSigned⟩ := add_certificate hHolds hVote hAdd
  constructor
  · intro signer hSigner
    obtain ⟨found, hFound, _, hVoter⟩ := hSigned signer (List.mem_toFinset.mp hSigner)
    rw [← hVoter]
    exact hFound
  · rw [List.toFinset_card_of_nodup hNodup, ← hTotal]
    exact hSize

/-- Two certificates of quorums with the same total, whose voters are drawn from that many
ids, have more than a third of the ids in common, whatever the total is modulo three. -/
theorem certificates_overlap (n : Nat) (ids : Finset NodeID) (hIds : ids.card = n)
    {calls calls' : List Call} {vote vote' : Vote} {qc qc' : QC}
    (hVoters : ∀ w, .add w ∈ calls ++ [.add vote] → w.voter ∈ ids)
    (hVoters' : ∀ w, .add w ∈ calls' ++ [.add vote'] → w.voter ∈ ids)
    (h : ((after n calls).add vote).2 = some qc)
    (h' : ((after n calls').add vote').2 = some qc') :
    (n - 1) / 3 + 1 ≤ (qc.signers.toFinset ∩ qc'.signers.toFinset).card := by
  obtain ⟨hInside, hMany⟩ := signers_of_add hVoters h
  obtain ⟨hInside', hMany'⟩ := signers_of_add hVoters' h'
  have hOverlap := LockedVoting.card_add_card_le hInside hInside'
  omega

/-- A vote without a signature, which `Quorum.Add` does not look at. -/
def ballot (voter : NodeID) (blockID : Identifier) : Vote :=
  { view := 1, voter, blockID, signature := [] }

/-- The votes of nodes 1, 2 and 3 for block 7. -/
def upwards : List Call := [.add (ballot "1" 7), .add (ballot "2" 7), .add (ballot "3" 7)]

/-- The votes of nodes 5, 4 and 3 for block 8, the first of them dropped and cast again. -/
def downwards : List Call :=
  [.add (ballot "5" 8), .forget 8, .add (ballot "5" 8), .add (ballot "4" 8), .add (ballot "3" 8)]

theorem certificates_overlap_five :
    ∃ qc qc', ((after 5 upwards).add (ballot "4" 7)).2 = some qc ∧
      ((after 5 downwards).add (ballot "2" 8)).2 = some qc' ∧
      qc.signers.toFinset ∩ qc'.signers.toFinset = {"2", "3", "4"} ∧
      2 ≤ (qc.signers.toFinset ∩ qc'.signers.toFinset).card := by
  have hUpwards : ∀ w, .add w ∈ upwards ++ [.add (ballot "4" 7)] →
      w.voter ∈ ({"1", "2", "3", "4", "5"} : Finset NodeID) := by
    simp [upwards, ballot]
  have hDownwards : ∀ w, .add w ∈ downwards ++ [.add (ballot "2" 8)] →
      w.voter ∈ ({"1", "2", "3", "4", "5"} : Finset NodeID) := by
    simp [downwards, ballot]
  exact ⟨_, _, rfl, rfl, by decide,
    certificates_overlap 5 {"1", "2", "3", "4", "5"} rfl hUpwards hDownwards rfl rfl⟩

end Quorum

end Bamboo
