import Bamboo.Crypto.Sign
import Bamboo.Library.FiniteMap

/-! Votes and their aggregation into quorum certificates. Votes are counted per
block and per voter string; a certificate is built by the vote that first makes
the count exceed two thirds of the replicas. -/
namespace Bamboo

open Library

/-- A view number. Peers may send any integer. -/
abbrev View := Int

structure Vote where
  view : View
  voter : NodeID
  blockID : Identifier
  signature : Signature
deriving DecidableEq

/-- A quorum certificate as it travels in blocks and timeouts. -/
structure QC where
  leader : NodeID := ""
  view : View
  blockID : Identifier := 0
  signers : List NodeID := []
  aggSig : AggSig := []
deriving DecidableEq

/-- The certificate every replica starts with. -/
def QC.initial : QC := { view := 0 }

/-- `MakeVote`. -/
def makeVote (keys : KeyRing) (view : View) (voter : NodeID) (id : Identifier) : Outcome Vote := do
  let sig ← keys.privSign id voter
  pure { view, voter, blockID := id, signature := sig }

theorem makeVote_ok {keys : KeyRing} {view : View} {voter : NodeID} {id : Identifier} {vote : Vote}
    (h : makeVote keys view voter id = .ok vote) :
    vote.view = view ∧ vote.voter = voter ∧ vote.blockID = id := by
  obtain ⟨sig, _, hVote⟩ := Outcome.bind_eq_ok.mp h
  cases Outcome.pure_eq_ok.mp hVote
  exact ⟨rfl, rfl, rfl⟩

/-- The receipt for a microblock. `receiver` is the node that received it. -/
structure Ack where
  receiver : NodeID
  microblockID : Identifier
  signature : Signature := []
  outGroup : Bool := false
deriving DecidableEq

/-- The announcement that a microblock has enough acks. -/
structure Stable where
  ackInGroup : List NodeID := []
  ackOutGroup : List NodeID := []
  ackNodeList : Finset NodeID := ∅
  microblockID : Identifier
  sender : NodeID := ""
  groupId : Int := 0
  mbCreationTime : Int := 0
  txNums : Int := 0
deriving DecidableEq

/-- `MakeAck`. -/
def makeAck (keys : KeyRing) (receiver : NodeID) (id : Identifier) : Outcome Ack := do
  let sig ← keys.privSign id receiver
  pure { receiver, microblockID := id, signature := sig }

structure Quorum where
  total : Nat
  votes : Table Identifier (Listing NodeID Vote)

namespace Quorum

def new (total : Nat) : Quorum := { total, votes := ∅ }

/-- The votes recorded for a block, by voter. -/
def votesFor (q : Quorum) (blockID : Identifier) : Listing NodeID Vote :=
  (q.votes.lookup blockID).getD ∅

def size (q : Quorum) (blockID : Identifier) : Nat :=
  (q.votesFor blockID).keys.length

def superMajority (q : Quorum) (blockID : Identifier) : Bool :=
  q.total * 2 / 3 < q.size blockID

/-- The aggregated signatures and the signers, in one order of the votes. -/
def getSigs (q : Quorum) (blockID : Identifier) : AggSig × List NodeID :=
  let votes := (q.votesFor blockID).entries.map fun entry => entry.2
  (votes.map Vote.signature, votes.map Vote.voter)

/-- Record a vote under its voter. A second vote of the voter replaces the first. -/
def record (q : Quorum) (vote : Vote) : Quorum :=
  { q with votes := q.votes.insert vote.blockID ((q.votesFor vote.blockID).insert vote.voter vote) }

/-- The certificate built from all votes for the block of `vote`. -/
def certificate (q : Quorum) (vote : Vote) : QC :=
  let sigs := q.getSigs vote.blockID
  { view := vote.view, blockID := vote.blockID, aggSig := sigs.1, signers := sigs.2 }

/-- `Quorum.Add`, with the certificate it returns. -/
def add (q : Quorum) (vote : Vote) : Quorum × Option QC :=
  if q.superMajority vote.blockID then (q, none)
  else
    let q' := q.record vote
    if q'.superMajority vote.blockID then (q', some (q'.certificate vote)) else (q', none)

/-- Forget the votes for a block. -/
def forget (q : Quorum) (blockID : Identifier) : Quorum :=
  { q with votes := q.votes.erase blockID }

/-- The three outcomes of adding a vote. -/
theorem add_cases (q : Quorum) (vote : Vote) :
    q.add vote = (q, none) ∨ q.add vote = (q.record vote, none) ∨
      (q.add vote = (q.record vote, some ((q.record vote).certificate vote)) ∧
        (q.record vote).superMajority vote.blockID = true) := by
  unfold add
  by_cases hBefore : q.superMajority vote.blockID = true
  · simp [hBefore]
  · by_cases hAfter : (q.record vote).superMajority vote.blockID = true
    · simp [hBefore, hAfter]
    · simp [hBefore, hAfter]

theorem add_total (q : Quorum) (vote : Vote) : (q.add vote).1.total = q.total := by
  rcases q.add_cases vote with h | h | ⟨h, _⟩ <;> rw [h] <;> rfl

theorem votesFor_record (q : Quorum) (vote : Vote) (id : Identifier) :
    (q.record vote).votesFor id =
      if id = vote.blockID then (q.votesFor id).insert vote.voter vote else q.votesFor id := by
  unfold votesFor record
  rw [Table.lookup_insert_ite]
  split_ifs with h
  · subst h
    rfl
  · rfl

theorem votesFor_forget (q : Quorum) (blockID id : Identifier) :
    (q.forget blockID).votesFor id = if id = blockID then ∅ else q.votesFor id := by
  unfold votesFor forget
  rw [Table.lookup_erase_ite]
  split_ifs <;> rfl

/-- Every recorded vote satisfies `property` and is filed under its own block
and voter. -/
def Holds (q : Quorum) (property : Vote → Prop) : Prop :=
  ∀ id voter vote, (q.votesFor id).lookup voter = some vote →
    property vote ∧ vote.blockID = id ∧ vote.voter = voter

theorem new_holds (total : Nat) (property : Vote → Prop) : (new total).Holds property := by
  intro id voter vote h
  simp [new, votesFor] at h

theorem Holds.mono {q : Quorum} {property property' : Vote → Prop} (h : q.Holds property)
    (hImp : ∀ vote, property vote → property' vote) : q.Holds property' := by
  intro id voter vote hVote
  obtain ⟨hOld, hFiled⟩ := h id voter vote hVote
  exact ⟨hImp vote hOld, hFiled⟩

theorem Holds.record {q : Quorum} {property : Vote → Prop} (h : q.Holds property) {vote : Vote}
    (hVote : property vote) : (q.record vote).Holds property := by
  intro id voter found hFound
  rw [votesFor_record] at hFound
  split_ifs at hFound with hId
  · rw [Listing.lookup_insert_ite] at hFound
    split_ifs at hFound with hVoter
    · cases hFound
      exact ⟨hVote, hId.symm, hVoter.symm⟩
    · exact h id voter found hFound
  · exact h id voter found hFound

theorem Holds.add {q : Quorum} {property : Vote → Prop} (h : q.Holds property) {vote : Vote}
    (hVote : property vote) : (q.add vote).1.Holds property := by
  rcases q.add_cases vote with hAdd | hAdd | ⟨hAdd, _⟩ <;> rw [hAdd]
  · exact h
  · exact h.record hVote
  · exact h.record hVote

theorem Holds.forget {q : Quorum} {property : Vote → Prop} (h : q.Holds property)
    (blockID : Identifier) : (q.forget blockID).Holds property := by
  intro id voter vote hVote
  rw [votesFor_forget] at hVote
  split_ifs at hVote with hId
  · simp at hVote
  · exact h id voter vote hVote

/-- When votes are filed under their voters, the signers are the map's keys. -/
theorem getSigs_signers {q : Quorum} {property : Vote → Prop} (h : q.Holds property)
    (id : Identifier) : (q.getSigs id).2 = (q.votesFor id).keys := by
  unfold getSigs AList.keys List.keys
  simp only [List.map_map]
  apply List.map_congr_left
  intro entry hEntry
  have hLookup : (q.votesFor id).lookup entry.1 = some entry.2 :=
    AList.mem_lookup_iff.mpr hEntry
  exact (h id entry.1 entry.2 hLookup).2.2

theorem getSigs_mem {q : Quorum} {id : Identifier} {voter : NodeID} {vote : Vote}
    (h : (q.votesFor id).lookup voter = some vote) : vote.signature ∈ (q.getSigs id).1 := by
  have hEntry : (⟨voter, vote⟩ : Sigma fun _ : NodeID => Vote) ∈ (q.votesFor id).entries :=
    AList.mem_lookup_iff.mp h
  exact List.mem_map_of_mem (List.mem_map.mpr ⟨_, hEntry, rfl⟩)

/-- A certificate that `add` returns has all recorded voters as its signers, more
than two thirds of the total. -/
theorem add_signers {q q' : Quorum} {property : Vote → Prop} {vote : Vote} {qc : QC}
    (h : q.Holds property) (hVote : property vote) (hAdd : q.add vote = (q', some qc)) :
    qc.view = vote.view ∧ qc.blockID = vote.blockID ∧ q'.Holds property ∧
      qc.signers = (q'.votesFor vote.blockID).keys ∧ qc.aggSig = (q'.getSigs vote.blockID).1 ∧
      q.total * 2 / 3 < qc.signers.length := by
  rcases q.add_cases vote with hCase | hCase | ⟨hCase, hMajority⟩
  · rw [hCase] at hAdd
    cases hAdd
  · rw [hCase] at hAdd
    cases hAdd
  · rw [hCase] at hAdd
    cases hAdd
    have hHolds := h.record hVote
    have hSigners : ((q.record vote).certificate vote).signers =
        ((q.record vote).votesFor vote.blockID).keys := getSigs_signers hHolds vote.blockID
    have hSize : q.total * 2 / 3 < (q.record vote).size vote.blockID :=
      of_decide_eq_true hMajority
    exact ⟨rfl, rfl, hHolds, hSigners, rfl, hSigners ▸ hSize⟩

/-- The signers are pairwise different, and each has a recorded vote for the block. -/
theorem add_certificate {q q' : Quorum} {property : Vote → Prop} {vote : Vote} {qc : QC}
    (h : q.Holds property) (hVote : property vote) (hAdd : q.add vote = (q', some qc)) :
    qc.view = vote.view ∧ qc.blockID = vote.blockID ∧ qc.signers.Nodup ∧
      q.total * 2 / 3 < qc.signers.length ∧
      ∀ signer ∈ qc.signers, ∃ found, property found ∧ found.blockID = vote.blockID ∧
        found.voter = signer := by
  obtain ⟨hView, hBlock, hHolds, hSigners, _, hSize⟩ := add_signers h hVote hAdd
  refine ⟨hView, hBlock, hSigners ▸ AList.keys_nodup _, hSize, ?_⟩
  intro signer hSigner
  rw [hSigners, ← AList.mem_keys, ← AList.lookup_isSome] at hSigner
  obtain ⟨found, hFound⟩ := Option.isSome_iff_exists.mp hSigner
  obtain ⟨hProperty, hFiled, hVoter⟩ := hHolds vote.blockID signer found hFound
  exact ⟨found, hProperty, hFiled, hVoter⟩

end Quorum
end Bamboo
