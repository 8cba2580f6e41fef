import Mathlib.Data.Finset.Card
import Mathlib.Data.Int.Order.Basic
import Mathlib.Logic.Relation
import Mathlib.Tactic.Linarith

/-! Agreement of locked three-chain voting, over arbitrary voters and blocks.
A voter has a current view and a lock; it casts ballots one after another. The
only facts about it are the ones collected in `Disciplined`: how its two numbers
move between ballots, which parents it accepts, and how high its lock is when it
takes up a block. No bound on the number of ballots per view is assumed. -/
namespace Library.LockedVoting

universe u v

/-- What two groups of members have beyond all members, they have in common. -/
theorem card_add_card_le {α : Type u} [DecidableEq α] {members first second : Finset α}
    (hFirst : first ⊆ members) (hSecond : second ⊆ members) :
    first.card + second.card ≤ members.card + (first ∩ second).card := by
  have hUnion : (first ∪ second).card ≤ members.card :=
    Finset.card_le_card (Finset.union_subset hFirst hSecond)
  have hSum := Finset.card_union_add_card_inter first second
  omega

/-- Two quorums of more than two thirds of `n` members share a member. -/
theorem quorum_intersection {α : Type u} [DecidableEq α] {members first second : Finset α}
    (hFirst : first ⊆ members) (hSecond : second ⊆ members)
    (hFirstCard : 2 * members.card < 3 * first.card)
    (hSecondCard : 2 * members.card < 3 * second.card) :
    ∃ a, a ∈ first ∧ a ∈ second := by
  have hOverlap := card_add_card_le hFirst hSecond
  have hInter : 0 < (first ∩ second).card := by omega
  obtain ⟨a, ha⟩ := Finset.card_pos.mp hInter
  exact ⟨a, Finset.mem_inter.mp ha⟩

/-- The current view and the lock of a voter at one moment. -/
structure Stamp where
  view : ℤ
  lock : ℤ

/-- What can lie between two moments of one voter: neither number decreases,
and the lock moves only together with the view. -/
structure Stamp.Precedes (s t : Stamp) : Prop where
  view_le : s.view ≤ t.view
  lock_le : s.lock ≤ t.lock
  lock_eq : s.view = t.view → s.lock = t.lock

theorem Stamp.Precedes.refl (s : Stamp) : s.Precedes s :=
  ⟨le_refl _, le_refl _, fun _ => rfl⟩

theorem Stamp.Precedes.trans {s t r : Stamp} (first : s.Precedes t) (second : t.Precedes r) :
    s.Precedes r := by
  refine ⟨first.view_le.trans second.view_le, first.lock_le.trans second.lock_le, ?_⟩
  intro hView
  have hMiddle : s.view = t.view := le_antisymm first.view_le (hView ▸ second.view_le)
  exact (first.lock_eq hMiddle).trans (second.lock_eq (hMiddle.symm.trans hView))

/-- One vote, with the voter's stamps when it took up the block, when it found
the block to be current, and when it voted. -/
structure Ballot (Block : Type v) where
  block : Block
  entry : Stamp
  accept : Stamp
  cast : Stamp

/-- Everything the voters have done up to some moment. -/
structure History (Voter : Type u) (Block : Type v) where
  voters : Finset Voter
  view : Block → ℤ
  parent : Block → Block → Prop
  rank : Block → ℕ
  ballots : Voter → List (Ballot Block)

variable {Voter : Type u} {Block : Type v}

namespace History

/-- A quorum of voters has cast a ballot for the block. -/
def Certified (H : History Voter Block) (block : Block) : Prop :=
  ∃ signers ⊆ H.voters, 2 * H.voters.card < 3 * signers.card ∧
    ∀ voter ∈ signers, ∃ ballot ∈ H.ballots voter, ballot.block = block

/-- `ancestor` is reached from `block` along parents, or equal to it. -/
def Extends (H : History Voter Block) : Block → Block → Prop :=
  Relation.ReflTransGen H.parent

/-- The head of three certified blocks in consecutive views. -/
structure ThreeChain (H : History Voter Block) (head middle last : Block) : Prop where
  middle_parent : H.parent middle head
  last_parent : H.parent last middle
  middle_view : H.view middle = H.view head + 1
  last_view : H.view last = H.view middle + 1
  certified : H.Certified last

/-- The discipline that makes agreement hold. Blocks in views up to `exempt`
may be voted for without a known parent, and raise no lock. -/
structure Disciplined (H : History Voter Block) (exempt : ℤ) : Prop where
  ordered : ∀ voter ∈ H.voters,
    (H.ballots voter).Pairwise fun earlier later => earlier.cast.Precedes later.entry
  entry_accept : ∀ voter ∈ H.voters, ∀ ballot ∈ H.ballots voter,
    ballot.entry.Precedes ballot.accept
  current : ∀ voter ∈ H.voters, ∀ ballot ∈ H.ballots voter,
    ballot.accept.view ≤ H.view ballot.block ∧ H.view ballot.block ≤ ballot.entry.view + 1
  accept_cast : ∀ voter ∈ H.voters, ∀ ballot ∈ H.ballots voter,
    ballot.accept.Precedes ballot.cast
  safe_parent : ∀ voter ∈ H.voters, ∀ ballot ∈ H.ballots voter, exempt < H.view ballot.block →
    ∃ parent, H.parent ballot.block parent ∧ ballot.cast.lock ≤ H.view parent
  locked : ∀ voter ∈ H.voters, ∀ ballot ∈ H.ballots voter, ∀ parent grandparent,
    H.parent ballot.block parent → H.parent parent grandparent → exempt < H.view parent →
    H.view grandparent ≤ ballot.accept.lock
  one_parent : Relator.RightUnique H.parent
  rank_lt : ∀ block parent, H.parent block parent → H.rank parent < H.rank block
  parent_certified : ∀ block parent, H.Certified block → H.parent block parent →
    H.Certified parent
  one_per_view : ∀ first second, H.Certified first → H.Certified second →
    H.view first = H.view second → first = second
  view_bound : ∀ block, H.Certified block → exempt ≤ H.view block + 1

variable {H : History Voter Block} {exempt : ℤ}

/-- Two quorums, hence a voter who voted for both blocks. -/
theorem common_voter [DecidableEq Voter] {first second : Block}
    (hFirst : H.Certified first) (hSecond : H.Certified second) :
    ∃ voter ∈ H.voters, (∃ ballot ∈ H.ballots voter, ballot.block = first) ∧
      ∃ ballot ∈ H.ballots voter, ballot.block = second := by
  obtain ⟨firstSigners, hFirstSub, hFirstCard, hFirstBallots⟩ := hFirst
  obtain ⟨secondSigners, hSecondSub, hSecondCard, hSecondBallots⟩ := hSecond
  obtain ⟨voter, hOne, hTwo⟩ :=
    quorum_intersection hFirstSub hSecondSub hFirstCard hSecondCard
  exact ⟨voter, hFirstSub hOne, hFirstBallots voter hOne, hSecondBallots voter hTwo⟩

/-- Two ballots of one voter were cast one after the other. -/
theorem Disciplined.ballot_order (hD : H.Disciplined exempt) {voter : Voter}
    (hVoter : voter ∈ H.voters) {first second : Ballot Block}
    (hFirst : first ∈ H.ballots voter) (hSecond : second ∈ H.ballots voter)
    (hNe : first.block ≠ second.block) :
    first.cast.Precedes second.entry ∨ second.cast.Precedes first.entry := by
  have hPairs := hD.ordered voter hVoter
  obtain ⟨i, hi, rfl⟩ := List.getElem_of_mem hFirst
  obtain ⟨j, hj, rfl⟩ := List.getElem_of_mem hSecond
  rcases lt_trichotomy i j with hij | hij | hij
  · exact Or.inl (List.pairwise_iff_getElem.mp hPairs i j hi hj hij)
  · subst hij
    exact absurd rfl hNe
  · exact Or.inr (List.pairwise_iff_getElem.mp hPairs j i hj hi hij)

/-- A voter for the last block of a three-chain never supports a later block
whose parent lies below the head: either the lock taken for the three-chain
forbids it, or both ballots fall into one view, in which no lock moves. -/
theorem ThreeChain.lock_respected (hD : H.Disciplined exempt) {head middle last : Block}
    (chain : H.ThreeChain head middle last) (hExempt : exempt < H.view middle)
    {voter : Voter} (hVoter : voter ∈ H.voters) {ballot later : Ballot Block}
    (hBallot : ballot ∈ H.ballots voter) (hLast : ballot.block = last)
    (hLater : later ∈ H.ballots voter) (hView : H.view last < H.view later.block) :
    H.view head ≤ later.cast.lock := by
  have hLock : H.view head ≤ ballot.accept.lock :=
    hD.locked voter hVoter ballot hBallot middle head (hLast ▸ chain.last_parent)
      chain.middle_parent hExempt
  have hCurrent := hD.current voter hVoter ballot hBallot
  have hLaterCurrent := hD.current voter hVoter later hLater
  have hEntry := hD.entry_accept voter hVoter ballot hBallot
  have hCast := hD.accept_cast voter hVoter ballot hBallot
  have hLaterEntry := hD.entry_accept voter hVoter later hLater
  have hLaterCast := hD.accept_cast voter hVoter later hLater
  have hNe : ballot.block ≠ later.block := by
    intro h
    rw [← h, hLast] at hView
    exact lt_irrefl _ hView
  rcases hD.ballot_order hVoter hBallot hLater hNe with hOrder | hOrder
  · exact hLock.trans (hCast.lock_le.trans (hOrder.lock_le.trans
      (hLaterEntry.lock_le.trans hLaterCast.lock_le)))
  · -- the later view was voted first: its view is one above the current one,
    -- and the current one cannot have moved before the three-chain ballot
    rw [hLast] at hCurrent
    have hLow : later.entry.view ≤ later.cast.view :=
      hLaterEntry.view_le.trans hLaterCast.view_le
    have hHigh : later.cast.view ≤ ballot.entry.view := hOrder.view_le
    have hAccept : ballot.entry.view ≤ ballot.accept.view := hEntry.view_le
    have hSame : later.cast.view = ballot.entry.view := by omega
    have hSameAccept : ballot.entry.view = ballot.accept.view := by omega
    rw [hOrder.lock_eq hSame, hEntry.lock_eq hSameAccept]
    exact hLock

/-- Every certified block at or above the head of a three-chain extends it. -/
theorem ThreeChain.extended [DecidableEq Voter] (hD : H.Disciplined exempt)
    {head middle last : Block} (chain : H.ThreeChain head middle last) (block : Block)
    (hBlock : H.Certified block) (hView : H.view head ≤ H.view block) :
    H.Extends block head := by
  have hMiddle := hD.parent_certified last middle chain.certified chain.last_parent
  have hHead := hD.parent_certified middle head hMiddle chain.middle_parent
  have hHeadBound := hD.view_bound head hHead
  have hMiddleView := chain.middle_view
  have hLastView := chain.last_view
  -- along parents, which were proposed before their children
  induction hRank : H.rank block using Nat.strong_induction_on generalizing block with
  | h rank ih =>
      by_cases hAbove : H.view last < H.view block
      · obtain ⟨voter, hVoter, ⟨ballot, hBallot, hLast⟩, later, hLater, rfl⟩ :=
          common_voter chain.certified hBlock
        obtain ⟨parent, hParent, hLock⟩ :=
          hD.safe_parent voter hVoter later hLater (by omega)
        have hParentCertified := hD.parent_certified _ parent hBlock hParent
        have hParentView : H.view head ≤ H.view parent := by
          by_cases hExempt : exempt < H.view middle
          · exact (chain.lock_respected hD hExempt hVoter hBallot hLast hLater hAbove).trans hLock
          · have := hD.view_bound parent hParentCertified
            omega
        have hBelow := hD.rank_lt _ parent hParent
        exact Relation.ReflTransGen.head hParent
          (ih (H.rank parent) (hRank ▸ hBelow) parent hParentCertified hParentView rfl)
      · have hCases : H.view block = H.view head ∨ H.view block = H.view middle ∨
            H.view block = H.view last := by omega
        rcases hCases with h | h | h
        · rw [hD.one_per_view block head hBlock hHead h]
          exact Relation.ReflTransGen.refl
        · rw [hD.one_per_view block middle hBlock hMiddle h]
          exact Relation.ReflTransGen.single chain.middle_parent
        · rw [hD.one_per_view block last hBlock chain.certified h]
          exact Relation.ReflTransGen.head chain.last_parent
            (Relation.ReflTransGen.single chain.middle_parent)

/-- A block is committed when some three-chain head extends it. -/
def Committed (H : History Voter Block) (block : Block) : Prop :=
  ∃ head middle last, H.ThreeChain head middle last ∧ H.Extends head block

/-- Agreement: any two committed blocks lie on one branch. -/
theorem Disciplined.agreement [DecidableEq Voter] (hD : H.Disciplined exempt)
    {first second : Block} (hFirst : H.Committed first) (hSecond : H.Committed second) :
    H.Extends first second ∨ H.Extends second first := by
  obtain ⟨head, middle, last, chain, hExtends⟩ := hFirst
  obtain ⟨head', middle', last', chain', hExtends'⟩ := hSecond
  have hHead := hD.parent_certified _ _
    (hD.parent_certified _ _ chain.certified chain.last_parent) chain.middle_parent
  have hHead' := hD.parent_certified _ _
    (hD.parent_certified _ _ chain'.certified chain'.last_parent) chain'.middle_parent
  rcases le_total (H.view head) (H.view head') with hView | hView
  · have hLong := (chain.extended hD head' hHead' hView).trans hExtends
    exact Relation.ReflTransGen.total_of_right_unique hD.one_parent hLong hExtends'
  · have hLong := (chain'.extended hD head hHead hView).trans hExtends'
    exact Relation.ReflTransGen.total_of_right_unique hD.one_parent hExtends hLong

end History
end Library.LockedVoting
