import Bamboo.Library.FiniteMap
import Mathlib.Data.Finset.Card
import Mathlib.Data.Finset.Dedup
import Mathlib.Data.List.Induction

/-! Collecting ballots until more than a given number of voters have cast one. A
voter may vote again, which replaces the earlier ballot; once the count has been
passed, nothing is recorded any more. The main result says at which ballot the
count is passed, in terms of all ballots cast and not of what was recorded. -/
namespace Library.Collector

universe u v

variable {Voter : Type u} {Ballot : Type v} [DecidableEq Voter]

/-- Record a ballot, unless the count has been passed. The flag says that it is
passed by this ballot. -/
def collect (t : Nat) (table : Table Voter Ballot) (voter : Voter) (ballot : Ballot) :
    Table Voter Ballot × Bool :=
  if t < table.keys.card then (table, false)
  else (table.insert voter ballot, decide (t < (table.insert voter ballot).keys.card))

/-- The different voters among the ballots cast. -/
def voters (cast : List (Voter × Ballot)) : Finset Voter := (cast.map Prod.fst).toFinset

/-- The ballot a voter has cast last. -/
def lastBallot (cast : List (Voter × Ballot)) (voter : Voter) : Option Ballot :=
  (cast.reverse.find? fun entry => entry.1 = voter).map Prod.snd

/-- The table that is left after all ballots. -/
def collectAll (t : Nat) (cast : List (Voter × Ballot)) : Table Voter Ballot :=
  cast.foldl (fun table entry => (collect t table entry.1 entry.2).1) ∅

/-- Every voter is recorded with the ballot cast last. -/
def Records (cast : List (Voter × Ballot)) (table : Table Voter Ballot) : Prop :=
  table.keys = voters cast ∧ ∀ voter, table.lookup voter = lastBallot cast voter

theorem voters_snoc (cast : List (Voter × Ballot)) (voter : Voter) (ballot : Ballot) :
    voters (cast ++ [(voter, ballot)]) = insert voter (voters cast) := by
  ext other
  simp [voters]

theorem lastBallot_snoc (cast : List (Voter × Ballot)) (voter other : Voter) (ballot : Ballot) :
    lastBallot (cast ++ [(voter, ballot)]) other =
      if other = voter then some ballot else lastBallot cast other := by
  unfold lastBallot
  rw [List.reverse_append]
  by_cases h : voter = other
  · simp [h]
  · simp [h, Ne.symm h]

theorem Records.snoc {cast : List (Voter × Ballot)} {table : Table Voter Ballot}
    (h : Records cast table) (voter : Voter) (ballot : Ballot) :
    Records (cast ++ [(voter, ballot)]) (table.insert voter ballot) := by
  constructor
  · rw [Table.keys_insert, h.1, voters_snoc]
  · intro other
    rw [Table.lookup_insert_ite, lastBallot_snoc, h.2 other]

theorem collectAll_snoc (t : Nat) (cast : List (Voter × Ballot)) (voter : Voter)
    (ballot : Ballot) :
    collectAll t (cast ++ [(voter, ballot)]) = (collect t (collectAll t cast) voter ballot).1 := by
  simp [collectAll]

/-- The table records everything up to the count, and exceeds the count after it. -/
theorem collectAll_spec (t : Nat) (cast : List (Voter × Ballot)) :
    ((voters cast).card ≤ t → Records cast (collectAll t cast)) ∧
      (t < (voters cast).card → t < (collectAll t cast).keys.card) := by
  induction cast using List.reverseRecOn with
  | nil =>
      refine ⟨fun _ => ⟨rfl, fun voter => rfl⟩, fun h => ?_⟩
      simp [voters] at h
  | append_singleton cast entry ih =>
      obtain ⟨voter, ballot⟩ := entry
      obtain ⟨hOpen, hClosed⟩ := ih
      have hGrows : (voters cast).card ≤ (voters (cast ++ [(voter, ballot)])).card := by
        rw [voters_snoc]
        exact Finset.card_le_card (Finset.subset_insert _ _)
      rw [collectAll_snoc]
      unfold collect
      by_cases hPassed : t < (collectAll t cast).keys.card
      · rw [if_pos hPassed]
        have hMany : t < (voters cast).card := by
          by_contra hFew
          rw [(hOpen (not_lt.mp hFew)).1] at hPassed
          exact hFew hPassed
        exact ⟨fun hFew => by omega, fun _ => hPassed⟩
      · rw [if_neg hPassed]
        have hFew : (voters cast).card ≤ t := not_lt.mp fun hMany => hPassed (hClosed hMany)
        have hRecords := (hOpen hFew).snoc voter ballot
        refine ⟨fun _ => hRecords, fun hMany => ?_⟩
        dsimp only
        rw [hRecords.1]
        exact hMany

/-- The count is passed exactly by the ballot of a new voter after `t` others, and
then the table records all ballots. -/
theorem collect_passes_iff (t : Nat) (cast : List (Voter × Ballot)) (voter : Voter)
    (ballot : Ballot) :
    (collect t (collectAll t cast) voter ballot).2 = true ↔
      (voters cast).card = t ∧ (voters (cast ++ [(voter, ballot)])).card = t + 1 := by
  obtain ⟨hOpen, hClosed⟩ := collectAll_spec t cast
  unfold collect
  by_cases hPassed : t < (collectAll t cast).keys.card
  · rw [if_pos hPassed]
    constructor
    · intro h
      cases h
    · rintro ⟨hCount, _⟩
      rw [(hOpen hCount.le).1] at hPassed
      omega
  · rw [if_neg hPassed]
    have hFew : (voters cast).card ≤ t := not_lt.mp fun hMany => hPassed (hClosed hMany)
    have hNext : (voters (cast ++ [(voter, ballot)])).card ≤ (voters cast).card + 1 := by
      rw [voters_snoc]
      exact Finset.card_insert_le _ _
    dsimp only
    rw [((hOpen hFew).snoc voter ballot).1, decide_eq_true_iff]
    omega

theorem collect_passes_records {t : Nat} {cast : List (Voter × Ballot)} {voter : Voter}
    {ballot : Ballot} (h : (collect t (collectAll t cast) voter ballot).2 = true) :
    Records (cast ++ [(voter, ballot)]) (collect t (collectAll t cast) voter ballot).1 := by
  have hCount := ((collect_passes_iff t cast voter ballot).mp h).1
  have hRecords := (collectAll_spec t cast).1 hCount.le
  unfold collect
  rw [if_neg (by rw [hRecords.1]; omega)]
  exact hRecords.snoc voter ballot

end Library.Collector
