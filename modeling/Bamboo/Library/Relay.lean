import Mathlib.Data.Finset.Card

/-! Jobs that are done one after the other, each by a team of its own. Nobody works on a job
before the ones in front of it are over for them; those who have done a job tell the next team,
and the last team tells everybody. A job is over for a node that did it, or that has heard from
enough others. -/
namespace Library.Relay

variable {N : Type*} [DecidableEq N]

structure Plan (N : Type*) [DecidableEq N] where
  nodes : Finset N
  jobs : Nat
  team : Nat → Finset N
  quorum : Int
  team_subset : ∀ k < jobs, team k ⊆ nodes

/-- The teams are large enough to convince others. -/
def Plan.Staffed (P : Plan N) : Prop :=
  ∀ k < P.jobs, P.quorum ≤ (P.team k).card

/-- Who has to hear of a job from those who did it. -/
def Plan.audience (P : Plan N) (k : Nat) : Finset N :=
  if k + 1 < P.jobs then P.team (k + 1) \ P.team k else P.nodes

/-- How far each node is, which jobs it did, and from whom it has heard that a job or a later
one is done. -/
structure State (N : Type*) where
  position : N → Nat
  worked : N → Nat → Prop
  heard : N → Nat → Finset N

/-- Enough nodes did a job. -/
def Plan.Done (P : Plan N) (s : State N) (k : Nat) : Prop :=
  ∃ workers ⊆ P.nodes, P.quorum ≤ workers.card ∧ ∀ m ∈ workers, s.worked m k

/-- What is true at every moment. -/
structure Plan.Consistent (P : Plan N) (s : State N) : Prop where
  worked : ∀ n ∈ P.nodes, ∀ k, s.worked n k → n ∈ P.team k ∧ k < s.position n
  heard : ∀ n ∈ P.nodes, ∀ k, ∀ m ∈ s.heard n k, m ∈ P.nodes ∧ ∃ j, k ≤ j ∧ s.worked m j
  passed : ∀ n ∈ P.nodes, ∀ k < s.position n, s.worked n k ∨ P.Done s k

/-- All that was told has been heard, and nobody can go on. -/
structure Plan.Settled (P : Plan N) (s : State N) : Prop where
  nested : ∀ n ∈ P.nodes, ∀ i j, i ≤ j → s.heard n j ⊆ s.heard n i
  told : ∀ m ∈ P.nodes, ∀ k, s.worked m k → ∀ n ∈ P.audience k, n ≠ m → m ∈ s.heard n k
  idle : ∀ n ∈ P.nodes, s.position n < P.jobs → n ∉ P.team (s.position n)
  unconfirmed : ∀ n ∈ P.nodes, s.position n < P.jobs →
    ((s.heard n (s.position n)).card : Int) < P.quorum

variable {P : Plan N} {s : State N}

/-- What enough nodes report as done, or something later, is done. -/
theorem Plan.Consistent.done_of_heard (h : P.Consistent s) {n : N} (hn : n ∈ P.nodes) {k : Nat}
    (hEnough : P.quorum ≤ (s.heard n k).card) {i : Nat} (hi : i ≤ k) : P.Done s i := by
  by_cases hAll : ∀ m ∈ s.heard n k, s.worked m i
  · exact ⟨s.heard n k, fun m hm => (h.heard n hn k m hm).1, hEnough, hAll⟩
  · push Not at hAll
    obtain ⟨m, hm, hNot⟩ := hAll
    obtain ⟨hNode, j, hj, hWorked⟩ := h.heard n hn k m hm
    have hPosition := (h.worked m hNode j hWorked).2
    exact (h.passed m hNode i (by omega)).resolve_left hNot

/-- If all of a team are past its job then enough of them did it. -/
theorem Plan.Consistent.done_of_team (h : P.Consistent s) (hStaffed : P.Staffed) {k : Nat}
    (hk : k < P.jobs) (hTeam : ∀ n ∈ P.team k, k < s.position n) : P.Done s k := by
  by_cases hAll : ∀ n ∈ P.team k, s.worked n k
  · exact ⟨P.team k, P.team_subset k hk, hStaffed k hk, hAll⟩
  · push Not at hAll
    obtain ⟨n, hn, hNot⟩ := hAll
    exact (h.passed n (P.team_subset k hk hn) k (hTeam n hn)).resolve_left hNot

/-- A node that has to hear of a job which is done, and did not do it, is past it. -/
theorem Plan.Settled.past (hSettled : P.Settled s) {k : Nat}
    (hk : k < P.jobs) (hDone : P.Done s k) {n : N} (hn : n ∈ P.nodes) (hAudience : n ∈ P.audience k)
    (hOther : ¬s.worked n k) : k < s.position n := by
  by_contra hBehind
  obtain ⟨workers, hNodes, hEnough, hWorked⟩ := hDone
  have hHeard : workers ⊆ s.heard n (s.position n) := by
    intro m hm
    have hTold := hSettled.told m (hNodes hm) k (hWorked m hm) n hAudience
      fun hSame => hOther (hSame ▸ hWorked m hm)
    exact hSettled.nested n hn _ _ (not_lt.mp hBehind) hTold
  have hFew := hSettled.unconfirmed n hn (by omega)
  have := Finset.card_le_card hHeard
  omega

/-- Every team gets past its job. The induction goes along the jobs: a job that is done is heard
of by those of the next team who did not do it. -/
theorem Plan.Settled.team_past (hSettled : P.Settled s) (h : P.Consistent s)
    (hStaffed : P.Staffed) {k : Nat} (hk : k < P.jobs) : ∀ n ∈ P.team k, k < s.position n := by
  induction k with
  | zero =>
      intro n hn
      by_contra hBehind
      have hStart : s.position n = 0 := by omega
      exact hSettled.idle n (P.team_subset 0 hk hn) (hStart ▸ hk) (hStart ▸ hn)
  | succ k ih =>
      intro n hn
      have hNode := P.team_subset (k + 1) hk hn
      have hTeam := ih (by omega)
      have hBefore : k < s.position n := by
        by_cases hBoth : n ∈ P.team k
        · exact hTeam n hBoth
        · refine hSettled.past (by omega) (h.done_of_team hStaffed (by omega) hTeam) hNode ?_
            fun hWorked => hBoth (h.worked n hNode k hWorked).1
          rw [Plan.audience, if_pos hk, Finset.mem_sdiff]
          exact ⟨hn, hBoth⟩
      by_contra hBehind
      have hHere : s.position n = k + 1 := by omega
      exact hSettled.idle n hNode (hHere ▸ hk) (hHere ▸ hn)

/-- When nothing is left to hear and to do, all jobs are over for all nodes. -/
theorem Plan.Settled.all_over (hSettled : P.Settled s) (h : P.Consistent s)
    (hStaffed : P.Staffed) {n : N} (hn : n ∈ P.nodes) : P.jobs ≤ s.position n := by
  by_contra hBehind
  obtain ⟨k, hJobs⟩ : ∃ k, P.jobs = k + 1 := ⟨P.jobs - 1, by omega⟩
  have hk : k < P.jobs := by omega
  have hDone := h.done_of_team hStaffed hk (hSettled.team_past h hStaffed hk)
  by_cases hWorked : s.worked n k
  · have := (h.worked n hn k hWorked).2
    omega
  · have hAudience : n ∈ P.audience k := by
      rw [Plan.audience, if_neg (by omega)]
      exact hn
    have := hSettled.past hk hDone hn hAudience hWorked
    omega

/-- Whoever is in all teams does all jobs. -/
theorem Plan.Settled.over_of_all_teams (hSettled : P.Settled s) {n : N} (hn : n ∈ P.nodes)
    (hTeams : ∀ k < P.jobs, n ∈ P.team k) : P.jobs ≤ s.position n := by
  by_contra hBehind
  have hHere : s.position n < P.jobs := not_le.mp hBehind
  exact hSettled.idle n hn hHere (hTeams _ hHere)

/-- A job that is done was done by many of its team. -/
theorem Plan.Consistent.quorum_le_of_done (h : P.Consistent s) {k : Nat} (hDone : P.Done s k) :
    P.quorum ≤ (P.team k).card := by
  obtain ⟨workers, hNodes, hEnough, hAll⟩ := hDone
  have hTeam : workers ⊆ P.team k := fun m hm => (h.worked m (hNodes hm) k (hAll m hm)).1
  exact hEnough.trans (Int.ofNat_le.mpr (Finset.card_le_card hTeam))

/-- If the first team is too small, the others never begin. -/
theorem Plan.Consistent.stuck (h : P.Consistent s) (hSmall : ((P.team 0).card : Int) < P.quorum)
    {n : N} (hn : n ∈ P.nodes) (hOther : n ∉ P.team 0) : s.position n = 0 := by
  by_contra hBegun
  rcases h.passed n hn 0 (Nat.pos_of_ne_zero hBegun) with hWorked | hDone
  · exact hOther (h.worked n hn 0 hWorked).1
  · exact absurd (h.quorum_le_of_done hDone) (not_le.mpr hSmall)

theorem Plan.Done.mono {s' : State N} {k : Nat} (h : P.Done s k)
    (hWorked : ∀ m, s.worked m k → s'.worked m k) : P.Done s' k := by
  obtain ⟨workers, hNodes, hEnough, hAll⟩ := h
  exact ⟨workers, hNodes, hEnough, fun m hm => hWorked m (hAll m hm)⟩

/-- One node hears of work that was done, takes over what enough have done up to `middle`, and
goes on with work of its own. -/
structure Plan.Moves (P : Plan N) (n : N) (middle : Nat) (s s' : State N) : Prop where
  others : ∀ m, m ≠ n → s'.position m = s.position m ∧ s'.worked m = s.worked m ∧
    s'.heard m = s.heard m
  middle_ge : s.position n ≤ middle
  position_ge : middle ≤ s'.position n
  worked : ∀ k, s'.worked n k ↔ s.worked n k ∨ middle ≤ k ∧ k < s'.position n
  heard : ∀ k, ∀ m ∈ s'.heard n k, m ∈ s.heard n k ∨ m ∈ P.nodes ∧ ∃ j, k ≤ j ∧ s.worked m j
  enough : ∀ k, s.position n ≤ k → k < middle → P.quorum ≤ (s'.heard n k).card
  mine : ∀ k, middle ≤ k → k < s'.position n → n ∈ P.team k

theorem Plan.Moves.worked_mono {n : N} {middle : Nat} {s' : State N} (h : P.Moves n middle s s')
    {m : N} {k : Nat} (hWorked : s.worked m k) : s'.worked m k := by
  by_cases hm : m = n
  · subst hm
    exact (h.worked k).mpr (Or.inl hWorked)
  · rw [(h.others m hm).2.1]
    exact hWorked

theorem Plan.Consistent.moves {n : N} {middle : Nat} {s' : State N} (h : P.Consistent s)
    (hn : n ∈ P.nodes) (hMoves : P.Moves n middle s s') : P.Consistent s' := by
  -- what the node has heard by now is true of the work done before
  have hHearing : P.Consistent { s with heard := s'.heard } := by
    refine ⟨h.worked, fun m hm k found hFound => ?_, h.passed⟩
    by_cases hSame : m = n
    · subst hSame
      exact (hMoves.heard k found hFound).elim (h.heard m hm k found) id
    · exact h.heard m hm k found ((hMoves.others m hSame).2.2 ▸ hFound)
  have hDone : ∀ k, P.Done s k → P.Done s' k := fun k hDone =>
    hDone.mono fun m hWorked => hMoves.worked_mono hWorked
  refine ⟨fun m hm k hWorked => ?_, fun m hm k found hFound => ?_, fun m hm k hk => ?_⟩
  · by_cases hSame : m = n
    · subst hSame
      rcases (hMoves.worked k).mp hWorked with hOld | ⟨hFrom, hTo⟩
      · obtain ⟨hTeam, hPosition⟩ := h.worked m hm k hOld
        exact ⟨hTeam, hPosition.trans_le (hMoves.middle_ge.trans hMoves.position_ge)⟩
      · exact ⟨hMoves.mine k hFrom hTo, hTo⟩
    · obtain ⟨hPosition, hSameWork, _⟩ := hMoves.others m hSame
      rw [hSameWork] at hWorked
      rw [hPosition]
      exact h.worked m hm k hWorked
  · obtain ⟨hNode, j, hj, hWorked⟩ := hHearing.heard m hm k found hFound
    exact ⟨hNode, j, hj, hMoves.worked_mono hWorked⟩
  · by_cases hSame : m = n
    · subst hSame
      by_cases hOld : k < s.position m
      · exact (h.passed m hm k hOld).imp (fun hWorked => hMoves.worked_mono hWorked) (hDone k)
      · by_cases hTaken : k < middle
        · have hHeard := hMoves.enough k (not_lt.mp hOld) hTaken
          exact Or.inr (hDone k (hHearing.done_of_heard hm hHeard (le_refl k)))
        · exact Or.inl ((hMoves.worked k).mpr (Or.inr ⟨not_lt.mp hTaken, hk⟩))
    · obtain ⟨hPosition, _, _⟩ := hMoves.others m hSame
      rw [hPosition] at hk
      exact (h.passed m hm k hk).imp (fun hWorked => hMoves.worked_mono hWorked) (hDone k)

end Library.Relay
