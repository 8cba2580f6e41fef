import Mathlib.Data.Int.CardIntervalMod

/-! Dealing the numbers below `n` in turn, `m` in each round, and starting again after the
last one. Every round gets as many different numbers as there are, up to `m`, and no two
numbers are dealt in numbers of rounds that differ by more than one. -/
namespace Library.RoundRobin

/-- The numbers dealt in round `i`. -/
def hand (n m i : Nat) : Finset Nat :=
  (Finset.range m).image fun j => (i * m + j) % n

variable {n m : Nat}

theorem mem_hand {i k : Nat} : k ∈ hand n m i ↔ ∃ j < m, (i * m + j) % n = k := by
  simp [hand]

/-- Fewer than `n` steps do not come back to the same number. -/
theorem injOn_mod (start : Nat) :
    Set.InjOn (fun j => (start + j) % n) (Finset.range n : Finset Nat) := by
  intro a ha b hb hSame
  rw [Finset.mem_coe, Finset.mem_range] at ha hb
  have hMod : start + a ≡ start + b [MOD n] := hSame
  exact (hMod.add_left_cancel' start).eq_of_lt_of_lt ha hb

theorem card_hand (hn : 0 < n) (i : Nat) : (hand n m i).card = min m n := by
  rcases le_total m n with hSmall | hLarge
  · have hInj : Set.InjOn (fun j => (i * m + j) % n) (Finset.range m : Finset Nat) :=
      (injOn_mod (i * m)).mono (Finset.coe_subset.mpr (Finset.range_mono hSmall))
    rw [hand, Finset.card_image_of_injOn hInj, Finset.card_range, min_eq_left hSmall]
  · -- already the first `n` steps reach every number
    have hBelow : hand n m i ⊆ Finset.range n := by
      intro k hk
      obtain ⟨j, _, rfl⟩ := mem_hand.mp hk
      exact Finset.mem_range.mpr (Nat.mod_lt _ hn)
    have hAll : ((Finset.range n).image fun j => (i * m + j) % n) ⊆ hand n m i :=
      Finset.image_subset_image (Finset.range_mono hLarge)
    have hUpper := Finset.card_le_card hBelow
    have hLower := Finset.card_le_card hAll
    rw [Finset.card_image_of_injOn (injOn_mod (i * m)), Finset.card_range] at hLower
    rw [Finset.card_range] at hUpper
    omega

/-- A number is dealt at most once in a round. -/
theorem count_round (hm : m ≤ n) (start k : Nat) :
    Nat.count (fun j => (start + j) % n = k) m =
      if ∃ j < m, (start + j) % n = k then 1 else 0 := by
  rw [Nat.count_eq_card_filter_range]
  split_ifs with hDealt
  · obtain ⟨j, hj, hk⟩ := hDealt
    rw [Finset.card_eq_one]
    refine ⟨j, Finset.eq_singleton_iff_unique_mem.mpr ⟨by simp [hj, hk], fun j' hj' => ?_⟩⟩
    rw [Finset.mem_filter, Finset.mem_range] at hj'
    apply injOn_mod (n := n) start
    · simp only [Finset.mem_coe, Finset.mem_range]
      omega
    · simp only [Finset.mem_coe, Finset.mem_range]
      omega
    · exact hj'.2.trans hk.symm
  · rw [Finset.card_eq_zero, Finset.filter_eq_empty_iff]
    intro j hj hk
    exact hDealt ⟨j, Finset.mem_range.mp hj, hk⟩

/-- The rounds in which a number is dealt are as many as its turns among all turns. -/
theorem card_rounds_eq_count (hm : m ≤ n) (g k : Nat) :
    ((Finset.range g).filter (k ∈ hand n m ·)).card = Nat.count (fun x => x % n = k) (g * m) := by
  induction g with
  | zero => simp
  | succ g ih =>
      rw [Nat.succ_mul, Nat.count_add, count_round hm, ← ih, Finset.range_add_one,
        Finset.filter_insert]
      simp only [mem_hand]
      split_ifs
      · rw [Finset.card_insert_of_notMem (by simp)]
      · rfl

/-- In `g` rounds a number gets its full turns, and one more if it is among the first
numbers of the unfinished turn. -/
theorem card_rounds (hn : 0 < n) (hm : m ≤ n) (g : Nat) {k : Nat} (hk : k < n) :
    ((Finset.range g).filter (k ∈ hand n m ·)).card =
      g * m / n + if k < g * m % n then 1 else 0 := by
  have hCount := Nat.count_modEq_card (g * m) hn k
  rw [Nat.mod_eq_of_lt hk] at hCount
  rw [card_rounds_eq_count hm, ← hCount]
  congr 1
  funext x
  rw [Nat.ModEq, Nat.mod_eq_of_lt hk]

theorem card_rounds_floor_or_ceil (hn : 0 < n) (hm : m ≤ n) (g : Nat) {k : Nat} (hk : k < n) :
    ((Finset.range g).filter (k ∈ hand n m ·)).card = g * m / n ∨
      ((Finset.range g).filter (k ∈ hand n m ·)).card = (g * m + n - 1) / n := by
  rw [card_rounds hn hm g hk]
  split_ifs with hExtra
  · right
    have hSplit := Nat.div_add_mod (g * m) n
    have hOver : g * m + n - 1 = (g * m % n - 1) + n * (g * m / n + 1) := by
      rw [Nat.mul_succ]
      omega
    have hBelow : g * m % n - 1 < n := by
      have hMod := Nat.mod_lt (g * m) hn
      omega
    rw [hOver, Nat.add_mul_div_left _ _ hn, Nat.div_eq_of_lt hBelow, Nat.zero_add]
  · exact Or.inl rfl

theorem covered_iff (hn : 0 < n) (hm : m ≤ n) (g : Nat) :
    (∀ k < n, ∃ i < g, k ∈ hand n m i) ↔ n ≤ g * m := by
  have hDealt : ∀ k, (∃ i < g, k ∈ hand n m i) ↔
      0 < ((Finset.range g).filter (k ∈ hand n m ·)).card := by
    intro k
    simp [Finset.card_pos, Finset.filter_nonempty_iff]
  simp only [hDealt]
  constructor
  · intro h
    by_contra hFew
    -- the first number that is not reached
    have hNext := h (g * m) (not_le.mp hFew)
    rw [card_rounds hn hm g (not_le.mp hFew), Nat.div_eq_of_lt (not_le.mp hFew),
      Nat.mod_eq_of_lt (not_le.mp hFew)] at hNext
    simp at hNext
  · intro hMany k hk
    rw [card_rounds hn hm g hk]
    have hTurn := Nat.div_pos hMany hn
    omega

end Library.RoundRobin
