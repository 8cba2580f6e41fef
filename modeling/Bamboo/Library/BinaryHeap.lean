import Mathlib.Data.Nat.Basic
import Mathlib.Logic.Equiv.Basic
import Mathlib.Order.Lattice

/-! Binary heaps over anything that can compare and swap positions. The sifts see a state
only through the keys at its positions, so that a swap may keep other records in step with
the positions; what every swap keeps, the sifts keep. -/
namespace Library.BinaryHeap

universe u v

/-- A state with keys at its positions, and how to swap two positions. -/
structure Ops (σ : Type u) (κ : Type v) where
  len : σ → Nat
  key : σ → Nat → κ
  swap : σ → Nat → Nat → σ
  len_swap : ∀ s i j, len (swap s i j) = len s
  key_swap : ∀ s i j k, i < len s → j < len s → key (swap s i j) k = key s (Equiv.swap i j k)

/-- The position above. The root is its own parent. -/
def parent (i : Nat) : Nat :=
  (i - 1) / 2

theorem parent_lt {i : Nat} (h : 0 < i) : parent i < i := by
  unfold parent
  omega

theorem parent_eq_iff {c i : Nat} (h : 0 < c) :
    parent c = i ↔ c = 2 * i + 1 ∨ c = 2 * i + 2 := by
  unfold parent
  omega

namespace Ops

variable {σ : Type u} {κ : Type v} [LinearOrder κ] (ops : Ops σ κ)

/-- The entry at `j` is moved up while it is less than its parent. A parent has a smaller
position, so that a bound of `j` is enough. -/
def up : Nat → σ → Nat → σ
  | 0, s, _ => s
  | bound + 1, s, j =>
      if parent j = j ∨ ¬ ops.key s j < ops.key s (parent j) then s
      else up bound (ops.swap s (parent j) j) (parent j)

/-- The smaller child of `i` among the first `n` entries; the left one if they are alike. -/
def minChild (n : Nat) (s : σ) (i : Nat) : Nat :=
  if 2 * i + 2 < n ∧ ops.key s (2 * i + 2) < ops.key s (2 * i + 1) then 2 * i + 2 else 2 * i + 1

/-- The entry at `i` is moved down among the first `n` entries while a child is less. The
position where it ends is returned. Positions grow, so that a bound of `n` is enough. -/
def down (n : Nat) : Nat → σ → Nat → σ × Nat
  | 0, s, i => (s, i)
  | bound + 1, s, i =>
      if n ≤ 2 * i + 1 ∨ ¬ ops.key s (ops.minChild n s i) < ops.key s i then (s, i)
      else down n bound (ops.swap s i (ops.minChild n s i)) (ops.minChild n s i)

/-- The entry at `i` is moved down, or up if it has stayed where it was. -/
def fix (n : Nat) (s : σ) (i : Nat) : σ :=
  let moved := ops.down n n s i
  if i < moved.2 then moved.1 else ops.up i moved.1 i

/-- No entry among the first `n` is less than its parent. -/
def Ordered (s : σ) (n : Nat) : Prop :=
  ∀ c, 0 < c → c < n → ops.key s (parent c) ≤ ops.key s c

/-- The order of all entries but the one at `i`: pairs without it, and its children against
its parent. -/
structure Hole (s : σ) (n i : Nat) : Prop where
  apart : ∀ c, 0 < c → c < n → c ≠ i → parent c ≠ i → ops.key s (parent c) ≤ ops.key s c
  across : ∀ c, 0 < c → c < n → parent c = i → 0 < i → ops.key s (parent i) ≤ ops.key s c

/-- The entry at `i` is not greater than its children. -/
def Below (s : σ) (n i : Nat) : Prop :=
  ∀ c, 0 < c → c < n → parent c = i → ops.key s i ≤ ops.key s c

/-- The entry at `i` is not less than its parent. -/
def Above (s : σ) (i : Nat) : Prop :=
  0 < i → ops.key s (parent i) ≤ ops.key s i

variable {ops} {s : σ} {n i j : Nat}

omit [LinearOrder κ] in
theorem key_swap_left (hi : i < ops.len s) (hj : j < ops.len s) :
    ops.key (ops.swap s i j) i = ops.key s j := by
  rw [ops.key_swap s i j i hi hj, Equiv.swap_apply_left]

omit [LinearOrder κ] in
theorem key_swap_right (hi : i < ops.len s) (hj : j < ops.len s) :
    ops.key (ops.swap s i j) j = ops.key s i := by
  rw [ops.key_swap s i j j hi hj, Equiv.swap_apply_right]

omit [LinearOrder κ] in
theorem key_swap_other (hi : i < ops.len s) (hj : j < ops.len s) {k : Nat} (hki : k ≠ i)
    (hkj : k ≠ j) : ops.key (ops.swap s i j) k = ops.key s k := by
  rw [ops.key_swap s i j k hi hj, Equiv.swap_apply_of_ne_of_ne hki hkj]

/-- The root is the least entry. -/
theorem Ordered.root_le (h : ops.Ordered s n) (hi : i < n) : ops.key s 0 ≤ ops.key s i := by
  induction i using Nat.strong_induction_on with
  | h i ih =>
      rcases Nat.eq_zero_or_pos i with rfl | hPos
      · exact le_refl _
      · have hParent := parent_lt hPos
        exact le_trans (ih (parent i) hParent (by omega)) (h i hPos hi)

/-- Changing the entry at `i` leaves a hole there. -/
theorem Ordered.hole {s' : σ} (h : ops.Ordered s n)
    (hSame : ∀ k, k < n → k ≠ i → ops.key s' k = ops.key s k) : ops.Hole s' n i := by
  constructor
  · intro c hPos hc hci hpi
    have := parent_lt hPos
    rw [hSame c hc hci, hSame (parent c) (by omega) hpi]
    exact h c hPos hc
  · intro c hPos hc hpi hi
    have hc' := parent_lt hPos
    have hi' := parent_lt hi
    rw [hSame c hc (by omega), hSame (parent i) (by omega) (by omega)]
    exact le_trans (h i hi (by omega)) (hpi ▸ h c hPos hc)

theorem Hole.ordered (h : ops.Hole s n i) (hBelow : ops.Below s n i) (hAbove : ops.Above s i) :
    ops.Ordered s n := by
  intro c hPos hc
  by_cases hci : c = i
  · subst hci
    exact hAbove hPos
  · by_cases hpi : parent c = i
    · rw [hpi]
      exact hBelow c hPos hc hpi
    · exact h.apart c hPos hc hci hpi

section Up

variable (hn : n ≤ ops.len s)

include hn

/-- A step up moves the hole to the parent. -/
theorem Hole.swap_up (h : ops.Hole s n j) (hj : j < n) (hBelow : ops.Below s n j) (hPos : 0 < j)
    (hLess : ops.key s j < ops.key s (parent j)) :
    ops.Hole (ops.swap s (parent j) j) n (parent j) ∧
      ops.Below (ops.swap s (parent j) j) n (parent j) := by
  have hpj := parent_lt hPos
  have hLeft : ops.key (ops.swap s (parent j) j) (parent j) = ops.key s j :=
    key_swap_left (by omega) (by omega)
  have hRight : ops.key (ops.swap s (parent j) j) j = ops.key s (parent j) :=
    key_swap_right (by omega) (by omega)
  have hOther : ∀ {k}, k ≠ parent j → k ≠ j → ops.key (ops.swap s (parent j) j) k = ops.key s k :=
    fun hk hk' => key_swap_other (by omega) (by omega) hk hk'
  have hUpper : ∀ {k}, 0 < parent j → k = parent (parent j) →
      ops.key (ops.swap s (parent j) j) k = ops.key s k := by
    intro k hpp hk
    have := parent_lt hpp
    exact hOther (by omega) (by omega)
  refine ⟨⟨?_, ?_⟩, ?_⟩
  · intro c hc hcn hcp hpcp
    by_cases hcj : c = j
    · subst hcj
      exact absurd rfl hpcp
    · rw [hOther hcp hcj]
      by_cases hpc : parent c = j
      · rw [hpc, hRight]
        exact h.across c hc hcn hpc hPos
      · rw [hOther hpcp hpc]
        exact h.apart c hc hcn hcj hpc
  · intro c hc hcn hpc hpp
    rw [hUpper hpp rfl]
    have hGrand : ops.key s (parent (parent j)) ≤ ops.key s (parent j) :=
      h.apart (parent j) hpp (by omega) (by omega) (by have := parent_lt hpp; omega)
    by_cases hcj : c = j
    · subst hcj
      rw [hRight]
      exact hGrand
    · rw [hOther (by have := parent_lt hc; omega) hcj]
      refine le_trans hGrand ?_
      rw [← hpc]
      exact h.apart c hc hcn hcj (by omega)
  · intro c hc hcn hpc
    rw [hLeft]
    by_cases hcj : c = j
    · subst hcj
      rw [hRight]
      exact hLess.le
    · rw [hOther (by have := parent_lt hc; omega) hcj]
      refine le_trans hLess.le ?_
      rw [← hpc]
      exact h.apart c hc hcn hcj (by omega)

end Up

theorem up_ordered {bound : Nat} (hBound : j ≤ bound) (hn : n ≤ ops.len s) (hj : j < n)
    (h : ops.Hole s n j) (hBelow : ops.Below s n j) : ops.Ordered (ops.up bound s j) n := by
  induction bound generalizing s j with
  | zero => exact h.ordered hBelow (fun hPos => absurd hPos (by omega))
  | succ bound ih =>
      rw [up]
      split_ifs with hStop
      · refine h.ordered hBelow fun hPos => ?_
        have := parent_lt hPos
        exact not_lt.mp (hStop.resolve_left (by omega))
      · push Not at hStop
        have hPos : 0 < j := by
          rcases Nat.eq_zero_or_pos j with rfl | hPos
          · exact absurd rfl hStop.1
          · exact hPos
        have hpj := parent_lt hPos
        obtain ⟨hHole, hChildren⟩ := h.swap_up hn hj hBelow hPos hStop.2
        exact ih (by omega) (by rw [ops.len_swap]; exact hn) (by omega) hHole hChildren

variable (ops s) in
theorem minChild_cases (hChild : 2 * i + 1 < n) :
    0 < ops.minChild n s i ∧ ops.minChild n s i < n ∧ parent (ops.minChild n s i) = i := by
  unfold minChild
  split_ifs with hRight
  · exact ⟨by omega, hRight.1, (parent_eq_iff (by omega)).mpr (Or.inr rfl)⟩
  · exact ⟨by omega, hChild, (parent_eq_iff (by omega)).mpr (Or.inl rfl)⟩

theorem minChild_le {c : Nat} (hc : 0 < c) (hcn : c < n) (hpc : parent c = i) :
    ops.key s (ops.minChild n s i) ≤ ops.key s c := by
  unfold minChild
  rcases (parent_eq_iff hc).mp hpc with rfl | rfl
  · split_ifs with hRight
    · exact hRight.2.le
    · exact le_refl _
  · split_ifs with hRight
    · exact le_refl _
    · exact not_lt.mp fun hLess => hRight ⟨hcn, hLess⟩

/-- A step down moves the hole to the smaller child. -/
theorem Hole.swap_down (h : ops.Hole s n i) (hn : n ≤ ops.len s) (hChild : 2 * i + 1 < n)
    (hLess : ops.key s (ops.minChild n s i) < ops.key s i) :
    ops.Hole (ops.swap s i (ops.minChild n s i)) n (ops.minChild n s i) ∧
      ops.Above (ops.swap s i (ops.minChild n s i)) (ops.minChild n s i) := by
  obtain ⟨hPos, hjn, hParent⟩ := ops.minChild_cases s hChild
  have hLeast : ∀ c, 0 < c → c < n → parent c = i →
      ops.key s (ops.minChild n s i) ≤ ops.key s c := fun c hc hcn hpc => minChild_le hc hcn hpc
  generalize ops.minChild n s i = j at *
  have hij : i < j := hParent ▸ parent_lt hPos
  have hLeft : ops.key (ops.swap s i j) i = ops.key s j := key_swap_left (by omega) (by omega)
  have hRight : ops.key (ops.swap s i j) j = ops.key s i := key_swap_right (by omega) (by omega)
  have hOther : ∀ {k}, k ≠ i → k ≠ j → ops.key (ops.swap s i j) k = ops.key s k :=
    fun hk hk' => key_swap_other (by omega) (by omega) hk hk'
  refine ⟨⟨?_, ?_⟩, ?_⟩
  · intro c hc hcn hcj hpcj
    by_cases hci : c = i
    · subst hci
      have := parent_lt hc
      rw [hLeft, hOther (by omega) hpcj]
      exact h.across j hPos hjn hParent hc
    · rw [hOther hci hcj]
      by_cases hpci : parent c = i
      · rw [hpci, hLeft]
        exact hLeast c hc hcn hpci
      · rw [hOther hpci hpcj]
        exact h.apart c hc hcn hci hpci
  · intro c hc hcn hpc _
    have hcj := parent_lt hc
    rw [hParent, hLeft, hOther (by omega) (by omega), ← hpc]
    exact h.apart c hc hcn (by omega) (by omega)
  · intro _
    rw [hParent, hLeft, hRight]
    exact hLess.le

theorem down_ordered {bound : Nat} (hBound : n ≤ i + bound) (hn : n ≤ ops.len s)
    (h : ops.Hole s n i) (hAbove : ops.Above s i) :
    ops.Ordered (ops.down n bound s i).1 n := by
  induction bound generalizing s i with
  | zero =>
      refine h.ordered (fun c hc hcn hpc => ?_) hAbove
      have := parent_lt hc
      omega
  | succ bound ih =>
      rw [down]
      split_ifs with hStop
      · refine h.ordered (fun c hc hcn hpc => ?_) hAbove
        rcases hStop with hLeaf | hNotLess
        · have := (parent_eq_iff hc).mp hpc
          omega
        · exact le_trans (not_lt.mp hNotLess) (minChild_le hc hcn hpc)
      · push Not at hStop
        obtain ⟨hHole, hUpper⟩ := h.swap_down hn hStop.1 hStop.2
        obtain ⟨hPos, _, hParent⟩ := ops.minChild_cases s hStop.1
        have hij := parent_lt hPos
        exact ih (by omega) (by rw [ops.len_swap]; exact hn) hHole hUpper

theorem le_down {bound : Nat} : i ≤ (ops.down n bound s i).2 := by
  induction bound generalizing s i with
  | zero => exact le_refl i
  | succ bound ih =>
      rw [down]
      split_ifs with hStop
      · exact le_refl i
      · push Not at hStop
        obtain ⟨hPos, _, hParent⟩ := ops.minChild_cases s hStop.1
        have hij := parent_lt hPos
        exact le_trans (by omega) ih

/-- The entry at `i` may be any: moving it down or else up repairs the order. -/
theorem fix_ordered (hn : n ≤ ops.len s) (hi : i < n) (h : ops.Hole s n i) :
    ops.Ordered (ops.fix n s i) n := by
  obtain ⟨bound, rfl⟩ : ∃ bound, n = bound + 1 := ⟨n - 1, by omega⟩
  by_cases hStop : bound + 1 ≤ 2 * i + 1 ∨
      ¬ ops.key s (ops.minChild (bound + 1) s i) < ops.key s i
  · have hDown : ops.down (bound + 1) (bound + 1) s i = (s, i) := by rw [down, if_pos hStop]
    simp only [fix, hDown, lt_irrefl, if_false]
    refine up_ordered (le_refl i) hn hi h fun c hc hcn hpc => ?_
    rcases hStop with hLeaf | hNotLess
    · have := (parent_eq_iff hc).mp hpc
      omega
    · exact le_trans (not_lt.mp hNotLess) (minChild_le hc hcn hpc)
  · have hDown : ops.down (bound + 1) (bound + 1) s i =
        ops.down (bound + 1) bound (ops.swap s i (ops.minChild (bound + 1) s i))
          (ops.minChild (bound + 1) s i) := by rw [down, if_neg hStop]
    push Not at hStop
    obtain ⟨hHole, hUpper⟩ := h.swap_down hn hStop.1 hStop.2
    obtain ⟨hPos, _, hParent⟩ := ops.minChild_cases s hStop.1
    have hij := parent_lt hPos
    simp only [fix, hDown]
    rw [if_pos (lt_of_lt_of_le (by omega) le_down)]
    exact down_ordered (by omega) (by rw [ops.len_swap]; exact hn) hHole hUpper

section Invariant

/-! What the swaps among the first `n` positions keep. -/

variable {P : σ → Prop} (hSwap : ∀ s i j, i < n → j < n → P s → P (ops.swap s i j))

include hSwap

theorem up_invariant {bound : Nat} (hj : j < n) (h : P s) : P (ops.up bound s j) := by
  induction bound generalizing s j with
  | zero => exact h
  | succ bound ih =>
      rw [up]
      split_ifs with hStop
      · exact h
      · have hParent : parent j < n := by
          unfold parent
          omega
        exact ih hParent (hSwap s _ _ hParent hj h)

theorem down_invariant {bound : Nat} (hi : i < n) (h : P s) : P (ops.down n bound s i).1 := by
  induction bound generalizing s i with
  | zero => exact h
  | succ bound ih =>
      rw [down]
      split_ifs with hStop
      · exact h
      · push Not at hStop
        obtain ⟨_, hChild, _⟩ := ops.minChild_cases s hStop.1
        exact ih hChild (hSwap s _ _ hi hChild h)

theorem fix_invariant (hi : i < n) (h : P s) : P (ops.fix n s i) := by
  rw [fix]
  have hDown : P (ops.down n n s i).1 := down_invariant hSwap hi h
  split_ifs
  · exact hDown
  · exact up_invariant hSwap hi hDown

end Invariant
end Ops
end Library.BinaryHeap
