import Mathlib.Algebra.Group.Nat.Defs
import Mathlib.Data.List.Basic
import Mathlib.Data.Nat.Log

/-! Combining the entries of a list by an operation that need not be associative. The
recursive way splits the list at the largest power of two below its length; the iterative
way combines neighbours, level by level, and lets an odd entry at the end move up. Both
build the same tree. -/
namespace Library.BalancedFold

universe u

/-- The largest power of two below `n`, for `n` at least two. -/
def splitPoint (n : Nat) : Nat :=
  2 ^ Nat.log 2 (n - 1)

theorem splitPoint_pos (n : Nat) : 0 < splitPoint n :=
  Nat.two_pow_pos _

theorem splitPoint_lt {n : Nat} (h : 2 ≤ n) : splitPoint n < n := by
  have hLe : splitPoint n ≤ n - 1 := Nat.pow_log_le_self 2 (by omega)
  omega

theorem splitPoint_eq {n k : Nat} (hLow : 2 ^ k < n) (hHigh : n ≤ 2 ^ (k + 1)) :
    splitPoint n = 2 ^ k := by
  have hLog : Nat.log 2 (n - 1) = k :=
    (Nat.log_eq_iff (Or.inr ⟨by omega, by omega⟩)).mpr ⟨by omega, by omega⟩
  rw [splitPoint, hLog]

/-- Half of the entries, rounded up, split at half of the point. -/
theorem splitPoint_half {n : Nat} (h : 3 ≤ n) :
    2 * splitPoint ((n + 1) / 2) = splitPoint n := by
  have hLow : 2 ^ Nat.log 2 (n - 1) ≤ n - 1 := Nat.pow_log_le_self 2 (by omega)
  have hHigh : n - 1 < 2 ^ (Nat.log 2 (n - 1) + 1) := Nat.lt_pow_succ_log_self (by omega) _
  have hLog : 0 < Nat.log 2 (n - 1) := Nat.log_pos (by omega) (by omega)
  obtain ⟨k, hk⟩ := Nat.exists_eq_add_of_le' hLog
  simp only [splitPoint, hk] at hLow hHigh ⊢
  rw [Nat.pow_succ] at hLow
  rw [Nat.pow_succ, Nat.pow_succ] at hHigh
  have hHalf : splitPoint ((n + 1) / 2) = 2 ^ k :=
    splitPoint_eq (by omega) (by rw [Nat.pow_succ]; omega)
  rw [splitPoint] at hHalf
  rw [hHalf, Nat.pow_succ, Nat.mul_comm]

variable {α : Type u}

/-- The two parts into which the recursive way splits a list of at least two entries. -/
structure Balanced (left right : List α) : Prop where
  left_ne : left ≠ []
  right_ne : right ≠ []
  length_left : left.length = splitPoint (left ++ right).length

theorem Balanced.two_le {left right : List α} (h : Balanced left right) :
    2 ≤ (left ++ right).length := by
  have := List.length_pos_of_ne_nil h.left_ne
  have := List.length_pos_of_ne_nil h.right_ne
  rw [List.length_append]
  omega

/-- Both parts of a list of at most `2 ^ (k + 1)` entries have at most `2 ^ k`. -/
theorem Balanced.length_le {left right : List α} (h : Balanced left right) {k : Nat}
    (hLength : (left ++ right).length ≤ 2 ^ (k + 1)) :
    left.length ≤ 2 ^ k ∧ right.length ≤ 2 ^ k := by
  have hTwo := h.two_le
  have hLeft := h.length_left
  generalize hn : (left ++ right).length = n at hTwo hLeft hLength
  rw [List.length_append] at hn
  have hHigh : n - 1 < 2 ^ (Nat.log 2 (n - 1) + 1) := Nat.lt_pow_succ_log_self (by omega) _
  have hLog : Nat.log 2 (n - 1) ≤ k :=
    Nat.lt_succ_iff.mp (Nat.log_lt_of_lt_pow (by omega) (by rw [Nat.succ_eq_add_one]; omega))
  have hPow : splitPoint n ≤ 2 ^ k := Nat.pow_le_pow_right (by omega) hLog
  rw [Nat.pow_succ] at hHigh
  rw [splitPoint] at hLeft hPow
  constructor <;> omega

theorem balanced_take_drop {xs : List α} (h : 2 ≤ xs.length) :
    Balanced (xs.take (splitPoint xs.length)) (xs.drop (splitPoint xs.length)) := by
  have hPos := splitPoint_pos xs.length
  have hLt := splitPoint_lt h
  constructor
  · apply List.ne_nil_of_length_pos
    rw [List.length_take]
    omega
  · apply List.ne_nil_of_length_pos
    rw [List.length_drop]
    omega
  · rw [List.take_append_drop, List.length_take]
    omega

/-- Induction along the splits. -/
theorem balanced_induction {P : List α → Prop} (nil : P []) (singleton : ∀ a, P [a])
    (append : ∀ left right, Balanced left right → P left → P right → P (left ++ right))
    (xs : List α) : P xs := by
  induction hLength : xs.length using Nat.strong_induction_on generalizing xs with
  | h n ih =>
      subst hLength
      match xs with
      | [] => exact nil
      | [a] => exact singleton a
      | a :: b :: rest =>
          have hBalanced := balanced_take_drop (show 2 ≤ (a :: b :: rest).length by simp)
          generalize a :: b :: rest = xs at ih hBalanced ⊢
          have hLeft := List.length_pos_of_ne_nil hBalanced.left_ne
          have hRight := List.length_pos_of_ne_nil hBalanced.right_ne
          rw [← List.take_append_drop (splitPoint xs.length) xs]
          apply append _ _ hBalanced
          · apply ih _ _ _ rfl
            simp only [List.length_take, List.length_drop] at hLeft hRight ⊢
            omega
          · apply ih _ _ _ rfl
            simp only [List.length_take, List.length_drop] at hLeft hRight ⊢
            omega

variable (f : α → α → α) (empty : α)

/-- The recursive way. -/
def fold : List α → α
  | [] => empty
  | [a] => a
  | a :: b :: rest =>
      f (fold ((a :: b :: rest).take (splitPoint (rest.length + 2))))
        (fold ((a :: b :: rest).drop (splitPoint (rest.length + 2))))
termination_by xs => xs.length
decreasing_by
  · have := splitPoint_lt (n := rest.length + 2) (by omega)
    simp only [List.length_take, List.length_cons]
    omega
  · have := splitPoint_pos (rest.length + 2)
    simp only [List.length_drop, List.length_cons]
    omega

theorem fold_append {left right : List α} (h : Balanced left right) :
    fold f empty (left ++ right) = f (fold f empty left) (fold f empty right) := by
  have hTwo := h.two_le
  have hLength := h.length_left
  generalize hList : left ++ right = xs at hTwo hLength
  match xs with
  | [] => simp at hTwo
  | [_] => simp at hTwo
  | a :: b :: rest =>
      rw [fold]
      simp only [List.length_cons] at hLength
      rw [← hLength, ← hList, List.take_left, List.drop_left]

/-- One level of the iterative way. -/
def pairUp : List α → List α
  | [] => []
  | [a] => [a]
  | a :: b :: rest => f a b :: pairUp rest

theorem length_pairUp (xs : List α) : (pairUp f xs).length = (xs.length + 1) / 2 := by
  induction xs using pairUp.induct with
  | case1 => simp [pairUp]
  | case2 a => simp [pairUp]
  | case3 a b rest ih =>
      simp only [pairUp, List.length_cons, ih]
      omega

/-- Neighbours in the two parts of a list are combined apart when the first part is even. -/
theorem pairUp_append {xs : List α} (ys : List α) {k : Nat} (hEven : xs.length = 2 * k) :
    pairUp f (xs ++ ys) = pairUp f xs ++ pairUp f ys := by
  induction xs using pairUp.induct generalizing k with
  | case1 => rfl
  | case2 a =>
      simp only [List.length_cons, List.length_nil] at hEven
      omega
  | case3 a b rest ih =>
      simp only [List.length_cons] at hEven
      have hRest : rest.length = 2 * (k - 1) := by omega
      simp only [List.cons_append, pairUp, ih hRest]

/-- One level up is the same tree with its lowest pairs combined. -/
theorem fold_pairUp (xs : List α) : fold f empty (pairUp f xs) = fold f empty xs := by
  induction xs using balanced_induction with
  | nil => simp [pairUp]
  | singleton a => simp [pairUp]
  | append left right hBalanced ihLeft ihRight =>
      by_cases hTwo : (left ++ right).length = 2
      · obtain ⟨a, b, hPair⟩ := List.length_eq_two.mp hTwo
        simp [hPair, pairUp, fold, splitPoint, List.take]
      · have hThree : 3 ≤ (left ++ right).length := by
          have := hBalanced.two_le
          omega
        have hEven : left.length = 2 * splitPoint (((left ++ right).length + 1) / 2) := by
          rw [splitPoint_half hThree, hBalanced.length_left]
        have hHalves : Balanced (pairUp f left) (pairUp f right) := by
          have hLeft := List.length_pos_of_ne_nil hBalanced.left_ne
          have hRight := List.length_pos_of_ne_nil hBalanced.right_ne
          constructor
          · apply List.ne_nil_of_length_pos
            rw [length_pairUp]
            omega
          · apply List.ne_nil_of_length_pos
            rw [length_pairUp]
            omega
          · rw [← pairUp_append f right hEven, length_pairUp, length_pairUp]
            omega
        rw [pairUp_append f right hEven, fold_append f empty hHalves, ihLeft, ihRight,
          fold_append f empty hBalanced]

end Library.BalancedFold
