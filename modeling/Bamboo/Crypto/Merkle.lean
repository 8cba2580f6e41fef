import Bamboo.Library.BalancedFold
import Bamboo.Library.Outcome

/-! The root of a Merkle tree over byte slices, as a recursion over halves of the slice and
as passes over one array that is overwritten from its front. The hash function is a
parameter; what is put in front of leaves and inner nodes is the source's. -/
namespace Bamboo

open Library BalancedFold

abbrev Bytes := List UInt8

/-- `tmhash`: the sum of a byte string has 32 bytes. -/
structure Hasher where
  sum : Bytes → Bytes
  length_sum : ∀ data, (sum data).length = 32

namespace Hasher

/-- The first 32 bytes of a string, filled up with zeros. -/
def firstBytes : Hasher where
  sum data := (data ++ List.replicate 32 0).take 32
  length_sum data := by simp

variable (h : Hasher)

def leafPrefix : Bytes := [0]

def innerPrefix : Bytes := [1]

def emptyHash : Bytes :=
  h.sum []

def leafHash (leaf : Bytes) : Bytes :=
  h.sum (leafPrefix ++ leaf)

def innerHash (left right : Bytes) : Bytes :=
  h.sum (innerPrefix ++ (left ++ right))

end Hasher

namespace Merkle

/-- `bits.Len`: how many bits are needed for `n`. -/
def bitLen (n : Nat) : Nat :=
  if n = 0 then 0 else Nat.log2 n + 1

/-- The largest power of two below `length`. The callers ask for lengths from two on. -/
def getSplitPoint (length : Nat) : Nat :=
  let k := 1 <<< (bitLen length - 1)
  if k = length then k >>> 1 else k

theorem getSplitPoint_eq {n : Nat} (h : 2 ≤ n) : getSplitPoint n = splitPoint n := by
  have hLow : 2 ^ Nat.log 2 n ≤ n := Nat.pow_log_le_self 2 (by omega)
  have hHigh : n < 2 ^ (Nat.log 2 n + 1) := Nat.lt_pow_succ_log_self (by omega) n
  have hLog : 0 < Nat.log 2 n := Nat.log_pos (by omega) h
  obtain ⟨k, hk⟩ := Nat.exists_eq_add_of_le' hLog
  have hBits : bitLen n - 1 = Nat.log 2 n := by
    simp [bitLen, Nat.log2_eq_log_two, show n ≠ 0 by omega]
  simp only [getSplitPoint, hBits, Nat.one_shiftLeft, Nat.shiftRight_one]
  split_ifs with hPower
  · rw [hk, Nat.pow_succ] at hPower
    have hHalf : splitPoint n = 2 ^ k := splitPoint_eq (by omega) (by rw [Nat.pow_succ]; omega)
    rw [hHalf, hk, Nat.pow_succ]
    omega
  · exact (splitPoint_eq (by omega) (by omega)).symm

theorem take_set_succ {xs : List Bytes} {i : Nat} (hi : i < xs.length) (x : Bytes) :
    (xs.set i x).take (i + 1) = xs.take i ++ [x] := by
  rw [List.take_succ_eq_append_getElem (by rw [List.length_set]; exact hi),
    List.getElem_set_self, List.take_set_of_le (le_refl i)]

end Merkle

open Merkle

namespace Hasher

variable (h : Hasher)

/-- `HashFromByteSlices`. -/
def hashFromByteSlices : List Bytes → Bytes
  | [] => h.emptyHash
  | [item] => h.leafHash item
  | first :: second :: rest =>
      let items := first :: second :: rest
      let k := getSplitPoint (rest.length + 2)
      h.innerHash (hashFromByteSlices (items.take k)) (hashFromByteSlices (items.drop k))
termination_by items => items.length
decreasing_by
  · have := splitPoint_lt (n := rest.length + 2) (by omega)
    rw [getSplitPoint_eq (by omega), List.length_take, List.length_cons, List.length_cons]
    omega
  · have := splitPoint_pos (rest.length + 2)
    rw [getSplitPoint_eq (by omega), List.length_drop, List.length_cons, List.length_cons]
    omega

/-- One pass of `HashFromByteSlicesIterative` over the first `size` entries: `rp` is read,
`wp` is written. -/
def mergePass (size rp wp : Nat) (items : List Bytes) : Outcome (List Bytes × Nat) :=
  if rp < size then
    if rp + 1 < size then do
      let left ← Outcome.index items rp
      let right ← Outcome.index items (rp + 1 : Nat)
      let items ← Outcome.assign items wp (h.innerHash left right)
      mergePass size (rp + 2) (wp + 1) items
    else do
      let item ← Outcome.index items rp
      let items ← Outcome.assign items wp item
      mergePass size (rp + 1) (wp + 1) items
  else pure (items, wp)
termination_by size - rp

/-- The passes, with a bound on their number. -/
def mergePasses : Nat → Nat → List Bytes → Outcome Bytes
  | 0, _, _ => throw .diverges
  | _ + 1, 0, _ => pure h.emptyHash
  | _ + 1, 1, items => Outcome.index items 0
  | bound + 1, size + 2, items => do
      let (items, size) ← h.mergePass (size + 2) 0 0 items
      mergePasses bound size items

/-- `HashFromByteSlicesIterative`. A pass leaves fewer entries than it has found. -/
def hashFromByteSlicesIterative (input : List Bytes) : Outcome Bytes :=
  h.mergePasses (input.length + 1) input.length (input.map h.leafHash)

theorem hashFromByteSlices_append {left right : List Bytes} (hSplit : Balanced left right) :
    h.hashFromByteSlices (left ++ right) =
      h.innerHash (h.hashFromByteSlices left) (h.hashFromByteSlices right) := by
  have hTwo := hSplit.two_le
  have hLength := hSplit.length_left
  generalize hItems : left ++ right = items at hTwo hLength
  match items with
  | [] => simp at hTwo
  | [_] => simp at hTwo
  | first :: second :: rest =>
      rw [hashFromByteSlices]
      simp only [List.length_cons, getSplitPoint_eq (Nat.le_add_left 2 _)] at hLength ⊢
      rw [← hLength, ← hItems, List.take_left, List.drop_left]

/-- The recursion combines the hashes of the leaves. -/
theorem hashFromByteSlices_eq_fold (items : List Bytes) :
    h.hashFromByteSlices items = fold h.innerHash h.emptyHash (items.map h.leafHash) := by
  induction items using balanced_induction with
  | nil => simp [hashFromByteSlices, fold]
  | singleton item => simp [hashFromByteSlices, fold]
  | append left right hSplit ihLeft ihRight =>
      have hMap : Balanced (left.map h.leafHash) (right.map h.leafHash) := by
        constructor
        · simpa using hSplit.left_ne
        · simpa using hSplit.right_ne
        · simpa using hSplit.length_left
      rw [h.hashFromByteSlices_append hSplit, List.map_append, fold_append _ _ hMap, ihLeft, ihRight]

/-- What one pass leaves in front: the entries before the write position, and the
neighbours from the read position on, combined. It never writes what it has still to
read. -/
theorem mergePass_spec {size rp wp : Nat} {items : List Bytes} (hSize : size ≤ items.length)
    (hOrder : wp ≤ rp) (hRead : rp ≤ size) :
    ∃ items' wp', h.mergePass size rp wp items = .ok (items', wp') ∧
      wp' = wp + (size - rp + 1) / 2 ∧ items'.length = items.length ∧
      items'.take wp' = items.take wp ++ pairUp h.innerHash ((items.take size).drop rp) := by
  induction hLeft : size - rp using Nat.strong_induction_on generalizing rp wp items with
  | h left ih =>
      subst hLeft
      rw [mergePass]
      by_cases hMore : rp < size
      · have hWrite : wp < items.length := by omega
        have hHere : rp < (items.take size).length := by
          rw [List.length_take]
          omega
        -- writing at `wp` changes nothing from `rp + 1` on
        have hRest : ∀ v next, wp < next →
            ((items.set wp v).take size).drop next = (items.take size).drop next := by
          intro v next hNext
          rw [List.take_set, List.drop_set_of_lt hNext]
        rw [if_pos hMore]
        by_cases hPair : rp + 1 < size
        · have hNext : rp + 1 < (items.take size).length := by
            rw [List.length_take]
            omega
          rw [if_pos hPair, Outcome.index_of_lt (by omega), Outcome.ok_bind,
            Outcome.index_of_lt (by omega), Outcome.ok_bind, Outcome.assign_of_lt hWrite,
            Outcome.ok_bind]
          generalize hv : h.innerHash items[rp] items[rp + 1] = v
          obtain ⟨items', wp', hPass, hwp', hLength, hTake⟩ :=
            @ih (size - (rp + 2)) (by omega) (rp + 2) (wp + 1) (items.set wp v)
              (by rw [List.length_set]; exact hSize) (by omega) (by omega) rfl
          refine ⟨items', wp', hPass, by omega, by rw [hLength, List.length_set], ?_⟩
          rw [hTake, take_set_succ hWrite, hRest v _ (by omega), List.drop_eq_getElem_cons hHere,
            List.drop_eq_getElem_cons hNext, pairUp, List.getElem_take, List.getElem_take, hv,
            List.append_assoc, List.singleton_append]
        · rw [if_neg hPair, Outcome.index_of_lt (by omega), Outcome.ok_bind,
            Outcome.assign_of_lt hWrite, Outcome.ok_bind]
          generalize hv : items[rp] = v
          obtain ⟨items', wp', hPass, hwp', hLength, hTake⟩ :=
            @ih (size - (rp + 1)) (by omega) (rp + 1) (wp + 1) (items.set wp v)
              (by rw [List.length_set]; exact hSize) (by omega) (by omega) rfl
          have hEnd : (items.take size).drop (rp + 1) = [] := by
            rw [List.drop_eq_nil_iff, List.length_take]
            omega
          refine ⟨items', wp', hPass, by omega, by rw [hLength, List.length_set], ?_⟩
          rw [hTake, take_set_succ hWrite, hRest v _ (by omega), List.drop_eq_getElem_cons hHere,
            hEnd, List.getElem_take, hv]
          simp [pairUp]
      · have hEnd : (items.take size).drop rp = [] := by
          rw [List.drop_eq_nil_iff, List.length_take]
          omega
        rw [if_neg hMore]
        refine ⟨items, wp, rfl, by omega, rfl, ?_⟩
        rw [hEnd]
        simp [pairUp]

/-- The passes combine the first `size` entries into one, level by level. -/
theorem mergePasses_eq {bound size : Nat} {items : List Bytes} (hBound : size < bound)
    (hSize : size ≤ items.length) :
    h.mergePasses bound size items = .ok (fold h.innerHash h.emptyHash (items.take size)) := by
  induction bound generalizing size items with
  | zero => omega
  | succ bound ih =>
      rcases size with _ | _ | size
      · simp [mergePasses, fold, pure, Except.pure]
      · cases items with
        | nil => simp at hSize
        | cons first rest => simp [mergePasses, fold, Outcome.index, pure, Except.pure]
      · obtain ⟨items', size', hPass, hSize', hLength, hTake⟩ :=
          h.mergePass_spec hSize (le_refl 0) (Nat.zero_le _)
        simp only [List.take_zero, List.nil_append, List.drop_zero] at hTake
        rw [mergePasses, hPass, Outcome.ok_bind]
        show h.mergePasses bound size' items' = _
        rw [ih (by omega) (by omega), hTake, fold_pairUp]

/-- The iterative way computes the root of the recursive one. -/
theorem hashFromByteSlicesIterative_eq (input : List Bytes) :
    h.hashFromByteSlicesIterative input = .ok (h.hashFromByteSlices input) := by
  rw [hashFromByteSlicesIterative, h.mergePasses_eq (by omega) (by rw [List.length_map]),
    List.take_of_length_le (by rw [List.length_map]), h.hashFromByteSlices_eq_fold]

/-- The string whose sum is the root of `items`. -/
def rootInput : List Bytes → Bytes
  | [] => []
  | [item] => leafPrefix ++ item
  | first :: second :: rest =>
      let items := first :: second :: rest
      let k := getSplitPoint (rest.length + 2)
      innerPrefix ++ (h.hashFromByteSlices (items.take k) ++ h.hashFromByteSlices (items.drop k))

/-- All strings that are hashed for the root of `items`. -/
def inputs : List Bytes → List Bytes
  | [] => [h.rootInput []]
  | [item] => [h.rootInput [item]]
  | first :: second :: rest =>
      let items := first :: second :: rest
      let k := getSplitPoint (rest.length + 2)
      inputs (items.take k) ++ inputs (items.drop k) ++ [h.rootInput items]
termination_by items => items.length
decreasing_by
  · have := splitPoint_lt (n := rest.length + 2) (by omega)
    rw [getSplitPoint_eq (by omega), List.length_take, List.length_cons, List.length_cons]
    omega
  · have := splitPoint_pos (rest.length + 2)
    rw [getSplitPoint_eq (by omega), List.length_drop, List.length_cons, List.length_cons]
    omega

/-- No string of the first list and no string of the second are different and have the same
sum. -/
def CollisionFree (first second : List Bytes) : Prop :=
  ∀ x ∈ first, ∀ y ∈ second, h.sum x = h.sum y → x = y

theorem CollisionFree.mono {h : Hasher} {first second first' second' : List Bytes}
    (hFree : h.CollisionFree first second) (hFirst : first' ⊆ first) (hSecond : second' ⊆ second) :
    h.CollisionFree first' second' :=
  fun x hx y hy => hFree x (hFirst hx) y (hSecond hy)

theorem rootInput_nil : h.rootInput [] = [] :=
  rfl

theorem rootInput_singleton (item : Bytes) : h.rootInput [item] = 0 :: item :=
  rfl

theorem rootInput_append {left right : List Bytes} (hSplit : Balanced left right) :
    h.rootInput (left ++ right) =
      1 :: (h.hashFromByteSlices left ++ h.hashFromByteSlices right) := by
  have hTwo := hSplit.two_le
  have hLength := hSplit.length_left
  generalize hItems : left ++ right = items at hTwo hLength
  match items with
  | [] => simp at hTwo
  | [_] => simp at hTwo
  | first :: second :: rest =>
      simp only [rootInput, List.length_cons, getSplitPoint_eq (Nat.le_add_left 2 _)] at hLength ⊢
      rw [← hLength, ← hItems, List.take_left, List.drop_left]
      rfl

theorem inputs_append {left right : List Bytes} (hSplit : Balanced left right) :
    h.inputs (left ++ right) =
      h.inputs left ++ h.inputs right ++ [h.rootInput (left ++ right)] := by
  have hTwo := hSplit.two_le
  have hLength := hSplit.length_left
  generalize hItems : left ++ right = items at hTwo hLength
  match items with
  | [] => simp at hTwo
  | [_] => simp at hTwo
  | first :: second :: rest =>
      rw [inputs]
      simp only [List.length_cons, getSplitPoint_eq (Nat.le_add_left 2 _)] at hLength ⊢
      rw [← hLength, ← hItems, List.take_left, List.drop_left]

theorem hashFromByteSlices_eq_sum (items : List Bytes) :
    h.hashFromByteSlices items = h.sum (h.rootInput items) := by
  induction items using balanced_induction with
  | nil => rw [hashFromByteSlices, emptyHash, rootInput_nil]
  | singleton item =>
      rw [hashFromByteSlices, leafHash, rootInput_singleton]
      rfl
  | append left right hSplit =>
      rw [h.hashFromByteSlices_append hSplit, h.rootInput_append hSplit, innerHash]
      rfl

theorem length_hashFromByteSlices (items : List Bytes) :
    (h.hashFromByteSlices items).length = 32 := by
  rw [hashFromByteSlices_eq_sum, h.length_sum]

theorem rootInput_mem (items : List Bytes) : h.rootInput items ∈ h.inputs items := by
  induction items using balanced_induction with
  | nil => simp [inputs]
  | singleton item => simp [inputs]
  | append left right hSplit => simp [h.inputs_append hSplit]

variable {h}

theorem rootInput_eq_nil {items : List Bytes} (hInput : h.rootInput items = []) : items = [] := by
  induction items using balanced_induction with
  | nil => rfl
  | singleton item => simp [rootInput_singleton] at hInput
  | append left right hSplit => simp [h.rootInput_append hSplit] at hInput

theorem rootInput_eq_leaf {items : List Bytes} {leaf : Bytes}
    (hInput : h.rootInput items = 0 :: leaf) : items = [leaf] := by
  induction items using balanced_induction with
  | nil => simp [rootInput_nil] at hInput
  | singleton item =>
      rw [rootInput_singleton] at hInput
      rw [(List.cons.inj hInput).2]
  | append left right hSplit => simp [h.rootInput_append hSplit] at hInput

theorem rootInput_eq_inner {items : List Bytes} {children : Bytes}
    (hInput : h.rootInput items = 1 :: children) :
    ∃ left right, Balanced left right ∧ items = left ++ right ∧
      h.hashFromByteSlices left ++ h.hashFromByteSlices right = children := by
  induction items using balanced_induction with
  | nil => simp [rootInput_nil] at hInput
  | singleton item => simp [rootInput_singleton] at hInput
  | append left right hSplit =>
      rw [h.rootInput_append hSplit] at hInput
      exact ⟨left, right, hSplit, rfl, (List.cons.inj hInput).2⟩

theorem CollisionFree.rootInput_eq {items others : List Bytes} {input : Bytes}
    (hFree : h.CollisionFree (h.inputs items) others) (hInput : input ∈ others)
    (hHash : h.hashFromByteSlices items = h.sum input) : h.rootInput items = input := by
  rw [hashFromByteSlices_eq_sum] at hHash
  exact hFree _ (h.rootInput_mem items) _ hInput hHash

theorem CollisionFree.rootInput {items items' : List Bytes}
    (hFree : h.CollisionFree (h.inputs items) (h.inputs items'))
    (hRoot : h.hashFromByteSlices items = h.hashFromByteSlices items') :
    h.rootInput items = h.rootInput items' := by
  rw [h.hashFromByteSlices_eq_sum items'] at hRoot
  exact hFree.rootInput_eq (h.rootInput_mem items') hRoot

/-- Lists of items with the same root are equal, if no two different strings that are hashed
for them have the same sum. -/
theorem hashFromByteSlices_binding {items items' : List Bytes}
    (hFree : h.CollisionFree (h.inputs items) (h.inputs items'))
    (hRoot : h.hashFromByteSlices items = h.hashFromByteSlices items') : items = items' := by
  induction items using balanced_induction generalizing items' with
  | nil =>
      have hSame := hFree.rootInput hRoot
      rw [rootInput_nil] at hSame
      exact (rootInput_eq_nil hSame.symm).symm
  | singleton item =>
      have hSame := hFree.rootInput hRoot
      rw [rootInput_singleton] at hSame
      exact (rootInput_eq_leaf hSame.symm).symm
  | append left right hSplit ihLeft ihRight =>
      have hSame := hFree.rootInput hRoot
      rw [h.rootInput_append hSplit] at hSame
      obtain ⟨left', right', hSplit', rfl, hChildren⟩ := rootInput_eq_inner hSame.symm
      obtain ⟨hLeft, hRight⟩ := List.append_inj hChildren
        (by rw [h.length_hashFromByteSlices, h.length_hashFromByteSlices])
      rw [h.inputs_append hSplit, h.inputs_append hSplit'] at hFree
      rw [ihLeft (hFree.mono (by simp) (by simp)) hLeft.symm,
        ihRight (hFree.mono (by simp) (by simp)) hRight.symm]

end Hasher
end Bamboo
