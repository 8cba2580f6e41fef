import Mathlib.Order.Basic

/-! Signed 64-bit integers. They are integers here, and a result that does not fit is brought
back into the range as the machine does it. -/
namespace Library

def minInt64 : Int := -9223372036854775808

def maxInt64 : Int := 9223372036854775807

/-- The 64-bit integer that is left of a result. -/
def int64 (x : Int) : Int :=
  (x - minInt64) % 18446744073709551616 + minInt64

/-- A result that fits is exact. -/
theorem int64_of_mem {x : Int} (hLow : minInt64 ≤ x) (hHigh : x ≤ maxInt64) : int64 x = x := by
  unfold int64 minInt64
  unfold minInt64 at hLow
  unfold maxInt64 at hHigh
  omega

theorem int64_of_nonneg {x : Int} (hLow : 0 ≤ x) (hHigh : x ≤ maxInt64) : int64 x = x :=
  int64_of_mem (by unfold minInt64; omega) hHigh

example : int64 (maxInt64 + 1) = minInt64 := by decide

/-- The nearest 64-bit integer. -/
def saturate (x : Int) : Int :=
  max minInt64 (min maxInt64 x)

theorem saturate_of_mem {x : Int} (hLow : minInt64 ≤ x) (hHigh : x ≤ maxInt64) :
    saturate x = x := by
  unfold saturate
  omega

end Library
