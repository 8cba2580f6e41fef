import Bamboo.Library.Outcome

/-! Node identifiers. A `NodeID` is an arbitrary string; `Node` reads it as a
number, and everything that is not a decimal 64-bit number reads as zero. -/
namespace Bamboo

abbrev NodeID := String

/-- The digits of `strconv.ParseUint`, most significant first. -/
def parseDigits : List Char → Nat → Option Nat
  | [], value => some value
  | c :: rest, value =>
      if c.isDigit then parseDigits rest (10 * value + (c.toNat - '0'.toNat)) else none

/-- `strconv.ParseUint(s, 10, 64)`; `none` is a syntax or range error. -/
def parseUint (s : String) : Option Nat :=
  match s.toList with
  | [] => none
  | digits =>
      match parseDigits digits 0 with
      | none => none
      | some value => if value < UInt64.size then some value else none

/-- Conversion of a `uint64` to a signed 64-bit integer. -/
def signed64 (value : Nat) : Int :=
  if value < UInt64.size / 2 then value else value - UInt64.size

/-- The number a node identifier stands for, zero on a parse error. -/
def node (id : NodeID) : Int :=
  match parseUint id with
  | none => 0
  | some value => signed64 value

/-- The decimal identifier of a node number, without its sign. -/
def newNodeID (number : Int) : NodeID :=
  toString number.natAbs

example : (node "7", node "007", node "+7", node "") = (7, 7, 0, 0) := by decide

/-- Decimal digits are always read. -/
theorem parseDigits_digits (digits : List Char) (value : Nat)
    (h : ∀ c ∈ digits, c.isDigit = true) :
    parseDigits digits value = some (Nat.ofDigitChars 10 digits value) := by
  induction digits generalizing value with
  | nil => simp [parseDigits]
  | cons c rest ih =>
      have hHead := h c List.mem_cons_self
      have hRest : ∀ c ∈ rest, c.isDigit = true := fun d hd => h d (List.mem_cons_of_mem c hd)
      rw [parseDigits, if_pos hHead, ih _ hRest, Nat.ofDigitChars_cons]

theorem parseUint_repr {n : Nat} (h : n < UInt64.size) : parseUint (toString n) = some n := by
  have hDigits : ∀ c ∈ Nat.toDigits 10 n, c.isDigit = true := fun c hc =>
    Nat.isDigit_of_mem_toDigits (by decide) (by decide) hc
  have hRead := parseDigits_digits (Nat.toDigits 10 n) 0 hDigits
  rw [Nat.ofDigitChars_ten_toDigits] at hRead
  have hList : (toString n).toList = Nat.toDigits 10 n := Nat.toList_repr
  unfold parseUint
  rw [hList]
  split
  · next hNil => exact absurd hNil Nat.toDigits_ne_nil
  · rw [hRead]
    simp [h]

/-- A node number is read back from its identifier. -/
theorem node_newNodeID {n : Nat} (h : n < UInt64.size / 2) : node (newNodeID n) = n := by
  have hRange : n < UInt64.size := Nat.lt_of_lt_of_le h (Nat.div_le_self _ _)
  unfold node newNodeID
  rw [Int.natAbs_natCast, parseUint_repr hRange]
  simp [signed64, h]

/-- Different numbers have different identifiers, also beyond those that can be read. -/
theorem newNodeID_inj {a b : Nat} : newNodeID a = newNodeID b ↔ a = b := by
  constructor
  · intro h
    have hDigits : Nat.toDigits 10 a = Nat.toDigits 10 b := by
      rw [← Nat.toList_repr, ← Nat.toList_repr]
      exact congrArg String.toList h
    have hRead := congrArg (fun digits => Nat.ofDigitChars 10 digits 0) hDigits
    simpa only [Nat.ofDigitChars_ten_toDigits] using hRead
  · rintro rfl
    rfl

end Bamboo
