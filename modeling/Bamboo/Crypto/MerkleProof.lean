import Bamboo.Crypto.Merkle

/-! Inclusion proofs. `trailsFromByteSlices` builds a tree of nodes that point to their
parents and siblings; a proof is read off by following the parents of a leaf. Nodes are
kept in one list and pointers are positions in it. -/
namespace Bamboo

open Library BalancedFold

namespace Merkle

/-- `Proof`. -/
structure InclusionProof where
  total : Int
  index : Int
  leafHash : Bytes
  aunts : List Bytes
deriving DecidableEq, Repr

/-- Why `Verify` refuses a proof. -/
inductive VerifyError where
  | totalNotPositive
  | indexNegative
  | invalidLeafHash (wanted got : Bytes)
  | invalidRootHash (wanted got : Bytes)
deriving DecidableEq, Repr

/-- Why `ValidateBasic` refuses a proof. -/
inductive ValidateError where
  | negativeTotal
  | negativeIndex
  | leafHashSize (got : Nat)
  | tooManyAunts (got : Nat)
  | auntSize (position got : Nat)
deriving DecidableEq, Repr

structure ProofNode where
  hash : Bytes
  parent : Option Nat := none
  left : Option Nat := none
  right : Option Nat := none

/-- `MaxAunts`. -/
def maxAunts : Nat := 100

end Merkle

open Merkle

namespace Hasher

variable (h : Hasher)

/-- `computeHashFromAunts` with the aunts from the root down, in which order they are
used; `none` is a nil result. -/
def hashFromRoot (index total : Int) (leafHash : Bytes) : List Bytes → Option Bytes
  | [] =>
      if total ≤ index ∨ index < 0 ∨ total ≤ 0 then none
      else if total = 1 then some leafHash
      else none
  | aunt :: below =>
      if total ≤ index ∨ index < 0 ∨ total ≤ 0 then none
      else if total = 1 then none
      else
        let numLeft : Int := getSplitPoint total.toNat
        if index < numLeft then
          (hashFromRoot index numLeft leafHash below).map fun leftHash => h.innerHash leftHash aunt
        else
          (hashFromRoot (index - numLeft) (total - numLeft) leafHash below).map
            fun rightHash => h.innerHash aunt rightHash

def computeHashFromAunts (index total : Int) (leafHash : Bytes) (innerHashes : List Bytes) :
    Option Bytes :=
  h.hashFromRoot index total leafHash innerHashes.reverse

/-- `ComputeRootHash`. -/
def computeRootHash (sp : InclusionProof) : Option Bytes :=
  h.computeHashFromAunts sp.index sp.total sp.leafHash sp.aunts

/-- `Verify`. A nil root is compared as an empty one. -/
def verify (sp : InclusionProof) (rootHash leaf : Bytes) : Except VerifyError Unit :=
  if sp.total < 0 then throw .totalNotPositive
  else if sp.index < 0 then throw .indexNegative
  else if sp.leafHash ≠ h.leafHash leaf then
    throw (.invalidLeafHash (h.leafHash leaf) sp.leafHash)
  else
    let computedHash := (h.computeRootHash sp).getD []
    if computedHash ≠ rootHash then throw (.invalidRootHash rootHash computedHash)
    else pure ()

end Hasher

namespace Merkle

/-- `ValidateBasic`. -/
def InclusionProof.validateBasic (sp : InclusionProof) : Except ValidateError Unit :=
  if sp.total < 0 then throw .negativeTotal
  else if sp.index < 0 then throw .negativeIndex
  else if sp.leafHash.length ≠ 32 then throw (.leafHashSize sp.leafHash.length)
  else if maxAunts < sp.aunts.length then throw (.tooManyAunts sp.aunts.length)
  else
    match sp.aunts.zipIdx.find? fun aunt => aunt.1.length ≠ 32 with
    | some (aunt, i) => throw (.auntSize i aunt.length)
    | none => pure ()

/-- The hash of the node a pointer refers to. -/
def hashAt (nodes : List ProofNode) (pointer : Nat) : Bytes :=
  (nodes[pointer]?.map ProofNode.hash).getD []

/-- `FlattenAunts`, with a bound on the number of parents. -/
def flattenAunts (nodes : List ProofNode) : Nat → Option Nat → Outcome (List Bytes)
  | _, none => pure []
  | 0, some _ => throw .diverges
  | bound + 1, some spn =>
      match nodes[spn]? with
      | none => throw .nilDereference
      | some node => do
          let rest ← flattenAunts nodes bound node.parent
          match node.left, node.right with
          | some left, _ => pure (hashAt nodes left :: rest)
          | none, some right => pure (hashAt nodes right :: rest)
          | none, none => pure rest

end Merkle

namespace Hasher

variable (h : Hasher)

/-- A new root over two nodes, which become each other's sibling. -/
def join (nodes : List ProofNode) (leftRoot rightRoot : Nat) : List ProofNode :=
  let rootHash := h.innerHash (hashAt nodes leftRoot) (hashAt nodes rightRoot)
  let root := nodes.length
  let nodes := nodes ++ [{ hash := rootHash : ProofNode }]
  let nodes := nodes.modify leftRoot fun node =>
    { node with parent := some root, right := some rightRoot }
  nodes.modify rightRoot fun node => { node with parent := some root, left := some leftRoot }

/-- `trailsFromByteSlices`: the nodes with the new ones, the leaves and the root. -/
def trailsFromByteSlices : List Bytes → List ProofNode → List ProofNode × List Nat × Nat
  | [], nodes => (nodes ++ [{ hash := h.emptyHash }], [], nodes.length)
  | [item], nodes => (nodes ++ [{ hash := h.leafHash item }], [nodes.length], nodes.length)
  | first :: second :: rest, nodes =>
      let items := first :: second :: rest
      let k := getSplitPoint (rest.length + 2)
      let (nodes, lefts, leftRoot) := trailsFromByteSlices (items.take k) nodes
      let (nodes, rights, rightRoot) := trailsFromByteSlices (items.drop k) nodes
      (h.join nodes leftRoot rightRoot, lefts ++ rights, nodes.length)
termination_by items => items.length
decreasing_by
  · have := splitPoint_lt (n := rest.length + 2) (by omega)
    rw [getSplitPoint_eq (by omega), List.length_take, List.length_cons, List.length_cons]
    omega
  · have := splitPoint_pos (rest.length + 2)
    rw [getSplitPoint_eq (by omega), List.length_drop, List.length_cons, List.length_cons]
    omega

/-- The proof read off a leaf. -/
def proofOfTrail (nodes : List ProofNode) (total : Nat) (trail i : Nat) : Outcome InclusionProof := do
  let aunts ← flattenAunts nodes nodes.length (some trail)
  pure { total := total, index := i, leafHash := hashAt nodes trail, aunts }

/-- `ProofsFromByteSlices`. -/
def proofsFromByteSlices (items : List Bytes) : Outcome (Bytes × List InclusionProof) := do
  let (nodes, trails, root) := h.trailsFromByteSlices items []
  let proofs ← trails.zipIdx.mapM fun (trail, i) => proofOfTrail nodes items.length trail i
  pure (hashAt nodes root, proofs)

/-- The aunts of the leaf at a position, from the root down. -/
def auntsAt : List Bytes → Nat → List Bytes
  | [], _ => []
  | [_], _ => []
  | first :: second :: rest, i =>
      let items := first :: second :: rest
      let k := getSplitPoint (rest.length + 2)
      if i < k then h.hashFromByteSlices (items.drop k) :: auntsAt (items.take k) i
      else h.hashFromByteSlices (items.take k) :: auntsAt (items.drop k) (i - k)
termination_by items => items.length
decreasing_by
  · have := splitPoint_lt (n := rest.length + 2) (by omega)
    rw [getSplitPoint_eq (by omega), List.length_take, List.length_cons, List.length_cons]
    omega
  · have := splitPoint_pos (rest.length + 2)
    rw [getSplitPoint_eq (by omega), List.length_drop, List.length_cons, List.length_cons]
    omega

/-- The proof for the item at a position. -/
def proofAt (items : List Bytes) (i : Nat) (item : Bytes) : InclusionProof where
  total := items.length
  index := i
  leafHash := h.leafHash item
  aunts := (h.auntsAt items i).reverse

theorem auntsAt_append {left right : List Bytes} (hSplit : Balanced left right) (i : Nat) :
    h.auntsAt (left ++ right) i =
      if i < left.length then h.hashFromByteSlices right :: h.auntsAt left i
      else h.hashFromByteSlices left :: h.auntsAt right (i - left.length) := by
  have hTwo := hSplit.two_le
  have hLength := hSplit.length_left
  generalize hItems : left ++ right = items at hTwo hLength
  match items with
  | [] => simp at hTwo
  | [_] => simp at hTwo
  | first :: second :: rest =>
      rw [auntsAt]
      simp only [List.length_cons, getSplitPoint_eq (Nat.le_add_left 2 _)] at hLength ⊢
      rw [← hLength, ← hItems, List.take_left, List.drop_left]

/-- Among at most `2 ^ k` leaves, no leaf has more than `k` aunts. -/
theorem length_auntsAt_le {items : List Bytes} {k : Nat} (hLength : items.length ≤ 2 ^ k) (i : Nat) :
    (h.auntsAt items i).length ≤ k := by
  induction items using balanced_induction generalizing i k with
  | nil => simp [auntsAt]
  | singleton item => simp [auntsAt]
  | append left right hSplit ihLeft ihRight =>
      have hTwo := hSplit.two_le
      match k with
      | 0 => omega
      | k + 1 =>
          obtain ⟨hLeft, hRight⟩ := hSplit.length_le hLength
          rw [h.auntsAt_append hSplit]
          split_ifs with hSide
          · exact Nat.succ_le_succ (ihLeft hLeft i)
          · exact Nat.succ_le_succ (ihRight hRight _)

/-- A leaf has fewer aunts than there are leaves. -/
theorem length_auntsAt {items : List Bytes} {i : Nat} (hi : i < items.length) :
    (h.auntsAt items i).length < items.length := by
  have hPow : items.length - 1 < 2 ^ (items.length - 1) := Nat.lt_two_pow_self
  have := h.length_auntsAt_le (show items.length ≤ 2 ^ (items.length - 1) by omega) i
  omega

theorem length_of_mem_auntsAt {items : List Bytes} {i : Nat} {aunt : Bytes}
    (hAunt : aunt ∈ h.auntsAt items i) : aunt.length = 32 := by
  induction items using balanced_induction generalizing i with
  | nil => simp [auntsAt] at hAunt
  | singleton item => simp [auntsAt] at hAunt
  | append left right hSplit ihLeft ihRight =>
      rw [h.auntsAt_append hSplit] at hAunt
      split_ifs at hAunt with hSide
      · rcases List.mem_cons.mp hAunt with rfl | hBelow
        · exact h.length_hashFromByteSlices right
        · exact ihLeft hBelow
      · rcases List.mem_cons.mp hAunt with rfl | hBelow
        · exact h.length_hashFromByteSlices left
        · exact ihRight hBelow

/-- One step down from an inner node. -/
theorem hashFromRoot_cons {index total : Nat} (hIndex : index < total) (hTwo : 2 ≤ total)
    (leafHash aunt : Bytes) (below : List Bytes) :
    h.hashFromRoot index total leafHash (aunt :: below) =
      if index < splitPoint total then
        (h.hashFromRoot index (splitPoint total : Nat) leafHash below).map
          fun leftHash => h.innerHash leftHash aunt
      else
        (h.hashFromRoot (index - splitPoint total : Nat) (total - splitPoint total : Nat) leafHash
          below).map fun rightHash => h.innerHash aunt rightHash := by
  have hLt := splitPoint_lt hTwo
  rw [hashFromRoot, if_neg (by omega), if_neg (by omega)]
  simp only [Int.toNat_natCast, getSplitPoint_eq hTwo, Int.ofNat_lt]
  split_ifs with hSide
  · rfl
  · rw [Int.ofNat_sub (by omega), Int.ofNat_sub (by omega)]

/-- The aunts of a leaf lead from its hash to the root. -/
theorem hashFromRoot_auntsAt {items : List Bytes} {i : Nat} {item : Bytes}
    (hItem : items[i]? = some item) :
    h.hashFromRoot i items.length (h.leafHash item) (h.auntsAt items i) =
      some (h.hashFromByteSlices items) := by
  induction items using balanced_induction generalizing i with
  | nil => simp at hItem
  | singleton only =>
      obtain ⟨hi, rfl⟩ := List.getElem?_eq_some_iff.mp hItem
      have hZero : i = 0 := by simpa using hi
      subst hZero
      simp [auntsAt, hashFromRoot, hashFromByteSlices]
  | append left right hSplit ihLeft ihRight =>
      obtain ⟨hi, _⟩ := List.getElem?_eq_some_iff.mp hItem
      rw [h.auntsAt_append hSplit, h.hashFromByteSlices_append hSplit]
      split_ifs with hSide
      · rw [List.getElem?_append_left hSide] at hItem
        rw [h.hashFromRoot_cons hi hSplit.two_le, ← hSplit.length_left, if_pos hSide, ihLeft hItem]
        rfl
      · rw [List.getElem?_append_right (by omega)] at hItem
        rw [h.hashFromRoot_cons hi hSplit.two_le, ← hSplit.length_left, if_neg hSide,
          List.length_append, Nat.add_sub_cancel_left, ihRight hItem]
        rfl

end Hasher

namespace Merkle

/-- The hash of a node's sibling. -/
def Sibling (nodes : List ProofNode) (node : ProofNode) (hash : Bytes) : Prop :=
  (∃ left sibling, node.left = some left ∧ nodes[left]? = some sibling ∧ sibling.hash = hash) ∨
    (node.left = none ∧ ∃ right sibling, node.right = some right ∧ nodes[right]? = some sibling ∧
      sibling.hash = hash)

/-- The parents lead from one node to another, past siblings with these hashes. -/
inductive Climb (nodes : List ProofNode) : Nat → Nat → List Bytes → Prop
  | stay (pointer : Nat) : Climb nodes pointer pointer []
  | up {pointer parent top : Nat} {node : ProofNode} {hash : Bytes} {hashes : List Bytes}
      (hNode : nodes[pointer]? = some node) (hParent : node.parent = some parent)
      (hSibling : Sibling nodes node hash) (hRest : Climb nodes parent top hashes) :
      Climb nodes pointer top (hash :: hashes)

/-- Nodes that have a parent stay as they are, and no hash changes. -/
structure Grows (nodes nodes' : List ProofNode) : Prop where
  linked : ∀ (pointer : Nat) node, nodes[pointer]? = some node → node.parent ≠ none →
    nodes'[pointer]? = some node
  hashed : ∀ (pointer : Nat) node, nodes[pointer]? = some node →
    ∃ node', nodes'[pointer]? = some node' ∧ node'.hash = node.hash

theorem Climb.grow {nodes nodes' : List ProofNode} (hGrows : Grows nodes nodes') {pointer top : Nat}
    {hashes : List Bytes} (h : Climb nodes pointer top hashes) : Climb nodes' pointer top hashes := by
  induction h with
  | stay pointer => exact .stay pointer
  | up hNode hParent hSibling _ ih =>
      refine .up (hGrows.linked _ _ hNode (by simp [hParent])) hParent ?_ ih
      rcases hSibling with ⟨left, sibling, hLeft, hAt, rfl⟩ | ⟨hNone, right, sibling, hRight, hAt, rfl⟩
      · obtain ⟨sibling', hAt', hHash⟩ := hGrows.hashed _ _ hAt
        exact Or.inl ⟨left, sibling', hLeft, hAt', hHash⟩
      · obtain ⟨sibling', hAt', hHash⟩ := hGrows.hashed _ _ hAt
        exact Or.inr ⟨hNone, right, sibling', hRight, hAt', hHash⟩

theorem Climb.snoc {nodes : List ProofNode} {pointer middle top : Nat} {node : ProofNode}
    {hash : Bytes} {hashes : List Bytes} (h : Climb nodes pointer middle hashes)
    (hNode : nodes[middle]? = some node) (hParent : node.parent = some top)
    (hSibling : Sibling nodes node hash) : Climb nodes pointer top (hashes ++ [hash]) := by
  induction h with
  | stay pointer => exact .up hNode hParent hSibling (.stay top)
  | up hAt hUp hAunt _ ih => exact .up hAt hUp hAunt (ih hNode)

theorem Sibling.flattenAunts {nodes : List ProofNode} {node : ProofNode} {hash : Bytes}
    (h : Sibling nodes node hash) {pointer : Nat} (hNode : nodes[pointer]? = some node)
    {bound : Nat} {hashes : List Bytes} (hRest : flattenAunts nodes bound node.parent = .ok hashes) :
    flattenAunts nodes (bound + 1) (some pointer) = .ok (hash :: hashes) := by
  simp only [Merkle.flattenAunts, hNode, hRest, Outcome.ok_bind]
  rcases h with ⟨left, sibling, hLeft, hAt, rfl⟩ | ⟨hNone, right, sibling, hRight, hAt, rfl⟩
  · simp [hLeft, hashAt, hAt]
    rfl
  · simp [hNone, hRight, hashAt, hAt]
    rfl

/-- The aunts that are read off on the way to a node without parent and siblings. -/
theorem Climb.flattenAunts {nodes : List ProofNode} {pointer top : Nat} {hashes : List Bytes}
    {hash : Bytes} (h : Climb nodes pointer top hashes) (hTop : nodes[top]? = some { hash })
    {bound : Nat} (hBound : hashes.length < bound) :
    flattenAunts nodes bound (some pointer) = .ok hashes := by
  induction h generalizing bound with
  | stay pointer =>
      obtain ⟨bound, rfl⟩ := Nat.exists_eq_add_of_lt hBound
      simp [Merkle.flattenAunts, hTop]
      rfl
  | up hNode hParent hSibling _ ih =>
      obtain ⟨bound, rfl⟩ := Nat.exists_eq_add_of_lt hBound
      refine hSibling.flattenAunts hNode ?_
      rw [hParent]
      exact ih hTop (by rw [List.length_cons]; omega)

theorem Grows.of_kept {nodes nodes' : List ProofNode}
    (hKept : ∀ pointer < nodes.length, nodes'[pointer]? = nodes[pointer]?) : Grows nodes nodes' where
  linked pointer node hNode _ := by
    rw [hKept pointer (List.getElem?_eq_some_iff.mp hNode).1, hNode]
  hashed pointer node hNode :=
    ⟨node, by rw [hKept pointer (List.getElem?_eq_some_iff.mp hNode).1, hNode], rfl⟩

end Merkle

namespace Hasher

variable (h : Hasher)

/-- What `trailsFromByteSlices` leaves behind. -/
structure Trails (items : List Bytes) (nodes nodes' : List ProofNode) (trails : List Nat)
    (root : Nat) : Prop where
  kept : ∀ pointer < nodes.length, nodes'[pointer]? = nodes[pointer]?
  size : nodes'.length + 1 = nodes.length + 2 * items.length
  fresh : nodes.length ≤ root
  root_at : nodes'[root]? = some { hash := h.hashFromByteSlices items }
  length_trails : trails.length = items.length
  trail : ∀ i item, items[i]? = some item → ∃ pointer, trails[i]? = some pointer ∧
    nodes'[pointer]?.map ProofNode.hash = some (h.leafHash item) ∧
    Climb nodes' pointer root (h.auntsAt items i).reverse

theorem trailsFromByteSlices_append {left right : List Bytes} (hSplit : Balanced left right)
    (nodes : List ProofNode) :
    h.trailsFromByteSlices (left ++ right) nodes =
      let (nodes, lefts, leftRoot) := h.trailsFromByteSlices left nodes
      let (nodes, rights, rightRoot) := h.trailsFromByteSlices right nodes
      (h.join nodes leftRoot rightRoot, lefts ++ rights, nodes.length) := by
  have hTwo := hSplit.two_le
  have hLength := hSplit.length_left
  generalize hItems : left ++ right = items at hTwo hLength
  match items with
  | [] => simp at hTwo
  | [_] => simp at hTwo
  | first :: second :: rest =>
      rw [trailsFromByteSlices]
      simp only [List.length_cons, getSplitPoint_eq (Nat.le_add_left 2 _)] at hLength ⊢
      rw [← hLength, ← hItems, List.take_left, List.drop_left]

variable {h}

section Join

variable {nodes : List ProofNode} {l r : Nat} {leftHash rightHash : Bytes}

theorem length_join : (h.join nodes l r).length = nodes.length + 1 := by
  simp [join]

theorem join_other {pointer : Nat} (hValid : pointer < nodes.length) (hLeft : l ≠ pointer)
    (hRight : r ≠ pointer) : (h.join nodes l r)[pointer]? = nodes[pointer]? := by
  simp [join, List.getElem?_append_left hValid, hLeft, hRight]

theorem join_left (hLeft : nodes[l]? = some { hash := leftHash }) (hLess : l < r) :
    (h.join nodes l r)[l]? =
      some { hash := leftHash, parent := some nodes.length, right := some r } := by
  have hl := (List.getElem?_eq_some_iff.mp hLeft).1
  simp [join, List.getElem?_append_left hl, hLeft, hLess.ne']

theorem join_right (hRight : nodes[r]? = some { hash := rightHash }) (hLess : l < r) :
    (h.join nodes l r)[r]? =
      some { hash := rightHash, parent := some nodes.length, left := some l } := by
  have hr := (List.getElem?_eq_some_iff.mp hRight).1
  simp [join, List.getElem?_append_left hr, hRight, hLess.ne]

theorem join_root (hLeft : nodes[l]? = some { hash := leftHash })
    (hRight : nodes[r]? = some { hash := rightHash }) :
    (h.join nodes l r)[nodes.length]? = some { hash := h.innerHash leftHash rightHash } := by
  have hl := (List.getElem?_eq_some_iff.mp hLeft).1
  have hr := (List.getElem?_eq_some_iff.mp hRight).1
  simp [join, hashAt, hLeft, hRight, hl.ne, hr.ne]

variable (hLeft : nodes[l]? = some { hash := leftHash })
  (hRight : nodes[r]? = some { hash := rightHash }) (hLess : l < r)

include hLeft hRight hLess

/-- Only the two nodes without a parent are changed. -/
theorem grows_join : Grows nodes (h.join nodes l r) := by
  constructor
  · intro pointer node hNode hLinked
    rw [join_other (List.getElem?_eq_some_iff.mp hNode).1, hNode]
    · rintro rfl
      rw [hLeft, Option.some.injEq] at hNode
      simp [← hNode] at hLinked
    · rintro rfl
      rw [hRight, Option.some.injEq] at hNode
      simp [← hNode] at hLinked
  · intro pointer node hNode
    by_cases hl : l = pointer
    · subst hl
      rw [hLeft, Option.some.injEq] at hNode
      exact ⟨_, join_left hLeft hLess, by rw [← hNode]⟩
    · by_cases hr : r = pointer
      · subst hr
        rw [hRight, Option.some.injEq] at hNode
        exact ⟨_, join_right hRight hLess, by rw [← hNode]⟩
      · exact ⟨node, by rw [join_other (List.getElem?_eq_some_iff.mp hNode).1 hl hr, hNode], rfl⟩

/-- What leads to the left root leads on to the new root. -/
theorem climb_join_left {pointer : Nat} {hashes : List Bytes} (hClimb : Climb nodes pointer l hashes) :
    Climb (h.join nodes l r) pointer nodes.length (hashes ++ [rightHash]) := by
  apply (hClimb.grow (grows_join hLeft hRight hLess)).snoc (join_left hLeft hLess) rfl
  exact Or.inr ⟨rfl, r, _, rfl, join_right hRight hLess, rfl⟩

theorem climb_join_right {pointer : Nat} {hashes : List Bytes}
    (hClimb : Climb nodes pointer r hashes) :
    Climb (h.join nodes l r) pointer nodes.length (hashes ++ [leftHash]) := by
  apply (hClimb.grow (grows_join hLeft hRight hLess)).snoc (join_right hRight hLess) rfl
  exact Or.inl ⟨l, _, rfl, join_left hLeft hLess, rfl⟩

end Join

theorem hashed_grow {nodes nodes' : List ProofNode} (hGrows : Grows nodes nodes') {pointer : Nat}
    {hash : Bytes} (hHash : nodes[pointer]?.map ProofNode.hash = some hash) :
    nodes'[pointer]?.map ProofNode.hash = some hash := by
  obtain ⟨node, hNode, hEq⟩ := Option.map_eq_some_iff.mp hHash
  obtain ⟨node', hNode', hEq'⟩ := hGrows.hashed _ _ hNode
  rw [hNode', Option.map_some, hEq', hEq]

/-- Putting two halves under a new root. -/
theorem Trails.join {left right : List Bytes} (hSplit : Balanced left right)
    {nodes nodes₁ nodes₂ : List ProofNode} {lefts rights : List Nat} {l r : Nat}
    (hLeft : h.Trails left nodes nodes₁ lefts l) (hRight : h.Trails right nodes₁ nodes₂ rights r) :
    h.Trails (left ++ right) nodes (h.join nodes₂ l r) (lefts ++ rights) nodes₂.length := by
  have hl := (List.getElem?_eq_some_iff.mp hLeft.root_at).1
  have hLess : l < r := lt_of_lt_of_le hl hRight.fresh
  have hLeftRoot : nodes₂[l]? = some { hash := h.hashFromByteSlices left } := by
    rw [hRight.kept l hl, hLeft.root_at]
  have hGrows := grows_join (h := h) hLeftRoot hRight.root_at hLess
  have hSize := hLeft.size
  have hSize' := hRight.size
  have hCount := List.length_pos_of_ne_nil hSplit.left_ne
  have hCount' := List.length_pos_of_ne_nil hSplit.right_ne
  have hFresh := hLeft.fresh
  constructor
  case kept =>
    intro pointer hPointer
    rw [join_other (by omega) (by omega) (by omega), hRight.kept pointer (by omega),
      hLeft.kept pointer hPointer]
  case size =>
    rw [length_join, List.length_append]
    omega
  case fresh => omega
  case root_at =>
    rw [join_root hLeftRoot hRight.root_at, h.hashFromByteSlices_append hSplit]
  case length_trails =>
    rw [List.length_append, List.length_append, hLeft.length_trails, hRight.length_trails]
  case trail =>
    intro i item hItem
    rw [h.auntsAt_append hSplit]
    split_ifs with hSide
    · rw [List.getElem?_append_left hSide] at hItem
      obtain ⟨pointer, hTrail, hHash, hClimb⟩ := hLeft.trail i item hItem
      have hKept : Grows nodes₁ nodes₂ := .of_kept hRight.kept
      refine ⟨pointer, ?_, hashed_grow hGrows (hashed_grow hKept hHash), ?_⟩
      · rw [List.getElem?_append_left (by rw [hLeft.length_trails]; exact hSide), hTrail]
      · rw [List.reverse_cons]
        exact climb_join_left hLeftRoot hRight.root_at hLess (hClimb.grow hKept)
    · rw [List.getElem?_append_right (by omega)] at hItem
      obtain ⟨pointer, hTrail, hHash, hClimb⟩ := hRight.trail _ item hItem
      refine ⟨pointer, ?_, hashed_grow hGrows hHash, ?_⟩
      · rw [List.getElem?_append_right (by rw [hLeft.length_trails]; omega), hLeft.length_trails,
          hTrail]
      · rw [List.reverse_cons]
        exact climb_join_right hLeftRoot hRight.root_at hLess hClimb

/-- The tree that `trailsFromByteSlices` builds over a slice with an item. -/
theorem trails_trailsFromByteSlices {items : List Bytes} (hItems : items ≠ [])
    (nodes : List ProofNode) :
    h.Trails items nodes (h.trailsFromByteSlices items nodes).1
      (h.trailsFromByteSlices items nodes).2.1 (h.trailsFromByteSlices items nodes).2.2 := by
  induction items using balanced_induction generalizing nodes with
  | nil => exact absurd rfl hItems
  | singleton item =>
      rw [trailsFromByteSlices]
      constructor
      case kept => exact fun pointer hPointer => List.getElem?_append_left hPointer
      case size => simp
      case fresh => exact le_rfl
      case root_at => simp [hashFromByteSlices]
      case length_trails => rfl
      case trail =>
        intro i item' hItem
        obtain ⟨hi, rfl⟩ := List.getElem?_eq_some_iff.mp hItem
        have hZero : i = 0 := by simpa using hi
        subst hZero
        refine ⟨nodes.length, rfl, by simp, ?_⟩
        rw [auntsAt]
        exact .stay _
  | append left right hSplit ihLeft ihRight =>
      rw [h.trailsFromByteSlices_append hSplit]
      exact (ihLeft hSplit.left_ne nodes).join hSplit (ihRight hSplit.right_ne _)

theorem Trails.proofOfTrail {items : List Bytes} {nodes : List ProofNode} {trails : List Nat}
    {root : Nat} (hTrails : h.Trails items [] nodes trails root) {i trail : Nat}
    (hTrail : trails[i]? = some trail) :
    proofOfTrail nodes items.length trail i = .ok (h.proofAt items i (items[i]?.getD [])) := by
  have hi : i < items.length := by
    rw [← hTrails.length_trails]
    exact (List.getElem?_eq_some_iff.mp hTrail).1
  have hItem := List.getElem?_eq_getElem hi
  obtain ⟨pointer, hPointer, hHash, hClimb⟩ := hTrails.trail i items[i] hItem
  rw [hTrail, Option.some.injEq] at hPointer
  subst hPointer
  have hAunts : flattenAunts nodes nodes.length (some trail) = .ok (h.auntsAt items i).reverse := by
    have hFewer := h.length_auntsAt hi
    have hSize := hTrails.size
    rw [List.length_nil] at hSize
    apply hClimb.flattenAunts hTrails.root_at
    rw [List.length_reverse]
    omega
  rw [Hasher.proofOfTrail, hAunts, Outcome.ok_bind, hashAt, hHash, hItem]
  rfl

/-- `ProofsFromByteSlices` returns the root and, for every item, its aunts from the leaf up. -/
theorem proofsFromByteSlices_eq (items : List Bytes) :
    h.proofsFromByteSlices items =
      .ok (h.hashFromByteSlices items, items.mapIdx fun i item => h.proofAt items i item) := by
  rcases eq_or_ne items [] with rfl | hItems
  · simp [proofsFromByteSlices, trailsFromByteSlices, hashAt, hashFromByteSlices]
    rfl
  have hTrails := trails_trailsFromByteSlices (h := h) hItems []
  rw [proofsFromByteSlices]
  generalize h.trailsFromByteSlices items [] = built at hTrails ⊢
  obtain ⟨nodes, trails, root⟩ := built
  have hMap : trails.zipIdx.mapM (fun (trail, i) => proofOfTrail nodes items.length trail i) =
      .ok (trails.zipIdx.map fun (_, i) => h.proofAt items i (items[i]?.getD [])) := by
    apply Outcome.mapM_eq_ok
    rintro ⟨trail, i⟩ hMem
    exact hTrails.proofOfTrail (List.mem_zipIdx_iff_getElem?.mp hMem)
  simp only [hMap, Outcome.ok_bind, hashAt, hTrails.root_at, Option.map_some, Option.getD_some]
  rw [Outcome.pure_eq_ok]
  congr 1
  apply List.ext_getElem
  · simp [hTrails.length_trails]
  · intro i hi hi'
    rw [List.length_mapIdx] at hi'
    simp [List.getElem?_eq_getElem hi']

theorem verify_eq_ok {sp : InclusionProof} {rootHash leaf : Bytes} :
    h.verify sp rootHash leaf = .ok () ↔
      0 ≤ sp.total ∧ 0 ≤ sp.index ∧ sp.leafHash = h.leafHash leaf ∧
        (h.computeRootHash sp).getD [] = rootHash := by
  rw [verify]
  split_ifs with hTotal hIndex hLeaf <;>
    simp_all [throw, throwThe, MonadExceptOf.throw, pure, Except.pure]

theorem verify_proofAt {items : List Bytes} {i : Nat} {item : Bytes}
    (hItem : items[i]? = some item) :
    h.verify (h.proofAt items i item) (h.hashFromByteSlices items) item = .ok () := by
  have hRoot : h.computeRootHash (h.proofAt items i item) = some (h.hashFromByteSlices items) := by
    simp [computeRootHash, computeHashFromAunts, proofAt, h.hashFromRoot_auntsAt hItem]
  rw [verify_eq_ok, hRoot]
  simp [proofAt]

theorem validateBasic_proofAt {items : List Bytes} (hLength : items.length ≤ 2 ^ maxAunts) (i : Nat)
    (item : Bytes) : (h.proofAt items i item).validateBasic = .ok () := by
  have hLeaf : (h.leafHash item).length = 32 := h.length_sum _
  have hAunts := h.length_auntsAt_le hLength i
  have hNone : (h.auntsAt items i).reverse.zipIdx.find? (fun aunt => aunt.1.length ≠ 32) = none := by
    rw [List.find?_eq_none]
    rintro ⟨aunt, position⟩ hMem
    have hAunt := List.mem_reverse.mp (List.mem_of_getElem? (List.mem_zipIdx_iff_getElem?.mp hMem))
    simp [h.length_of_mem_auntsAt hAunt]
  rw [InclusionProof.validateBasic, if_neg (by simp [proofAt]), if_neg (by simp [proofAt]),
    if_neg (by simp [proofAt, hLeaf]), if_neg (by simpa [proofAt] using hAunts)]
  simp only [proofAt, hNone]
  rfl

/-- `ProofsFromByteSlices` returns the root that `HashFromByteSlices` computes and one proof
for every item, under its index, which `Verify` accepts for the item; with the number of
leaves that `MaxAunts` allows, `ValidateBasic` accepts it as well. -/
theorem proofsFromByteSlices_complete (items : List Bytes) :
    ∃ proofs, h.proofsFromByteSlices items = .ok (h.hashFromByteSlices items, proofs) ∧
      proofs.length = items.length ∧
      ∀ (i : Nat) (item : Bytes), items[i]? = some item →
        ∃ sp, proofs[i]? = some sp ∧ sp.total = items.length ∧ sp.index = i ∧
          h.verify sp (h.hashFromByteSlices items) item = .ok () ∧
          (items.length ≤ 2 ^ maxAunts → sp.validateBasic = .ok ()) := by
  refine ⟨_, proofsFromByteSlices_eq items, List.length_mapIdx, ?_⟩
  intro i item hItem
  refine ⟨h.proofAt items i item, ?_, rfl, rfl, verify_proofAt hItem, ?_⟩
  · rw [List.getElem?_mapIdx, hItem, Option.map_some]
  · exact fun hLength => validateBasic_proofAt hLength i item

variable (h) in
/-- The strings that `Verify` hashes, with the aunts from the root down. -/
def pathInputs (index total : Int) (leaf : Bytes) : List Bytes → List Bytes
  | [] => [leafPrefix ++ leaf]
  | aunt :: below =>
      let numLeft : Int := getSplitPoint total.toNat
      if index < numLeft then
        let leftHash := (h.hashFromRoot index numLeft (h.leafHash leaf) below).getD []
        (innerPrefix ++ (leftHash ++ aunt)) :: pathInputs index numLeft leaf below
      else
        let rightHash :=
          (h.hashFromRoot (index - numLeft) (total - numLeft) (h.leafHash leaf) below).getD []
        (innerPrefix ++ (aunt ++ rightHash)) ::
          pathInputs (index - numLeft) (total - numLeft) leaf below

variable (h) in
/-- A path of aunts from a root to a leaf, with the strings that are hashed along it. -/
inductive Path (leaf : Bytes) : Nat → Nat → List Bytes → Bytes → List Bytes → Prop
  | leaf : Path leaf 0 1 [] (h.leafHash leaf) [0 :: leaf]
  | left {index total : Nat} {below inputs : List Bytes} {hash : Bytes} (aunt : Bytes)
      (hTwo : 2 ≤ total) (hIndex : index < splitPoint total)
      (hBelow : Path leaf index (splitPoint total) below hash inputs) :
      Path leaf index total (aunt :: below) (h.innerHash hash aunt)
        ((1 :: (hash ++ aunt)) :: inputs)
  | right {index total : Nat} {below inputs : List Bytes} {hash : Bytes} (aunt : Bytes)
      (hTwo : 2 ≤ total) (hIndex : splitPoint total ≤ index)
      (hBelow : Path leaf (index - splitPoint total) (total - splitPoint total) below hash inputs) :
      Path leaf index total (aunt :: below) (h.innerHash aunt hash)
        ((1 :: (aunt ++ hash)) :: inputs)

/-- A computed root is computed along a path. -/
theorem path_of_hashFromRoot {index total : Int} {leaf root : Bytes} {aunts : List Bytes}
    (hRoot : h.hashFromRoot index total (h.leafHash leaf) aunts = some root) :
    ∃ i n : Nat, index = i ∧ total = n ∧
      h.Path leaf i n aunts root (h.pathInputs index total leaf aunts) := by
  induction aunts generalizing index total root with
  | nil =>
      rw [hashFromRoot] at hRoot
      split_ifs at hRoot with hRange hOne
      obtain rfl := Option.some.inj hRoot
      exact ⟨0, 1, by omega, hOne, .leaf⟩
  | cons aunt below ih =>
      rw [hashFromRoot] at hRoot
      split_ifs at hRoot with hRange hOne
      obtain ⟨i, rfl⟩ := Int.eq_ofNat_of_zero_le (show 0 ≤ index by omega)
      obtain ⟨n, rfl⟩ := Int.eq_ofNat_of_zero_le (show 0 ≤ total by omega)
      have hTwo : 2 ≤ n := by omega
      have hLt := splitPoint_lt hTwo
      refine ⟨i, n, rfl, rfl, ?_⟩
      simp only [Int.toNat_natCast, getSplitPoint_eq hTwo, Int.ofNat_lt] at hRoot
      rw [pathInputs]
      simp only [Int.toNat_natCast, getSplitPoint_eq hTwo, Int.ofNat_lt]
      split_ifs at hRoot ⊢ with hSide
      · obtain ⟨hash, hHash, rfl⟩ := Option.map_eq_some_iff.mp hRoot
        obtain ⟨i', n', hi, hn, hPath⟩ := ih hHash
        rw [Int.natCast_inj] at hi hn
        subst hi hn
        rw [hHash]
        exact .left aunt hTwo hSide hPath
      · rw [← Int.ofNat_sub (by omega), ← Int.ofNat_sub (by omega)] at hRoot ⊢
        obtain ⟨hash, hHash, rfl⟩ := Option.map_eq_some_iff.mp hRoot
        obtain ⟨i', n', hi, hn, hPath⟩ := ih hHash
        rw [Int.natCast_inj] at hi hn
        subst hi hn
        rw [hHash]
        exact .right aunt hTwo (by omega) hPath

theorem Path.length_hash {leaf hash : Bytes} {index total : Nat} {aunts inputs : List Bytes}
    (hPath : h.Path leaf index total aunts hash inputs) : hash.length = 32 := by
  cases hPath <;> exact h.length_sum _

/-- What a path of aunts that leads to the root of `items` says about `items`. -/
theorem Path.sound {items : List Bytes} {index total : Nat} {leaf : Bytes} {aunts inputs : List Bytes}
    (hPath : h.Path leaf index total aunts (h.hashFromByteSlices items) inputs)
    (hFree : h.CollisionFree (h.inputs items) inputs) :
    leaf ∈ items ∧ (total = items.length →
      items[index]? = some leaf ∧ aunts = h.auntsAt items index) := by
  generalize hHash : h.hashFromByteSlices items = root at hPath
  induction hPath generalizing items with
  | leaf =>
      obtain rfl := rootInput_eq_leaf (hFree.rootInput_eq List.mem_cons_self hHash)
      simp [auntsAt]
  | left aunt hTwo hIndex hBelow ih =>
      obtain ⟨left, right, hSplit, rfl, hChildren⟩ :=
        rootInput_eq_inner (hFree.rootInput_eq List.mem_cons_self hHash)
      obtain ⟨hLeft, hRight⟩ := List.append_inj hChildren
        (by rw [h.length_hashFromByteSlices, hBelow.length_hash])
      rw [h.inputs_append hSplit] at hFree
      obtain ⟨hMem, hPlace⟩ := ih (hFree.mono (by simp) (by simp)) hLeft
      refine ⟨List.mem_append_left right hMem, fun hTotal => ?_⟩
      rw [hTotal, ← hSplit.length_left] at hIndex hPlace
      obtain ⟨hItem, hAunts⟩ := hPlace rfl
      rw [List.getElem?_append_left hIndex, h.auntsAt_append hSplit, if_pos hIndex, hRight, ← hAunts]
      exact ⟨hItem, rfl⟩
  | right aunt hTwo hIndex hBelow ih =>
      obtain ⟨left, right, hSplit, rfl, hChildren⟩ :=
        rootInput_eq_inner (hFree.rootInput_eq List.mem_cons_self hHash)
      obtain ⟨hLeft, hRight⟩ := List.append_inj' hChildren
        (by rw [h.length_hashFromByteSlices, hBelow.length_hash])
      rw [h.inputs_append hSplit] at hFree
      obtain ⟨hMem, hPlace⟩ := ih (hFree.mono (by simp) (by simp)) hRight
      refine ⟨List.mem_append_right left hMem, fun hTotal => ?_⟩
      rw [hTotal, ← hSplit.length_left] at hIndex hPlace
      obtain ⟨hItem, hAunts⟩ := hPlace (by rw [List.length_append, Nat.add_sub_cancel_left])
      rw [List.getElem?_append_right hIndex, h.auntsAt_append hSplit, if_neg (by omega), hLeft,
        ← hAunts]
      exact ⟨hItem, rfl⟩

/-- A proof that `Verify` accepts for a leaf and the root of a slice, unless the hash
function has a collision between a string hashed for the root and one hashed for the proof:
the leaf is an item of the slice, and a proof that claims the right number of leaves is the
proof that `ProofsFromByteSlices` returns for its index. -/
theorem verify_sound {items : List Bytes} {sp : InclusionProof} {leaf : Bytes}
    (hVerify : h.verify sp (h.hashFromByteSlices items) leaf = .ok ())
    (hFree : h.CollisionFree (h.inputs items)
      (h.pathInputs sp.index sp.total leaf sp.aunts.reverse)) :
    leaf ∈ items ∧ (sp.total = items.length →
      ∃ i : Nat, items[i]? = some leaf ∧ sp = h.proofAt items i leaf) := by
  obtain ⟨-, -, hLeaf, hRoot⟩ := verify_eq_ok.mp hVerify
  rw [computeRootHash, computeHashFromAunts, hLeaf] at hRoot
  match hComputed : h.hashFromRoot sp.index sp.total (h.leafHash leaf) sp.aunts.reverse with
  | none =>
      have := h.length_hashFromByteSlices items
      rw [← hRoot, hComputed] at this
      simp at this
  | some root =>
      rw [hComputed, Option.getD_some] at hRoot
      rw [hRoot] at hComputed
      obtain ⟨i, n, hIndex, hTotal, hPath⟩ := path_of_hashFromRoot hComputed
      obtain ⟨hMem, hPlace⟩ := hPath.sound hFree
      refine ⟨hMem, fun hCount => ?_⟩
      obtain ⟨hItem, hAunts⟩ := hPlace (by omega)
      refine ⟨i, hItem, ?_⟩
      obtain ⟨total, index, leafHash, aunts⟩ := sp
      simp only [proofAt] at hIndex hCount hLeaf hAunts ⊢
      rw [← hAunts, List.reverse_reverse, hCount, hIndex, hLeaf]

/-- The proof for the second of two items. -/
def pairProof : InclusionProof where
  total := 2
  index := 1
  leafHash := firstBytes.leafHash [8]
  aunts := [firstBytes.leafHash [7]]

theorem verify_sound_pair :
    ∃ i : Nat, ([[7], [8]] : List Bytes)[i]? = some [8] ∧
      pairProof = firstBytes.proofAt [[7], [8]] i [8] := by
  have hSplit : Balanced ([[7]] : List Bytes) [[8]] := ⟨by simp, by simp, by decide⟩
  have hRoot : firstBytes.hashFromByteSlices [[7], [8]] =
      firstBytes.innerHash (firstBytes.leafHash [7]) (firstBytes.leafHash [8]) := by
    rw [show ([[7], [8]] : List Bytes) = [[7]] ++ [[8]] from rfl,
      firstBytes.hashFromByteSlices_append hSplit, hashFromByteSlices, hashFromByteSlices]
  have hInputs := firstBytes.inputs_append hSplit
  have hInput := firstBytes.rootInput_append hSplit
  simp only [List.cons_append, List.nil_append, hashFromByteSlices] at hInputs hInput
  have hVerify : firstBytes.verify pairProof (firstBytes.hashFromByteSlices [[7], [8]]) [8] =
      .ok () := by
    rw [hRoot]
    decide
  have hFree : firstBytes.CollisionFree (firstBytes.inputs [[7], [8]])
      (firstBytes.pathInputs pairProof.index pairProof.total [8] pairProof.aunts.reverse) := by
    simp only [hInputs, inputs, hInput, CollisionFree]
    decide
  exact (verify_sound hVerify hFree).2 rfl

end Hasher
end Bamboo
