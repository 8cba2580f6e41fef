import Bamboo.Blockchain.Chain
import Mathlib.Data.List.Chain

/-! The notarized chain of Streamlet, which is kept as a list of levels. A certificate for
a block whose parent is notarized puts the block on a new level at the top, wherever the
parent is. The package `lbft` has the same code. -/
namespace Bamboo

open Library

structure Notarization where
  notarizedChain : List (List Block) := []
  /-- Certificates whose block waits for its parent, under the identifier of the parent. -/
  bufferedNotarizedBlock : Table Identifier QC := ∅

inductive NotarizationError where
  /-- "cannot find the block" -/
  | cannotFind
  /-- "the block is not extending the notarized chain" -/
  | notExtending
deriving DecidableEq

namespace Notarization

def getNotarizedHeight (n : Notarization) : Nat :=
  n.notarizedChain.length

/-- The loop of `updateNotarizedChain` from level `i` on downwards. Its condition is an
`or`, so that a short chain is left at level -1 by a fault; `turns` is never used up. -/
def searchParent (n : Notarization) (prevID : Identifier) : Nat → Int → Outcome Bool
  | 0, _ => throw .diverges
  | turns + 1, i =>
      if 0 ≤ i ∨ (n.getNotarizedHeight : Int) - 3 ≤ i then do
        let lastBlocks ← Outcome.index n.notarizedChain i
        if lastBlocks.any fun b => b.id = prevID then pure true
        else n.searchParent prevID turns (i - 1)
      else pure false

/-- A new level of one block. -/
def extend (n : Notarization) (block : Block) : Notarization :=
  { n with notarizedChain := n.notarizedChain ++ [[block]] }

def updateNotarizedChain (bc : BlockChain) (n : Notarization) (qc : QC) :
    Outcome (Notarization × Option NotarizationError) :=
  match bc.getBlockByID qc.blockID with
  | none => pure (n, some .cannotFind)
  | some block =>
      if n.getNotarizedHeight = 0 then pure (n.extend block, none)
      else do
        let found ← n.searchParent block.prevID (n.getNotarizedHeight + 1)
          (n.getNotarizedHeight - 1)
        if found then pure (n.extend block, none)
        else pure ({ n with
          bufferedNotarizedBlock := n.bufferedNotarizedBlock.insert block.prevID qc },
          some .notExtending)

/-- The second of three blocks in a row, if the last three levels are such. -/
def commitRule (n : Notarization) : Outcome (Option Block) :=
  let height := n.getNotarizedHeight
  if height < 3 then pure none
  else do
    let lastBlocks ← Outcome.index n.notarizedChain (height - 1)
    let [lastBlock] := lastBlocks | pure none
    let secondBlocks ← Outcome.index n.notarizedChain (height - 2)
    let [secondBlock] := secondBlocks | pure none
    let firstBlocks ← Outcome.index n.notarizedChain (height - 3)
    let [firstBlock] := firstBlocks | pure none
    if firstBlock.view + 1 = secondBlock.view ∧ secondBlock.view + 1 = lastBlock.view then
      pure (some secondBlock)
    else pure none

/-- Whether to vote: a block of a view above 2 has to extend a block of the last level, which
is read whether or not there is one. -/
def votingRule (n : Notarization) (block : Block) : Outcome Bool :=
  if block.view ≤ 2 then pure true
  else do
    let lastBlocks ← Outcome.index n.notarizedChain (n.getNotarizedHeight - 1)
    pure (lastBlocks.any fun b => block.prevID = b.id)

/-- A certificate is processed, with the block tree as it is then. -/
def step (n : Notarization) (certificate : BlockChain × QC) : Outcome Notarization := do
  let (n, _) ← n.updateNotarizedChain certificate.1 certificate.2
  pure n

/-- The block that a notarized block may extend. -/
def HasParent (n : Notarization) (block : Block) : Prop :=
  ∃ level ∈ n.notarizedChain, ∃ b ∈ level, b.id = block.prevID

instance (n : Notarization) (block : Block) : Decidable (n.HasParent block) :=
  inferInstanceAs (Decidable (∃ level ∈ n.notarizedChain, ∃ b ∈ level, b.id = block.prevID))

/-- The loop with `k` levels left: it finds the parent in one of them, or it comes to the
bottom of the chain. -/
theorem searchParent_eq (n : Notarization) (prevID : Identifier) {k turns : Nat}
    (hInside : k ≤ n.notarizedChain.length) (hTurns : k < turns) :
    n.searchParent prevID turns (k - 1) =
      if ∃ level ∈ n.notarizedChain.take k, ∃ b ∈ level, b.id = prevID then .ok true
      else if 3 ≤ n.getNotarizedHeight then .ok false else .error .outOfRange := by
  induction k generalizing turns with
  | zero =>
      obtain ⟨turns, rfl⟩ := Nat.exists_eq_succ_of_ne_zero (Nat.ne_of_gt hTurns)
      unfold searchParent
      -- At index -1 the second part of the condition holds for a short chain.
      by_cases hLong : 3 ≤ n.getNotarizedHeight
      · rw [if_neg (by omega), if_neg (by simp), if_pos hLong]
        rfl
      · rw [if_pos (by omega), if_neg (by simp), if_neg hLong]
        rfl
  | succ k ih =>
      obtain ⟨turns, rfl⟩ := Nat.exists_eq_succ_of_ne_zero (Nat.ne_of_gt (Nat.zero_lt_of_lt hTurns))
      obtain ⟨level, hLevel⟩ : ∃ level, n.notarizedChain[k]? = some level :=
        ⟨_, List.getElem?_eq_getElem hInside⟩
      have hLevels : n.notarizedChain.take (k + 1) = n.notarizedChain.take k ++ [level] := by
        rw [List.take_add_one, hLevel]
        rfl
      have hIndex : ((k + 1 : Nat) : Int) - 1 = k := by omega
      rw [hIndex, hLevels]
      unfold searchParent
      rw [if_pos (Or.inl (Int.natCast_nonneg k)), Outcome.index_eq_ok.mpr hLevel]
      change (if (level.any fun b => b.id = prevID) = true then .ok true
        else n.searchParent prevID turns (k - 1)) = _
      by_cases hFound : (level.any fun b => b.id = prevID) = true
      · rw [if_pos hFound, if_pos]
        obtain ⟨b, hb, hId⟩ := List.any_eq_true.mp hFound
        exact ⟨level, by simp, b, hb, of_decide_eq_true hId⟩
      · rw [if_neg hFound, ih (by omega) (by omega)]
        have hNone : ¬∃ b ∈ level, b.id = prevID := by
          rintro ⟨b, hb, hId⟩
          exact hFound (List.any_eq_true.mpr ⟨b, hb, decide_eq_true hId⟩)
        simp only [List.mem_append, List.mem_singleton, or_and_right, exists_or, exists_eq_left,
          hNone, or_false]

/-- A certificate for a stored block: the first one is accepted as it is, later ones for a
child of a notarized block, and the others are buffered only if the chain is long enough. -/
theorem updateNotarizedChain_eq {bc : BlockChain} (n : Notarization) {qc : QC} {block : Block}
    (hBlock : bc.getBlockByID qc.blockID = some block) :
    n.updateNotarizedChain bc qc =
      if n.notarizedChain = [] ∨ n.HasParent block then .ok (n.extend block, none)
      else if 3 ≤ n.getNotarizedHeight then
        .ok ({ n with bufferedNotarizedBlock := n.bufferedNotarizedBlock.insert block.prevID qc },
          some .notExtending)
      else .error .outOfRange := by
  unfold updateNotarizedChain
  rw [hBlock]
  dsimp only
  by_cases hEmpty : n.notarizedChain = []
  · have hHeight : n.getNotarizedHeight = 0 := by rw [getNotarizedHeight, hEmpty]; rfl
    rw [if_pos hHeight, if_pos (Or.inl hEmpty)]
    rfl
  · have hHeight : n.getNotarizedHeight ≠ 0 := fun h => hEmpty (List.eq_nil_of_length_eq_zero h)
    have hSearch : n.searchParent block.prevID (n.getNotarizedHeight + 1)
        (n.getNotarizedHeight - 1) = if n.HasParent block then .ok true
          else if 3 ≤ n.getNotarizedHeight then .ok false else .error .outOfRange := by
      have hLevels := n.searchParent_eq block.prevID (le_refl _) (Nat.lt_succ_self _)
      rw [List.take_length] at hLevels
      exact hLevels
    rw [if_neg hHeight, hSearch]
    by_cases hParent : n.HasParent block
    · rw [if_pos hParent, if_pos (Or.inr hParent)]
      rfl
    · rw [if_neg hParent, if_neg (not_or.mpr ⟨hEmpty, hParent⟩)]
      split_ifs <;> rfl

/-- A certificate puts its block on a new level, or only touches the buffer. -/
theorem step_cases {n n' : Notarization} {certificate : BlockChain × QC}
    (h : n.step certificate = .ok n') :
    n'.notarizedChain = n.notarizedChain ∨
      ∃ block, certificate.1.getBlockByID certificate.2.blockID = some block ∧
        n' = n.extend block ∧ (n.notarizedChain = [] ∨ n.HasParent block) := by
  obtain ⟨⟨last, error⟩, hUpdate, hDone⟩ := Outcome.bind_eq_ok.mp h
  cases Outcome.pure_eq_ok.mp hDone
  cases hBlock : certificate.1.getBlockByID certificate.2.blockID with
  | none =>
      unfold updateNotarizedChain at hUpdate
      rw [hBlock] at hUpdate
      cases Outcome.pure_eq_ok.mp hUpdate
      exact Or.inl rfl
  | some block =>
      rw [n.updateNotarizedChain_eq hBlock] at hUpdate
      split_ifs at hUpdate with hAccepted
      · cases hUpdate
        exact Or.inr ⟨block, rfl, rfl, hAccepted⟩
      · cases hUpdate
        exact Or.inl rfl

/-- A committed block stands between two blocks with the views next to its own. -/
theorem commitRule_spec {n : Notarization} {b : Block} (h : n.commitRule = .ok (some b)) :
    ∃ rest first last, n.notarizedChain = rest ++ [[first], [b], [last]] ∧
      first.view + 1 = b.view ∧ b.view + 1 = last.view := by
  unfold commitRule at h
  dsimp only at h
  by_cases hShort : n.getNotarizedHeight < 3
  · rw [if_pos hShort] at h
    cases Outcome.pure_eq_ok.mp h
  rw [if_neg hShort] at h
  obtain ⟨lastBlocks, hLast, h⟩ := Outcome.bind_eq_ok.mp h
  match lastBlocks with
  | [] | _ :: _ :: _ => cases Outcome.pure_eq_ok.mp h
  | [last] =>
      obtain ⟨secondBlocks, hSecond, h⟩ := Outcome.bind_eq_ok.mp h
      match secondBlocks with
      | [] | _ :: _ :: _ => cases Outcome.pure_eq_ok.mp h
      | [second] =>
          obtain ⟨firstBlocks, hFirst, h⟩ := Outcome.bind_eq_ok.mp h
          match firstBlocks with
          | [] | _ :: _ :: _ => cases Outcome.pure_eq_ok.mp h
          | [first] =>
              dsimp only at h
              by_cases hViews : first.view + 1 = second.view ∧ second.view + 1 = last.view
              · rw [if_pos hViews] at h
                cases Outcome.pure_eq_ok.mp h
                obtain ⟨rest, hRest⟩ :=
                  Outcome.eq_append_three (Nat.not_lt.mp hShort) hFirst hSecond hLast
                exact ⟨rest, first, last, hRest, hViews⟩
              · rw [if_neg hViews] at h
                cases Outcome.pure_eq_ok.mp h

/-- A block of the next view extends the block at the top. -/
def Continues (n : Notarization) (certificate : BlockChain × QC) : Prop :=
  ∀ block ∈ certificate.1.getBlockByID certificate.2.blockID, n.HasParent block →
    ∀ top ∈ n.notarizedChain.getLast?, ∀ b ∈ top, block.view = b.view + 1 → block.prevID = b.id

instance (n : Notarization) (certificate : BlockChain × QC) : Decidable (n.Continues certificate) :=
  inferInstanceAs (Decidable (∀ block ∈ certificate.1.getBlockByID certificate.2.blockID, _))

/-- Every level is one block, and blocks with consecutive views are linked. -/
def Linked (n : Notarization) : Prop :=
  ∃ blocks : List Block, n.notarizedChain = blocks.map (fun b => [b]) ∧
    blocks.IsChain fun b next => next.view = b.view + 1 → next.prevID = b.id

theorem Linked.step {n n' : Notarization} {certificate : BlockChain × QC} (h : n.Linked)
    (hContinues : n.Continues certificate) (hStep : n.step certificate = .ok n') : n'.Linked := by
  obtain ⟨blocks, hChain, hLinks⟩ := h
  rcases step_cases hStep with hSame | ⟨block, hBlock, rfl, hParent⟩
  · exact ⟨blocks, hSame.trans hChain, hLinks⟩
  · refine ⟨blocks ++ [block], ?_, ?_⟩
    · rw [List.map_append, ← hChain]
      rfl
    · apply List.IsChain.append hLinks (List.IsChain.singleton block)
      intro top hTop next hNext hView
      cases Option.some.inj hNext
      have hLast : [top] ∈ n.notarizedChain.getLast? := by
        rw [hChain, List.getLast?_map]
        exact Option.mem_map_of_mem _ hTop
      rcases hParent with hEmpty | hParent
      · rw [hEmpty] at hLast
        cases hLast
      · exact hContinues block hBlock hParent [top] hLast top (List.mem_singleton_self top) hView

/-- While certified blocks of the next view extend the top of the chain, only the middle of
a real three-chain is committed. -/
theorem commits_three_chains {certificates : List (BlockChain × QC)} {n : Notarization}
    (hContinues : Guarded step Continues {} certificates)
    (hRun : run step {} certificates = .ok n) {b : Block} (hCommit : n.commitRule = .ok (some b)) :
    ∃ rest first last, n.notarizedChain = rest ++ [[first], [b], [last]] ∧
      first.view + 1 = b.view ∧ b.view + 1 = last.view ∧
      b.prevID = first.id ∧ last.prevID = b.id := by
  obtain ⟨blocks, hChain, hLinks⟩ : n.Linked :=
    guarded_run_invariant (fun _ _ _ h hGuard hStep => h.step hGuard hStep) hContinues hRun
      ⟨[], rfl, List.IsChain.nil⟩
  obtain ⟨rest, first, last, hLevels, hFirst, hLast⟩ := commitRule_spec hCommit
  rw [hChain] at hLevels
  obtain ⟨front, back, rfl, _, hBack⟩ := List.map_eq_append_iff.mp hLevels
  match back, hBack with
  | [x, y, z], hBack =>
      cases hBack
      obtain ⟨_, hTail, _⟩ := List.isChain_append.mp hLinks
      have hLinked := List.isChain_cons_cons.mp hTail
      have hLinked' := List.isChain_cons_cons.mp hLinked.2
      exact ⟨rest, first, last, hChain.trans hLevels, hFirst, hLast, hLinked.1 hFirst.symm,
        hLinked'.1 hLast.symm⟩

end Notarization

namespace Scenario

def stored (id : Identifier) (view : View) (prevID : Identifier) : BlockContainer where
  block := { view, qc := some .initial, proposer := "1", prevID, id }
  qc := .initial
  carries := rfl

/-- Block 2 on top of block 1, and two blocks of view 3: block 3 on top of block 1 and
block 4 on top of block 2. -/
def branches : BlockChain :=
  [stored 1 1 0, stored 2 2 1, stored 3 3 1, stored 4 3 2].foldl BlockChain.addBlock (.new 4)

/-- Certificates for some of these blocks. -/
def certified (ids : List Identifier) : List (BlockChain × QC) :=
  ids.map fun blockID => (branches, { QC.initial with blockID })

end Scenario

namespace Notarization

theorem commits_three_chains_branch :
    ∃ n b rest first last, run step {} (Scenario.certified [1, 2, 4]) = .ok n ∧
      n.commitRule = .ok (some b) ∧ b.id = 2 ∧
      n.notarizedChain = rest ++ [[first], [b], [last]] ∧
      b.prevID = first.id ∧ last.prevID = b.id := by
  obtain ⟨n, hRun, hTest⟩ := Outcome.of_test
    (P := fun n : Notarization => Outcome.test n.commitRule (fun b => b.map (·.id) = some 2) = true)
    (x := run step {} (Scenario.certified [1, 2, 4])) (by decide)
  obtain ⟨committed, hCommit, hId⟩ := Outcome.of_test hTest
  obtain ⟨b, rfl, hTwo⟩ := Option.map_eq_some_iff.mp hId
  have hContinues : Guarded step Continues {} (Scenario.certified [1, 2, 4]) := by decide
  obtain ⟨rest, first, last, hChain, _, _, hLinks⟩ := commits_three_chains hContinues hRun hCommit
  exact ⟨n, b, rest, first, last, hRun, hCommit, hTwo, hChain, hLinks⟩

/-- Block 3 does not extend block 2, and block 2 is committed with it. -/
theorem commits_without_three_chain :
    ∃ n, run step {} (Scenario.certified [1, 2, 3]) = .ok n ∧
      Outcome.test n.commitRule (fun b => b.map (·.id) = some 2) = true ∧
      n.notarizedChain.map (fun level => level.map fun b => (b.id, b.prevID)) =
        [[(1, 0)], [(2, 1)], [(3, 1)]] :=
  Outcome.of_test (by decide)

end Notarization
end Bamboo
