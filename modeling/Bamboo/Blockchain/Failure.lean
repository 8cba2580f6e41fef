import Bamboo.Blockchain.Totality

/-! What a commit that returns an error leaves behind. `CommitBlock` notes the view of the
block before anything else, and the prune at its end refuses a level that has been pruned
already. A block can still be stored below the pruned levels when one of its children
claimed a higher level for it, and such a commit fails with the lower view noted. -/
namespace Bamboo

open Library

theorem levelOf_eq_iff {view : View} {level : Nat} (h : 0 ≤ view) :
    levelOf view = level ↔ view = level := by
  unfold levelOf
  rw [if_pos h]
  lia

namespace BlockChain

/-- The call returns an error. -/
def Call.Fails (bc : BlockChain) : Call → Prop
  | .commitBlock id view => ∃ bc', bc.commitBlock id view = .ok (bc', none)
  | .addBlock _ | .addVote _ => False

/-- The commit is for a block of the retained levels, or for none. -/
def Call.Retained (bc : BlockChain) : Call → Prop
  | .commitBlock id _ => ∀ block ∈ bc.getBlockByID id,
      0 ≤ block.view ∧ bc.forrest.lowestLevel ≤ levelOf block.view
  | .addBlock _ | .addVote _ => True

instance (bc : BlockChain) : (call : Call) → Decidable (call.Retained bc)
  | .commitBlock id _ => inferInstanceAs (Decidable (∀ block ∈ bc.getBlockByID id, _))
  | .addBlock _ | .addVote _ => isTrue trivial

/-- The call leaves everything as it is if it fails, and never lowers the committed view. -/
def Call.Harmless (bc : BlockChain) (call : Call) : Prop :=
  ∀ bc', call.perform bc = .ok bc' →
    (call.Fails bc → bc' = bc) ∧ bc.highestComitted ≤ bc'.highestComitted

/-- The loop does not start at a block of the pruned levels. -/
theorem collectCommitted_stops {view : View} {fuel : Nat} {bc : BlockChain} {block : Block}
    {found : List Block} (h : levelOf block.view ≤ bc.forrest.lowestLevel) :
    collectCommitted view (fuel + 1) bc block found = .ok (bc, found) := by
  unfold collectCommitted
  rw [if_neg (not_lt.mpr h)]
  rfl

theorem collectCommitted_highestComitted {view : View} {fuel : Nat} {bc bc' : BlockChain}
    {block : Block} {found blocks : List Block}
    (h : collectCommitted view fuel bc block found = .ok (bc', blocks)) :
    bc'.highestComitted = bc.highestComitted := by
  induction fuel generalizing bc block found with
  | zero => cases h
  | succ fuel ih =>
      rcases collectCommitted_succ h with ⟨_, rfl, _⟩ | ⟨_, _, rfl, _⟩ | ⟨_, parent, _, hLater⟩
      · rfl
      · rfl
      · have hSame := ih hLater
        exact hSame

/-- A prune is refused only below the lowest level. -/
theorem pruneUpToLevel_fails {f : LevelledForest} {level : Nat}
    (h : f.pruneUpToLevel level = .ok none) : level < f.lowestLevel := by
  by_contra hRetained
  unfold LevelledForest.pruneUpToLevel at h
  rw [if_neg hRetained] at h
  obtain ⟨committed, _, hSome⟩ := Outcome.bind_eq_ok.mp h
  cases Outcome.pure_eq_ok.mp hSome

/-- A commit fails for a block that is not stored, or for one below the retained levels. -/
theorem commitBlock_fails {bc bc' : BlockChain} {id : Identifier} {view : View}
    (h : bc.commitBlock id view = .ok (bc', none)) :
    (bc.getBlockByID id = none ∧ bc' = bc) ∨
      ∃ block, bc.getBlockByID id = some block ∧ levelOf block.view < bc.forrest.lowestLevel ∧
        bc' = { bc with highestComitted := block.view } := by
  rcases commitBlock_parts h with ⟨hNone, rfl, _⟩ | ⟨block, counted, blocks, hBlock, hCollect, hPrune⟩
  · exact Or.inl ⟨hNone, rfl⟩
  · obtain ⟨hPrune, rfl, _⟩ | ⟨_, _, _, _, _, hResult⟩ := hPrune
    · rw [(collectCommitted_walk hCollect).1] at hPrune
      have hLow : levelOf block.view < bc.forrest.lowestLevel := pruneUpToLevel_fails hPrune
      have hStops : levelOf block.view ≤
          ({ bc with highestComitted := block.view } : BlockChain).forrest.lowestLevel := hLow.le
      cases (collectCommitted_stops hStops).symm.trans hCollect
      exact Or.inr ⟨block, hBlock, hLow, rfl⟩
    · cases hResult

/-- A commit that succeeds notes its block's view and retains the levels from there on. -/
theorem commitBlock_succeeds {bc bc' : BlockChain} {id : Identifier} {view : View}
    {result : List Block × List Block} (h : bc.commitBlock id view = .ok (bc', some result)) :
    ∃ block, bc.getBlockByID id = some block ∧
      bc.forrest.lowestLevel ≤ levelOf block.view ∧
      bc'.highestComitted = block.view ∧ bc'.forrest.lowestLevel = levelOf block.view := by
  rcases commitBlock_parts h with ⟨_, _, hResult⟩ | ⟨block, counted, blocks, hBlock, hCollect, hPrune⟩
  · cases hResult
  · obtain ⟨_, _, hResult⟩ | ⟨forrest, forked, count, hPrune, rfl, _⟩ := hPrune
    · cases hResult
    · obtain ⟨hLowest, hRetained, _⟩ := LevelledForest.pruneUpToLevel_spec hPrune
      rw [(collectCommitted_walk hCollect).1] at hRetained
      exact ⟨block, hBlock, hRetained, collectCommitted_highestComitted hCollect, hLowest⟩

/-- The committed view is the lowest retained level. -/
structure Noted (bc : BlockChain) : Prop where
  keyed : bc.forrest.WellKeyed
  noted : bc.highestComitted = bc.forrest.lowestLevel

theorem new_noted (n : Nat) : (new n).Noted :=
  ⟨LevelledForest.new_wellKeyed, rfl⟩

theorem Noted.addBlock {bc : BlockChain} (h : bc.Noted) (container : BlockContainer) :
    (bc.addBlock container).Noted where
  keyed := (LevelledForest.addVertex_spec h.keyed container).1
  noted := by
    have hLowest := (LevelledForest.addVertex_spec h.keyed container).2.1
    exact h.noted.trans (congrArg Nat.cast hLowest.symm)

theorem Noted.commitBlock {bc bc' : BlockChain} {id : Identifier} {view : View}
    {result : Option (List Block × List Block)} (h : bc.Noted)
    (hRetained : (Call.commitBlock id view).Retained bc)
    (hCommit : bc.commitBlock id view = .ok (bc', result)) : bc'.Noted := by
  have hKeyed := (commitBlock_spec hCommit).1.keyed h.keyed
  cases result with
  | none =>
      rcases commitBlock_fails hCommit with ⟨_, rfl⟩ | ⟨block, hBlock, hLow, _⟩
      · exact h
      · exact absurd hLow (not_lt.mpr (hRetained block hBlock).2)
  | some result =>
      obtain ⟨block, hBlock, _, hView, hLowest⟩ := commitBlock_succeeds hCommit
      have hNoted := (levelOf_eq_iff (hRetained block hBlock).1).mp hLowest.symm
      exact ⟨hKeyed, hView.trans hNoted⟩

theorem Noted.perform {bc bc' : BlockChain} {call : Call} (h : bc.Noted)
    (hRetained : call.Retained bc) (hPerform : call.perform bc = .ok bc') : bc'.Noted := by
  cases call with
  | addBlock container =>
      cases Outcome.pure_eq_ok.mp hPerform
      exact h.addBlock container
  | addVote vote =>
      cases Outcome.pure_eq_ok.mp hPerform
      exact ⟨h.keyed, h.noted⟩
  | commitBlock id view =>
      obtain ⟨⟨_, result⟩, hCommit, hDone⟩ := Outcome.bind_eq_ok.mp hPerform
      cases Outcome.pure_eq_ok.mp hDone
      exact h.commitBlock hRetained hCommit

/-- A call that returns is judged by the chain it returns. -/
theorem Call.harmless_iff_of_perform {bc bc' : BlockChain} {call : Call}
    (hPerform : call.perform bc = .ok bc') :
    call.Harmless bc ↔ (call.Fails bc → bc' = bc) ∧ bc.highestComitted ≤ bc'.highestComitted := by
  constructor
  · intro h
    exact h bc' hPerform
  · intro h last hLast
    cases hPerform.symm.trans hLast
    exact h

theorem Call.perform_commitBlock {bc bc' : BlockChain} {id : Identifier} {view : View}
    {result : Option (List Block × List Block)}
    (h : bc.commitBlock id view = .ok (bc', result)) :
    (Call.commitBlock id view).perform bc = .ok bc' :=
  Outcome.bind_eq_ok.mpr ⟨_, h, rfl⟩

/-- Below the retained levels the view is noted before the error, and it is not the view of
the lowest level. -/
theorem Noted.failing_iff {bc bc' : BlockChain} (h : bc.Noted) {id : Identifier} {view : View}
    (hCommit : bc.commitBlock id view = .ok (bc', none)) :
    (Call.commitBlock id view).Harmless bc ↔ (Call.commitBlock id view).Retained bc := by
  rw [Call.harmless_iff_of_perform (Call.perform_commitBlock hCommit)]
  rcases commitBlock_fails hCommit with ⟨hNone, rfl⟩ | ⟨block, hBlock, hLow, rfl⟩
  · refine iff_of_true ⟨fun _ => rfl, le_refl _⟩ (fun block hBlock => ?_)
    cases hNone.symm.trans hBlock
  · refine iff_of_false (fun hHarmless => ?_) (fun hRetained => ?_)
    · have hSame := hHarmless.1 ⟨_, hCommit⟩
      have hView : block.view = bc.forrest.lowestLevel :=
        (congrArg highestComitted hSame).trans h.noted
      have hLevel : levelOf block.view = bc.forrest.lowestLevel :=
        (levelOf_eq_iff (hView ▸ Int.natCast_nonneg _)).mpr hView
      exact hLow.ne hLevel
    · exact absurd hLow (not_lt.mpr (hRetained block hBlock).2)

/-- A negative view is noted by a commit that succeeds, since its level is a high one. -/
theorem Noted.succeeding_iff {bc bc' : BlockChain} (h : bc.Noted) {id : Identifier} {view : View}
    {result : List Block × List Block}
    (hCommit : bc.commitBlock id view = .ok (bc', some result)) :
    (Call.commitBlock id view).Harmless bc ↔ (Call.commitBlock id view).Retained bc := by
  rw [Call.harmless_iff_of_perform (Call.perform_commitBlock hCommit)]
  obtain ⟨block, hBlock, hRetained, hView, _⟩ := commitBlock_succeeds hCommit
  have hSucceeds : ¬(Call.commitBlock id view).Fails bc := by
    rintro ⟨_, hFails⟩
    cases hFails.symm.trans hCommit
  rw [hView, h.noted]
  constructor
  · rintro ⟨_, hRaised⟩ b hb
    cases hBlock.symm.trans hb
    exact ⟨(Int.natCast_nonneg _).trans hRaised, hRetained⟩
  · intro hKept
    have hLevel := (levelOf_eq_iff (hKept block hBlock).1).mp rfl
    refine ⟨fun hFails => absurd hFails hSucceeds, ?_⟩
    rw [hLevel]
    exact Int.ofNat_le.mpr hRetained

/-- Where the committed view is the lowest level, a call does no harm exactly when it does
not commit a block below that level or of a negative view. -/
theorem Noted.harmless_iff {bc bc' : BlockChain} (h : bc.Noted) {call : Call}
    (hPerform : call.perform bc = .ok bc') : call.Harmless bc ↔ call.Retained bc := by
  cases call with
  | addBlock container =>
      rw [Call.harmless_iff_of_perform hPerform]
      cases Outcome.pure_eq_ok.mp hPerform
      exact iff_of_true ⟨False.elim, le_refl _⟩ trivial
  | addVote vote =>
      rw [Call.harmless_iff_of_perform hPerform]
      cases Outcome.pure_eq_ok.mp hPerform
      exact iff_of_true ⟨False.elim, le_refl _⟩ trivial
  | commitBlock id view =>
      obtain ⟨⟨_, result⟩, hCommit, hDone⟩ := Outcome.bind_eq_ok.mp hPerform
      cases Outcome.pure_eq_ok.mp hDone
      cases result with
      | none => exact h.failing_iff hCommit
      | some result => exact h.succeeding_iff hCommit

/-- A failed commit changes nothing but the committed view, and not that one if the block
is not stored. Over a whole run failed commits change nothing and the committed view never
decreases exactly when only blocks of the retained levels are committed. -/
theorem failed_commits_harmless_iff {n : Nat} {calls : List Call} {bc : BlockChain}
    (hRun : run Call.perform (new n) calls = .ok bc) :
    (Guarded Call.perform (fun bc call => call.Harmless bc) (new n) calls ↔
      Guarded Call.perform (fun bc call => call.Retained bc) (new n) calls) ∧
    ∀ id view bc', bc.commitBlock id view = .ok (bc', none) →
      bc' = { bc with highestComitted := bc'.highestComitted } ∧
        (bc' = bc ↔ ∀ block ∈ bc.getBlockByID id, block.view = bc.highestComitted) := by
  constructor
  · exact guarded_congr (P := Noted) (fun bc call bc' h _ hPerform => h.harmless_iff hPerform)
      (fun bc call bc' h _ hHarmless hPerform =>
        h.perform ((h.harmless_iff hPerform).mp hHarmless) hPerform)
      (guarded_true _ _) hRun (new_noted n)
  · intro id view bc' hFails
    rcases commitBlock_fails hFails with ⟨hNone, rfl⟩ | ⟨block, hBlock, _, rfl⟩
    · exact ⟨rfl, iff_of_true rfl fun block hBlock => by cases hNone.symm.trans hBlock⟩
    · refine ⟨rfl, fun hSame b hb => ?_, fun hView => ?_⟩
      · cases hBlock.symm.trans hb
        exact congrArg highestComitted hSame
      · rw [hView block hBlock]

open LevelledForest (vertexAt)

/-- A child gives block 2 the level 5, where it stays when the levels below 4 are pruned. -/
def displaced : List Call :=
  [.addBlock (vertexAt 3 6 2 5), .addBlock (vertexAt 2 1 1 0), .addBlock (vertexAt 4 4 9 0),
    .commitBlock 4 5]

theorem failed_commits_harmless_iff_displaced :
    ∃ bc, run Call.perform (new 4) displaced = .ok bc ∧
      Guarded Call.perform (fun bc call => call.Harmless bc) (new 4) displaced := by
  obtain ⟨bc, hRun, _⟩ := Outcome.of_test (P := fun _ => True)
    (x := run Call.perform (new 4) displaced) (by decide)
  have hRetained : Guarded Call.perform (fun bc call => call.Retained bc) (new 4) displaced := by
    decide
  exact ⟨bc, hRun, (failed_commits_harmless_iff hRun).1.mpr hRetained⟩

/-- Committing block 2 then fails, and the committed view falls from 4 to 1. -/
theorem failed_commit_lowers_view :
    ∃ bc bc', run Call.perform (new 4) displaced = .ok bc ∧ bc.highestComitted = 4 ∧
      bc.commitBlock 2 5 = .ok (bc', none) ∧ bc'.highestComitted = 1 :=
  ⟨_, _, rfl, rfl, rfl, rfl⟩

end BlockChain
end Bamboo
