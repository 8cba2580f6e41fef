import Bamboo.Blockchain.Insertion

/-! The check that is asked of a vertex before it is added. It compares the vertex with
full vertices only, the stored one of the same identifier and the stored parent; an empty
container, whose level is the claim of a child, is not looked at. -/
namespace Bamboo

open Library

/-- Why a vertex is refused. -/
inductive VertexError where
  /-- "conflicting vertices with Hash %v" -/
  | conflicting (id : Identifier)
  /-- "parent vertex's level (%d) must be smaller than the vertex's level (%d)" -/
  | parentNotSmaller (parentLevel level : Nat)
  /-- "parent vertex of %v has different level (%d) than the stored vertex (%d)" -/
  | parentDiffers (id : Identifier) (parentLevel stored : Nat)
  /-- "invalid Vertex: %w" -/
  | invalidVertex (cause : VertexError)
deriving DecidableEq, Repr

namespace LevelledForest

/-- Whether the vertex is stored already. A stored vertex of the same identifier that
differs is an error; at the lowest level the parents are not compared. -/
def isEquivalentToStoredVertex (f : LevelledForest) (v : BlockContainer) :
    Except VertexError Bool :=
  match f.getVertex v.vertexID with
  | none => pure false
  | some stored =>
      if v.level ≠ stored.level then throw (.conflicting v.vertexID)
      else if v.level ≤ f.lowestLevel then pure true
      else if v.parent.1 ≠ stored.parent.1 then throw (.conflicting v.vertexID)
      else if v.parent.2 ≠ stored.parent.2 then throw (.conflicting v.vertexID)
      else pure true

def verifyParent (f : LevelledForest) (v : BlockContainer) : Except VertexError Unit :=
  if ¬v.parent.2 < v.level then throw (.parentNotSmaller v.parent.2 v.level)
  else match f.getVertex v.parent.1 with
    | none => pure ()
    | some parent =>
        if parent.level ≠ v.parent.2 then
          throw (.parentDiffers v.vertexID v.parent.2 parent.level)
        else pure ()

def verifyVertex (f : LevelledForest) (v : BlockContainer) : Except VertexError Unit :=
  if v.level < f.lowestLevel then pure ()
  else match f.isEquivalentToStoredVertex v with
    | .error cause => throw (.invalidVertex cause)
    | .ok true => pure ()
    | .ok false => if v.level = f.lowestLevel then pure () else f.verifyParent v

/-- A second vertex of a stored identifier is refused unless it has the same level. -/
theorem verifyVertex_conflicting {f : LevelledForest} {v stored : BlockContainer}
    (hLowest : f.lowestLevel ≤ v.level) (hStored : f.getVertex v.vertexID = some stored)
    (hLevel : v.level ≠ stored.level) :
    f.verifyVertex v = .error (.invalidVertex (.conflicting v.vertexID)) := by
  have hConflict : f.isEquivalentToStoredVertex v = .error (.conflicting v.vertexID) := by
    unfold isEquivalentToStoredVertex
    rw [hStored]
    exact if_pos hLevel
  unfold verifyVertex
  rw [if_neg (not_lt.mpr hLowest), hConflict]
  rfl

/-- The container of the vertex, if there is one, has the level of the vertex. -/
def Matches (f : LevelledForest) (v : BlockContainer) : Prop :=
  f.levelAt v.vertexID = none ∨ f.levelAt v.vertexID = some v.level

/-- The vertex passes the check in this state. -/
def Passes (f : LevelledForest) (v : BlockContainer) : Prop :=
  f.verifyVertex v = .ok ()

instance (f : LevelledForest) (v : BlockContainer) : Decidable (f.Matches v) :=
  inferInstanceAs (Decidable (_ ∨ _))

instance (f : LevelledForest) (v : BlockContainer) : Decidable (f.Passes v) :=
  inferInstanceAs (Decidable (_ = _))

/-- `addVertex` as the step of a run. -/
def insertVertex (f : LevelledForest) (v : BlockContainer) : Outcome LevelledForest :=
  pure (f.addVertex v)

/-- A full container keeps its vertex and its level. -/
theorem addVertex_keeps {f : LevelledForest} (hKeyed : f.WellKeyed) (v : BlockContainer)
    {id : Identifier} {w : BlockContainer} (hw : f.getVertex id = some w) :
    (f.addVertex v).getVertex id = some w ∧ (f.addVertex v).levelAt id = f.levelAt id := by
  obtain ⟨l, hl⟩ := levelAt_of_getVertex hw
  refine ⟨?_, ?_⟩
  · rw [(addVertex_spec hKeyed v).2.2, if_neg (by simp [hw]), hw]
  · rw [hl]
    exact (addVertex_extends hKeyed (.refl f) v).kept id l hl

theorem addVertex_seated_iff {f : LevelledForest} (hKeyed : f.WellKeyed) {v : BlockContainer}
    (hLowest : f.lowestLevel ≤ v.level) (hPasses : f.Passes v) :
    (f.addVertex v).Seated ↔ f.Seated ∧ f.Matches v := by
  cases hStored : f.getVertex v.vertexID with
  | some stored =>
      have hLevel : v.level = stored.level := by
        by_contra hLevel
        have hRefused := verifyVertex_conflicting hLowest hStored hLevel
        rw [hPasses] at hRefused
        cases hRefused
      rw [addVertex_stored hKeyed (by rw [hStored]; rfl)]
      refine (and_iff_left_of_imp fun hSeated => Or.inr ?_).symm
      rw [hSeated _ stored hStored, hLevel]
  | none =>
      have hAccepts : f.Accepts v := ⟨hLowest, hStored⟩
      have hGet := (addVertex_spec hKeyed v).2.2
      have hOwn : (f.addVertex v).levelAt v.vertexID =
          (f.levelAt v.vertexID).or (some v.level) := by
        rw [addVertex_levelAt_eq hKeyed, if_pos ⟨hAccepts, rfl⟩]
      constructor
      · intro hSeated
        refine ⟨fun id w hw => ?_, ?_⟩
        · obtain ⟨hNow, hSame⟩ := addVertex_keeps hKeyed v hw
          rw [← hSame]
          exact hSeated id w hNow
        · have hNow : (f.addVertex v).getVertex v.vertexID = some v := by
            rw [hGet, if_pos ⟨rfl, hAccepts⟩]
          have hSeat := hSeated _ v hNow
          rw [hOwn] at hSeat
          cases hFound : f.levelAt v.vertexID with
          | none => exact Or.inl hFound
          | some l => rw [hFound] at hSeat; exact Or.inr (hFound.trans hSeat)
      · rintro ⟨hSeated, hMatches⟩ id w hw
        rw [hGet] at hw
        split_ifs at hw with hNew
        · cases hw
          rw [hNew.1, hOwn]
          rcases hMatches with hNone | hSame
          · rw [hNone]
            rfl
          · rw [hSame]
            rfl
        · rw [(addVertex_keeps hKeyed v hw).2]
          exact hSeated id w hw

/-- After verified additions every full container is at the level of its vertex exactly if
each vertex found no container of its identifier at another level when it was added. A full
container cannot be the one: a vertex that disagrees with it is refused. -/
theorem verified_vertices_seated_iff {vs : List BlockContainer} {f : LevelledForest}
    (hVerified : Guarded insertVertex Passes new vs) (hRun : run insertVertex new vs = .ok f) :
    ((∀ id v, f.getVertex id = some v →
        f.levelAt id = some v.level ∧ id ∈ f.idsAtLevel v.level) ↔
      Guarded insertVertex Matches new vs) ∧
    ∀ v stored, f.getVertex v.vertexID = some stored → v.level ≠ stored.level →
      f.verifyVertex v = .error (.invalidVertex (.conflicting v.vertexID)) := by
  let Inv := fun f : LevelledForest => f.WellKeyed ∧ f.Indexed ∧ f.lowestLevel = 0
  have hStart : Inv new := ⟨new_wellKeyed, new_indexed, rfl⟩
  have hStep : ∀ (f : LevelledForest) v f', Inv f → f.Passes v → f.insertVertex v = .ok f' →
      Inv f' ∧ (f'.Seated ↔ f.Seated ∧ f.Matches v) := by
    rintro f v f' ⟨hKeyed, hIndexed, hLowest⟩ hPasses hAdd
    cases Outcome.pure_eq_ok.mp hAdd
    obtain ⟨hKeyed', hLowest', _⟩ := addVertex_spec hKeyed v
    exact ⟨⟨hKeyed', addVertex_indexed hKeyed hIndexed v, hLowest'.trans hLowest⟩,
      addVertex_seated_iff hKeyed (by omega) hPasses⟩
  obtain ⟨_, hIndexed, hLowest⟩ := guarded_run_invariant
    (fun f v f' hInv hPasses hAdd => (hStep f v f' hInv hPasses hAdd).1) hVerified hRun hStart
  refine ⟨?_, fun v stored hStored => verifyVertex_conflicting (by omega) hStored⟩
  have hSeated := guarded_run_iff hStep hVerified hRun hStart
  rw [and_iff_right new_seated] at hSeated
  rw [← hSeated]
  constructor
  · intro hListed id v hv
    exact (hListed id v hv).1
  · intro hSeat id v hv
    exact ⟨hSeat id v hv, (hIndexed.listed _ _).mpr (hSeat id v hv)⟩

theorem verified_vertices_seated_iff_fork :
    Guarded insertVertex Passes new fork.reverse ∧
    ∃ f, run insertVertex new fork.reverse = .ok f ∧
      ∀ id v, f.getVertex id = some v →
        f.levelAt id = some v.level ∧ id ∈ f.idsAtLevel v.level := by
  have hVerified : Guarded insertVertex Passes new fork.reverse := by decide
  have hMatches : Guarded insertVertex Matches new fork.reverse := by decide
  obtain ⟨f, hRun, _⟩ := Outcome.of_test (x := run insertVertex new fork.reverse)
    (P := fun _ => True) (by decide)
  exact ⟨hVerified, f, hRun, (verified_vertices_seated_iff hVerified hRun).1.mpr hMatches⟩

/-- Block 3 claims its parent 2 for level 1, and block 2 of level 2 passes the check: it is
put into the empty container of level 1. -/
theorem verified_vertex_at_claimed_level :
    Guarded insertVertex Passes new [vertexAt 3 3 2 1, vertexAt 2 2 1 1] ∧
    ∃ f, run insertVertex new [vertexAt 3 3 2 1, vertexAt 2 2 1 1] = .ok f ∧
      f.getVertex 2 = some (vertexAt 2 2 1 1) ∧ (vertexAt 2 2 1 1).level = 2 ∧
      f.levelAt 2 = some 1 ∧ 2 ∉ f.idsAtLevel 2 := by
  refine ⟨by decide, ?_⟩
  exact Outcome.of_test (x := run insertVertex new [vertexAt 3 3 2 1, vertexAt 2 2 1 1])
    (P := fun f => f.getVertex 2 = some (vertexAt 2 2 1 1) ∧ (vertexAt 2 2 1 1).level = 2 ∧
      f.levelAt 2 = some 1 ∧ 2 ∉ f.idsAtLevel 2) (by decide)

end LevelledForest
end Bamboo
