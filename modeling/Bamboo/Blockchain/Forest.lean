import Bamboo.Blockchain.Block
import Mathlib.Data.List.Induction

/-! The levelled forest of blocks. A container is known by its identifier, so a
level lists identifiers and `vertices` holds the containers. A registered child
is full and never changes again, so a container keeps its children by value. -/
namespace Bamboo

open Library

/-- Conversion of a view to the unsigned level of a vertex. -/
def levelOf (view : View) : Nat :=
  if 0 ≤ view then view.toNat else (view + 2 ^ 64).toNat

/-- A block in the forest. Blocks without a certificate are never stored. -/
structure BlockContainer where
  block : Block
  qc : QC
  carries : block.qc = some qc
deriving DecidableEq

namespace BlockContainer

def vertexID (v : BlockContainer) : Identifier := v.block.id

def level (v : BlockContainer) : Nat := levelOf v.block.view

/-- Identifier and level of the parent. -/
def parent (v : BlockContainer) : Identifier × Nat := (v.block.prevID, levelOf v.qc.view)

end BlockContainer

/-- A container is empty while only its children have been seen. -/
structure VertexContainer where
  id : Identifier
  level : Nat
  children : List BlockContainer := []
  vertex : Option BlockContainer := none
deriving DecidableEq

structure LevelledForest where
  vertices : Table Identifier VertexContainer
  verticesAtLevel : Table Nat (List Identifier)
  lowestLevel : Nat

namespace LevelledForest

def new : LevelledForest := { vertices := ∅, verticesAtLevel := ∅, lowestLevel := 0 }

def idsAtLevel (f : LevelledForest) (l : Nat) : List Identifier :=
  (f.verticesAtLevel.lookup l).getD []

/-- The full vertex stored under an identifier. -/
def getVertex (f : LevelledForest) (id : Identifier) : Option BlockContainer :=
  (f.vertices.lookup id).bind VertexContainer.vertex

/-- Write a container back under its identifier. -/
def store (f : LevelledForest) (container : VertexContainer) : LevelledForest :=
  { f with vertices := f.vertices.insert container.id container }

def getOrCreateVertexContainer (f : LevelledForest) (id : Identifier) (level : Nat) :
    LevelledForest × VertexContainer :=
  match f.vertices.lookup id with
  | some container => (f, container)
  | none =>
      let container : VertexContainer := { id, level }
      ({ f.store container with
          verticesAtLevel := f.verticesAtLevel.insert level (f.idsAtLevel level ++ [id]) },
        container)

/-- Register a full container with its parent's, unless it is at the pruning
level or its parent is below it. -/
def registerWithParent (f : LevelledForest) (container : VertexContainer) (v : BlockContainer) :
    LevelledForest :=
  if container.level ≤ f.lowestLevel then f
  else if v.parent.2 < f.lowestLevel then f
  else
    let found := f.getOrCreateVertexContainer v.parent.1 v.parent.2
    found.1.store { found.2 with children := found.2.children ++ [v] }

/-- Add a vertex within the retained levels; the first vertex of an id stays. -/
def addVertex (f : LevelledForest) (v : BlockContainer) : LevelledForest :=
  if v.level < f.lowestLevel then f
  else
    let found := f.getOrCreateVertexContainer v.vertexID v.level
    if found.2.vertex.isSome then f
    else
      let container := { found.2 with vertex := some v }
      (found.1.store container).registerWithParent container v

/-- The vertex of the first container of a level, on which a method is called. -/
def firstVertexAt (f : LevelledForest) (l : Nat) : Outcome BlockContainer :=
  match f.idsAtLevel l with
  | [] => throw .outOfRange
  | id :: _ =>
      match f.getVertex id with
      | none => throw .nilDereference
      | some v => pure v

/-- The levels of the branch below `l`, as the first loop of `PruneUpToLevel`
collects them. The loop is determined by the level it is at, so it fails to end
exactly when it passes more levels than there are. -/
def committedLevels (f : LevelledForest) : Nat → Nat → Finset Nat → Outcome (Finset Nat)
  | 0, _, _ => throw .diverges
  | fuel + 1, l, marked =>
      if f.lowestLevel ≤ l ∧ 1 < l then do
        let v ← f.firstVertexAt l
        match f.getVertex v.parent.1 with
        | none => pure marked
        | some above =>
            if above.level < f.lowestLevel then pure marked
            else committedLevels f fuel above.level (insert above.level marked)
      else pure marked

/-- The second loop of `PruneUpToLevel` at one level. -/
def pruneLevel (committed : Finset Nat) (state : LevelledForest × List Block × Nat) (l : Nat) :
    LevelledForest × List Block × Nat :=
  let f := state.1
  let ids := f.idsAtLevel l
  let forked := if l ∈ committed ∨ l ≤ 1 then []
    else ids.filterMap fun id => (f.getVertex id).map BlockContainer.block
  ({ f with
      vertices := ids.foldl (fun vertices id => vertices.erase id) f.vertices
      verticesAtLevel := f.verticesAtLevel.erase l },
    state.2.1 ++ forked, state.2.2 + ids.length)

/-- Remove all levels below `level`. The result is the forest, the blocks that
are not on the branch of the block at `level`, and the number of containers
removed; `none` is the error for a level that has been pruned already. -/
def pruneUpToLevel (f : LevelledForest) (level : Nat) :
    Outcome (Option (LevelledForest × List Block × Nat)) :=
  if level < f.lowestLevel then pure none
  else do
    let committed ← f.committedLevels (f.verticesAtLevel.keys.card + 1) level ∅
    let pruned := (List.range' f.lowestLevel (level - f.lowestLevel)).foldl
      (pruneLevel committed) (f, [], 0)
    pure (some ({ pruned.1 with lowestLevel := level }, pruned.2))

/-- Vertices are stored under their own identifiers. -/
def WellKeyed (f : LevelledForest) : Prop :=
  ∀ id container, f.vertices.lookup id = some container →
    container.id = id ∧ ∀ v, container.vertex = some v → v.vertexID = id

theorem new_wellKeyed : new.WellKeyed := by
  intro id container h
  simp [new] at h

@[simp] theorem new_getVertex (id : Identifier) : new.getVertex id = none := by
  simp [new, getVertex]

theorem WellKeyed.vertexID {f : LevelledForest} (h : f.WellKeyed) {id : Identifier}
    {v : BlockContainer} (hv : f.getVertex id = some v) : v.vertexID = id := by
  obtain ⟨container, hContainer, hVertex⟩ := Option.bind_eq_some_iff.mp hv
  exact (h id container hContainer).2 v hVertex

theorem getVertex_store (f : LevelledForest) (container : VertexContainer) (id : Identifier) :
    (f.store container).getVertex id = if id = container.id then container.vertex
      else f.getVertex id := by
  unfold getVertex store
  rw [Table.lookup_insert_ite]
  split_ifs <;> rfl

theorem store_wellKeyed {f : LevelledForest} (h : f.WellKeyed) {container : VertexContainer}
    (hVertex : ∀ v, container.vertex = some v → v.vertexID = container.id) :
    (f.store container).WellKeyed := by
  intro id found hFound
  rcases Table.of_lookup_insert hFound with ⟨hId, rfl⟩ | hOld
  · exact ⟨hId.symm, fun v hv => (hVertex v hv).trans hId.symm⟩
  · exact h id found hOld

/-- Looking a container up creates at most an empty one. -/
theorem getOrCreate_spec {f : LevelledForest} (h : f.WellKeyed) (id : Identifier) (level : Nat) :
    (f.getOrCreateVertexContainer id level).1.WellKeyed ∧
    (f.getOrCreateVertexContainer id level).2.id = id ∧
    (f.getOrCreateVertexContainer id level).2.vertex = f.getVertex id ∧
    (f.getOrCreateVertexContainer id level).1.lowestLevel = f.lowestLevel ∧
    ∀ id', (f.getOrCreateVertexContainer id level).1.getVertex id' = f.getVertex id' := by
  unfold getOrCreateVertexContainer
  cases hFound : f.vertices.lookup id with
  | some container =>
      have hKeyed := h id container hFound
      refine ⟨h, hKeyed.1, ?_, rfl, fun _ => rfl⟩
      simp [getVertex, hFound]
  | none =>
      have hEmpty : f.getVertex id = none := by simp [getVertex, hFound]
      refine ⟨?_, rfl, hEmpty.symm, rfl, ?_⟩
      · have hStored : (f.store { id, level }).WellKeyed :=
          store_wellKeyed h (fun v hv => by cases hv)
        exact hStored
      · intro id'
        have hStore := getVertex_store f { id, level } id'
        refine hStore.trans ?_
        split_ifs with hId
        · rw [hId, hEmpty]
        · rfl

theorem registerWithParent_spec {f : LevelledForest} (h : f.WellKeyed)
    (container : VertexContainer) (v : BlockContainer) :
    (f.registerWithParent container v).WellKeyed ∧
    (f.registerWithParent container v).lowestLevel = f.lowestLevel ∧
    ∀ id, (f.registerWithParent container v).getVertex id = f.getVertex id := by
  unfold registerWithParent
  split_ifs with hLevel hParent
  · exact ⟨h, rfl, fun _ => rfl⟩
  · exact ⟨h, rfl, fun _ => rfl⟩
  · obtain ⟨hKeyed, hId, hVertex, hLowest, hSame⟩ := getOrCreate_spec h v.parent.1 v.parent.2
    dsimp only
    refine ⟨store_wellKeyed hKeyed ?_, hLowest, ?_⟩
    · intro w hw
      change _ = (f.getOrCreateVertexContainer v.parent.1 v.parent.2).2.id
      rw [hId]
      exact h.vertexID (hVertex.symm.trans hw)
    · intro id
      rw [getVertex_store]
      split_ifs with hParentId
      · change (f.getOrCreateVertexContainer v.parent.1 v.parent.2).2.vertex = _
        rw [hVertex, hParentId, hId]
      · exact hSame id

/-- What adding a vertex does to the full vertices. -/
theorem addVertex_spec {f : LevelledForest} (h : f.WellKeyed) (v : BlockContainer) :
    (f.addVertex v).WellKeyed ∧ (f.addVertex v).lowestLevel = f.lowestLevel ∧
    ∀ id, (f.addVertex v).getVertex id =
      if id = v.vertexID ∧ f.lowestLevel ≤ v.level ∧ f.getVertex id = none then some v
      else f.getVertex id := by
  unfold addVertex
  dsimp only
  split_ifs with hLevel hFull
  · refine ⟨h, rfl, fun id => ?_⟩
    rw [if_neg]
    rintro ⟨_, hLe, _⟩
    omega
  · obtain ⟨_, _, hVertex, _, _⟩ := getOrCreate_spec h v.vertexID v.level
    refine ⟨h, rfl, fun id => ?_⟩
    rw [if_neg]
    rintro ⟨hId, _, hNone⟩
    rw [hVertex, ← hId, hNone] at hFull
    simp at hFull
  · obtain ⟨hKeyed, hContainerId, hVertex, hLowest, hSame⟩ :=
      getOrCreate_spec h v.vertexID v.level
    have hStored : ((f.getOrCreateVertexContainer v.vertexID v.level).1.store
        { (f.getOrCreateVertexContainer v.vertexID v.level).2 with vertex := some v }).WellKeyed := by
      apply store_wellKeyed hKeyed
      intro w hw
      cases hw
      exact hContainerId.symm
    have hEmpty : f.getVertex v.vertexID = none := by
      rw [← hVertex]
      simpa using hFull
    obtain ⟨hKeyed', hLowest', hSame'⟩ := registerWithParent_spec hStored
      { (f.getOrCreateVertexContainer v.vertexID v.level).2 with vertex := some v } v
    refine ⟨hKeyed', hLowest'.trans hLowest, fun id => ?_⟩
    refine (hSame' id).trans ?_
    rw [getVertex_store]
    change (if id = (f.getOrCreateVertexContainer v.vertexID v.level).2.id then some v else _) = _
    rw [hContainerId, hSame id]
    by_cases hId : id = v.vertexID
    · rw [if_pos hId, if_pos ⟨hId, not_lt.mp hLevel, hId ▸ hEmpty⟩]
    · rw [if_neg hId, if_neg (fun hAll => hId hAll.1)]

/-- A forest whose full vertices are among those of another one. -/
def Within (f g : LevelledForest) : Prop :=
  ∀ id v, f.getVertex id = some v → g.getVertex id = some v

theorem Within.refl (f : LevelledForest) : f.Within f := fun _ _ h => h

theorem Within.trans {f g k : LevelledForest} (first : f.Within g) (second : g.Within k) :
    f.Within k := fun id v h => second id v (first id v h)

theorem lookup_foldl_erase (ids : List Identifier) (m : Table Identifier VertexContainer)
    (id : Identifier) :
    (ids.foldl (fun vertices id => vertices.erase id) m).lookup id =
      if id ∈ ids then none else m.lookup id := by
  induction ids generalizing m with
  | nil => simp
  | cons first rest ih =>
      rw [List.foldl_cons, ih, Table.lookup_erase_ite]
      by_cases hRest : id ∈ rest <;> by_cases hFirst : id = first <;> simp [hRest, hFirst]

theorem pruneLevel_lookup (committed : Finset Nat) (state : LevelledForest × List Block × Nat)
    (l : Nat) (id : Identifier) (container : VertexContainer)
    (h : (pruneLevel committed state l).1.vertices.lookup id = some container) :
    state.1.vertices.lookup id = some container := by
  unfold pruneLevel at h
  dsimp only at h
  rw [lookup_foldl_erase] at h
  split_ifs at h
  exact h

/-- Pruning only removes containers. -/
theorem pruneLevels_lookup (committed : Finset Nat) (levels : List Nat)
    (state : LevelledForest × List Block × Nat) (id : Identifier) (container : VertexContainer)
    (h : (levels.foldl (pruneLevel committed) state).1.vertices.lookup id = some container) :
    state.1.vertices.lookup id = some container := by
  induction levels generalizing state with
  | nil => exact h
  | cons l levels ih => exact pruneLevel_lookup committed state l id container (ih _ h)

theorem pruneUpToLevel_spec {f f' : LevelledForest} {level pruned : Nat} {forked : List Block}
    (h : f.pruneUpToLevel level = .ok (some (f', forked, pruned))) :
    f'.lowestLevel = level ∧ f.lowestLevel ≤ level ∧
      ∀ id container, f'.vertices.lookup id = some container →
        f.vertices.lookup id = some container := by
  unfold pruneUpToLevel at h
  split_ifs at h with hLevel
  · cases Outcome.pure_eq_ok.mp h
  · obtain ⟨committed, _, hRest⟩ := Outcome.bind_eq_ok.mp h
    have hEq := Option.some.inj (Outcome.pure_eq_ok.mp hRest)
    have hForest : f' = { ((List.range' f.lowestLevel (level - f.lowestLevel)).foldl
        (pruneLevel committed) (f, [], 0)).1 with lowestLevel := level } :=
      (congrArg Prod.fst hEq).symm
    refine ⟨by rw [hForest], not_lt.mp hLevel, ?_⟩
    intro id container hLookup
    rw [hForest] at hLookup
    exact pruneLevels_lookup committed _ (f, [], 0) id container hLookup

theorem pruneUpToLevel_within {f f' : LevelledForest} {level pruned : Nat} {forked : List Block}
    (h : f.pruneUpToLevel level = .ok (some (f', forked, pruned))) : f'.Within f := by
  intro id v hv
  obtain ⟨container, hContainer, hVertex⟩ := Option.bind_eq_some_iff.mp hv
  have hOld := (pruneUpToLevel_spec h).2.2 id container hContainer
  exact Option.bind_eq_some_iff.mpr ⟨container, hOld, hVertex⟩

theorem pruneUpToLevel_wellKeyed {f f' : LevelledForest} {level pruned : Nat}
    {forked : List Block} (hKeyed : f.WellKeyed)
    (h : f.pruneUpToLevel level = .ok (some (f', forked, pruned))) : f'.WellKeyed := by
  intro id container hContainer
  exact hKeyed id container ((pruneUpToLevel_spec h).2.2 id container hContainer)

end LevelledForest
end Bamboo
