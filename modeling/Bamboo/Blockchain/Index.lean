import Bamboo.Blockchain.Forest

/-! The two indices of the forest. `vertices` finds a container by its identifier
and `verticesAtLevel` lists the identifiers of a level; `Indexed` says that they
list the same containers. Adding a vertex places at most two containers, its own
and its parent's, and pruning takes out whole levels. -/
namespace Bamboo

open Library

namespace LevelledForest

/-- The level of the container of an identifier. -/
def levelAt (f : LevelledForest) (id : Identifier) : Option Nat :=
  (f.vertices.lookup id).map VertexContainer.level

/-- A container is listed once, at its own level, and no level is below the lowest. -/
structure Indexed (f : LevelledForest) : Prop where
  listed : ∀ l id, id ∈ f.idsAtLevel l ↔ f.levelAt id = some l
  nodup : ∀ l, (f.idsAtLevel l).Nodup
  retained : ∀ id l, f.levelAt id = some l → f.lowestLevel ≤ l

theorem new_indexed : new.Indexed where
  listed l id := by simp [new, idsAtLevel, levelAt]
  nodup l := by simp [new, idsAtLevel]
  retained id l _ := Nat.zero_le l

theorem levelAt_of_getVertex {f : LevelledForest} {id : Identifier} {v : BlockContainer}
    (h : f.getVertex id = some v) : ∃ l, f.levelAt id = some l := by
  obtain ⟨container, hContainer, _⟩ := Option.bind_eq_some_iff.mp h
  exact ⟨container.level, by rw [levelAt, hContainer]; rfl⟩

/-- Every full container is at the level of its vertex. -/
def Seated (f : LevelledForest) : Prop :=
  ∀ id v, f.getVertex id = some v → f.levelAt id = some v.level

theorem new_seated : new.Seated := by
  intro id v hv
  simp at hv

/-- A container for `id` is there afterwards: the one that was there, or a new one
at `level`. -/
structure Places (f : LevelledForest) (id : Identifier) (level : Nat) (f' : LevelledForest) :
    Prop where
  levelAt : ∀ id', f'.levelAt id' =
    if id' = id then some ((f.levelAt id).getD level) else f.levelAt id'
  idsAtLevel : ∀ l, f'.idsAtLevel l =
    if f.levelAt id = none ∧ l = level then f.idsAtLevel l ++ [id] else f.idsAtLevel l
  lowestLevel : f'.lowestLevel = f.lowestLevel

theorem Places.levelAt_cases {f f' : LevelledForest} {id id' : Identifier} {level l : Nat}
    (h : f.Places id level f') (hLevel : f'.levelAt id' = some l) :
    f.levelAt id' = some l ∨ (id' = id ∧ l = level) := by
  rw [h.levelAt] at hLevel
  split_ifs at hLevel with hId
  · subst hId
    cases hOld : f.levelAt id' with
    | none =>
        rw [hOld] at hLevel
        exact Or.inr ⟨rfl, (Option.some.inj hLevel).symm⟩
    | some old =>
        rw [hOld] at hLevel
        exact Or.inl hLevel
  · exact Or.inl hLevel

theorem Indexed.places {f f' : LevelledForest} {id : Identifier} {level : Nat} (h : f.Indexed)
    (hPlaces : f.Places id level f') (hLevel : f.lowestLevel ≤ level) : f'.Indexed where
  listed l id' := by
    rw [hPlaces.idsAtLevel, hPlaces.levelAt]
    cases hOld : f.levelAt id with
    | some old =>
        rw [if_neg (by simp), h.listed]
        split_ifs with hId
        · rw [hId, hOld]
          rfl
        · rfl
    | none =>
        by_cases hl : l = level
        · rw [if_pos ⟨rfl, hl⟩, List.mem_append, List.mem_singleton, h.listed]
          by_cases hId : id' = id
          · simp [hId, hl]
          · simp [hId]
        · rw [if_neg (fun hBoth => hl hBoth.2), h.listed]
          by_cases hId : id' = id
          · simp [hId, hOld, Ne.symm hl]
          · simp [hId]
  nodup l := by
    rw [hPlaces.idsAtLevel]
    split_ifs with hNew
    · refine List.Nodup.append (h.nodup l) (List.nodup_singleton id) ?_
      intro found hFound hSame
      cases List.mem_singleton.mp hSame
      have hListed := (h.listed l id).mp hFound
      rw [hNew.1] at hListed
      cases hListed
    · exact h.nodup l
  retained id' l hAt := by
    rw [hPlaces.lowestLevel]
    rcases hPlaces.levelAt_cases hAt with hOld | ⟨_, rfl⟩
    · exact h.retained id' l hOld
    · exact hLevel

theorem levelAt_store (f : LevelledForest) (container : VertexContainer) (id : Identifier) :
    (f.store container).levelAt id = if id = container.id then some container.level
      else f.levelAt id := by
  unfold levelAt store
  rw [Table.lookup_insert_ite]
  split_ifs <;> rfl

/-- The container that `getOrCreateVertexContainer` returns may be written back with
another vertex or other children. -/
theorem getOrCreate_places (f : LevelledForest) (id : Identifier) (level : Nat)
    {container : VertexContainer} (hId : container.id = id)
    (hLevel : container.level = (f.getOrCreateVertexContainer id level).2.level) :
    f.Places id level ((f.getOrCreateVertexContainer id level).1.store container) := by
  unfold getOrCreateVertexContainer at hLevel ⊢
  cases hFound : f.vertices.lookup id with
  | some old =>
      rw [hFound] at hLevel
      have hAt : f.levelAt id = some old.level := by rw [levelAt, hFound]; rfl
      refine ⟨fun id' => ?_, fun l => ?_, rfl⟩
      · rw [levelAt_store, hId, hLevel, hAt]
        rfl
      · rw [hAt, if_neg (by simp)]
        rfl
  | none =>
      rw [hFound] at hLevel
      have hAt : f.levelAt id = none := by rw [levelAt, hFound]; rfl
      refine ⟨fun id' => ?_, fun l => ?_, rfl⟩
      · rw [levelAt_store, hId, hLevel, hAt]
        split_ifs with hSame
        · rfl
        · change (f.store { id, level }).levelAt id' = _
          rw [levelAt_store, if_neg hSame]
      · rw [hAt]
        unfold idsAtLevel store
        dsimp only
        rw [Table.lookup_insert_ite]
        by_cases hl : l = level
        · subst hl
          simp
        · simp [hl]

/-- Adding a vertex leaves the forest as it is, or it places the vertex's container
and then at most its parent's, each at a retained level. -/
theorem addVertex_places {f : LevelledForest} (h : f.WellKeyed) (v : BlockContainer) :
    f.addVertex v = f ∨ ∃ middle, f.Places v.vertexID v.level middle ∧
      f.lowestLevel ≤ v.level ∧
      (f.addVertex v = middle ∨
        (middle.Places v.parent.1 v.parent.2 (f.addVertex v) ∧ f.lowestLevel ≤ v.parent.2)) := by
  unfold addVertex
  dsimp only
  split_ifs with hLevel hFull
  · exact Or.inl rfl
  · exact Or.inl rfl
  refine Or.inr ?_
  obtain ⟨hKeyed, hId, _, _, _⟩ := getOrCreate_spec h v.vertexID v.level
  have hPlaces : f.Places v.vertexID v.level
      ((f.getOrCreateVertexContainer v.vertexID v.level).1.store
        { (f.getOrCreateVertexContainer v.vertexID v.level).2 with vertex := some v }) :=
    getOrCreate_places f v.vertexID v.level hId rfl
  refine ⟨_, hPlaces, not_lt.mp hLevel, ?_⟩
  unfold registerWithParent
  split_ifs with hLow hParent
  · exact Or.inl rfl
  · exact Or.inl rfl
  · refine Or.inr ⟨?_, ?_⟩
    · have hStored : WellKeyed ((f.getOrCreateVertexContainer v.vertexID v.level).1.store
          { (f.getOrCreateVertexContainer v.vertexID v.level).2 with vertex := some v }) := by
        apply store_wellKeyed hKeyed
        intro w hw
        cases hw
        exact hId.symm
      exact getOrCreate_places _ _ _ (getOrCreate_spec hStored _ _).2.1 rfl
    · rw [← hPlaces.lowestLevel]
      exact not_lt.mp hParent

theorem addVertex_indexed {f : LevelledForest} (hKeyed : f.WellKeyed) (h : f.Indexed)
    (v : BlockContainer) : (f.addVertex v).Indexed := by
  rcases addVertex_places hKeyed v with hSame | ⟨middle, hOwn, hLevel, hEq | ⟨hParent, hLow⟩⟩
  · rw [hSame]
    exact h
  · rw [hEq]
    exact h.places hOwn hLevel
  · exact (h.places hOwn hLevel).places hParent (hOwn.lowestLevel ▸ hLow)

/-- Where the levels after adding a vertex come from. -/
theorem addVertex_levelAt {f : LevelledForest} (hKeyed : f.WellKeyed) {v : BlockContainer}
    {id : Identifier} {l : Nat} (h : (f.addVertex v).levelAt id = some l) :
    f.levelAt id = some l ∨ (id = v.vertexID ∧ l = v.level) ∨
      (id = v.parent.1 ∧ l = v.parent.2) := by
  rcases addVertex_places hKeyed v with hSame | ⟨middle, hOwn, _, hEq | ⟨hParent, _⟩⟩
  · rw [hSame] at h
    exact Or.inl h
  · rw [hEq] at h
    exact (hOwn.levelAt_cases h).imp_right Or.inl
  · rcases hParent.levelAt_cases h with hMiddle | hNew
    · exact (hOwn.levelAt_cases hMiddle).imp_right Or.inl
    · exact Or.inr (Or.inr hNew)

/-! Pruning. -/

/-- The blocks of a level that are reported as forked. -/
def forkedAt (f : LevelledForest) (committed : Finset Nat) (l : Nat) : List Block :=
  if l ∈ committed ∨ l ≤ 1 then []
  else (f.idsAtLevel l).filterMap fun id => (f.getVertex id).map BlockContainer.block

/-- What is left of a forest without the given levels. -/
structure Without (f : LevelledForest) (levels : List Nat) (f' : LevelledForest) : Prop where
  lookup : ∀ id, f'.vertices.lookup id = if ∃ l ∈ levels, f.levelAt id = some l then none
    else f.vertices.lookup id
  idsAtLevel : ∀ l, f'.idsAtLevel l = if l ∈ levels then [] else f.idsAtLevel l
  lowestLevel : f'.lowestLevel = f.lowestLevel

theorem Without.levelAt {f f' : LevelledForest} {levels : List Nat} (h : f.Without levels f')
    (id : Identifier) : f'.levelAt id = if ∃ l ∈ levels, f.levelAt id = some l then none
      else f.levelAt id := by
  by_cases hGone : ∃ l ∈ levels, f.levelAt id = some l
  · rw [if_pos hGone, LevelledForest.levelAt, h.lookup, if_pos hGone]
    rfl
  · rw [if_neg hGone, LevelledForest.levelAt, h.lookup, if_neg hGone]
    rfl

theorem Indexed.without {f f' : LevelledForest} {levels : List Nat} (h : f.Indexed)
    (hWithout : f.Without levels f') : f'.Indexed where
  listed l id := by
    rw [hWithout.idsAtLevel, hWithout.levelAt]
    by_cases hl : l ∈ levels
    · rw [if_pos hl]
      constructor
      · intro hMem
        cases hMem
      · intro hAt
        split_ifs at hAt with hGone
        exact absurd ⟨l, hl, hAt⟩ hGone
    · rw [if_neg hl, h.listed]
      split_ifs with hGone
      · obtain ⟨l', hl', hAt⟩ := hGone
        rw [hAt]
        constructor
        · intro hEq
          cases hEq
          exact absurd hl' hl
        · intro hEq
          cases hEq
      · rfl
  nodup l := by
    rw [hWithout.idsAtLevel]
    split_ifs
    · exact List.nodup_nil
    · exact h.nodup l
  retained id l hAt := by
    rw [hWithout.levelAt] at hAt
    split_ifs at hAt
    rw [hWithout.lowestLevel]
    exact h.retained id l hAt

theorem pruneLevel_without {f : LevelledForest} (h : f.Indexed) (committed : Finset Nat)
    (forked : List Block) (count l : Nat) :
    f.Without [l] (pruneLevel committed (f, forked, count) l).1 where
  lookup id := by
    unfold pruneLevel
    dsimp only
    rw [lookup_foldl_erase]
    simp only [h.listed, List.mem_singleton, exists_eq_left]
  idsAtLevel l' := by
    change (((f.verticesAtLevel.erase l).lookup l').getD []) = _
    rw [Table.lookup_erase_ite]
    by_cases hl : l' = l
    · simp [hl]
    · simp only [if_neg hl, List.mem_singleton]
      rfl
  lowestLevel := rfl

theorem Without.forkedAt {f f' : LevelledForest} {levels : List Nat} (hIndexed : f.Indexed)
    (h : f.Without levels f') (committed : Finset Nat) {l : Nat} (hl : l ∉ levels) :
    f'.forkedAt committed l = f.forkedAt committed l := by
  unfold LevelledForest.forkedAt
  rw [h.idsAtLevel, if_neg hl]
  split_ifs
  · rfl
  · apply List.filterMap_congr
    intro id hId
    have hAt := (hIndexed.listed l id).mp hId
    unfold getVertex
    rw [h.lookup, if_neg]
    rintro ⟨l', hl', hAt'⟩
    rw [hAt] at hAt'
    cases hAt'
    exact hl hl'

theorem Without.cons {f middle f' : LevelledForest} {l : Nat} {levels : List Nat}
    (hFirst : f.Without [l] middle) (hRest : middle.Without levels f') :
    f.Without (l :: levels) f' where
  lookup id := by
    rw [hRest.lookup, hFirst.lookup, hFirst.levelAt]
    by_cases hl : f.levelAt id = some l
    · simp [hl]
    · simp [hl]
  idsAtLevel l' := by
    rw [hRest.idsAtLevel, hFirst.idsAtLevel]
    by_cases hl : l' = l
    · simp [hl]
    · by_cases hRest : l' ∈ levels <;> simp [hl, hRest]
  lowestLevel := hRest.lowestLevel.trans hFirst.lowestLevel

/-- The second loop of `PruneUpToLevel` over different levels: the forked blocks
and the count are those of the forest at the start. -/
theorem pruneLevels_without {f : LevelledForest} (h : f.Indexed) (committed : Finset Nat)
    {levels : List Nat} (hNodup : levels.Nodup) (forked : List Block) (count : Nat) :
    f.Without levels (levels.foldl (pruneLevel committed) (f, forked, count)).1 ∧
      (levels.foldl (pruneLevel committed) (f, forked, count)).2 =
        (forked ++ levels.flatMap (f.forkedAt committed),
          count + (levels.flatMap f.idsAtLevel).length) := by
  induction levels generalizing f forked count with
  | nil =>
      refine ⟨⟨fun id => ?_, fun l => ?_, rfl⟩, ?_⟩
      · simp
      · simp
      · simp
  | cons l levels ih =>
      obtain ⟨hNew, hRest⟩ := List.nodup_cons.mp hNodup
      have hFirst := pruneLevel_without h committed forked count l
      obtain ⟨hWithout, hForked⟩ := ih (h.without hFirst) hRest
        (pruneLevel committed (f, forked, count) l).2.1 (pruneLevel committed (f, forked, count) l).2.2
      refine ⟨hFirst.cons hWithout, ?_⟩
      have hOther : ∀ l' ∈ levels, l' ∉ [l] := by
        intro l' hl' hSame
        cases List.mem_singleton.mp hSame
        exact hNew hl'
      have hLater : levels.flatMap ((pruneLevel committed (f, forked, count) l).1.forkedAt committed) =
          levels.flatMap (f.forkedAt committed) := by
        apply List.flatMap_congr
        intro l' hl'
        exact hFirst.forkedAt h committed (hOther l' hl')
      have hIds : levels.flatMap (pruneLevel committed (f, forked, count) l).1.idsAtLevel =
          levels.flatMap f.idsAtLevel := by
        apply List.flatMap_congr
        intro l' hl'
        rw [hFirst.idsAtLevel, if_neg (hOther l' hl')]
      rw [hLater, hIds] at hForked
      rw [List.flatMap_cons, List.flatMap_cons, List.length_append, ← List.append_assoc,
        ← Nat.add_assoc]
      exact hForked

/-- Everything that a successful `PruneUpToLevel` does. -/
structure Prunes (f : LevelledForest) (level : Nat) (committed : Finset Nat) (f' : LevelledForest)
    (forked : List Block) : Prop where
  marked : f.committedLevels (f.verticesAtLevel.keys.card + 1) level ∅ = .ok committed
  allowed : f.lowestLevel ≤ level
  lowestLevel : f'.lowestLevel = level
  levelAt : ∀ id l, f'.levelAt id = some l ↔ f.levelAt id = some l ∧ level ≤ l
  getVertex : ∀ id v, f'.getVertex id = some v ↔
    f.getVertex id = some v ∧ ∃ l, f.levelAt id = some l ∧ level ≤ l
  indexed : f'.Indexed
  forked_eq : forked =
    (List.range' f.lowestLevel (level - f.lowestLevel)).flatMap (f.forkedAt committed)

/-- The containers from a level up are kept, the others are gone. -/
def KeepsFrom (f : LevelledForest) (level : Nat) (f' : LevelledForest) : Prop :=
  ∀ id, f'.vertices.lookup id =
    if ∃ l, f.levelAt id = some l ∧ l < level then none else f.vertices.lookup id

/-- In an indexed forest there is nothing below the lowest level. -/
theorem Without.keepsFrom {f f' : LevelledForest} {level : Nat} (hIndexed : f.Indexed)
    (h : f.Without (List.range' f.lowestLevel (level - f.lowestLevel)) f') :
    f.KeepsFrom level f' := by
  intro id
  have hGone : (∃ l ∈ List.range' f.lowestLevel (level - f.lowestLevel),
      f.levelAt id = some l) ↔ ∃ l, f.levelAt id = some l ∧ l < level := by
    constructor
    · rintro ⟨l, hl, hAt⟩
      rw [List.mem_range'_1] at hl
      exact ⟨l, hAt, by omega⟩
    · rintro ⟨l, hAt, hl⟩
      have hLow := hIndexed.retained id l hAt
      exact ⟨l, List.mem_range'_1.mpr (by omega), hAt⟩
  rw [h.lookup]
  simp only [hGone]

theorem KeepsFrom.levelAt {f f' : LevelledForest} {level : Nat} (h : f.KeepsFrom level f')
    (id : Identifier) (l : Nat) :
    f'.levelAt id = some l ↔ f.levelAt id = some l ∧ level ≤ l := by
  have hLookup := h id
  unfold LevelledForest.levelAt at hLookup ⊢
  rw [hLookup]
  split_ifs with hOut
  · obtain ⟨l', hAt, hl⟩ := hOut
    rw [hAt]
    constructor
    · intro hNone
      cases hNone
    · rintro ⟨hSame, hLe⟩
      cases hSame
      omega
  · constructor
    · intro hAt
      refine ⟨hAt, ?_⟩
      by_contra hl
      exact hOut ⟨l, hAt, by omega⟩
    · exact fun hBoth => hBoth.1

theorem KeepsFrom.getVertex {f f' : LevelledForest} {level : Nat} (h : f.KeepsFrom level f')
    (id : Identifier) (v : BlockContainer) :
    f'.getVertex id = some v ↔
      f.getVertex id = some v ∧ ∃ l, f.levelAt id = some l ∧ level ≤ l := by
  unfold LevelledForest.getVertex
  rw [h id]
  constructor
  · intro hv
    split_ifs at hv with hOut
    · cases hv
    · obtain ⟨l, hAt⟩ := levelAt_of_getVertex hv
      refine ⟨hv, l, hAt, ?_⟩
      by_contra hl
      exact hOut ⟨l, hAt, by omega⟩
  · rintro ⟨hv, l, hAt, hLe⟩
    rw [if_neg]
    · exact hv
    · rintro ⟨l', hAt', hl⟩
      rw [hAt] at hAt'
      cases hAt'
      omega

/-- The run of `PruneUpToLevel` that succeeded. -/
theorem pruneUpToLevel_without {f f' : LevelledForest} {level count : Nat} {forked : List Block}
    (hIndexed : f.Indexed) (h : f.pruneUpToLevel level = .ok (some (f', forked, count))) :
    ∃ committed pruned,
      f.committedLevels (f.verticesAtLevel.keys.card + 1) level ∅ = .ok committed ∧
      f.lowestLevel ≤ level ∧
      f.Without (List.range' f.lowestLevel (level - f.lowestLevel)) pruned ∧
      f' = { pruned with lowestLevel := level } ∧
      forked = (List.range' f.lowestLevel (level - f.lowestLevel)).flatMap (f.forkedAt committed) ∧
      count = ((List.range' f.lowestLevel (level - f.lowestLevel)).flatMap f.idsAtLevel).length := by
  unfold pruneUpToLevel at h
  split_ifs at h with hLevel
  · cases Outcome.pure_eq_ok.mp h
  obtain ⟨committed, hMarked, hRest⟩ := Outcome.bind_eq_ok.mp h
  obtain ⟨hWithout, hForked⟩ := pruneLevels_without hIndexed committed
    (List.nodup_range' (s := f.lowestLevel) (n := level - f.lowestLevel)) [] 0
  have hEq := Option.some.inj (Outcome.pure_eq_ok.mp hRest)
  have hBlocks := (congrArg Prod.snd hEq).symm.trans hForked
  rw [List.nil_append, Nat.zero_add] at hBlocks
  exact ⟨committed, _, hMarked, not_lt.mp hLevel, hWithout, (congrArg Prod.fst hEq).symm,
    congrArg Prod.fst hBlocks, congrArg Prod.snd hBlocks⟩

theorem pruneUpToLevel_keepsFrom {f f' : LevelledForest} {level count : Nat} {forked : List Block}
    (hIndexed : f.Indexed) (h : f.pruneUpToLevel level = .ok (some (f', forked, count))) :
    f.KeepsFrom level f' := by
  obtain ⟨_, pruned, _, _, hWithout, rfl, _⟩ := pruneUpToLevel_without hIndexed h
  have hKeeps := hWithout.keepsFrom hIndexed
  exact hKeeps

theorem pruneUpToLevel_prunes {f f' : LevelledForest} {level count : Nat} {forked : List Block}
    (hIndexed : f.Indexed) (h : f.pruneUpToLevel level = .ok (some (f', forked, count))) :
    ∃ committed, f.Prunes level committed f' forked := by
  have hKeeps := pruneUpToLevel_keepsFrom hIndexed h
  obtain ⟨committed, pruned, hMarked, hLevel, hWithout, rfl, hForked, _⟩ :=
    pruneUpToLevel_without hIndexed h
  have hOld := hIndexed.without hWithout
  refine ⟨committed, hMarked, hLevel, rfl, hKeeps.levelAt, hKeeps.getVertex, ?_, hForked⟩
  exact ⟨hOld.listed, hOld.nodup, fun id l hAt => ((hKeeps.levelAt id l).mp hAt).2⟩

/-- `p` is the stored parent of the vertex `v`. -/
def ParentOf (f : LevelledForest) (v p : BlockContainer) : Prop :=
  f.getVertex v.parent.1 = some p

/-- Stored parents are on lower levels. -/
def Descending (f : LevelledForest) : Prop :=
  ∀ id v p, f.getVertex id = some v → f.ParentOf v p → p.level < v.level

theorem transGen_level_lt {f : LevelledForest} (hDown : f.Descending)
    {id : Identifier} {v a : BlockContainer} (hv : f.getVertex id = some v)
    (h : Relation.TransGen f.ParentOf v a) : a.level < v.level := by
  induction h using Relation.TransGen.head_induction_on generalizing id with
  | single hLink => exact hDown id _ _ hv hLink
  | head hLink _ ih => exact (ih hLink).trans (hDown id _ _ hv hLink)

/-- A way to an ancestor goes through the stored parent. -/
theorem transGen_parent {f : LevelledForest} {v p a : BlockContainer} (hParent : f.ParentOf v p)
    (h : Relation.TransGen f.ParentOf v a) : a = p ∨ Relation.TransGen f.ParentOf p a := by
  obtain ⟨next, hNext, hRest⟩ := Relation.TransGen.head'_iff.mp h
  cases hParent.symm.trans hNext
  exact Relation.reflTransGen_iff_eq_or_transGen.mp hRest

/-- A vertex that shares its level with no other container is the first one there. -/
theorem firstVertexAt_of_alone {f : LevelledForest} (h : f.Indexed) {id : Identifier}
    {v : BlockContainer} (hv : f.getVertex id = some v) (hAt : f.levelAt id = some v.level)
    (hAlone : ∀ other, f.levelAt other = some v.level → other = id) :
    f.firstVertexAt v.level = .ok v := by
  have hListed := (h.listed v.level id).mpr hAt
  unfold firstVertexAt
  cases hIds : f.idsAtLevel v.level with
  | nil =>
      rw [hIds] at hListed
      cases hListed
  | cons first rest =>
      have hFirst := (h.listed v.level first).mp (hIds ▸ List.mem_cons_self)
      dsimp only
      rw [hAlone first hFirst, hv]
      rfl

/-- When every vertex is the first of its level and parents are on lower levels, the
first loop of `PruneUpToLevel` marks the levels of all retained ancestors, and no others. -/
theorem committedLevels_ancestors {f : LevelledForest}
    (hFirst : ∀ id v, f.getVertex id = some v → f.lowestLevel ≤ v.level → 1 < v.level →
      f.firstVertexAt v.level = .ok v)
    (hDown : f.Descending) {fuel : Nat} {id : Identifier} {v : BlockContainer}
    {marked result : Finset Nat} (hv : f.getVertex id = some v) (h : f.committedLevels fuel v.level marked = .ok result) :
    marked ⊆ result ∧
      (∀ a, Relation.TransGen f.ParentOf v a → f.lowestLevel ≤ a.level → 1 ≤ a.level →
        a.level ∈ result) ∧
      ∀ l ∈ result, l ∈ marked ∨ ∃ a, Relation.TransGen f.ParentOf v a ∧ a.level = l := by
  induction fuel generalizing id v marked with
  | zero => cases h
  | succ fuel ih =>
      unfold committedLevels at h
      by_cases hInside : f.lowestLevel ≤ v.level ∧ 1 < v.level
      · rw [if_pos hInside] at h
        obtain ⟨found, hFound, h⟩ := Outcome.bind_eq_ok.mp h
        cases hFound.symm.trans (hFirst id v hv hInside.1 hInside.2)
        cases hParent : f.getVertex v.parent.1 with
        | none =>
            rw [hParent] at h
            cases Outcome.pure_eq_ok.mp h
            refine ⟨Finset.Subset.refl _, fun a hPath => ?_, fun l => Or.inl⟩
            obtain ⟨p, hLink, _⟩ := Relation.TransGen.head'_iff.mp hPath
            cases hParent.symm.trans hLink
        | some above =>
            rw [hParent] at h
            dsimp only at h
            by_cases hLow : above.level < f.lowestLevel
            · rw [if_pos hLow] at h
              cases Outcome.pure_eq_ok.mp h
              refine ⟨Finset.Subset.refl _, fun a hPath hLe _ => ?_, fun l => Or.inl⟩
              rcases transGen_parent hParent hPath with rfl | hRest
              · omega
              · have hBelow := transGen_level_lt hDown hParent hRest
                omega
            · rw [if_neg hLow] at h
              obtain ⟨hSubset, hMarks, hOnly⟩ := ih hParent h
              refine ⟨(Finset.subset_insert _ _).trans hSubset, fun a hPath hLe hOne => ?_, ?_⟩
              · rcases transGen_parent hParent hPath with rfl | hRest
                · exact hSubset (Finset.mem_insert_self _ _)
                · exact hMarks a hRest hLe hOne
              · intro l hl
                rcases hOnly l hl with hMarked | ⟨a, hPath, hLevel⟩
                · rcases Finset.mem_insert.mp hMarked with rfl | hMarked
                  · exact Or.inr ⟨above, .single hParent, rfl⟩
                  · exact Or.inl hMarked
                · exact Or.inr ⟨a, .head hParent hPath, hLevel⟩
      · rw [if_neg hInside] at h
        cases Outcome.pure_eq_ok.mp h
        refine ⟨Finset.Subset.refl _, fun a hPath hLe hOne => ?_, fun l => Or.inl⟩
        have hBelow := transGen_level_lt hDown hv hPath
        omega

/-! Any sequence of calls on a new forest. -/

/-- The calls that change a forest. -/
inductive Call where
  | addVertex (v : BlockContainer)
  | pruneUpToLevel (level : Nat)

/-- A call that returns; an error of `PruneUpToLevel` is returned before anything is
changed. -/
def Call.perform (f : LevelledForest) : Call → Outcome LevelledForest
  | .addVertex v => pure (f.addVertex v)
  | .pruneUpToLevel level => do
      match ← f.pruneUpToLevel level with
      | none => pure f
      | some (f', _, _) => pure f'

/-- What a returning call did. -/
theorem Call.perform_cases {f f' : LevelledForest} {call : Call}
    (h : call.perform f = .ok f') :
    f' = f ∨ (∃ v, f' = f.addVertex v) ∨
      ∃ level forked count, f.pruneUpToLevel level = .ok (some (f', forked, count)) := by
  cases call with
  | addVertex v => exact Or.inr (Or.inl ⟨v, (Outcome.pure_eq_ok.mp h).symm⟩)
  | pruneUpToLevel level =>
      obtain ⟨result, hPrune, hDone⟩ := Outcome.bind_eq_ok.mp h
      cases result with
      | none => exact Or.inl (Outcome.pure_eq_ok.mp hDone).symm
      | some result =>
          obtain ⟨pruned, forked, count⟩ := result
          cases Outcome.pure_eq_ok.mp hDone
          exact Or.inr (Or.inr ⟨level, forked, count, hPrune⟩)

theorem Call.perform_lowestLevel {f f' : LevelledForest} {call : Call} (hKeyed : f.WellKeyed)
    (h : call.perform f = .ok f') : f.lowestLevel ≤ f'.lowestLevel := by
  rcases perform_cases h with rfl | ⟨v, rfl⟩ | ⟨level, forked, count, hPrune⟩
  · exact le_refl _
  · exact (addVertex_spec hKeyed v).2.1.ge
  · obtain ⟨hLowest, hLevel, _⟩ := pruneUpToLevel_spec hPrune
    exact hLowest ▸ hLevel

theorem run_indexed {calls : List Call} {f : LevelledForest}
    (h : run Call.perform new calls = .ok f) : f.WellKeyed ∧ f.Indexed := by
  refine run_invariant (P := fun f : LevelledForest => f.WellKeyed ∧ f.Indexed) ?_ h
    ⟨new_wellKeyed, new_indexed⟩
  rintro f call f' ⟨hKeyed, hIndexed⟩ hStep
  rcases Call.perform_cases hStep with rfl | ⟨v, rfl⟩ | ⟨level, forked, count, hPrune⟩
  · exact ⟨hKeyed, hIndexed⟩
  · exact ⟨(addVertex_spec hKeyed v).1, addVertex_indexed hKeyed hIndexed v⟩
  · obtain ⟨committed, hPrunes⟩ := pruneUpToLevel_prunes hIndexed hPrune
    exact ⟨pruneUpToLevel_wellKeyed hKeyed hPrune, hPrunes.indexed⟩

theorem addVertex_stored {f : LevelledForest} (hKeyed : f.WellKeyed) {v : BlockContainer}
    (h : (f.getVertex v.vertexID).isSome) : f.addVertex v = f := by
  unfold addVertex
  dsimp only
  split_ifs with hLevel hFull
  · rfl
  · rfl
  · rw [(getOrCreate_spec hKeyed v.vertexID v.level).2.2.1] at hFull
    exact absurd h hFull

theorem Indexed.count_eq_one {f : LevelledForest} (h : f.Indexed) (id : Identifier) (l : Nat) :
    (f.idsAtLevel l).count id = 1 ↔ f.levelAt id = some l := by
  rw [← h.listed]
  constructor
  · intro hCount
    exact List.count_pos_iff.mp (by omega)
  · exact List.count_eq_one_of_mem (h.nodup l)

/-- The two indices list the same containers after any calls, and every call does to
them what it is for. -/
theorem forest_indices_agree {calls : List Call} {f : LevelledForest}
    (h : run Call.perform new calls = .ok f) :
    (∀ id container, f.vertices.lookup id = some container → container.id = id) ∧
    (∀ id l, (∃ container, f.vertices.lookup id = some container ∧ container.level = l) ↔
      (f.idsAtLevel l).count id = 1) ∧
    (∀ id l, (f.idsAtLevel l).count id ≤ 1) ∧
    (∀ id container, f.vertices.lookup id = some container → f.lowestLevel ≤ container.level) ∧
    (∀ call f', Call.perform f call = .ok f' → f.lowestLevel ≤ f'.lowestLevel) ∧
    (∀ level f' forked count, f.pruneUpToLevel level = .ok (some (f', forked, count)) →
      ∀ id, f'.vertices.lookup id =
        if ∃ container, f.vertices.lookup id = some container ∧ container.level < level then none
        else f.vertices.lookup id) ∧
    (∀ level, f.pruneUpToLevel level = .ok none →
      Call.perform f (.pruneUpToLevel level) = .ok f) ∧
    (∀ v, (f.getVertex v.vertexID).isSome → f.addVertex v = f) := by
  obtain ⟨hKeyed, hIndexed⟩ := run_indexed h
  have hLevelAt : ∀ id l, f.levelAt id = some l ↔
      ∃ container, f.vertices.lookup id = some container ∧ container.level = l := by
    intro id l
    exact Option.map_eq_some_iff
  refine ⟨fun id container hLookup => (hKeyed id container hLookup).1, ?_, ?_, ?_, ?_, ?_, ?_, ?_⟩
  · intro id l
    rw [hIndexed.count_eq_one, hLevelAt]
  · intro id l
    exact List.nodup_iff_count_le_one.mp (hIndexed.nodup l) id
  · intro id container hLookup
    exact hIndexed.retained id container.level ((hLevelAt id _).mpr ⟨container, hLookup, rfl⟩)
  · intro call f' hStep
    exact Call.perform_lowestLevel hKeyed hStep
  · intro level f' forked count hPrune id
    rw [pruneUpToLevel_keepsFrom hIndexed hPrune id]
    congr 1
    simp [hLevelAt]
  · intro level hError
    exact Outcome.bind_eq_ok.mpr ⟨none, hError, rfl⟩
  · intro v hStored
    exact addVertex_stored hKeyed hStored

/-- A vertex with no payload, given by its place in the forest. -/
def vertexAt (id : Identifier) (view : View) (prevID : Identifier) (claimed : View) :
    BlockContainer where
  block := { view, qc := some { view := claimed, blockID := prevID }, proposer := "1", prevID, id }
  qc := { view := claimed, blockID := prevID }
  carries := rfl

/-- A child before its parent, the parent, the parent again and a prune between them. -/
def childFirst : List Call :=
  [.addVertex (vertexAt 3 3 2 2), .addVertex (vertexAt 2 2 1 1), .addVertex (vertexAt 2 2 1 1),
    .pruneUpToLevel 2]

theorem forest_indices_agree_childFirst :
    ∃ f, run Call.perform new childFirst = .ok f ∧ f.lowestLevel = 2 ∧
      f.vertices.lookup 1 = none ∧ (f.idsAtLevel 2).count 2 = 1 ∧
      ∀ id l, (∃ container, f.vertices.lookup id = some container ∧ container.level = l) ↔
        (f.idsAtLevel l).count id = 1 := by
  obtain ⟨f, hRun, hLowest, hGone, hCount⟩ := Outcome.of_test
    (x := run Call.perform new childFirst)
    (P := fun f => f.lowestLevel = 2 ∧ f.vertices.lookup 1 = none ∧ (f.idsAtLevel 2).count 2 = 1)
    (by decide)
  exact ⟨f, hRun, hLowest, hGone, hCount, (forest_indices_agree hRun).2.1⟩

end LevelledForest
end Bamboo
