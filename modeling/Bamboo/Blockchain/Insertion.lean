import Bamboo.Blockchain.Index

/-! Adding vertices in any order. A container is made by its own vertex or by the first
child that names it, at the level that is claimed there. When the claims agree, what a
list of vertices leaves under an identifier can be said without the order of the list. -/
namespace Bamboo

open Library

namespace LevelledForest

/-- The registered children of an identifier. -/
def childrenOf (f : LevelledForest) (id : Identifier) : List BlockContainer :=
  ((f.vertices.lookup id).map VertexContainer.children).getD []

/-- The vertex is stored when it is added. -/
def Accepts (f : LevelledForest) (v : BlockContainer) : Prop :=
  f.lowestLevel ≤ v.level ∧ f.getVertex v.vertexID = none

/-- Moreover it is registered with its parent. -/
def Registers (f : LevelledForest) (v : BlockContainer) : Prop :=
  f.Accepts v ∧ f.lowestLevel < (f.levelAt v.vertexID).getD v.level ∧ f.lowestLevel ≤ v.parent.2

instance (f : LevelledForest) (v : BlockContainer) : Decidable (f.Accepts v) :=
  inferInstanceAs (Decidable (_ ∧ _))

instance (f : LevelledForest) (v : BlockContainer) : Decidable (f.Registers v) :=
  inferInstanceAs (Decidable (_ ∧ _))

/-- A container for `id` at `level` is asked for when the vertex is added. -/
def Asks (f : LevelledForest) (v : BlockContainer) (id : Identifier) (level : Nat) : Prop :=
  (f.Accepts v ∧ id = v.vertexID ∧ level = v.level) ∨
    (f.Registers v ∧ id = v.parent.1 ∧ level = v.parent.2)

/-- The container of `id` is there afterwards, changed by `change`; the other containers
are as they were. -/
structure Updates (f : LevelledForest) (id : Identifier) (level : Nat)
    (change : VertexContainer → VertexContainer) (f' : LevelledForest) : Prop
    extends f.Places id level f' where
  lookup : ∀ id', f'.vertices.lookup id' =
    if id' = id then some (change ((f.vertices.lookup id).getD { id, level }))
    else f.vertices.lookup id'

theorem getOrCreate_updates {f : LevelledForest} (h : f.WellKeyed) (id : Identifier) (level : Nat)
    {change : VertexContainer → VertexContainer}
    (hChange : ∀ container, (change container).id = container.id ∧
      (change container).level = container.level) :
    f.Updates id level change ((f.getOrCreateVertexContainer id level).1.store
      (change (f.getOrCreateVertexContainer id level).2)) where
  toPlaces := by
    refine getOrCreate_places f id level ?_ (hChange _).2
    rw [(hChange _).1, (getOrCreate_spec h id level).2.1]
  lookup id' := by
    cases hFound : f.vertices.lookup id with
    | some container =>
        simp only [getOrCreateVertexContainer, hFound, store, Option.getD_some,
          Table.lookup_insert_ite, (hChange container).1, (h id container hFound).1]
    | none =>
        simp only [getOrCreateVertexContainer, hFound, store, Option.getD_none,
          Table.lookup_insert_ite, (hChange _).1]
        split_ifs <;> rfl

section Updates

variable {f f' : LevelledForest} {id : Identifier} {level : Nat}
  {change : VertexContainer → VertexContainer}

theorem Updates.childrenOf (h : f.Updates id level change f')
    (hSame : ∀ container, (change container).children = container.children) (id' : Identifier) :
    f'.childrenOf id' = f.childrenOf id' := by
  simp only [LevelledForest.childrenOf, h.lookup]
  split_ifs with hId
  · subst hId
    cases f.vertices.lookup id' <;> simp [hSame]
  · rfl

end Updates

/-- Put the vertex into its container. -/
def fill (v : BlockContainer) (container : VertexContainer) : VertexContainer :=
  { container with vertex := some v }

/-- Append a child. -/
def adopt (v : BlockContainer) (container : VertexContainer) : VertexContainer :=
  { container with children := container.children ++ [v] }

theorem addVertex_of_not_accepts {f : LevelledForest} (h : f.WellKeyed) {v : BlockContainer}
    (hNot : ¬f.Accepts v) : f.addVertex v = f := by
  unfold addVertex
  dsimp only
  split_ifs with hLevel hFull
  · rfl
  · rfl
  · rw [(getOrCreate_spec h v.vertexID v.level).2.2.1] at hFull
    exact absurd ⟨not_lt.mp hLevel, by simpa using hFull⟩ hNot

theorem registerWithParent_updates {f : LevelledForest} (h : f.WellKeyed)
    (container : VertexContainer) (v : BlockContainer) :
    if f.lowestLevel < container.level ∧ f.lowestLevel ≤ v.parent.2 then
      f.Updates v.parent.1 v.parent.2 (adopt v) (f.registerWithParent container v)
    else f.registerWithParent container v = f := by
  unfold registerWithParent
  by_cases hLow : container.level ≤ f.lowestLevel
  · rw [if_neg (by omega), if_pos hLow]
  by_cases hBelow : v.parent.2 < f.lowestLevel
  · rw [if_neg (by omega), if_neg hLow, if_pos hBelow]
  · rw [if_pos (by omega), if_neg hLow, if_neg hBelow]
    exact getOrCreate_updates h v.parent.1 v.parent.2 fun container => ⟨rfl, rfl⟩

/-- An accepted vertex fills its container, and is appended to its parent's if it is
registered. -/
theorem addVertex_of_accepts {f : LevelledForest} (h : f.WellKeyed) {v : BlockContainer}
    (hAccepts : f.Accepts v) :
    ∃ middle, f.Updates v.vertexID v.level (fill v) middle ∧
      if f.Registers v then middle.Updates v.parent.1 v.parent.2 (adopt v) (f.addVertex v)
      else f.addVertex v = middle := by
  obtain ⟨hKeyed, hId, hVertex, _, _⟩ := getOrCreate_spec h v.vertexID v.level
  have hFill : f.Updates v.vertexID v.level (fill v) _ :=
    getOrCreate_updates h v.vertexID v.level fun container => ⟨rfl, rfl⟩
  have hMiddle : WellKeyed ((f.getOrCreateVertexContainer v.vertexID v.level).1.store
      (fill v (f.getOrCreateVertexContainer v.vertexID v.level).2)) := by
    apply store_wellKeyed hKeyed
    intro w hw
    cases hw
    exact hId.symm
  have hLevel : (fill v (f.getOrCreateVertexContainer v.vertexID v.level).2).level =
      (f.levelAt v.vertexID).getD v.level := by
    unfold getOrCreateVertexContainer levelAt
    cases f.vertices.lookup v.vertexID <;> rfl
  have hAdd : f.addVertex v = registerWithParent
      ((f.getOrCreateVertexContainer v.vertexID v.level).1.store
        (fill v (f.getOrCreateVertexContainer v.vertexID v.level).2))
      (fill v (f.getOrCreateVertexContainer v.vertexID v.level).2) v := by
    unfold addVertex
    rw [if_neg (not_lt.mpr hAccepts.1)]
    dsimp only
    rw [hVertex, hAccepts.2]
    rfl
  have hRegister := registerWithParent_updates hMiddle
    (fill v (f.getOrCreateVertexContainer v.vertexID v.level).2) v
  rw [hLevel, hFill.lowestLevel, ← hAdd] at hRegister
  refine ⟨_, hFill, ?_⟩
  simp only [Registers, hAccepts, true_and]
  exact hRegister

/-- New containers are appended to the lists of their levels, each once. -/
structure Extends (f f' : LevelledForest) : Prop where
  kept : ∀ id l, f.levelAt id = some l → f'.levelAt id = some l
  appended : ∀ l, ∃ new, f'.idsAtLevel l = f.idsAtLevel l ++ new ∧ new.Nodup ∧
    ∀ id, id ∈ new ↔ f.levelAt id = none ∧ f'.levelAt id = some l

theorem Extends.refl (f : LevelledForest) : f.Extends f where
  kept _ _ h := h
  appended l := by
    refine ⟨[], by simp, List.nodup_nil, fun id => ?_⟩
    simp only [List.not_mem_nil, false_iff, not_and]
    intro hNone
    simp [hNone]

theorem Extends.places {f f' f'' : LevelledForest} {id : Identifier} {level : Nat}
    (h : f.Extends f') (hPlaces : f'.Places id level f'') : f.Extends f'' where
  kept id' l hOld := by
    rw [hPlaces.levelAt]
    split_ifs with hId
    · rw [← hId, h.kept id' l hOld]
      rfl
    · exact h.kept id' l hOld
  appended l := by
    obtain ⟨new, hIds, hNodup, hNew⟩ := h.appended l
    rw [hPlaces.idsAtLevel, hIds]
    by_cases hFresh : f'.levelAt id = none
    · have hUnknown : f.levelAt id = none := by
        cases hOld : f.levelAt id with
        | none => rfl
        | some old => rw [h.kept id old hOld] at hFresh; cases hFresh
      by_cases hl : l = level
      · refine ⟨new ++ [id], by rw [if_pos ⟨hFresh, hl⟩, List.append_assoc], ?_, fun id' => ?_⟩
        · refine List.Nodup.append hNodup (List.nodup_singleton id) ?_
          rw [List.disjoint_singleton, hNew, hFresh]
          simp
        · rw [List.mem_append, List.mem_singleton, hNew, hPlaces.levelAt, hFresh]
          by_cases hId : id' = id
          · simp [hId, hUnknown, hl]
          · simp [hId]
      · refine ⟨new, by rw [if_neg (fun hBoth => hl hBoth.2)], hNodup, fun id' => ?_⟩
        rw [hNew, hPlaces.levelAt, hFresh]
        by_cases hId : id' = id
        · simp [hId, hFresh, Ne.symm hl]
        · simp [hId]
    · refine ⟨new, by rw [if_neg (fun hBoth => hFresh hBoth.1)], hNodup, fun id' => ?_⟩
      rw [hNew, hPlaces.levelAt]
      split_ifs with hId
      · obtain ⟨old, hOld⟩ := Option.ne_none_iff_exists'.mp hFresh
        rw [hId, hOld]
        rfl
      · rfl

section Step

variable {f f' : LevelledForest} {v : BlockContainer}

theorem addVertex_extends (hKeyed : f'.WellKeyed) (h : f.Extends f') (v : BlockContainer) :
    f.Extends (f'.addVertex v) := by
  by_cases hAccepts : f'.Accepts v
  · obtain ⟨middle, hFill, hRest⟩ := addVertex_of_accepts hKeyed hAccepts
    split_ifs at hRest with hRegisters
    · exact (h.places hFill.toPlaces).places hRest.toPlaces
    · rw [hRest]
      exact h.places hFill.toPlaces
  · rw [addVertex_of_not_accepts hKeyed hAccepts]
    exact h

/-- A level is claimed for a container only while there is none. -/
theorem addVertex_levelAt_eq (hKeyed : f.WellKeyed) (v : BlockContainer) (id : Identifier) :
    (f.addVertex v).levelAt id = (f.levelAt id).or
      (if f.Accepts v ∧ id = v.vertexID then some v.level
        else if f.Registers v ∧ id = v.parent.1 then some v.parent.2 else none) := by
  by_cases hAccepts : f.Accepts v
  · obtain ⟨middle, hFill, hRest⟩ := addVertex_of_accepts hKeyed hAccepts
    have hMiddle : middle.levelAt id =
        (f.levelAt id).or (if id = v.vertexID then some v.level else none) := by
      rw [hFill.levelAt]
      split_ifs with hId
      · rw [hId]
        cases f.levelAt v.vertexID <;> rfl
      · simp
    by_cases hRegisters : f.Registers v
    · rw [if_pos hRegisters] at hRest
      rw [hRest.levelAt, hMiddle]
      by_cases hParent : id = v.parent.1
      · rw [← hParent, hMiddle]
        by_cases hId : id = v.vertexID
        · cases f.levelAt id <;> simp [hAccepts, hId]
        · cases f.levelAt id <;> simp [hRegisters, hId]
      · simp [hAccepts, hParent]
    · rw [if_neg hRegisters] at hRest
      rw [hRest, hMiddle]
      simp [hAccepts, hRegisters]
  · have hRegisters : ¬f.Registers v := fun h => hAccepts h.1
    rw [addVertex_of_not_accepts hKeyed hAccepts]
    simp [hAccepts, hRegisters]

theorem addVertex_childrenOf (hKeyed : f.WellKeyed) (v : BlockContainer) (id : Identifier) :
    (f.addVertex v).childrenOf id =
      f.childrenOf id ++ if f.Registers v ∧ v.parent.1 = id then [v] else [] := by
  by_cases hAccepts : f.Accepts v
  · obtain ⟨middle, hFill, hRest⟩ := addVertex_of_accepts hKeyed hAccepts
    have hMiddle := hFill.childrenOf fun _ => rfl
    by_cases hRegisters : f.Registers v
    · rw [if_pos hRegisters] at hRest
      rw [← hMiddle]
      simp only [childrenOf, hRest.lookup]
      by_cases hParent : v.parent.1 = id
      · subst hParent
        cases middle.vertices.lookup v.parent.1 <;> simp [hRegisters, adopt]
      · simp [hParent, Ne.symm hParent]
    · rw [if_neg hRegisters] at hRest
      rw [hRest, hMiddle]
      simp [hRegisters]
  · have hRegisters : ¬f.Registers v := fun h => hAccepts h.1
    rw [addVertex_of_not_accepts hKeyed hAccepts]
    simp [hRegisters]

end Step

/-- Distinct vertices that claim one level for every identifier the forest does not know:
a parent's claimed level is the parent's own and the one its other children claim. -/
structure Compatible (f : LevelledForest) (vs : List BlockContainer) : Prop where
  distinct : (vs.map BlockContainer.vertexID).Nodup
  parent : ∀ v ∈ vs, ∀ w ∈ vs, f.levelAt v.parent.1 = none → w.vertexID = v.parent.1 →
    v.parent.2 = w.level
  sibling : ∀ v ∈ vs, ∀ w ∈ vs, f.levelAt v.parent.1 = none → w.parent.1 = v.parent.1 →
    v.parent.2 = w.parent.2

section Compatible

variable {f : LevelledForest} {vs ws : List BlockContainer} {v w : BlockContainer}

theorem Compatible.perm (h : f.Compatible vs) (hPerm : vs.Perm ws) : f.Compatible ws where
  distinct := (hPerm.map BlockContainer.vertexID).nodup_iff.mp h.distinct
  parent v hv w hw := h.parent v (hPerm.mem_iff.mpr hv) w (hPerm.mem_iff.mpr hw)
  sibling v hv w hw := h.sibling v (hPerm.mem_iff.mpr hv) w (hPerm.mem_iff.mpr hw)

theorem Compatible.init (h : f.Compatible (vs ++ [v])) : f.Compatible vs where
  distinct := by
    have hAll := h.distinct
    rw [List.map_append] at hAll
    exact hAll.of_append_left
  parent v hv w hw := h.parent v (List.mem_append_left _ hv) w (List.mem_append_left _ hw)
  sibling v hv w hw := h.sibling v (List.mem_append_left _ hv) w (List.mem_append_left _ hw)

theorem Compatible.last_fresh (h : f.Compatible (vs ++ [v])) (hw : w ∈ vs) :
    w.vertexID ≠ v.vertexID := by
  have hAll := h.distinct
  rw [List.map_append] at hAll
  exact (List.nodup_append.mp hAll).2.2 _ (List.mem_map_of_mem hw) _ (by simp)

theorem Compatible.agree (h : f.Compatible vs) (hv : v ∈ vs) (hw : w ∈ vs) {id : Identifier}
    {l l' : Nat} (hUnknown : f.levelAt id = none) (hAsks : f.Asks v id l)
    (hAsks' : f.Asks w id l') : l = l' := by
  rcases hAsks with ⟨_, rfl, rfl⟩ | ⟨_, rfl, rfl⟩
  · rcases hAsks' with ⟨_, hId, rfl⟩ | ⟨_, hId, rfl⟩
    · rw [List.inj_on_of_nodup_map h.distinct hv hw hId]
    · exact (h.parent w hw v hv (hId ▸ hUnknown) hId).symm
  · rcases hAsks' with ⟨_, hId, rfl⟩ | ⟨_, hId, rfl⟩
    · exact h.parent v hv w hw hUnknown hId.symm
    · exact h.sibling v hv w hw hUnknown hId.symm

/-- What the vertex itself asks for does not depend on which of its two containers comes
first. -/
theorem Compatible.claim_iff (h : f.Compatible vs) (hv : v ∈ vs) {id : Identifier} {l : Nat}
    (hUnknown : f.levelAt id = none) :
    (if f.Accepts v ∧ id = v.vertexID then some v.level
      else if f.Registers v ∧ id = v.parent.1 then some v.parent.2 else none) = some l ↔
    f.Asks v id l := by
  split_ifs with hOwn hParent
  · constructor
    · intro hLevel
      exact Or.inl ⟨hOwn.1, hOwn.2, (Option.some.inj hLevel).symm⟩
    · intro hAsks
      rw [h.agree hv hv hUnknown hAsks (Or.inl ⟨hOwn.1, hOwn.2, rfl⟩)]
  · constructor
    · intro hLevel
      exact Or.inr ⟨hParent.1, hParent.2, (Option.some.inj hLevel).symm⟩
    · intro hAsks
      rw [h.agree hv hv hUnknown hAsks (Or.inr ⟨hParent.1, hParent.2, rfl⟩)]
  · simp only [Asks, false_iff, not_or]
    exact ⟨fun hAsks => hOwn ⟨hAsks.1, hAsks.2.1⟩, fun hAsks => hParent ⟨hAsks.1, hAsks.2.1⟩⟩

end Compatible

/-- What adding `vs` leaves, said by the state before the first of them only. -/
structure Grown (f : LevelledForest) (vs : List BlockContainer) (f' : LevelledForest) : Prop
    extends f.Extends f' where
  keyed : f'.WellKeyed
  lowestLevel : f'.lowestLevel = f.lowestLevel
  getVertex : ∀ id w, f'.getVertex id = some w ↔
    f.getVertex id = some w ∨ (w ∈ vs ∧ f.Accepts w ∧ id = w.vertexID)
  levelAt : ∀ id l, f.levelAt id = none → (f'.levelAt id = some l ↔ ∃ w ∈ vs, f.Asks w id l)
  childrenOf : ∀ id, f'.childrenOf id =
    f.childrenOf id ++ vs.filter fun w => f.Registers w ∧ w.parent.1 = id

section Grown

variable {f f' : LevelledForest} {vs : List BlockContainer} {v : BlockContainer}

theorem Grown.start (h : f.WellKeyed) : f.Grown [] f where
  toExtends := Extends.refl f
  keyed := h
  lowestLevel := rfl
  getVertex id w := by simp
  levelAt id l hUnknown := by simp [hUnknown]
  childrenOf id := by simp

theorem Grown.getVertex_next (h : f.Grown vs f') (hCompatible : f.Compatible (vs ++ [v])) :
    f'.getVertex v.vertexID = f.getVertex v.vertexID := by
  apply Option.ext
  intro w
  rw [h.getVertex]
  constructor
  · rintro (hOld | ⟨hw, _, hId⟩)
    · exact hOld
    · exact absurd hId.symm (hCompatible.last_fresh hw)
  · exact Or.inl

theorem Grown.accepts (h : f.Grown vs f') (hCompatible : f.Compatible (vs ++ [v])) :
    f'.Accepts v ↔ f.Accepts v := by
  unfold Accepts
  rw [h.lowestLevel, h.getVertex_next hCompatible]

/-- A child may have made the container of `v` before, but at the level of `v`. -/
theorem Grown.registers (h : f.Grown vs f') (hCompatible : f.Compatible (vs ++ [v])) :
    f'.Registers v ↔ f.Registers v := by
  have hLevel : (f'.levelAt v.vertexID).getD v.level = (f.levelAt v.vertexID).getD v.level := by
    cases hOld : f.levelAt v.vertexID with
    | some l => rw [h.kept _ l hOld]
    | none =>
        cases hNew : f'.levelAt v.vertexID with
        | none => rfl
        | some l =>
            obtain ⟨w, hw, hAsks⟩ := (h.levelAt _ l hOld).mp hNew
            rcases hAsks with ⟨_, hId, _⟩ | ⟨_, hId, rfl⟩
            · exact absurd hId.symm (hCompatible.last_fresh hw)
            · exact hCompatible.parent w (List.mem_append_left _ hw) v (by simp)
                (hId ▸ hOld) hId
  unfold Registers
  rw [h.accepts hCompatible, h.lowestLevel, hLevel]

theorem Grown.add (h : f.Grown vs f') (hCompatible : f.Compatible (vs ++ [v])) :
    f.Grown (vs ++ [v]) (f'.addVertex v) where
  toExtends := addVertex_extends h.keyed h.toExtends v
  keyed := (addVertex_spec h.keyed v).1
  lowestLevel := (addVertex_spec h.keyed v).2.1.trans h.lowestLevel
  getVertex id w := by
    rw [(addVertex_spec h.keyed v).2.2 id]
    split_ifs with hNew
    · obtain ⟨rfl, hAccepts⟩ := hNew
      have hEmpty := hAccepts.2
      rw [h.getVertex_next hCompatible] at hEmpty
      rw [Option.some_inj, hEmpty]
      constructor
      · rintro rfl
        exact Or.inr ⟨by simp, (h.accepts hCompatible).mp hAccepts, rfl⟩
      · rintro (hOld | ⟨hw, _, hId⟩)
        · cases hOld
        · exact List.inj_on_of_nodup_map hCompatible.distinct (by simp) hw hId
    · rw [h.getVertex, List.mem_append, List.mem_singleton]
      constructor
      · rintro (hOld | ⟨hw, hAccepts⟩)
        · exact Or.inl hOld
        · exact Or.inr ⟨Or.inl hw, hAccepts⟩
      · rintro (hOld | ⟨hw | rfl, hAccepts, hId⟩)
        · exact Or.inl hOld
        · exact Or.inr ⟨hw, hAccepts, hId⟩
        · exact absurd ⟨hId, hId ▸ (h.accepts hCompatible).mpr hAccepts⟩ hNew
  levelAt id l hUnknown := by
    rw [addVertex_levelAt_eq h.keyed]
    simp only [h.accepts hCompatible, h.registers hCompatible]
    have hLast : v ∈ vs ++ [v] := by simp
    cases hMade : f'.levelAt id with
    | some l' =>
        obtain ⟨w, hw, hAsks⟩ := (h.levelAt id l' hUnknown).mp hMade
        have hMem : w ∈ vs ++ [v] := List.mem_append_left _ hw
        rw [Option.some_or, Option.some_inj]
        constructor
        · rintro rfl
          exact ⟨w, hMem, hAsks⟩
        · rintro ⟨w', hw', hAsks'⟩
          exact hCompatible.agree hMem hw' hUnknown hAsks hAsks'
    | none =>
        have hNone : ¬∃ w ∈ vs, f.Asks w id l := by
          rw [← h.levelAt id l hUnknown, hMade]
          simp
        rw [Option.none_or, hCompatible.claim_iff hLast hUnknown]
        simp only [List.mem_append, List.mem_singleton, or_and_right, exists_or, hNone,
          exists_eq_left, false_or]
  childrenOf id := by
    rw [addVertex_childrenOf h.keyed, h.childrenOf, List.append_assoc, List.filter_append]
    simp only [h.registers hCompatible]
    by_cases hRegistered : f.Registers v ∧ v.parent.1 = id <;> simp [hRegistered]

theorem foldl_grown (hKeyed : f.WellKeyed) (hCompatible : f.Compatible vs) :
    f.Grown vs (vs.foldl addVertex f) := by
  induction vs using List.reverseRecOn with
  | nil => exact Grown.start hKeyed
  | append_singleton vs v ih =>
      rw [List.foldl_append]
      exact (ih hCompatible.init).add hCompatible

end Grown

/-- Two forests with the same containers: the same level and vertex under each identifier,
the same children and the same identifiers at each level, in whatever order. -/
structure Alike (f g : LevelledForest) : Prop where
  lowestLevel : f.lowestLevel = g.lowestLevel
  levelAt : ∀ id, f.levelAt id = g.levelAt id
  getVertex : ∀ id, f.getVertex id = g.getVertex id
  childrenOf : ∀ id, (f.childrenOf id).Perm (g.childrenOf id)
  idsAtLevel : ∀ l, (f.idsAtLevel l).Perm (g.idsAtLevel l)

/-- A forest does not remember the order in which compatible vertices were added. -/
theorem insertion_order_irrelevant {f : LevelledForest} {vs ws : List BlockContainer}
    (hKeyed : f.WellKeyed) (hCompatible : f.Compatible vs) (hPerm : vs.Perm ws) :
    (vs.foldl addVertex f).Alike (ws.foldl addVertex f) := by
  have hLeft := foldl_grown hKeyed hCompatible
  have hRight := foldl_grown hKeyed (hCompatible.perm hPerm)
  have hLevel : ∀ id, (vs.foldl addVertex f).levelAt id = (ws.foldl addVertex f).levelAt id := by
    intro id
    cases hOld : f.levelAt id with
    | some l => rw [hLeft.kept id l hOld, hRight.kept id l hOld]
    | none =>
        apply Option.ext
        intro l
        simp only [hLeft.levelAt id l hOld, hRight.levelAt id l hOld, hPerm.mem_iff]
  refine ⟨hLeft.lowestLevel.trans hRight.lowestLevel.symm, hLevel, ?_, ?_, ?_⟩
  · intro id
    apply Option.ext
    intro w
    rw [hLeft.getVertex, hRight.getVertex, hPerm.mem_iff]
  · intro id
    rw [hLeft.childrenOf, hRight.childrenOf]
    exact (hPerm.filter _).append_left _
  · intro l
    obtain ⟨new, hIds, hNodup, hNew⟩ := hLeft.appended l
    obtain ⟨new', hIds', hNodup', hNew'⟩ := hRight.appended l
    rw [hIds, hIds']
    refine List.Perm.append_left _ ((List.perm_ext_iff_of_nodup hNodup hNodup').mpr ?_)
    intro id
    rw [hNew, hNew', hLevel]

/-- A fork: two children of block 2, which is a child of block 1. -/
def fork : List BlockContainer :=
  [vertexAt 1 1 0 0, vertexAt 2 2 1 1, vertexAt 3 3 2 2, vertexAt 4 4 2 2]

theorem insertion_order_irrelevant_fork :
    (fork.foldl addVertex new).childrenOf 2 = [vertexAt 3 3 2 2, vertexAt 4 4 2 2] ∧
    (fork.reverse.foldl addVertex new).childrenOf 2 = [vertexAt 4 4 2 2, vertexAt 3 3 2 2] ∧
    (fork.foldl addVertex new).Alike (fork.reverse.foldl addVertex new) := by
  refine ⟨by decide, by decide, insertion_order_irrelevant new_wellKeyed ⟨?_, ?_, ?_⟩ ?_⟩
  · decide
  · decide
  · decide
  · exact (List.reverse_perm fork).symm

end LevelledForest
end Bamboo
