import Bamboo.Blockchain.Insertion
import Bamboo.Blockchain.Totality
import Mathlib.Data.List.Dedup
import Mathlib.Data.List.ReduceOption

/-! The children of a block. `GetChildrenBlocks` reads the children that have registered
with a container, so it has to be shown that the containers which are left always have all
of theirs, whatever came first. The map of containers holds pointers, and the queries read
the entry of an identifier without asking whether there is one. -/
namespace Bamboo

open Library

/-- The iterator over a list of containers, of which it reads the vertices. -/
structure VertexIterator where
  data : List (Option BlockContainer)
  idx : Nat := 0
  next : Option BlockContainer := none

namespace VertexIterator

/-- The loop of `preLoad`; it has as many turns as there are containers left. -/
def skip : Nat → VertexIterator → VertexIterator
  | 0, it => { it with next := none }
  | turns + 1, it =>
      match it.data[it.idx]? with
      | none => { it with next := none }
      | some none => skip turns { it with idx := it.idx + 1 }
      | some (some v) => { it with idx := it.idx + 1, next := some v }

def preLoad (it : VertexIterator) : VertexIterator :=
  it.skip (it.data.length - it.idx)

def nextVertex (it : VertexIterator) : Option BlockContainer × VertexIterator :=
  (it.next, it.preLoad)

def hasNext (it : VertexIterator) : Bool :=
  it.next.isSome

/-- The loop of `GetChildrenBlocks`, with the blocks found. -/
def collect : Nat → VertexIterator → List Block → Outcome (List Block)
  | 0, _, _ => throw .diverges
  | turns + 1, it, blocks =>
      if it.hasNext then
        match it.nextVertex with
        | (none, _) => throw .nilDereference
        | (some v, it) => collect turns it (blocks ++ [v.block])
      else pure blocks

end VertexIterator

def newVertexIterator (vertexList : List (Option BlockContainer)) : VertexIterator :=
  VertexIterator.preLoad { data := vertexList }

namespace LevelledForest

/-- The vertices of a container's children. Only full containers are registered. -/
def childVertices (container : VertexContainer) : List (Option BlockContainer) :=
  container.children.map some

/-- An identifier without an entry gives a nil pointer, whose children are read. -/
def getChildren (f : LevelledForest) (id : Identifier) : Outcome VertexIterator :=
  match f.vertices.lookup id with
  | none => throw .nilDereference
  | some container => pure (newVertexIterator (childVertices container))

def getNumberOfChildren (f : LevelledForest) (id : Identifier) : Outcome Nat :=
  match f.vertices.lookup id with
  | none => throw .nilDereference
  | some container => pure ((childVertices container).countP Option.isSome)

end LevelledForest

def BlockChain.getChildrenBlocks (bc : BlockChain) (id : Identifier) : Outcome (List Block) := do
  let iterator ← bc.forrest.getChildren id
  iterator.collect (iterator.data.length + 1) []

namespace VertexIterator

/-- The vertices that the iterator has not given out. -/
def remaining (it : VertexIterator) : List BlockContainer :=
  it.next.toList ++ (it.data.drop it.idx).reduceOption

/-- The next vertex is the first one that is left. -/
theorem skip_remaining {turns : Nat} {it : VertexIterator}
    (hTurns : it.data.length - it.idx ≤ turns) :
    (it.skip turns).remaining = (it.data.drop it.idx).reduceOption ∧
      ((it.skip turns).next = none → (it.skip turns).remaining = []) := by
  induction turns generalizing it with
  | zero =>
      have hDrop : it.data.drop it.idx = [] := List.drop_eq_nil_of_le (by omega)
      simp [skip, remaining, hDrop]
  | succ turns ih =>
      unfold skip
      cases hHere : it.data[it.idx]? with
      | none =>
          have hDrop : it.data.drop it.idx = [] :=
            List.drop_eq_nil_of_le (List.getElem?_eq_none_iff.mp hHere)
          simp [remaining, hDrop]
      | some entry =>
          obtain ⟨hInside, hEntry⟩ := List.getElem?_eq_some_iff.mp hHere
          have hDrop := List.drop_eq_getElem_cons hInside
          rw [hEntry] at hDrop
          cases entry with
          | none =>
              have hNext := @ih { it with idx := it.idx + 1 } (by dsimp only; omega)
              rw [hDrop, List.reduceOption_cons_of_none]
              exact hNext
          | some v =>
              rw [hDrop, List.reduceOption_cons_of_some]
              exact ⟨rfl, fun hNone => nomatch hNone⟩

theorem preLoad_remaining (it : VertexIterator) :
    it.preLoad.remaining = (it.data.drop it.idx).reduceOption ∧
      (it.preLoad.next = none → it.preLoad.remaining = []) :=
  skip_remaining (le_refl _)

/-- The loop gives out everything that is left, in order. -/
theorem collect_eq {turns : Nat} {it : VertexIterator} (hTurns : it.remaining.length < turns)
    (hLoaded : it.next = none → it.remaining = []) (blocks : List Block) :
    it.collect turns blocks = .ok (blocks ++ it.remaining.map BlockContainer.block) := by
  induction turns generalizing it blocks with
  | zero => omega
  | succ turns ih =>
      unfold collect hasNext nextVertex
      cases hNext : it.next with
      | none =>
          rw [hLoaded hNext]
          simp [pure, Except.pure]
      | some v =>
          obtain ⟨hRest, hLoaded'⟩ := it.preLoad_remaining
          have hHere : it.remaining = v :: it.preLoad.remaining := by
            rw [hRest, remaining, hNext]
            rfl
          rw [hHere] at hTurns ⊢
          have hLater := ih (Nat.lt_of_succ_lt_succ hTurns) hLoaded' (blocks ++ [v.block])
          simpa using hLater

end VertexIterator

theorem newVertexIterator_collect (vertexList : List (Option BlockContainer)) :
    (newVertexIterator vertexList).collect (vertexList.length + 1) [] =
      .ok (vertexList.reduceOption.map BlockContainer.block) := by
  obtain ⟨hRest, hLoaded⟩ := VertexIterator.preLoad_remaining { data := vertexList }
  have hLength : (newVertexIterator vertexList).remaining.length < vertexList.length + 1 := by
    rw [newVertexIterator, hRest]
    exact Nat.lt_succ_of_le (List.reduceOption_length_le vertexList)
  have hCollect := VertexIterator.collect_eq hLength hLoaded []
  rw [newVertexIterator, hRest] at hCollect
  exact hCollect

namespace VertexIterator

@[simp] theorem skip_data (turns : Nat) (it : VertexIterator) : (it.skip turns).data = it.data := by
  induction turns generalizing it with
  | zero => rfl
  | succ turns ih =>
      unfold skip
      split
      · rfl
      · rw [ih]
      · rfl

end VertexIterator

namespace BlockChain

open LevelledForest (childVertices)

/-- The queries read the registered children of a container and need that there is one. -/
theorem getChildrenBlocks_eq (bc : BlockChain) (id : Identifier) :
    (bc.forrest.vertices.lookup id = none → bc.getChildrenBlocks id = .error .nilDereference) ∧
      (bc.forrest.vertices.lookup id ≠ none →
        bc.getChildrenBlocks id = .ok ((bc.forrest.childrenOf id).map BlockContainer.block)) := by
  unfold getChildrenBlocks LevelledForest.getChildren LevelledForest.childrenOf
  cases bc.forrest.vertices.lookup id with
  | none => exact ⟨fun _ => rfl, fun hSome => absurd rfl hSome⟩
  | some container =>
      refine ⟨(nomatch ·), fun _ => ?_⟩
      have hData : (newVertexIterator (childVertices container)).data = childVertices container :=
        VertexIterator.skip_data _ _
      change (newVertexIterator (childVertices container)).collect (_ + 1) [] = _
      rw [hData, newVertexIterator_collect]
      simp [childVertices, List.reduceOption, List.filterMap_map]

theorem getNumberOfChildren_eq (bc : BlockChain) {id : Identifier} {blocks : List Block}
    (h : bc.getChildrenBlocks id = .ok blocks) :
    bc.forrest.getNumberOfChildren id = .ok blocks.length := by
  cases hLookup : bc.forrest.vertices.lookup id with
  | none => cases ((getChildrenBlocks_eq bc id).1 hLookup).symm.trans h
  | some container =>
      cases ((getChildrenBlocks_eq bc id).2 (by simp [hLookup])).symm.trans h
      simp [LevelledForest.getNumberOfChildren, LevelledForest.childrenOf, hLookup, childVertices,
        pure, Except.pure]

end BlockChain

/-- The blocks in the order in which each was added first. -/
def firsts (blocks : List BlockContainer) : List BlockContainer :=
  blocks.reverse.dedup.reverse

theorem firsts_append (blocks : List BlockContainer) (v : BlockContainer) :
    firsts (blocks ++ [v]) = firsts blocks ++ if v ∈ blocks then [] else [v] := by
  unfold firsts
  rw [List.reverse_append, List.reverse_singleton, List.singleton_append]
  by_cases hOld : v ∈ blocks
  · rw [List.dedup_cons_of_mem (List.mem_reverse.mpr hOld), if_pos hOld, List.append_nil]
  · rw [List.dedup_cons_of_notMem (mt List.mem_reverse.mp hOld), if_neg hOld, List.reverse_cons]

@[simp] theorem mem_firsts {blocks : List BlockContainer} {v : BlockContainer} :
    v ∈ firsts blocks ↔ v ∈ blocks := by
  simp [firsts]

theorem nodup_firsts (blocks : List BlockContainer) : (firsts blocks).Nodup :=
  List.nodup_reverse.mpr (List.nodup_dedup _)

/-- Distinct identifiers, each of which names a block of one view, and certificates that give
the parent's view, below the block's own. -/
structure Named (viewOf : Identifier → View) (blocks : List BlockContainer) : Prop where
  distinct : ∀ v ∈ blocks, ∀ w ∈ blocks, v.vertexID = w.vertexID → v = w
  own : ∀ v ∈ blocks, v.block.view = viewOf v.block.id
  claimed : ∀ v ∈ blocks, v.qc.view = viewOf v.block.prevID
  above : ∀ v ∈ blocks, v.qc.view < v.block.view
  start : ∀ v ∈ blocks, 0 ≤ v.qc.view

section Named

variable {viewOf : Identifier → View} {blocks : List BlockContainer} {v : BlockContainer}

theorem Named.mono {past : List BlockContainer} (h : Named viewOf blocks) (hPast : past ⊆ blocks) :
    Named viewOf past where
  distinct v hv w hw := h.distinct v (hPast hv) w (hPast hw)
  own v hv := h.own v (hPast hv)
  claimed v hv := h.claimed v (hPast hv)
  above v hv := h.above v (hPast hv)
  start v hv := h.start v (hPast hv)

theorem Named.level (h : Named viewOf blocks) (hv : v ∈ blocks) :
    v.level = levelOf (viewOf v.vertexID) :=
  congrArg levelOf (h.own v hv)

theorem Named.parent_level (h : Named viewOf blocks) (hv : v ∈ blocks) :
    v.parent.2 = levelOf (viewOf v.parent.1) :=
  congrArg levelOf (h.claimed v hv)

theorem Named.parent_lt (h : Named viewOf blocks) (hv : v ∈ blocks) : v.parent.2 < v.level := by
  have hAbove := h.above v hv
  have hStart := h.start v hv
  unfold BlockContainer.parent BlockContainer.level levelOf
  rw [if_pos hStart, if_pos (hStart.trans hAbove.le)]
  lia

end Named

namespace LevelledForest

/-- The forest after some blocks have been added, with prunes between them: the blocks of
the retained levels are stored, and the containers of these levels have all their children. -/
structure Registered (viewOf : Identifier → View) (past : List BlockContainer)
    (f : LevelledForest) : Prop where
  keyed : f.WellKeyed
  indexed : f.Indexed
  stored : ∀ id v, f.getVertex id = some v → v ∈ past
  levels : ∀ id l, f.levelAt id = some l → l = levelOf (viewOf id)
  seen : ∀ v ∈ past, f.lowestLevel ≤ v.level → f.getVertex v.vertexID = some v
  children : ∀ id, f.lowestLevel ≤ levelOf (viewOf id) →
    f.childrenOf id = (firsts past).filter fun v => v.block.prevID = id

section Registered

variable {viewOf : Identifier → View} {past : List BlockContainer} {f : LevelledForest}
  {v : BlockContainer}

theorem new_registered (viewOf : Identifier → View) : new.Registered viewOf [] where
  keyed := new_wellKeyed
  indexed := new_indexed
  stored id v hv := by simp at hv
  levels id l hl := by simp [new, levelAt] at hl
  seen v hv := by cases hv
  children id _ := by simp [new, childrenOf, firsts]

/-- Only the block itself is stored under its identifier. -/
theorem Registered.stored_own (h : f.Registered viewOf past) (hNamed : Named viewOf (past ++ [v])) :
    f.getVertex v.vertexID = none ∨ f.getVertex v.vertexID = some v ∧ v ∈ past := by
  cases hStored : f.getVertex v.vertexID with
  | none => exact Or.inl rfl
  | some w =>
      have hw := h.stored _ w hStored
      have hSame : w = v := hNamed.distinct w (List.mem_append_left _ hw) v (by simp)
        (h.keyed.vertexID hStored)
      exact Or.inr ⟨congrArg some hSame, hSame ▸ hw⟩

/-- A block is registered with the container of its parent, if that one is retained, the
first time it is added. -/
theorem Registered.registers_iff (h : f.Registered viewOf past)
    (hNamed : Named viewOf (past ++ [v])) (hParent : f.lowestLevel ≤ v.parent.2) :
    f.Registers v ↔ v ∉ past := by
  have hAbove := hNamed.parent_lt (v := v) (by simp)
  constructor
  · intro hRegisters hOld
    have hStored := h.seen v hOld hRegisters.1.1
    rw [hRegisters.1.2] at hStored
    cases hStored
  · intro hNew
    have hLevel : (f.levelAt v.vertexID).getD v.level = v.level := by
      cases hAt : f.levelAt v.vertexID with
      | none => rfl
      | some l => exact (h.levels _ l hAt).trans (hNamed.level (by simp)).symm
    have hNone := (h.stored_own hNamed).resolve_right fun hBoth => hNew hBoth.2
    refine ⟨⟨by omega, hNone⟩, ?_, hParent⟩
    omega

theorem Registered.addVertex (h : f.Registered viewOf past) (hNamed : Named viewOf (past ++ [v])) :
    (f.addVertex v).Registered viewOf (past ++ [v]) where
  keyed := (addVertex_spec h.keyed v).1
  indexed := addVertex_indexed h.keyed h.indexed v
  stored id w hw := by
    rw [(addVertex_spec h.keyed v).2.2] at hw
    split_ifs at hw
    · cases hw
      simp
    · exact List.mem_append_left _ (h.stored id w hw)
  levels id l hl := by
    rcases addVertex_levelAt h.keyed hl with hOld | ⟨rfl, rfl⟩ | ⟨rfl, rfl⟩
    · exact h.levels id l hOld
    · exact hNamed.level (by simp)
    · exact hNamed.parent_level (by simp)
  seen w hw hLevel := by
    rw [(addVertex_spec h.keyed v).2.1] at hLevel
    rw [(addVertex_spec h.keyed v).2.2]
    rcases List.mem_append.mp hw with hOld | hNew
    · rw [h.seen w hOld hLevel]
      simp
    · cases List.mem_singleton.mp hNew
      rcases h.stored_own hNamed with hNone | ⟨hStored, _⟩
      · rw [if_pos ⟨rfl, hLevel, hNone⟩]
      · rw [hStored]
        simp
  children id hLevel := by
    rw [(addVertex_spec h.keyed v).2.1] at hLevel
    rw [addVertex_childrenOf h.keyed, h.children id hLevel, firsts_append, List.filter_append]
    congr 1
    -- What is appended to the children is what is new among the added blocks.
    by_cases hId : v.block.prevID = id
    · have hSame : v.parent.1 = id := hId
      have hParent : f.lowestLevel ≤ v.parent.2 := by
        rw [hNamed.parent_level (by simp), hSame]
        exact hLevel
      by_cases hOld : v ∈ past
      · have hNot : ¬f.Registers v := fun hR => (h.registers_iff hNamed hParent).mp hR hOld
        simp [hOld, hNot]
      · have hYes := (h.registers_iff hNamed hParent).mpr hOld
        simp [hOld, hYes, hId, BlockContainer.parent]
    · by_cases hOld : v ∈ past <;> simp [hOld, hId, BlockContainer.parent]

/-- What is retained is at its own level, so that no child of it is pruned. -/
theorem Registered.prunes {f' : LevelledForest} {level count : Nat} {forked : List Block}
    (h : f.Registered viewOf past) (hNamed : Named viewOf past)
    (hPrune : f.pruneUpToLevel level = .ok (some (f', forked, count))) :
    f'.Registered viewOf past := by
  obtain ⟨committed, hPrunes⟩ := pruneUpToLevel_prunes h.indexed hPrune
  have hKeeps := pruneUpToLevel_keepsFrom h.indexed hPrune
  have hLowest := hPrunes.lowestLevel
  have hAllowed := hPrunes.allowed
  exact {
    keyed := pruneUpToLevel_wellKeyed h.keyed hPrune
    indexed := hPrunes.indexed
    stored := fun id v hv => h.stored id v ((hPrunes.getVertex id v).mp hv).1
    levels := fun id l hl => h.levels id l ((hPrunes.levelAt id l).mp hl).1
    seen := fun v hv hLevel => by
      rw [hLowest] at hLevel
      have hStored := h.seen v hv (hAllowed.trans hLevel)
      obtain ⟨l, hAt⟩ := levelAt_of_getVertex hStored
      have hOwn := (h.levels _ l hAt).trans (hNamed.level hv).symm
      exact (hPrunes.getVertex _ v).mpr ⟨hStored, l, hAt, hOwn ▸ hLevel⟩
    children := fun id hLevel => by
      rw [hLowest] at hLevel
      rw [← h.children id (hAllowed.trans hLevel)]
      have hKept : ¬∃ l, f.levelAt id = some l ∧ l < level := by
        rintro ⟨l, hAt, hLow⟩
        rw [h.levels id l hAt] at hLow
        exact absurd hLow (not_lt.mpr hLevel)
      unfold childrenOf
      rw [hKeeps id, if_neg hKept] }

end Registered
end LevelledForest

namespace BlockChain

theorem added_append (past : List Call) (call : Call) :
    added (past ++ [call]) = added past ++ added [call] :=
  List.filterMap_append

theorem Call.perform_registered {viewOf : Identifier → View} {past : List Call}
    {bc bc' : BlockChain} {call : Call} (h : bc.forrest.Registered viewOf (added past))
    (hNamed : Named viewOf (added (past ++ [call]))) (hPerform : call.perform bc = .ok bc') :
    bc'.forrest.Registered viewOf (added (past ++ [call])) := by
  rw [added_append] at hNamed ⊢
  cases call with
  | addBlock container =>
      cases Outcome.pure_eq_ok.mp hPerform
      exact h.addVertex hNamed
  | addVote vote =>
      cases Outcome.pure_eq_ok.mp hPerform
      exact (List.append_nil (added past)).symm ▸ h
  | commitBlock id view =>
      have hSame : added past ++ added [Call.commitBlock id view] = added past :=
        List.append_nil (added past)
      rw [hSame] at hNamed ⊢
      obtain ⟨⟨_, result⟩, hCommit, hDone⟩ := Outcome.bind_eq_ok.mp hPerform
      cases Outcome.pure_eq_ok.mp hDone
      rcases commitBlock_cases hCommit with ⟨_, hForest⟩ | ⟨head, _, forked, count, _, _, _, hPrune, _⟩
      · rw [hForest]
        exact h
      · exact h.prunes hNamed hPrune

theorem run_registered {viewOf : Identifier → View} {n : Nat} {calls : List Call}
    {bc : BlockChain} (hNamed : Named viewOf (added calls))
    (hRun : run Call.perform (new n) calls = .ok bc) :
    bc.forrest.Registered viewOf (added calls) := by
  have hHistory := run_history
    (P := fun past (bc : BlockChain) => Named viewOf (added past) →
      bc.forrest.Registered viewOf (added past))
    (fun past bc call bc' h _ hPerform hNamed => by
      have hPast : added past ⊆ added (past ++ [call]) := by
        rw [added_append]
        exact List.subset_append_left _ _
      exact Call.perform_registered (h (hNamed.mono hPast)) hNamed hPerform)
    (guarded_true _ calls) hRun [] (fun _ => LevelledForest.new_registered viewOf)
  exact hHistory hNamed

/-- With a container, the query for the children returns the stored blocks on top of it, each
once and in the order in which they were added. Without one it does not return. -/
theorem getChildrenBlocks_exact {viewOf : Identifier → View} {n : Nat} {calls : List Call}
    {bc : BlockChain} (hNamed : Named viewOf (added calls))
    (hRun : run Call.perform (new n) calls = .ok bc) (id : Identifier) :
    (bc.forrest.vertices.lookup id ≠ none →
      ∃ blocks, bc.getChildrenBlocks id = .ok blocks ∧
        bc.forrest.getNumberOfChildren id = .ok blocks.length ∧ blocks.Nodup ∧
        blocks.Sublist ((firsts (added calls)).map BlockContainer.block) ∧
        ∀ block, block ∈ blocks ↔ bc.getBlockByID block.id = some block ∧ block.prevID = id) ∧
    (bc.forrest.vertices.lookup id = none →
      bc.getChildrenBlocks id = .error .nilDereference) := by
  have h := run_registered hNamed hRun
  refine ⟨fun hContainer => ?_, (getChildrenBlocks_eq bc id).1⟩
  obtain ⟨container, hLookup⟩ := Option.ne_none_iff_exists'.mp hContainer
  have hAt : bc.forrest.levelAt id = some container.level := by
    rw [LevelledForest.levelAt, hLookup]
    rfl
  have hLevel : bc.forrest.lowestLevel ≤ levelOf (viewOf id) :=
    h.levels id _ hAt ▸ h.indexed.retained id _ hAt
  have hQuery := (getChildrenBlocks_eq bc id).2 hContainer
  rw [h.children id hLevel] at hQuery
  refine ⟨_, hQuery, getNumberOfChildren_eq bc hQuery, ?_⟩
  refine ⟨?_, ?_, fun block => ?_⟩
  · refine List.Nodup.map_on (fun v hv w hw hSame => ?_) ((nodup_firsts _).filter _)
    have hIn : ∀ u, u ∈ (firsts (added calls)).filter (fun u => u.block.prevID = id) →
        u ∈ added calls := fun u hu => mem_firsts.mp (List.mem_of_mem_filter hu)
    exact hNamed.distinct v (hIn v hv) w (hIn w hw) (congrArg (fun block : Block => block.id) hSame)
  · exact List.filter_sublist.map _
  · constructor
    · intro hBlock
      obtain ⟨v, hv, rfl⟩ := List.mem_map.mp hBlock
      obtain ⟨hFirst, hId⟩ := List.mem_filter.mp hv
      have hAdded := mem_firsts.mp hFirst
      have hParent : v.parent.1 = id := of_decide_eq_true hId
      -- The parent is retained, so the block above it is.
      have hRetained : bc.forrest.lowestLevel ≤ v.level := by
        have hBelow := hNamed.parent_lt hAdded
        rw [hNamed.parent_level hAdded, hParent] at hBelow
        exact hLevel.trans hBelow.le
      exact ⟨getBlockByID_eq_some.mpr ⟨v, h.seen v hAdded hRetained, rfl⟩, hParent⟩
    · rintro ⟨hStored, hId⟩
      obtain ⟨v, hv, rfl⟩ := getBlockByID_eq_some.mp hStored
      refine List.mem_map.mpr ⟨v, List.mem_filter.mpr ⟨?_, decide_eq_true hId⟩, rfl⟩
      exact mem_firsts.mpr (h.stored _ v hv)

open LevelledForest (vertexAt)

/-- Two blocks on top of block 2, one of them before it and added twice, and a commit that
prunes the container below block 1. -/
def siblings : List Call :=
  [.addBlock (vertexAt 4 4 2 2), .addBlock (vertexAt 1 1 0 0), .addBlock (vertexAt 2 2 1 1),
    .commitBlock 1 3, .addBlock (vertexAt 3 3 2 2), .addBlock (vertexAt 4 4 2 2)]

theorem getChildrenBlocks_exact_siblings :
    Named (fun id => id.toNat) (added siblings) ∧
      ∃ bc blocks, run Call.perform (new 4) siblings = .ok bc ∧
        bc.getChildrenBlocks 2 = .ok blocks ∧ blocks.map (fun block => block.id) = [4, 3] ∧
        ∀ block, block ∈ blocks ↔ bc.getBlockByID block.id = some block ∧ block.prevID = 2 := by
  have hNamed : Named (fun id => id.toNat) (added siblings) :=
    ⟨by decide, by decide, by decide, by decide, by decide⟩
  obtain ⟨bc, hRun, hContainer, hQuery⟩ := Outcome.of_test
    (P := fun bc : BlockChain => bc.forrest.vertices.lookup 2 ≠ none ∧
      Outcome.test (bc.getChildrenBlocks 2)
        (fun blocks => blocks.map (fun block => block.id) = [4, 3]) = true)
    (x := run Call.perform (new 4) siblings) (by decide)
  obtain ⟨blocks, hBlocks, hIds⟩ := Outcome.of_test hQuery
  obtain ⟨found, hFound, _, _, _, hExact⟩ := (getChildrenBlocks_exact hNamed hRun 2).1 hContainer
  cases hFound.symm.trans hBlocks
  exact ⟨hNamed, bc, blocks, hRun, hBlocks, hIds, hExact⟩

/-- The query does not return for an identifier that has never been named, nor for one whose
container has been pruned. Under a certificate of a negative view, which is a high level, it
returns a block that is not stored any more. -/
theorem getChildrenBlocks_faults :
    (new 4).getChildrenBlocks 7 = .error .nilDereference ∧
    (∃ bc, run Call.perform (new 4) siblings = .ok bc ∧
      bc.getChildrenBlocks 0 = .error .nilDereference) ∧
    ∃ bc block, run Call.perform (new 4) [.addBlock (vertexAt 1 1 9 (-1)),
        .addBlock (vertexAt 2 2 1 1), .commitBlock 2 3] = .ok bc ∧
      bc.getChildrenBlocks 9 = .ok [block] ∧ bc.getBlockByID block.id = none :=
  ⟨rfl, ⟨_, rfl, rfl⟩, _, _, rfl, rfl, rfl⟩

end BlockChain
end Bamboo
