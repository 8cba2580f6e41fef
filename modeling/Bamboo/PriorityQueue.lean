import Bamboo.Library.BinaryHeap
import Bamboo.Library.FiniteMap
import Bamboo.Library.Outcome

/-! The priority queue: a heap of pointers to items, each of which knows its position, and a
table from values to the same items. Items are kept in one list and pointers are positions
in it. The queue is compared with a table of priorities. -/
namespace Bamboo

open Library BinaryHeap

/-- `item`. -/
structure Item (ν : Type) where
  value : ν
  priority : Int
  index : Nat
deriving DecidableEq, Repr

structure PriorityQueue (ν : Type) [DecidableEq ν] where
  /-- Every item that was ever made. -/
  items : List (Item ν) := []
  itemHeap : List Nat := []
  lookup : Table ν Nat := ∅

/-- The errors of `Remove` and `Pop`. -/
inductive QueueError where
  | notInQueue
  | emptyQueue
deriving DecidableEq, Repr

namespace PriorityQueue

variable {ν : Type} [DecidableEq ν]

/-- `Len`. -/
def len (p : PriorityQueue ν) : Nat :=
  p.itemHeap.length

/-- The item at a position of the heap. -/
def itemAt (p : PriorityQueue ν) (i : Nat) : Option (Item ν) :=
  p.itemHeap[i]?.bind fun pointer => p.items[pointer]?

/-- What `Less` compares. -/
def key (p : PriorityQueue ν) (i : Nat) : Int :=
  ((p.itemAt i).map Item.priority).getD 0

/-- A new position is written into an item. -/
def setIndex (items : List (Item ν)) (pointer i : Nat) : List (Item ν) :=
  items.modify pointer fun item => { item with index := i }

/-- `Swap`. -/
def swap (p : PriorityQueue ν) (i j : Nat) : PriorityQueue ν :=
  match p.itemHeap[i]?, p.itemHeap[j]? with
  | some first, some second =>
      { p with
        itemHeap := (p.itemHeap.set i second).set j first
        items := setIndex (setIndex p.items second i) first j }
  | _, _ => p

theorem getElem?_swapped {xs : List Nat} {i j first second : Nat} (hi : xs[i]? = some first)
    (hj : xs[j]? = some second) (k : Nat) :
    ((xs.set i second).set j first)[k]? = xs[Equiv.swap i j k]? := by
  have hi' := (List.getElem?_eq_some_iff.mp hi).1
  have hj' := (List.getElem?_eq_some_iff.mp hj).1
  by_cases hkj : k = j
  · subst hkj
    rw [Equiv.swap_apply_right, List.getElem?_set_self (by rw [List.length_set]; exact hj'), hi]
  · rw [List.getElem?_set_ne (Ne.symm hkj)]
    by_cases hki : k = i
    · subst hki
      rw [Equiv.swap_apply_left, List.getElem?_set_self hi', hj]
    · rw [List.getElem?_set_ne (Ne.symm hki), Equiv.swap_apply_of_ne_of_ne hki hkj]

omit [DecidableEq ν] in
theorem getElem?_setIndex (items : List (Item ν)) (pointer i k : Nat) :
    (setIndex items pointer i)[k]? =
      items[k]?.map fun item => if k = pointer then { item with index := i } else item := by
  rw [setIndex, List.getElem?_modify]
  by_cases h : pointer = k
  · simp [h]
  · simp [h, Ne.symm h]

omit [DecidableEq ν] in
/-- Values and priorities do not depend on the positions. -/
theorem map_setIndex {β : Type} {f : Item ν → β} (hf : ∀ item i, f { item with index := i } = f item)
    (items : List (Item ν)) (pointer i k : Nat) :
    (setIndex items pointer i)[k]?.map f = items[k]?.map f := by
  rw [getElem?_setIndex, Option.map_map]
  congr 1
  funext item
  by_cases h : k = pointer <;> simp [h, hf]

/-- The heap as the sifts see it. -/
def heapOps : Ops (PriorityQueue ν) Int where
  len := len
  key := key
  swap := swap
  len_swap p i j := by
    unfold swap len
    split <;> simp
  key_swap p i j k hi hj := by
    have hFirst := List.getElem?_eq_getElem (show i < p.itemHeap.length from hi)
    have hSecond := List.getElem?_eq_getElem (show j < p.itemHeap.length from hj)
    unfold swap key itemAt
    rw [hFirst, hSecond]
    simp only [getElem?_swapped hFirst hSecond]
    cases p.itemHeap[Equiv.swap i j k]? with
    | none => rfl
    | some pointer =>
        simp only [Option.bind_some]
        rw [map_setIndex (fun _ _ => rfl), map_setIndex (fun _ _ => rfl)]

/-- `Push`, of a new item. -/
def push (p : PriorityQueue ν) (v : ν) (priority : Int) : PriorityQueue ν :=
  { p with
    items := p.items ++ [{ value := v, priority, index := p.len }]
    itemHeap := p.itemHeap ++ [p.items.length] }

/-- `Insert`: a value that is there already is left alone. -/
def insert (p : PriorityQueue ν) (v : ν) (priority : Int) : PriorityQueue ν :=
  if v ∈ p.lookup then p
  else
    let raised := heapOps.up p.len (p.push v priority) p.len
    { raised with lookup := raised.lookup.insert v p.items.length }

/-- The `Pop` of the heap's own slice: its last pointer. -/
def popLast (p : PriorityQueue ν) : Outcome (Item ν × PriorityQueue ν) := do
  let pointer ← Outcome.index p.itemHeap (p.len - 1 : Int)
  match p.items[pointer]? with
  | none => throw .nilDereference
  | some item => pure (item, { p with itemHeap := p.itemHeap.dropLast })

/-- `heap.Remove`. -/
def removeAt (p : PriorityQueue ν) (i : Nat) : Outcome (Item ν × PriorityQueue ν) :=
  let n := p.len - 1
  if n = i then p.popLast
  else if p.len ≤ i then throw .outOfRange
  else (heapOps.fix n (p.swap i n) i).popLast

/-- `Remove`. -/
def remove (p : PriorityQueue ν) (v : ν) : Outcome (Except QueueError Unit × PriorityQueue ν) :=
  match p.lookup.lookup v with
  | none => pure (.error .notInQueue, p)
  | some pointer =>
      match p.items[pointer]? with
      | none => throw .nilDereference
      | some item => do
          let (_, p) ← p.removeAt item.index
          pure (.ok (), { p with lookup := p.lookup.erase v })

/-- `Pop`, with `heap.Pop` written out. -/
def pop (p : PriorityQueue ν) : Outcome (Except QueueError ν × PriorityQueue ν) :=
  if p.len = 0 then pure (.error .emptyQueue, p)
  else do
    let n := p.len - 1
    let (item, p) ← (heapOps.down n n (p.swap 0 n) 0).1.popLast
    pure (.ok item.value, { p with lookup := p.lookup.erase item.value })

/-- `UpdatePriority`. `heap.Fix` reads the item at the position unless it is the first. -/
def updatePriority (p : PriorityQueue ν) (x : ν) (newPriority : Int) : Outcome (PriorityQueue ν) :=
  match p.lookup.lookup x with
  | none => pure p
  | some pointer =>
      match p.items[pointer]? with
      | none => throw .nilDereference
      | some item =>
          let changed : PriorityQueue ν :=
            { p with items := p.items.modify pointer fun item =>
                { item with priority := newPriority } }
          if changed.len ≤ item.index ∧ item.index ≠ 0 then throw .outOfRange
          else pure (heapOps.fix changed.len changed item.index)

/-- The heap and a table point to the same items, and every item knows its position. -/
structure Linked (table : Table ν Nat) (p : PriorityQueue ν) : Prop where
  placed : ∀ k pointer, p.itemHeap[k]? = some pointer →
    ∃ item, p.items[pointer]? = some item ∧ item.index = k ∧ table.lookup item.value = some pointer
  known : ∀ v pointer, table.lookup v = some pointer →
    ∃ item, p.items[pointer]? = some item ∧ item.value = v ∧ p.itemHeap[item.index]? = some pointer

/-- The priority of a value, read through a table. -/
def priorityIn (table : Table ν Nat) (p : PriorityQueue ν) (v : ν) : Option Int :=
  (table.lookup v).bind fun pointer => p.items[pointer]?.map Item.priority

namespace Linked

variable {table : Table ν Nat} {p : PriorityQueue ν}

theorem injective (h : p.Linked table) {i j pointer : Nat} (hi : p.itemHeap[i]? = some pointer)
    (hj : p.itemHeap[j]? = some pointer) : i = j := by
  obtain ⟨item, hItem, rfl, _⟩ := h.placed i pointer hi
  obtain ⟨item', hItem', rfl, _⟩ := h.placed j pointer hj
  rw [hItem, Option.some.injEq] at hItem'
  rw [hItem']

theorem swap (h : p.Linked table) (i j : Nat) : (p.swap i j).Linked table := by
  unfold PriorityQueue.swap
  split
  case h_2 => exact h
  case h_1 first second hFirst hSecond =>
    have hPosition : ∀ k pointer, p.itemHeap[Equiv.swap i j k]? = some pointer →
        ∀ item, p.items[pointer]? = some item → item.index = Equiv.swap i j k →
        ∃ item', (setIndex (setIndex p.items second i) first j)[pointer]? = some item' ∧
          item'.value = item.value ∧ item'.index = k := by
      intro k pointer hAt item hItem hIndex
      rw [getElem?_setIndex, getElem?_setIndex, hItem]
      simp only [Option.map_some]
      refine ⟨_, rfl, ?_⟩
      by_cases hkj : k = j
      · subst hkj
        rw [Equiv.swap_apply_right, hFirst, Option.some.injEq] at hAt
        rw [if_pos hAt.symm]
        refine ⟨?_, rfl⟩
        split_ifs <;> rfl
      · have hNotFirst : pointer ≠ first := by
          rintro rfl
          have := h.injective hAt hFirst
          rw [Equiv.swap_apply_eq_iff, Equiv.swap_apply_left] at this
          exact hkj this
        rw [if_neg hNotFirst]
        by_cases hki : k = i
        · subst hki
          rw [Equiv.swap_apply_left, hSecond, Option.some.injEq] at hAt
          rw [if_pos hAt.symm]
          exact ⟨rfl, rfl⟩
        · rw [Equiv.swap_apply_of_ne_of_ne hki hkj] at hAt hIndex
          have hNotSecond : pointer ≠ second := by
            rintro rfl
            exact hkj (h.injective hAt hSecond)
          rw [if_neg hNotSecond]
          exact ⟨rfl, hIndex⟩
    constructor
    · intro k pointer hAt
      simp only [getElem?_swapped hFirst hSecond] at hAt
      obtain ⟨item, hItem, hIndex, hKnown⟩ := h.placed _ _ hAt
      obtain ⟨item', hItem', hValue, hIndex'⟩ := hPosition k pointer hAt item hItem hIndex
      exact ⟨item', hItem', hIndex', hValue ▸ hKnown⟩
    · intro v pointer hKnown
      obtain ⟨item, hItem, hValue, hAt⟩ := h.known v pointer hKnown
      have hAt' : p.itemHeap[Equiv.swap i j (Equiv.swap i j item.index)]? = some pointer := by
        rw [Equiv.swap_apply_self]
        exact hAt
      obtain ⟨item', hItem', hValue', hIndex'⟩ := hPosition (Equiv.swap i j item.index) pointer hAt'
        item hItem (by rw [Equiv.swap_apply_self])
      refine ⟨item', hItem', hValue'.trans hValue, ?_⟩
      simp only [getElem?_swapped hFirst hSecond]
      rw [hIndex']
      exact hAt'

end Linked

theorem priorityIn_swap (table : Table ν Nat) (p : PriorityQueue ν) (i j : Nat) (v : ν) :
    (p.swap i j).priorityIn table v = p.priorityIn table v := by
  unfold priorityIn swap
  split
  · cases table.lookup v with
    | none => rfl
    | some pointer =>
        simp only [Option.bind_some]
        rw [map_setIndex (fun _ _ => rfl), map_setIndex (fun _ _ => rfl)]
  · rfl

theorem lookup_swap (p : PriorityQueue ν) (i j : Nat) : (p.swap i j).lookup = p.lookup := by
  unfold swap
  split <;> rfl

/-- What the sifts among the first `n` positions leave as it is. -/
structure Sifted (table : Table ν Nat) (n : Nat) (p p' : PriorityQueue ν) : Prop where
  linked : p'.Linked table
  len : p'.len = p.len
  lookup : p'.lookup = p.lookup
  priority : ∀ v, p'.priorityIn table v = p.priorityIn table v
  rest : ∀ k, n ≤ k → p'.itemHeap[k]? = p.itemHeap[k]?

theorem Sifted.refl {table : Table ν Nat} {p : PriorityQueue ν} (h : p.Linked table) (n : Nat) :
    Sifted table n p p :=
  ⟨h, rfl, rfl, fun _ => rfl, fun _ _ => rfl⟩

theorem Sifted.swap {table : Table ν Nat} {n i j : Nat} {p p' : PriorityQueue ν}
    (h : Sifted table n p p') (hi : i < n) (hj : j < n) : Sifted table n p (p'.swap i j) where
  linked := h.linked.swap i j
  len := (heapOps.len_swap p' i j).trans h.len
  lookup := (lookup_swap p' i j).trans h.lookup
  priority v := (priorityIn_swap table p' i j v).trans (h.priority v)
  rest k hk := by
    rw [← h.rest k hk]
    unfold PriorityQueue.swap
    split
    · rename_i hFirst hSecond
      rw [getElem?_swapped hFirst hSecond, Equiv.swap_apply_of_ne_of_ne (by omega) (by omega)]
    · rfl

/-- The invariant of the queue. -/
structure WellFormed (p : PriorityQueue ν) : Prop where
  linked : p.Linked p.lookup
  ordered : heapOps.Ordered p p.len

/-- What the queue stands for: the values that it holds, with their priorities. -/
def priority (p : PriorityQueue ν) (v : ν) : Option Int :=
  p.priorityIn p.lookup v

theorem new_wellFormed : ({} : PriorityQueue ν).WellFormed where
  linked := ⟨fun k pointer hAt => by simp at hAt, fun v pointer hKnown => by simp at hKnown⟩
  ordered c _ hc := by simp [len] at hc

theorem key_of_itemAt {p : PriorityQueue ν} {k : Nat} {item : Item ν}
    (h : p.itemAt k = some item) : p.key k = item.priority := by
  rw [key, h]
  rfl

namespace WellFormed

variable {p : PriorityQueue ν}

theorem itemAt (h : p.WellFormed) {k : Nat} (hk : k < p.len) :
    ∃ item, p.itemAt k = some item ∧ p.priority item.value = some item.priority := by
  have hAt := List.getElem?_eq_getElem (show k < p.itemHeap.length from hk)
  obtain ⟨item, hItem, _, hKnown⟩ := h.linked.placed k _ hAt
  refine ⟨item, ?_, ?_⟩
  · rw [PriorityQueue.itemAt, hAt, Option.bind_some, hItem]
  · rw [priority, priorityIn, hKnown, Option.bind_some, hItem, Option.map_some]

/-- A value of the queue is in the heap. -/
theorem position (h : p.WellFormed) {v : ν} {pr : Int} (hPriority : p.priority v = some pr) :
    ∃ k < p.len, p.key k = pr := by
  obtain ⟨pointer, hKnown, hMap⟩ := Option.bind_eq_some_iff.mp hPriority
  obtain ⟨item, hItem, _, hAt⟩ := h.linked.known v pointer hKnown
  refine ⟨item.index, (List.getElem?_eq_some_iff.mp hAt).1, ?_⟩
  rw [hItem, Option.map_some, Option.some.injEq] at hMap
  rw [← hMap]
  apply key_of_itemAt
  rw [PriorityQueue.itemAt, hAt, Option.bind_some, hItem]

theorem priority_of_lookup (h : p.WellFormed) {v : ν} :
    p.priority v = none ↔ p.lookup.lookup v = none := by
  rw [priority, priorityIn]
  constructor
  · intro hNone
    match hLookup : p.lookup.lookup v with
    | none => rfl
    | some pointer =>
        obtain ⟨item, hItem, _⟩ := h.linked.known v pointer hLookup
        rw [hLookup, Option.bind_some, hItem] at hNone
        cases hNone
  · intro hNone
    rw [hNone, Option.bind_none]

/-- The item at the root has the least priority. -/
theorem root_le (h : p.WellFormed) {v : ν} {pr : Int} (hPriority : p.priority v = some pr) :
    p.key 0 ≤ pr := by
  obtain ⟨k, hk, rfl⟩ := h.position hPriority
  exact h.ordered.root_le hk

end WellFormed

section Push

variable {p : PriorityQueue ν} {v : ν} {pr : Int}

theorem items_push_of_some {pointer : Nat} {item : Item ν} (h : p.items[pointer]? = some item) :
    (p.push v pr).items[pointer]? = some item := by
  rw [push, List.getElem?_append_left (List.getElem?_eq_some_iff.mp h).1, h]

theorem items_push_last :
    (p.push v pr).items[p.items.length]? = some { value := v, priority := pr, index := p.len } := by
  simp [push]

theorem push_linked (h : p.WellFormed) (hNew : v ∉ p.lookup) :
    (p.push v pr).Linked (p.lookup.insert v p.items.length) := by
  constructor
  · intro k pointer hAt
    rcases lt_or_ge k p.len with hk | hk
    · rw [push, List.getElem?_append_left hk] at hAt
      obtain ⟨item, hItem, hIndex, hKnown⟩ := h.linked.placed k pointer hAt
      exact ⟨item, items_push_of_some hItem, hIndex, Table.lookup_insert_of_new hNew hKnown⟩
    · rw [push, List.getElem?_append_right hk] at hAt
      obtain ⟨hLast, hPointer⟩ := List.getElem?_eq_some_iff.mp hAt
      have hLast' : k - p.itemHeap.length = 0 := by simpa using hLast
      have hPointer' : p.items.length = pointer := by simpa using hPointer
      subst hPointer'
      refine ⟨_, items_push_last, ?_, Finmap.lookup_insert _⟩
      show p.itemHeap.length = k
      have : p.itemHeap.length ≤ k := hk
      omega
  · intro w pointer hKnown
    rcases Table.of_lookup_insert hKnown with ⟨rfl, rfl⟩ | hOld
    · refine ⟨_, items_push_last, rfl, ?_⟩
      simp [push, len]
    · obtain ⟨item, hItem, hValue, hAt⟩ := h.linked.known w pointer hOld
      refine ⟨item, items_push_of_some hItem, hValue, ?_⟩
      rw [push, List.getElem?_append_left (List.getElem?_eq_some_iff.mp hAt).1, hAt]

theorem priorityIn_push (h : p.WellFormed) (w : ν) :
    (p.push v pr).priorityIn (p.lookup.insert v p.items.length) w =
      if w = v then some pr else p.priority w := by
  rw [priorityIn, Table.lookup_insert_ite]
  split_ifs with hSame
  · rw [Option.bind_some, items_push_last, Option.map_some]
  · rw [priority, priorityIn]
    match hLookup : p.lookup.lookup w with
    | none => rfl
    | some pointer =>
        obtain ⟨item, hItem, _⟩ := h.linked.known w pointer hLookup
        rw [Option.bind_some, Option.bind_some, items_push_of_some hItem, hItem]

theorem key_push (h : p.WellFormed) {k : Nat} (hk : k < p.len) : (p.push v pr).key k = p.key k := by
  obtain ⟨item, hItem, _⟩ := h.itemAt hk
  rw [key_of_itemAt hItem]
  apply key_of_itemAt
  obtain ⟨pointer, hAt, hPointer⟩ := Option.bind_eq_some_iff.mp hItem
  rw [PriorityQueue.itemAt, push, List.getElem?_append_left hk, hAt, Option.bind_some]
  exact items_push_of_some hPointer

/-- A new last entry is a hole without children. -/
theorem push_hole (h : p.WellFormed) :
    heapOps.Hole (p.push v pr) (p.len + 1) p.len ∧ heapOps.Below (p.push v pr) (p.len + 1) p.len := by
  refine ⟨⟨?_, ?_⟩, ?_⟩
  · intro c hc hcn hLast _
    have hParent := parent_lt hc
    show (p.push v pr).key (parent c) ≤ (p.push v pr).key c
    rw [key_push h (by omega), key_push h (by omega)]
    exact h.ordered c hc (by omega)
  · intro c hc hcn hParent
    have := parent_lt hc
    omega
  · intro c hc hcn hParent
    have := parent_lt hc
    omega

end Push

theorem insert_spec {p : PriorityQueue ν} (h : p.WellFormed) (v : ν) (pr : Int) :
    (p.insert v pr).WellFormed ∧
      ∀ w, (p.insert v pr).priority w =
        if w = v ∧ p.priority v = none then some pr else p.priority w := by
  by_cases hNew : v ∈ p.lookup
  · have hSome : p.priority v ≠ none := fun hNone =>
      Finmap.lookup_eq_none.mp (h.priority_of_lookup.mp hNone) hNew
    rw [insert, if_pos hNew]
    refine ⟨h, fun w => ?_⟩
    rw [if_neg fun hBoth => hSome hBoth.2]
  · have hNone : p.priority v = none :=
      h.priority_of_lookup.mpr (Finmap.lookup_eq_none.mpr hNew)
    have hSifted : Sifted (p.lookup.insert v p.items.length) (p.len + 1) (p.push v pr)
        (heapOps.up p.len (p.push v pr) p.len) :=
      Ops.up_invariant (fun _ _ _ hi hj hSift => hSift.swap hi hj) (Nat.lt_succ_self _)
        (.refl (push_linked h hNew) _)
    have hLen : (p.push v pr).len = p.len + 1 := by simp [push, len]
    obtain ⟨hHole, hBelow⟩ : heapOps.Hole (p.push v pr) (p.len + 1) p.len ∧
        heapOps.Below (p.push v pr) (p.len + 1) p.len := push_hole h
    have hOrdered := Ops.up_ordered (le_refl p.len) (le_of_eq hLen.symm) (Nat.lt_succ_self _)
      hHole hBelow
    have hInsert : p.insert v pr = { heapOps.up p.len (p.push v pr) p.len with
        lookup := p.lookup.insert v p.items.length } := by
      rw [insert, if_neg hNew]
      show { heapOps.up p.len (p.push v pr) p.len with
        lookup := (heapOps.up p.len (p.push v pr) p.len).lookup.insert v p.items.length } = _
      rw [hSifted.lookup]
      rfl
    rw [hInsert]
    refine ⟨⟨⟨hSifted.linked.placed, hSifted.linked.known⟩, ?_⟩, fun w => ?_⟩
    · show heapOps.Ordered _ (heapOps.up p.len (p.push v pr) p.len).len
      rw [hSifted.len, hLen]
      exact hOrdered
    · show (heapOps.up p.len (p.push v pr) p.len).priorityIn (p.lookup.insert v p.items.length) w = _
      rw [hSifted.priority, priorityIn_push h]
      simp [hNone]

/-- The queue `p'` is `p` without the value `v`. -/
structure Removes (v : ν) (p p' : PriorityQueue ν) : Prop where
  wellFormed : p'.WellFormed
  priority : ∀ w, p'.priority w = if w = v then none else p.priority w

/-- Positions have been swapped so that the item at `i` is the last one and the rest is in
order. -/
structure Extracts (p : PriorityQueue ν) (i : Nat) (p' : PriorityQueue ν) : Prop where
  linked : p'.Linked p.lookup
  len : p'.len = p.len
  lookup : p'.lookup = p.lookup
  priority : ∀ v, p'.priorityIn p.lookup v = p.priority v
  last : p'.itemHeap[p.len - 1]? = p.itemHeap[i]?
  ordered : heapOps.Ordered p' (p.len - 1)

section Extract

variable {p p' : PriorityQueue ν} {i : Nat}

theorem popLast_linked {table : Table ν Nat} (h : p.Linked table) (hPos : 0 < p.len) :
    ∃ pointer item, p.itemHeap[p.len - 1]? = some pointer ∧ p.items[pointer]? = some item ∧
      p.popLast = .ok (item, { p with itemHeap := p.itemHeap.dropLast }) ∧
      { p with itemHeap := p.itemHeap.dropLast }.Linked (table.erase item.value) := by
  have hLast := List.getElem?_eq_getElem (show p.len - 1 < p.itemHeap.length from
    Nat.sub_lt hPos Nat.one_pos)
  obtain ⟨item, hItem, hIndex, hKnown⟩ := h.placed _ _ hLast
  refine ⟨_, item, hLast, hItem, ?_, ?_, ?_⟩
  · have hIndex : (p.len : Int) - 1 = (p.len - 1 : Nat) := by omega
    rw [popLast, hIndex, Outcome.index_eq_ok.mpr hLast, Outcome.ok_bind, hItem]
    rfl
  · intro k pointer hAt
    obtain ⟨hk, hAt'⟩ : k < p.len - 1 ∧ p.itemHeap[k]? = some pointer := by
      have hk := (List.getElem?_eq_some_iff.mp hAt).1
      rw [List.length_dropLast] at hk
      rw [List.getElem?_dropLast, if_pos hk] at hAt
      exact ⟨hk, hAt⟩
    obtain ⟨other, hOther, hOtherIndex, hOtherKnown⟩ := h.placed k pointer hAt'
    refine ⟨other, hOther, hOtherIndex, ?_⟩
    rw [Table.lookup_erase_ite, if_neg, hOtherKnown]
    intro hSame
    rw [hSame, hKnown, Option.some.injEq] at hOtherKnown
    have := h.injective hAt' (hOtherKnown ▸ hLast)
    omega
  · intro w pointer hLookup
    rw [Table.lookup_erase_ite] at hLookup
    split_ifs at hLookup with hSame
    obtain ⟨other, hOther, hValue, hAt⟩ := h.known w pointer hLookup
    refine ⟨other, hOther, hValue, ?_⟩
    have hk : other.index < p.itemHeap.length := (List.getElem?_eq_some_iff.mp hAt).1
    have hNotLast : other.index ≠ p.itemHeap.length - 1 := by
      intro hEq
      rw [hEq] at hAt
      have hPointer := hLast.symm.trans hAt
      rw [Option.some.injEq] at hPointer
      rw [hPointer, hOther, Option.some.injEq] at hItem
      exact hSame (by rw [← hValue, hItem])
    rw [List.getElem?_dropLast, if_pos (by omega)]
    exact hAt

theorem key_dropLast {table : Table ν Nat} {k : Nat} (hk : k < p.len - 1) :
    heapOps.key { p with itemHeap := p.itemHeap.dropLast, lookup := table } k = heapOps.key p k := by
  show (Option.map _ (p.itemHeap.dropLast[k]?.bind _)).getD 0 = _
  rw [List.getElem?_dropLast, if_pos (show k < p.itemHeap.length - 1 from hk)]
  rfl

/-- The last item goes. -/
theorem Extracts.popLast (h : p.Extracts i p') (hWell : p.WellFormed) (hi : i < p.len) :
    ∃ item p'', p'.popLast = .ok (item, p'') ∧
      (∃ old, p.itemAt i = some old ∧ old.value = item.value ∧ old.priority = item.priority) ∧
      Removes item.value p { p'' with lookup := p''.lookup.erase item.value } := by
  have hPos : 0 < p'.len := by
    rw [h.len]
    omega
  obtain ⟨pointer, item, hLast, hItem, hPop, hLinked⟩ := popLast_linked h.linked hPos
  rw [h.len, h.last] at hLast
  obtain ⟨old, hOld, _, hKnown⟩ := hWell.linked.placed i pointer hLast
  obtain ⟨item', hItem', _, hKnown'⟩ := h.linked.placed (p.len - 1) pointer (h.last.trans hLast)
  rw [hItem, Option.some.injEq] at hItem'
  subst hItem'
  have hValue : old.value = item.value := by
    obtain ⟨found, hFound, hFoundValue, _⟩ := hWell.linked.known _ _ hKnown'
    rw [hOld, Option.some.injEq] at hFound
    rw [hFound, hFoundValue]
  have hPriority : old.priority = item.priority := by
    have hSame := h.priority item.value
    rw [PriorityQueue.priority, priorityIn, priorityIn, hKnown', Option.bind_some,
      Option.bind_some, hItem, hOld] at hSame
    exact (Option.some.inj hSame).symm
  refine ⟨item, _, hPop, ⟨old, ?_, hValue, hPriority⟩, ⟨?_, ?_⟩, ?_⟩
  · rw [PriorityQueue.itemAt, hLast, Option.bind_some, hOld]
  · exact ⟨h.lookup ▸ hLinked.placed, h.lookup ▸ hLinked.known⟩
  · intro c hc hcn
    have hn : c < p.len - 1 := by
      rw [← h.len]
      exact lt_of_lt_of_eq hcn List.length_dropLast
    have hParent := parent_lt hc
    have hLen := h.len
    have hOrder := h.ordered c hc hn
    rw [← key_dropLast (k := c) (by omega), ← key_dropLast (k := parent c) (by omega)] at hOrder
    exact hOrder
  · intro w
    rw [PriorityQueue.priority, priorityIn, Table.lookup_erase_ite, h.lookup]
    split_ifs with hSame
    · rfl
    · exact h.priority w

/-- The item at `i` changes places with the last one. -/
theorem WellFormed.swap_last (h : p.WellFormed) (hi : i < p.len) :
    Sifted p.lookup (p.len - 1) (p.swap i (p.len - 1)) (p.swap i (p.len - 1)) ∧
      (p.swap i (p.len - 1)).itemHeap[p.len - 1]? = p.itemHeap[i]? ∧
      heapOps.Hole (p.swap i (p.len - 1)) (p.len - 1) i := by
  have hLast : p.len - 1 < p.len := by omega
  refine ⟨.refl (h.linked.swap _ _) _, ?_, ?_⟩
  · have hFirst := List.getElem?_eq_getElem (show i < p.itemHeap.length from hi)
    have hSecond := List.getElem?_eq_getElem (show p.len - 1 < p.itemHeap.length from hLast)
    rw [PriorityQueue.swap, hFirst, hSecond]
    simp only [getElem?_swapped hFirst hSecond, Equiv.swap_apply_right, hFirst]
  · have hOrdered : heapOps.Ordered p (p.len - 1) := fun c hc hcn => h.ordered c hc (by omega)
    exact hOrdered.hole fun k hk hki => Ops.key_swap_other hi hLast hki (by omega)

theorem Sifted.extracts
    (hSwap : (p.swap i (p.len - 1)).itemHeap[p.len - 1]? = p.itemHeap[i]?)
    (hSifted : Sifted p.lookup (p.len - 1) (p.swap i (p.len - 1)) p')
    (hOrdered : heapOps.Ordered p' (p.len - 1)) : p.Extracts i p' where
  linked := hSifted.linked
  len := hSifted.len.trans (heapOps.len_swap p i _)
  lookup := hSifted.lookup.trans (lookup_swap p i _)
  priority v := (hSifted.priority v).trans (priorityIn_swap _ p i _ v)
  last := (hSifted.rest _ (le_refl _)).trans hSwap
  ordered := hOrdered

theorem removeAt_spec (h : p.WellFormed) (hi : i < p.len) :
    ∃ item p', p.removeAt i = .ok (item, p') ∧
      (∃ old, p.itemAt i = some old ∧ old.value = item.value ∧ old.priority = item.priority) ∧
      Removes item.value p { p' with lookup := p'.lookup.erase item.value } := by
  by_cases hLast : p.len - 1 = i
  · have hExtracts : p.Extracts i p := by
      refine ⟨h.linked, rfl, rfl, fun _ => rfl, by rw [hLast], fun c hc hcn => ?_⟩
      exact h.ordered c hc (by omega)
    rw [removeAt, if_pos hLast]
    exact hExtracts.popLast h hi
  · obtain ⟨hRefl, hSwap, hHole⟩ := h.swap_last hi
    have hSifted : Sifted p.lookup (p.len - 1) (p.swap i (p.len - 1))
        (heapOps.fix (p.len - 1) (p.swap i (p.len - 1)) i) :=
      Ops.fix_invariant (fun _ _ _ hi hj hSift => hSift.swap hi hj) (by omega) hRefl
    have hLen : heapOps.len (p.swap i (p.len - 1)) = p.len := heapOps.len_swap p i _
    have hOrdered := Ops.fix_ordered (by omega) (by omega) hHole
    rw [removeAt, if_neg hLast, if_neg (by omega)]
    exact (hSifted.extracts hSwap hOrdered).popLast h hi

theorem pop_spec (h : p.WellFormed) (hPos : p.len ≠ 0) :
    ∃ v pr p', p.pop = .ok (.ok v, p') ∧ p.priority v = some pr ∧
      (∀ w pr', p.priority w = some pr' → pr ≤ pr') ∧ Removes v p p' := by
  have hFirst : 0 < p.len := by omega
  obtain ⟨hRefl, hSwap, hHole⟩ := h.swap_last hFirst
  have hSifted : Sifted p.lookup (p.len - 1) (p.swap 0 (p.len - 1))
      (heapOps.down (p.len - 1) (p.len - 1) (p.swap 0 (p.len - 1)) 0).1 := by
    rcases Nat.eq_zero_or_pos (p.len - 1) with hZero | hMore
    · have hStay : (heapOps.down (p.len - 1) (p.len - 1) (p.swap 0 (p.len - 1)) 0).1 =
          p.swap 0 (p.len - 1) := by
        simp only [hZero]
        rfl
      rw [hStay]
      exact hRefl
    · exact Ops.down_invariant (fun _ _ _ hi hj hSift => hSift.swap hi hj) hMore hRefl
  have hLen : heapOps.len (p.swap 0 (p.len - 1)) = p.len := heapOps.len_swap p 0 _
  have hOrdered : heapOps.Ordered
      (heapOps.down (p.len - 1) (p.len - 1) (p.swap 0 (p.len - 1)) 0).1 (p.len - 1) :=
    Ops.down_ordered (by omega) (by omega) hHole fun hRoot => absurd hRoot (lt_irrefl 0)
  obtain ⟨item, p', hPop, ⟨old, hOld, hValue, hPriority⟩, hRemoves⟩ :=
    (hSifted.extracts hSwap hOrdered).popLast h hFirst
  refine ⟨item.value, item.priority, _, ?_, ?_, fun w pr' hw => ?_, hRemoves⟩
  · simp only [pop, if_neg hPos, hPop, Outcome.ok_bind]
    rfl
  · obtain ⟨found, hFound, hFoundPriority⟩ := h.itemAt hFirst
    rw [hOld, Option.some.injEq] at hFound
    rw [← hValue, ← hPriority, hFound]
    exact hFoundPriority
  · rw [← hPriority, ← key_of_itemAt hOld]
    exact h.root_le hw

theorem remove_spec (h : p.WellFormed) {v : ν} {pr : Int} (hPriority : p.priority v = some pr) :
    ∃ p', p.remove v = .ok (.ok (), p') ∧ Removes v p p' := by
  obtain ⟨pointer, hLookup, _⟩ := Option.bind_eq_some_iff.mp hPriority
  obtain ⟨item, hItem, hValue, hAt⟩ := h.linked.known v pointer hLookup
  obtain ⟨removed, p', hRemove, ⟨old, hOld, hOldValue, _⟩, hRemoves⟩ :=
    removeAt_spec h (List.getElem?_eq_some_iff.mp hAt).1
  rw [PriorityQueue.itemAt, hAt, Option.bind_some, hItem, Option.some.injEq] at hOld
  rw [← hOldValue, ← hOld, hValue] at hRemoves
  refine ⟨_, ?_, hRemoves⟩
  rw [remove, hLookup]
  simp only [hItem, hRemove, Outcome.ok_bind]
  rfl

end Extract

theorem remove_absent {p : PriorityQueue ν} (h : p.WellFormed) {v : ν} (hNone : p.priority v = none) :
    p.remove v = .ok (.error .notInQueue, p) := by
  rw [remove, h.priority_of_lookup.mp hNone]
  rfl

theorem pop_empty {p : PriorityQueue ν} (h : p.WellFormed) (hZero : p.len = 0) :
    p.pop = .ok (.error .emptyQueue, p) ∧ ∀ v, p.priority v = none := by
  refine ⟨by rw [pop, if_pos hZero]; rfl, fun v => ?_⟩
  match hPriority : p.priority v with
  | none => rfl
  | some pr =>
      obtain ⟨k, hk, _⟩ := h.position hPriority
      omega

/-- The new priority is written into the item. -/
def reprioritize (p : PriorityQueue ν) (pointer : Nat) (newPriority : Int) : PriorityQueue ν :=
  { p with items := p.items.modify pointer fun item => { item with priority := newPriority } }

section Update

variable {p : PriorityQueue ν} {pointer : Nat} {newPriority : Int}

theorem items_reprioritize (k : Nat) :
    (p.reprioritize pointer newPriority).items[k]? = p.items[k]?.map fun item =>
      if k = pointer then { item with priority := newPriority } else item := by
  rw [reprioritize, List.getElem?_modify]
  by_cases h : pointer = k
  · simp [h]
  · simp [h, Ne.symm h]

theorem reprioritize_linked (h : p.WellFormed) :
    (p.reprioritize pointer newPriority).Linked p.lookup := by
  constructor
  · intro k other hAt
    obtain ⟨item, hItem, hIndex, hKnown⟩ := h.linked.placed k other hAt
    refine ⟨_, by rw [items_reprioritize, hItem, Option.map_some], ?_⟩
    by_cases hSame : other = pointer
    · rw [if_pos hSame]
      exact ⟨hIndex, hKnown⟩
    · rw [if_neg hSame]
      exact ⟨hIndex, hKnown⟩
  · intro w other hKnown
    obtain ⟨item, hItem, hValue, hAt⟩ := h.linked.known w other hKnown
    refine ⟨_, by rw [items_reprioritize, hItem, Option.map_some], ?_⟩
    by_cases hSame : other = pointer
    · rw [if_pos hSame]
      exact ⟨hValue, hAt⟩
    · rw [if_neg hSame]
      exact ⟨hValue, hAt⟩

theorem priorityIn_reprioritize (h : p.WellFormed) {x : ν} (hLookup : p.lookup.lookup x = some pointer)
    (w : ν) : (p.reprioritize pointer newPriority).priorityIn p.lookup w =
      if w = x then some newPriority else p.priority w := by
  rw [priorityIn, priority, priorityIn]
  match hOther : p.lookup.lookup w with
  | none =>
      have hNe : w ≠ x := by
        rintro rfl
        rw [hOther] at hLookup
        cases hLookup
      rw [if_neg hNe]
      rfl
  | some other =>
      obtain ⟨item, hItem, hValue, _⟩ := h.linked.known w other hOther
      obtain ⟨item', hItem', hValue', _⟩ := h.linked.known x pointer hLookup
      simp only [Option.bind_some, items_reprioritize, hItem, Option.map_some]
      by_cases hSame : other = pointer
      · subst hSame
        rw [hItem, Option.some.injEq] at hItem'
        rw [if_pos rfl, if_pos (by rw [← hValue, ← hValue', hItem'])]
      · have hNe : w ≠ x := by
          rintro rfl
          rw [hOther, Option.some.injEq] at hLookup
          exact hSame hLookup
        rw [if_neg hSame, if_neg hNe]

theorem reprioritize_hole (h : p.WellFormed) {item : Item ν}
    (hAt : p.itemHeap[item.index]? = some pointer) :
    heapOps.Hole (p.reprioritize pointer newPriority) p.len item.index := by
  refine h.ordered.hole fun k hk hki => ?_
  obtain ⟨other, hOther⟩ : ∃ other, p.itemHeap[k]? = some other :=
    ⟨_, List.getElem?_eq_getElem (show k < p.itemHeap.length from hk)⟩
  have hNe : other ≠ pointer := fun hEq => hki (h.linked.injective (hEq ▸ hOther) hAt)
  show (Option.map _ (p.itemHeap[k]?.bind _)).getD 0 = (Option.map _ (p.itemHeap[k]?.bind _)).getD 0
  simp only [hOther, Option.bind_some, items_reprioritize, if_neg hNe, Option.map_id']

theorem updatePriority_spec (h : p.WellFormed) (x : ν) (newPriority : Int) :
    ∃ p', p.updatePriority x newPriority = .ok p' ∧ p'.WellFormed ∧
      ∀ w, p'.priority w =
        if w = x ∧ p.priority x ≠ none then some newPriority else p.priority w := by
  match hLookup : p.lookup.lookup x with
  | none =>
      refine ⟨p, by rw [updatePriority, hLookup]; rfl, h, fun w => ?_⟩
      rw [if_neg fun hBoth => hBoth.2 (h.priority_of_lookup.mpr hLookup)]
  | some pointer =>
      obtain ⟨item, hItem, _, hAt⟩ := h.linked.known x pointer hLookup
      have hIndex : item.index < p.len := (List.getElem?_eq_some_iff.mp hAt).1
      have hSome : p.priority x ≠ none := by
        rw [Ne, h.priority_of_lookup, hLookup]
        simp
      generalize hChanged : p.reprioritize pointer newPriority = changed
      have hLinked : changed.Linked p.lookup := hChanged ▸ reprioritize_linked h
      have hLen : changed.len = p.len := by rw [← hChanged]; rfl
      have hTable : changed.lookup = p.lookup := by rw [← hChanged]; rfl
      have hHole : heapOps.Hole changed p.len item.index := hChanged ▸ reprioritize_hole h hAt
      have hSifted : Sifted p.lookup p.len changed (heapOps.fix p.len changed item.index) :=
        Ops.fix_invariant (fun _ _ _ hi hj hSift => hSift.swap hi hj) hIndex (.refl hLinked _)
      have hOrdered := Ops.fix_ordered (le_of_eq hLen.symm) hIndex hHole
      refine ⟨heapOps.fix p.len changed item.index, ?_, ⟨?_, ?_⟩, fun w => ?_⟩
      · rw [updatePriority, hLookup]
        simp only [hItem]
        show (if (p.reprioritize pointer newPriority).len ≤ item.index ∧ item.index ≠ 0 then _
          else pure (heapOps.fix (p.reprioritize pointer newPriority).len
            (p.reprioritize pointer newPriority) item.index)) = _
        rw [hChanged, hLen, if_neg (by omega)]
        rfl
      · rw [hSifted.lookup, hTable]
        exact hSifted.linked
      · rw [hSifted.len, hLen]
        exact hOrdered
      · rw [priority, hSifted.lookup, hTable, hSifted.priority, ← hChanged,
          priorityIn_reprioritize h hLookup]
        simp [hSome]

end Update

/-- The values of the queue. -/
def values (p : PriorityQueue ν) : Finset ν :=
  p.lookup.keys

section Values

variable {p p' : PriorityQueue ν}

theorem WellFormed.mem_values (h : p.WellFormed) {v : ν} : v ∈ p.values ↔ p.priority v ≠ none := by
  rw [values, Finmap.mem_keys, ← Finmap.lookup_isSome, Ne, h.priority_of_lookup,
    Option.isSome_iff_ne_none]

theorem WellFormed.card_values (h : p.WellFormed) : p.values.card = p.len := by
  rw [← Finset.card_range p.len]
  let position (v : ν) : Nat :=
    ((p.lookup.lookup v).bind fun pointer => p.items[pointer]?.map Item.index).getD 0
  have hPosition : ∀ {v pointer item}, p.lookup.lookup v = some pointer →
      p.items[pointer]? = some item → position v = item.index := by
    intro v pointer item hLookup hItem
    simp [position, hLookup, hItem]
  have hKnown : ∀ {v}, v ∈ p.values → ∃ pointer item, p.lookup.lookup v = some pointer ∧
      p.items[pointer]? = some item ∧ item.value = v ∧ p.itemHeap[item.index]? = some pointer := by
    intro v hv
    obtain ⟨pointer, hLookup⟩ := Finmap.mem_iff.mp (Finmap.mem_keys.mp hv)
    obtain ⟨item, hItem, hValue, hAt⟩ := h.linked.known v pointer hLookup
    exact ⟨pointer, item, hLookup, hItem, hValue, hAt⟩
  refine Finset.card_nbij position ?_ ?_ ?_
  · intro v hv
    obtain ⟨pointer, item, hLookup, hItem, _, hAt⟩ := hKnown hv
    rw [hPosition hLookup hItem, Finset.mem_coe, Finset.mem_range]
    exact (List.getElem?_eq_some_iff.mp hAt).1
  · intro v hv w hw hSame
    obtain ⟨pointer, item, hLookup, hItem, hValue, hAt⟩ := hKnown hv
    obtain ⟨pointer', item', hLookup', hItem', hValue', hAt'⟩ := hKnown hw
    rw [hPosition hLookup hItem, hPosition hLookup' hItem'] at hSame
    rw [hSame, hAt', Option.some.injEq] at hAt
    rw [hAt, hItem, Option.some.injEq] at hItem'
    rw [← hValue, ← hValue', hItem']
  · intro k hk
    have hk' : k < p.itemHeap.length := Finset.mem_range.mp hk
    obtain ⟨item, hItem, hIndex, hLookup⟩ := h.linked.placed k _ (List.getElem?_eq_getElem hk')
    refine ⟨item.value, Finmap.mem_keys.mpr (Table.mem_of_lookup hLookup), ?_⟩
    rw [hPosition hLookup hItem, hIndex]

theorem Removes.values {v : ν} (h : p.WellFormed) (hRemoves : Removes v p p') :
    p'.values = p.values.erase v := by
  ext w
  rw [hRemoves.wellFormed.mem_values, hRemoves.priority, Finset.mem_erase, h.mem_values]
  split_ifs with hSame
  · simp [hSame]
  · simp [hSame]

end Values

/-- The first `n` values that are popped; fewer if the queue becomes empty. -/
def popMany : Nat → PriorityQueue ν → Outcome (List ν × PriorityQueue ν)
  | 0, p => pure ([], p)
  | n + 1, p => do
      let (result, p) ← p.pop
      match result with
      | .error _ => pure ([], p)
      | .ok v => do
          let (rest, p) ← popMany n p
          pure (v :: rest, p)

/-- The values `vs` have left the queue in the order of their priorities, before all that
have stayed. -/
structure Drains (vs : List ν) (p p' : PriorityQueue ν) : Prop where
  wellFormed : p'.WellFormed
  nodup : vs.Nodup
  mem : ∀ v ∈ vs, v ∈ p.values
  values : p'.values = p.values \ vs.toFinset
  priority : ∀ v ∈ p'.values, p'.priority v = p.priority v
  sorted : vs.Pairwise fun v w => ∀ a b, p.priority v = some a → p.priority w = some b → a ≤ b
  first : ∀ v ∈ vs, ∀ w ∈ p'.values, ∀ a b, p.priority v = some a → p.priority w = some b → a ≤ b

theorem Drains.cons {p p' p'' : PriorityQueue ν} {v : ν} {pr : Int} {vs : List ν} (h : p.WellFormed)
    (hPriority : p.priority v = some pr) (hLeast : ∀ w pr', p.priority w = some pr' → pr ≤ pr')
    (hRemoves : Removes v p p') (hDrains : Drains vs p' p'') : Drains (v :: vs) p p'' := by
  have hValues := hRemoves.values h
  have hOther : ∀ {w}, w ∈ p'.values → p'.priority w = p.priority w := by
    intro w hw
    rw [hValues, Finset.mem_erase] at hw
    rw [hRemoves.priority, if_neg hw.1]
  have hLater : ∀ w ∈ vs, w ∈ p'.values := hDrains.mem
  have hNotMem : v ∉ vs := fun hv => by
    have := hLater v hv
    rw [hValues] at this
    exact Finset.notMem_erase v _ this
  have hFirst : ∀ w a b, p.priority v = some a → p.priority w = some b → a ≤ b := by
    intro w a b ha hb
    rw [hPriority, Option.some.injEq] at ha
    exact ha ▸ hLeast w b hb
  have hStay : ∀ {w}, w ∈ p''.values → w ∈ p'.values := by
    intro w hw
    rw [hDrains.values] at hw
    exact (Finset.mem_sdiff.mp hw).1
  constructor
  case wellFormed => exact hDrains.wellFormed
  case nodup => exact List.nodup_cons.mpr ⟨hNotMem, hDrains.nodup⟩
  case mem =>
    intro w hw
    rcases List.mem_cons.mp hw with rfl | hw
    · rw [h.mem_values, hPriority]
      simp
    · exact Finset.mem_of_mem_erase (hValues ▸ hLater w hw)
  case values =>
    rw [hDrains.values, hValues, List.toFinset_cons]
    ext w
    simp only [Finset.mem_sdiff, Finset.mem_erase, Finset.mem_insert]
    tauto
  case priority =>
    intro w hw
    rw [hDrains.priority w hw, hOther (hStay hw)]
  case sorted =>
    refine List.pairwise_cons.mpr ⟨fun w _ a b => hFirst w a b, ?_⟩
    refine hDrains.sorted.imp_of_mem fun {w w'} hw hw' hOrder a b ha hb => ?_
    rw [← hOther (hLater w hw)] at ha
    rw [← hOther (hLater w' hw')] at hb
    exact hOrder a b ha hb
  case first =>
    intro w hw w' hw' a b ha hb
    rcases List.mem_cons.mp hw with rfl | hw
    · exact hFirst w' a b ha hb
    · rw [← hOther (hLater w hw)] at ha
      rw [← hOther (hStay hw')] at hb
      exact hDrains.first w hw w' hw' a b ha hb

theorem popMany_spec {p : PriorityQueue ν} (h : p.WellFormed) {n : Nat} (hn : n ≤ p.len) :
    ∃ vs p', popMany n p = .ok (vs, p') ∧ vs.length = n ∧ Drains vs p p' := by
  induction n generalizing p with
  | zero =>
      refine ⟨[], p, rfl, rfl, h, List.nodup_nil, by simp, by simp, fun _ _ => rfl, .nil, by simp⟩
  | succ n ih =>
      obtain ⟨v, pr, p', hPop, hPriority, hLeast, hRemoves⟩ := pop_spec h (by omega)
      have hLen : p'.len + 1 = p.len := by
        rw [← hRemoves.wellFormed.card_values, ← h.card_values, hRemoves.values h]
        apply Finset.card_erase_add_one
        rw [h.mem_values, hPriority]
        simp
      obtain ⟨vs, p'', hRest, hLength, hDrains⟩ := ih hRemoves.wellFormed (by omega)
      refine ⟨v :: vs, p'', ?_, by rw [List.length_cons, hLength],
        hDrains.cons h hPriority hLeast hRemoves⟩
      rw [popMany, hPop, Outcome.ok_bind]
      simp only [hRest, Outcome.ok_bind]
      rfl

/-! ### Runs -/

/-- The calls of the queue's methods. -/
inductive Call (ν : Type) where
  | insert (v : ν) (priority : Int)
  | remove (v : ν)
  | pop
  | updatePriority (v : ν) (newPriority : Int)

/-- What a call returns. -/
inductive Reply (ν : Type) where
  | done
  | removed (result : Except QueueError Unit)
  | popped (result : Except QueueError ν)

def perform (p : PriorityQueue ν) : Call ν → Outcome (Reply ν × PriorityQueue ν)
  | .insert v priority => pure (.done, p.insert v priority)
  | .remove v => do
      let (result, p) ← p.remove v
      pure (.removed result, p)
  | .pop => do
      let (result, p) ← p.pop
      pure (.popped result, p)
  | .updatePriority v newPriority => do
      let p ← p.updatePriority v newPriority
      pure (.done, p)

/-- The calls one after the other, with their replies. -/
def performAll (p : PriorityQueue ν) : List (Call ν) → Outcome (List (Reply ν) × PriorityQueue ν)
  | [] => pure ([], p)
  | call :: rest => do
      let (reply, p) ← p.perform call
      let (replies, p) ← p.performAll rest
      pure (reply :: replies, p)

/-- What a call means for a table of priorities. Where several values have the least
priority, any of them may be popped. -/
inductive Meaning : (ν → Option Int) → Call ν → Reply ν → (ν → Option Int) → Prop
  | insert {table : ν → Option Int} {v : ν} (pr : Int) (hNew : table v = none) :
      Meaning table (.insert v pr) .done (Function.update table v (some pr))
  | present {table : ν → Option Int} {v : ν} {old : Int} (pr : Int) (hOld : table v = some old) :
      Meaning table (.insert v pr) .done table
  | remove {table : ν → Option Int} {v : ν} {old : Int} (hOld : table v = some old) :
      Meaning table (.remove v) (.removed (.ok ())) (Function.update table v none)
  | absent {table : ν → Option Int} {v : ν} (hNew : table v = none) :
      Meaning table (.remove v) (.removed (.error .notInQueue)) table
  | pop {table : ν → Option Int} {v : ν} {pr : Int} (hOld : table v = some pr)
      (hLeast : ∀ w pr', table w = some pr' → pr ≤ pr') :
      Meaning table .pop (.popped (.ok v)) (Function.update table v none)
  | empty {table : ν → Option Int} (hEmpty : ∀ v, table v = none) :
      Meaning table .pop (.popped (.error .emptyQueue)) table
  | update {table : ν → Option Int} {v : ν} {old : Int} (pr : Int) (hOld : table v = some old) :
      Meaning table (.updatePriority v pr) .done (Function.update table v (some pr))
  | ignore {table : ν → Option Int} {v : ν} (pr : Int) (hNew : table v = none) :
      Meaning table (.updatePriority v pr) .done table

inductive Meanings : (ν → Option Int) → List (Call ν) → List (Reply ν) → (ν → Option Int) → Prop
  | nil (table : ν → Option Int) : Meanings table [] [] table
  | cons {table table' table'' : ν → Option Int} {call : Call ν} {reply : Reply ν}
      {calls : List (Call ν)} {replies : List (Reply ν)} (hCall : Meaning table call reply table')
      (hRest : Meanings table' calls replies table'') :
      Meanings table (call :: calls) (reply :: replies) table''

theorem perform_spec {p : PriorityQueue ν} (h : p.WellFormed) (call : Call ν) :
    ∃ reply p', p.perform call = .ok (reply, p') ∧ p'.WellFormed ∧
      Meaning p.priority call reply p'.priority := by
  cases call with
  | insert v pr =>
      obtain ⟨hWell, hPriority⟩ := insert_spec h v pr
      refine ⟨.done, p.insert v pr, rfl, hWell, ?_⟩
      match hOld : p.priority v with
      | none =>
          have hTable : (p.insert v pr).priority = Function.update p.priority v (some pr) := by
            funext w
            simp [hPriority, hOld, Function.update_apply]
          rw [hTable]
          exact .insert pr hOld
      | some old =>
          have hTable : (p.insert v pr).priority = p.priority := by
            funext w
            simp [hPriority, hOld]
          rw [hTable]
          exact .present pr hOld
  | remove v =>
      match hOld : p.priority v with
      | none =>
          refine ⟨_, p, ?_, h, .absent hOld⟩
          rw [perform, remove_absent h hOld, Outcome.ok_bind]
          rfl
      | some old =>
          obtain ⟨p', hRemove, hRemoves⟩ := remove_spec h hOld
          have hTable : p'.priority = Function.update p.priority v none := by
            funext w
            simp [hRemoves.priority, Function.update_apply]
          refine ⟨.removed (.ok ()), p', ?_, hRemoves.wellFormed, by rw [hTable]; exact .remove hOld⟩
          rw [perform, hRemove, Outcome.ok_bind]
          rfl
  | pop =>
      by_cases hLen : p.len = 0
      · obtain ⟨hPop, hEmpty⟩ := pop_empty h hLen
        refine ⟨_, p, ?_, h, .empty hEmpty⟩
        rw [perform, hPop, Outcome.ok_bind]
        rfl
      · obtain ⟨v, pr, p', hPop, hOld, hLeast, hRemoves⟩ := pop_spec h hLen
        have hTable : p'.priority = Function.update p.priority v none := by
          funext w
          simp [hRemoves.priority, Function.update_apply]
        refine ⟨.popped (.ok v), p', ?_, hRemoves.wellFormed, by rw [hTable]; exact .pop hOld hLeast⟩
        rw [perform, hPop, Outcome.ok_bind]
        rfl
  | updatePriority v pr =>
      obtain ⟨p', hUpdate, hWell, hPriority⟩ := updatePriority_spec h v pr
      refine ⟨.done, p', by rw [perform, hUpdate, Outcome.ok_bind]; rfl, hWell, ?_⟩
      match hOld : p.priority v with
      | none =>
          have hTable : p'.priority = p.priority := by
            funext w
            simp [hPriority, hOld]
          rw [hTable]
          exact .ignore pr hOld
      | some old =>
          have hTable : p'.priority = Function.update p.priority v (some pr) := by
            funext w
            simp [hPriority, hOld, Function.update_apply]
          rw [hTable]
          exact .update pr hOld

theorem performAll_spec {p : PriorityQueue ν} (h : p.WellFormed) (calls : List (Call ν)) :
    ∃ replies p', p.performAll calls = .ok (replies, p') ∧ p'.WellFormed ∧
      Meanings p.priority calls replies p'.priority := by
  induction calls generalizing p with
  | nil => exact ⟨[], p, rfl, h, .nil _⟩
  | cons call rest ih =>
      obtain ⟨reply, p', hCall, hWell, hMeaning⟩ := perform_spec h call
      obtain ⟨replies, p'', hRest, hWell', hMeanings⟩ := ih hWell
      refine ⟨reply :: replies, p'', ?_, hWell', .cons hMeaning hMeanings⟩
      rw [performAll, hCall, Outcome.ok_bind]
      simp only [hRest, Outcome.ok_bind]
      rfl

/-- Every sequence of calls on a new queue returns, no index is out of range, and the replies
are those of a table of priorities from which the least entry is popped. -/
theorem performAll_refines (calls : List (Call ν)) :
    ∃ replies p', performAll ({} : PriorityQueue ν) calls = .ok (replies, p') ∧
      Meanings (fun _ => none) calls replies p'.priority := by
  obtain ⟨replies, p', hCalls, _, hMeanings⟩ := performAll_spec (new_wellFormed (ν := ν)) calls
  exact ⟨replies, p', hCalls, hMeanings⟩

end PriorityQueue
end Bamboo
