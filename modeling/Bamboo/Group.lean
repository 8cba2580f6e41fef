import Bamboo.Identity
import Mathlib.Data.Finset.Insert

/-! The configuration read by the mempool and the executor, and the broadcast
groups. Groups are filled in turn: each group starts at the node after the last
member of the group before it, and wraps around. -/
namespace Bamboo

open Library

structure Settings where
  n : Nat
  /-- The number of acks after which a microblock is stable. -/
  q : Int
  bsize : Int
  memsize : Int
  groupNum : Nat := 1
  memberNum : Nat := 0
  broadcastByGroup : Bool := false
  broadcastBySample : Bool := false
  loadBalance : Bool := false
  /-- The nodes up to this number may forward their microblocks. -/
  loadedIndex : Int := 0
  onlyworker : Bool := false

structure GroupManager where
  groupList : List (Finset NodeID)
  myGroup : Finset Int

namespace GroupManager

/-- The inner loop of `initGroup`: `count` members are added to group `i`, and
the running number is returned with them. -/
def fillGroup (n : Nat) (i : Int) : Nat → Int → Finset NodeID × Int
  | 0, startNum => (∅, startNum)
  | count + 1, startNum =>
      let (content, last) := fillGroup n i count (startNum + 1)
      (insert (newNodeID ((i + startNum).tmod n + 1)) content, last)

/-- The outer loop of `initGroup`, for `count` groups from group `i` on. -/
def initGroups (n memberNum : Nat) (myId : NodeID) : Nat → Int → Int → GroupManager
  | 0, _, _ => { groupList := [], myGroup := ∅ }
  | count + 1, i, startNum =>
      let (content, last) := fillGroup n i memberNum startNum
      let later := initGroups n memberNum myId count (i + 1) (last - 1)
      { groupList := content :: later.groupList
        myGroup := if myId ∈ content then insert i later.myGroup else later.myGroup }

def new (cfg : Settings) (myId : NodeID) : GroupManager :=
  initGroups cfg.n cfg.memberNum myId cfg.groupNum 0 0

def isInMyGroup (gm : GroupManager) (groupId : Int) : Bool :=
  groupId ∈ gm.myGroup

def getGroupListByGroupId (gm : GroupManager) (groupId : Int) : Outcome (Finset NodeID) :=
  Outcome.index gm.groupList groupId

def isInGroup (gm : GroupManager) (groupId : Int) (node : NodeID) : Outcome Bool := do
  let content ← gm.getGroupListByGroupId groupId
  pure (decide (node ∈ content))

/-- The loop of `NodeInGroup` and `NotInGroup` over the node numbers; the group is looked
up again for every node. -/
def selectNodes (gm : GroupManager) (groupId : Int) (inside : Bool) :
    List Nat → Outcome (List NodeID)
  | [] => pure []
  | i :: rest => do
      let found ← gm.isInGroup groupId (newNodeID i)
      let later ← selectNodes gm groupId inside rest
      pure (if found = inside then newNodeID i :: later else later)

def nodeInGroup (cfg : Settings) (gm : GroupManager) (groupId : Int) : Outcome (List NodeID) :=
  gm.selectNodes groupId true (List.range' 1 cfg.n)

def notInGroup (cfg : Settings) (gm : GroupManager) (groupId : Int) : Outcome (List NodeID) :=
  gm.selectNodes groupId false (List.range' 1 cfg.n)

/-- A node's own groups are the ones in whose list it is. -/
theorem mem_myGroup_initGroups {n memberNum : Nat} {myId : NodeID} {count : Nat}
    {i startNum groupId : Int} :
    groupId ∈ (initGroups n memberNum myId count i startNum).myGroup ↔
      ∃ (k : Nat) (content : Finset NodeID),
        (initGroups n memberNum myId count i startNum).groupList[k]? = some content ∧
          groupId = i + k ∧ myId ∈ content := by
  induction count generalizing i startNum with
  | zero => simp [initGroups]
  | succ count ih =>
      unfold initGroups
      constructor
      · intro hMem
        by_cases hFirst : groupId = i ∧ myId ∈ (fillGroup n i memberNum startNum).1
        · exact ⟨0, _, rfl, by simpa using hFirst.1, hFirst.2⟩
        · have hLater : groupId ∈ (initGroups n memberNum myId count (i + 1)
              ((fillGroup n i memberNum startNum).2 - 1)).myGroup := by
            dsimp only at hMem
            split_ifs at hMem with hMine
            · exact (Finset.mem_insert.mp hMem).resolve_left fun hEq => hFirst ⟨hEq, hMine⟩
            · exact hMem
          obtain ⟨k, content, hContent, rfl, hMine⟩ := ih.mp hLater
          exact ⟨k + 1, content, hContent, by push_cast; omega, hMine⟩
      · rintro ⟨k, content, hContent, rfl, hMine⟩
        cases k with
        | zero =>
            cases Option.some.inj hContent
            simp [hMine]
        | succ k =>
            have hLater := ih.mpr ⟨k, content, hContent,
              show i + ((k + 1 : Nat) : Int) = i + 1 + k by push_cast; omega, hMine⟩
            dsimp only
            split_ifs with hFirst
            · exact Finset.mem_insert_of_mem hLater
            · exact hLater

theorem isInGroup_eq_true {gm : GroupManager} {groupId : Int} {node : NodeID} :
    gm.isInGroup groupId node = .ok true ↔
      ∃ (k : Nat) (content : Finset NodeID),
        gm.groupList[k]? = some content ∧ groupId = k ∧ node ∈ content := by
  unfold isInGroup getGroupListByGroupId
  simp only [Outcome.bind_eq_ok, Outcome.pure_eq_ok, decide_eq_true_eq]
  constructor
  · rintro ⟨content, hContent, hMem⟩
    obtain ⟨hSome, _⟩ := Outcome.index_returns_iff.mp ⟨content, hContent⟩
    obtain ⟨k, rfl⟩ := Int.eq_ofNat_of_zero_le hSome
    exact ⟨k, content, Outcome.index_eq_ok.mp hContent, rfl, hMem⟩
  · rintro ⟨k, content, hContent, rfl, hMem⟩
    exact ⟨content, Outcome.index_eq_ok.mpr hContent, hMem⟩

/-- The manager made for a node knows the groups of that node. -/
theorem isInMyGroup_new (cfg : Settings) (myId : NodeID) (groupId : Int) :
    (new cfg myId).isInMyGroup groupId = true ↔
      (new cfg myId).isInGroup groupId myId = .ok true := by
  rw [isInGroup_eq_true, isInMyGroup, decide_eq_true_eq, new, mem_myGroup_initGroups]
  simp only [Int.zero_add]

end GroupManager
end Bamboo
