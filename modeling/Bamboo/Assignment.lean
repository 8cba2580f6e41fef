import Bamboo.Group
import Bamboo.Library.RoundRobin

/-! Which nodes are in which group. The running number of `initGroup` and the number of
the group together count all places that have been filled, so the groups are dealt out in
turn. -/
namespace Bamboo

open Library RoundRobin

namespace GroupManager

/-- The group `i` when `memberNum` nodes are dealt to each group in turn. -/
def members (n memberNum i : Nat) : Finset NodeID :=
  (Finset.range memberNum).image fun j => newNodeID (((i * memberNum + j) % n + 1 : Nat) : Int)

variable {n memberNum : Nat}

theorem members_eq_image (i : Nat) :
    members n memberNum i = (hand n memberNum i).image fun k => newNodeID ((k + 1 : Nat) : Int) := by
  rw [hand, Finset.image_image]
  rfl

theorem mem_members {i k : Nat} :
    newNodeID ((k + 1 : Nat) : Int) ∈ members n memberNum i ↔ k ∈ hand n memberNum i := by
  rw [members_eq_image, Finset.mem_image]
  constructor
  · rintro ⟨k', hk', hSame⟩
    rw [newNodeID_inj, Nat.succ_inj] at hSame
    exact hSame ▸ hk'
  · exact fun hk => ⟨k, hk, rfl⟩

theorem card_members (hn : 0 < n) (i : Nat) : (members n memberNum i).card = min memberNum n := by
  rw [members_eq_image, Finset.card_image_of_injective, card_hand hn]
  intro a b hSame
  exact Nat.succ_injective (newNodeID_inj.mp hSame)

/-- The inner loop fills the places from the running number on. -/
theorem fillGroup_eq (n : Nat) (i : Int) (count : Nat) (startNum : Int) :
    fillGroup n i count startNum =
      ((Finset.range count).image fun j : Nat => newNodeID ((i + startNum + j).tmod n + 1),
        startNum + count) := by
  induction count generalizing startNum with
  | zero => simp [fillGroup]
  | succ count ih =>
      simp only [fillGroup, ih]
      refine Prod.ext ?_ ?_
      · have hNext : ∀ j : Nat, i + (startNum + 1) + j = i + startNum + ((j + 1 : Nat) : Int) := by
          intro j
          push_cast
          omega
        have hRange : Finset.range (count + 1) = insert 0 ((Finset.range count).image (· + 1)) := by
          rw [Finset.range_add_one', Finset.map_eq_image]
          rfl
        simp only [hNext]
        rw [hRange, Finset.image_insert, Finset.image_image]
        simp [Function.comp_def]
      · simp only
        push_cast
        omega

/-- At group `i` the running number has been moved on by one less than the group size, `i`
times. -/
theorem fillGroup_members (n memberNum i : Nat) :
    fillGroup n i memberNum (i * (memberNum - 1)) =
      (members n memberNum i, ((i + 1 : Nat) : Int) * (memberNum - 1) + 1) := by
  have hPlace : ∀ j : Nat, (i : Int) + i * (memberNum - 1) + j = ((i * memberNum + j : Nat) : Int) := by
    intro j
    push_cast
    rw [Int.mul_sub]
    omega
  rw [fillGroup_eq]
  refine Prod.ext ?_ ?_
  · simp only [hPlace, ← Int.ofNat_tmod]
    rfl
  · simp only
    push_cast
    rw [Int.add_mul]
    omega

/-- The outer loop makes the groups from `i` on, whoever the node is. -/
theorem initGroups_eq (n memberNum : Nat) (myId : NodeID) (count i : Nat) :
    (initGroups n memberNum myId count i (i * (memberNum - 1))).groupList =
      (List.range' i count).map (members n memberNum) := by
  induction count generalizing i with
  | zero => rfl
  | succ count ih =>
      have hRest := ih (i + 1)
      simp only [initGroups, fillGroup_members, List.range'_succ, List.map_cons]
      rw [← hRest]
      push_cast
      simp

theorem new_groupList (cfg : Settings) (myId : NodeID) :
    (new cfg myId).groupList = (List.range cfg.groupNum).map (members cfg.n cfg.memberNum) := by
  have hGroups := initGroups_eq cfg.n cfg.memberNum myId cfg.groupNum 0
  rw [List.range_eq_range', ← hGroups, new]
  simp

theorem isInGroup_members (cfg : Settings) (myId : NodeID) {i : Nat} (hi : i < cfg.groupNum)
    (node : NodeID) :
    (new cfg myId).isInGroup i node = .ok (decide (node ∈ members cfg.n cfg.memberNum i)) := by
  have hContent : (new cfg myId).getGroupListByGroupId i = .ok (members cfg.n cfg.memberNum i) := by
    rw [getGroupListByGroupId, Outcome.index_eq_ok, new_groupList, List.getElem?_map,
      List.getElem?_range hi]
    rfl
  exact Outcome.bind_eq_ok.mpr ⟨_, hContent, rfl⟩

/-- The loop keeps the nodes on one side of the group, in order. -/
theorem selectNodes_eq {gm : GroupManager} {groupId : Int} {content : Finset NodeID}
    (h : ∀ node, gm.isInGroup groupId node = .ok (decide (node ∈ content))) (inside : Bool)
    (numbers : List Nat) :
    gm.selectNodes groupId inside numbers =
      .ok ((numbers.map fun i : Nat => newNodeID i).filter fun node =>
        decide (node ∈ content) = inside) := by
  induction numbers with
  | nil => rfl
  | cons i rest ih =>
      refine Outcome.bind_eq_ok.mpr ⟨_, h _, Outcome.bind_eq_ok.mpr ⟨_, ih, ?_⟩⟩
      rw [Outcome.pure_eq_ok, List.map_cons, List.filter_cons]
      simp only [decide_eq_true_eq]

/-- For any numbers of nodes, groups and members: every node computes the same groups, each
of `memberNum` consecutive nodes in turn; no node is in more than one group more than
another; a node's own groups are those it is in; and each group and its complement make up
all nodes. -/
theorem groups_balanced (cfg : Settings) (myId : NodeID) (hn : 0 < cfg.n) :
    (new cfg myId).groupList = (List.range cfg.groupNum).map (members cfg.n cfg.memberNum) ∧
    (∀ i, (members cfg.n cfg.memberNum i).card = min cfg.memberNum cfg.n) ∧
    (cfg.memberNum ≤ cfg.n →
      (∀ k < cfg.n,
        ((Finset.range cfg.groupNum).filter fun i =>
          newNodeID ((k + 1 : Nat) : Int) ∈ members cfg.n cfg.memberNum i).card =
            cfg.groupNum * cfg.memberNum / cfg.n ∨
        ((Finset.range cfg.groupNum).filter fun i =>
          newNodeID ((k + 1 : Nat) : Int) ∈ members cfg.n cfg.memberNum i).card =
            (cfg.groupNum * cfg.memberNum + cfg.n - 1) / cfg.n) ∧
      ((∀ k < cfg.n, ∃ i < cfg.groupNum,
        newNodeID ((k + 1 : Nat) : Int) ∈ members cfg.n cfg.memberNum i) ↔
          cfg.n ≤ cfg.groupNum * cfg.memberNum)) ∧
    (∀ i : Int, (new cfg myId).isInMyGroup i = true ↔
      (new cfg myId).isInGroup i myId = .ok true) ∧
    (∀ i < cfg.groupNum, ∃ inside outside,
      (new cfg myId).nodeInGroup cfg i = .ok inside ∧
      (new cfg myId).notInGroup cfg i = .ok outside ∧
      (inside ++ outside).Perm ((List.range' 1 cfg.n).map fun k : Nat => newNodeID k) ∧
      (∀ node ∈ inside, node ∈ members cfg.n cfg.memberNum i) ∧
      ∀ node ∈ outside, node ∉ members cfg.n cfg.memberNum i) := by
  refine ⟨new_groupList cfg myId, card_members hn, fun hSmall => ⟨fun k hk => ?_, ?_⟩,
    isInMyGroup_new cfg myId, fun i hi => ?_⟩
  · simp only [mem_members]
    exact card_rounds_floor_or_ceil hn hSmall cfg.groupNum hk
  · simp only [mem_members]
    exact covered_iff hn hSmall cfg.groupNum
  · have hContent := isInGroup_members cfg myId hi
    refine ⟨_, _, selectNodes_eq hContent true _, selectNodes_eq hContent false _, ?_, ?_, ?_⟩
    · have hSplit := List.filter_append_perm
        (fun node => decide (node ∈ members cfg.n cfg.memberNum i))
        ((List.range' 1 cfg.n).map fun k : Nat => newNodeID k)
      simpa using hSplit
    · simp
    · simp

end GroupManager

namespace Scenario

/-- Four groups of two among five nodes: eight places, so three nodes are in two groups. -/
def fiveNodes : Settings :=
  { n := 5, q := 3, bsize := 1, memsize := 1, groupNum := 4, memberNum := 2 }

end Scenario

namespace GroupManager

theorem groups_balanced_five :
    0 < Scenario.fiveNodes.n ∧
      (new Scenario.fiveNodes "3").groupList =
        [{"1", "2"}, {"3", "4"}, {"5", "1"}, {"2", "3"}] ∧
      (new Scenario.fiveNodes "3").myGroup = {1, 3} ∧
      ∀ k < 5, ∃ i < 4, newNodeID ((k + 1 : Nat) : Int) ∈ members 5 2 i := by
  refine ⟨by decide, by decide, by decide, ?_⟩
  exact ((groups_balanced Scenario.fiveNodes "3" (by decide)).2.2.1 (by decide)).2.mpr (by decide)

end GroupManager
end Bamboo
