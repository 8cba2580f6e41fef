import Bamboo.Assignment
import Bamboo.Library.Relay
import Bamboo.Replica.Effects

/-! A node that executes committed microblocks as a member of its groups. All nodes have the
microblocks in the same order; a node is handed them part by part, and results in between. -/
namespace Bamboo

open Library

/-- The nodes are numbered from one. -/
def peers (cfg : Settings) : Finset NodeID :=
  (Finset.range cfg.n).image fun k => newNodeID ((k + 1 : Nat) : Int)

theorem members_subset_peers {cfg : Settings} (hn : 0 < cfg.n) (i : Nat) :
    GroupManager.members cfg.n cfg.memberNum i ⊆ peers cfg := by
  intro node hNode
  obtain ⟨j, _, rfl⟩ := Finset.mem_image.mp hNode
  exact Finset.mem_image_of_mem _ (Finset.mem_range.mpr (Nat.mod_lt _ hn))

/-- The groups of the committed microblocks in their order, and what each node has of them: the
content, or only a shell. -/
structure Team where
  cfg : Settings
  keys : KeyRing
  groups : List Nat
  mbs : NodeID → List MicroBlock
  grouped : cfg.broadcastByGroup = true
  positive : 0 < cfg.n
  readable : cfg.n < UInt64.size / 2
  keyed : cfg.n ≤ keys.size
  groups_lt : ∀ g ∈ groups, g < cfg.groupNum
  numbered : ∀ r, NumberedFrom 1 (mbs r)
  groupIds : ∀ r, (mbs r).map MicroBlock.groupId = groups.map fun g : Nat => (g : Int)

namespace Team

variable (T : Team)

/-- The nodes that execute the microblock at a place. -/
def team (k : Nat) : Finset NodeID :=
  (T.groups[k]?).elim ∅ (GroupManager.members T.cfg.n T.cfg.memberNum)

/-- Every node has the content of the microblocks of its own groups. -/
def Stocked : Prop :=
  ∀ r ∈ peers T.cfg, ∀ mb ∈ T.mbs r,
    (GroupManager.new T.cfg r).isInMyGroup mb.groupId = true → mb.isFake = false

/-- The microblocks are the jobs. -/
def plan : Relay.Plan NodeID where
  nodes := peers T.cfg
  jobs := T.groups.length
  team := T.team
  quorum := T.cfg.q
  team_subset k hk := by
    rw [team, List.getElem?_eq_getElem hk]
    exact members_subset_peers T.positive _

theorem card_team {k : Nat} (hk : k < T.groups.length) :
    (T.team k).card = min T.cfg.memberNum T.cfg.n := by
  rw [team, List.getElem?_eq_getElem hk]
  exact GroupManager.card_members T.positive _

variable {T} {r : NodeID} {k : Nat} {mb : MicroBlock}

theorem length_mbs (r : NodeID) : (T.mbs r).length = T.groups.length := by
  rw [← List.length_map (f := MicroBlock.groupId), T.groupIds, List.length_map]

/-- The microblock at a place has the next number and one of the groups. -/
theorem group_of_place (h : (T.mbs r)[k]? = some mb) :
    ∃ g < T.cfg.groupNum, mb.groupId = g ∧
      T.team k = GroupManager.members T.cfg.n T.cfg.memberNum g := by
  have hIds : ((T.mbs r).map MicroBlock.groupId)[k]? = some mb.groupId := by
    rw [List.getElem?_map, h]
    rfl
  rw [T.groupIds, List.getElem?_map] at hIds
  cases hHere : T.groups[k]? with
  | none =>
      rw [hHere] at hIds
      cases hIds
  | some g =>
      rw [hHere] at hIds
      refine ⟨g, T.groups_lt g (List.mem_of_getElem? hHere), (Option.some.inj hIds).symm, ?_⟩
      rw [team, hHere]
      rfl

theorem getGroupList (node : NodeID) (h : (T.mbs r)[k]? = some mb) :
    (GroupManager.new T.cfg node).getGroupListByGroupId mb.groupId = .ok (T.team k) := by
  obtain ⟨g, hg, hGroup, hTeam⟩ := group_of_place h
  rw [hGroup, hTeam, GroupManager.getGroupListByGroupId, Outcome.index_eq_ok,
    GroupManager.new_groupList, List.getElem?_map, List.getElem?_range hg]
  rfl

theorem isInMyGroup_iff (h : (T.mbs r)[k]? = some mb) :
    (GroupManager.new T.cfg r).isInMyGroup mb.groupId = true ↔ r ∈ T.team k := by
  obtain ⟨g, hg, hGroup, hTeam⟩ := group_of_place h
  rw [GroupManager.isInMyGroup_new, hGroup, GroupManager.isInGroup_members T.cfg r hg, hTeam]
  exact ⟨fun hOk => of_decide_eq_true (Except.ok.inj hOk), fun hMem => by rw [decide_eq_true hMem]⟩

theorem privSign_returns (hr : r ∈ peers T.cfg) (hash : Identifier) :
    ∃ sig, T.keys.privSign hash r = .ok sig := by
  obtain ⟨k, hk, rfl⟩ := Finset.mem_image.mp hr
  have hBound := Finset.mem_range.mp hk
  have hNode := node_newNodeID (n := k + 1) (lt_of_le_of_lt hBound T.readable)
  have hKeyed := T.keyed
  have hPosition : T.keys.position (newNodeID ((k + 1 : Nat) : Int)) = .ok k := by
    unfold KeyRing.position
    rw [hNode, if_pos (by omega)]
    exact congrArg Except.ok (by omega)
  exact ⟨_, Outcome.bind_eq_ok.mpr ⟨_, hPosition, rfl⟩⟩

end Team

namespace Executor

/-- The node executed the microblock at a place itself. -/
def Executed (e : Executor) (k : Nat) : Prop :=
  ∃ mb, e.applied[k]? = some (.executed mb)

variable {cfg : Settings} {keys : KeyRing} {e e' : Executor} {call : Call}
  {taken worked : List MicroBlock} {messages : List Outgoing}

theorem Effect.length_applied (h : Effect cfg keys e call e' taken worked messages) :
    e'.applied.length = e.applied.length + taken.length + worked.length := by
  rw [h.applied]
  simp only [List.length_append, List.length_map]
  omega

/-- What a call executes follows what it takes over. -/
theorem Effect.executed_iff (h : Effect cfg keys e call e' taken worked messages) (k : Nat) :
    e'.Executed k ↔
      e.Executed k ∨ e.applied.length + taken.length ≤ k ∧ k < e'.applied.length := by
  rw [h.length_applied]
  unfold Executed
  rw [h.applied]
  by_cases hOld : k < e.applied.length
  · rw [List.getElem?_append_left hOld]
    exact ⟨Or.inl, fun hEither => hEither.resolve_right (by omega)⟩
  · have hNone : e.applied[k]? = none := List.getElem?_eq_none (not_lt.mp hOld)
    rw [List.getElem?_append_right (not_lt.mp hOld), hNone]
    by_cases hTaken : k < e.applied.length + taken.length
    · rw [List.getElem?_append_left (by simp; omega), List.getElem?_map]
      refine iff_of_false ?_ (by simp; omega)
      rintro ⟨mb, hMb⟩
      obtain ⟨_, _, hSame⟩ := Option.map_eq_some_iff.mp hMb
      cases hSame
    · rw [List.getElem?_append_right (by simp; omega), List.getElem?_map, List.length_map]
      constructor
      · rintro ⟨mb, hMb⟩
        obtain ⟨found, hFound, _⟩ := Option.map_eq_some_iff.mp hMb
        have := (List.getElem?_eq_some_iff.mp hFound).1
        exact Or.inr (by omega)
      · rintro (⟨_, hMb⟩ | ⟨_, hBound⟩)
        · cases hMb
        · rw [List.getElem?_eq_getElem (by omega)]
          exact ⟨_, rfl⟩

theorem confirmedNo_le {result : ExecuteResult} (h : 0 ≤ result.no) :
    e.confirmedNo cfg result ≤ result.no := by
  unfold confirmedNo
  rcases (recordDone_last cfg result result.no.toNat e Int.one_pos).1 with hNone | ⟨_, hBound, _⟩
  · rw [hNone]
    exact h
  · omega

theorem Call.perform_blocked (hGroup : cfg.broadcastByGroup = true) (h : e.Blocked)
    (hStep : call.perform cfg keys e = .ok e') : e'.Blocked := by
  obtain ⟨middle, hConfirm, ⟨hThread, _⟩ | ⟨rfl, result, rfl, hNone⟩⟩ := Call.perform_cases hStep
  · exact (executeThread_blocked hGroup hThread).1
  · dsimp only [Call.confirm] at hConfirm
    rw [if_neg (not_not.mpr hNone)] at hConfirm
    cases Outcome.pure_eq_ok.mp hConfirm
    exact h.congr (recorded_mbs cfg e result) (recorded_gm cfg e result)

end Executor

namespace Team

open Executor

/-- A node that has been handed a front part of its microblocks. -/
structure Working (T : Team) (r : NodeID) (e : Executor) : Prop where
  id : e.id = r
  gm : e.gm = .new T.cfg r
  outbox : e.outbox = []
  nested : e.Nested
  blocked : e.Blocked
  delivered : e.delivered <+: T.mbs r
  history : e.applied.map Applied.microblock ++ e.mbs = e.delivered
  headOpen : e.delivered = T.mbs r → e.HeadOpen T.cfg

/-- The node is handed the next microblocks, or a result about one of them. -/
structure Proper (T : Team) (r : NodeID) (e : Executor) (call : Executor.Call) : Prop where
  batch : e.delivered ++ call.batch <+: T.mbs r
  result : ∀ result, call = .handleResult result → 0 ≤ result.no ∧ result.no ≤ T.groups.length

variable {T : Team} {r : NodeID} {e e' : Executor} {call : Executor.Call}
  {taken worked : List MicroBlock} {messages : List Outgoing}

theorem Working.start (T : Team) (r : NodeID) :
    T.Working r { id := r, gm := .new T.cfg r } where
  id := rfl
  gm := rfl
  outbox := rfl
  nested := .new _ _
  blocked := (Waiting.new T.cfg _ _).blocked
  delivered := List.nil_prefix
  history := rfl
  headOpen := fun _ => (Waiting.new T.cfg _ _).headOpen

theorem Proper.continues (h : T.Proper r e call) : call.Continues e := by
  obtain ⟨rest, hRest⟩ := h.batch
  have hNumbers := T.numbered r
  rw [← hRest, List.append_assoc, numberedFrom_append, numberedFrom_append] at hNumbers
  unfold Executor.Call.Continues
  rw [Int.add_comm]
  exact hNumbers.2.1

/-- The queue of a node is a part of its microblocks. -/
theorem Working.place (h : T.Working r e) (hProper : T.Proper r e call) {k : Nat}
    {mb : MicroBlock} (hHere : (e.mbs ++ call.batch)[k]? = some mb) :
    (T.mbs r)[e.applied.length + k]? = some mb := by
  obtain ⟨rest, hRest⟩ := hProper.batch
  rw [← hRest, ← h.history, List.append_assoc, List.append_assoc,
    List.getElem?_append_right (by simp), ← List.append_assoc, List.length_map,
    Nat.add_sub_cancel_left]
  exact List.getElem?_append_left (List.getElem?_eq_some_iff.mp hHere).1 |>.trans hHere

theorem Working.equipped (h : T.Working r e) (hr : r ∈ peers T.cfg) (hProper : T.Proper r e call) :
    (e.enqueue call.batch).Equipped T.keys where
  signs hash := by
    show ∃ sig, T.keys.privSign hash e.id = .ok sig
    rw [h.id]
    exact privSign_returns hr hash
  groups mb hMem := by
    obtain ⟨k, hHere⟩ := List.mem_iff_getElem?.mp hMem
    show ∃ members, e.gm.getGroupListByGroupId mb.groupId = .ok members
    rw [h.gm]
    exact ⟨_, getGroupList r (h.place hProper hHere)⟩

theorem Working.headOpen_after (h : T.Working r e) (hProper : T.Proper r e call)
    (hStep : call.perform T.cfg T.keys e = .ok e')
    (hAll : e.delivered ++ call.batch = T.mbs r) : e'.HeadOpen T.cfg := by
  cases call with
  | addMbToExecute batch =>
      obtain ⟨middle, hConfirm, ⟨hThread, _⟩ | ⟨_, _, hCall, _⟩⟩ := Executor.Call.perform_cases hStep
      · exact Waiting.addMbToExecute T.grouped hConfirm hThread
      · cases hCall
  | handleResult result =>
      rw [Executor.Call.batch, List.append_nil] at hAll
      have hWaiting : e.Waiting T.cfg := ⟨h.nested, h.blocked, h.headOpen hAll⟩
      refine (Executor.Call.perform_headOpen T.grouped hWaiting hStep).2.mpr fun _ => ?_
      obtain ⟨hPositive, hBound⟩ := hProper.result result rfl
      refine (confirmedNo_le hPositive).trans (hBound.trans ?_)
      rw [hAll, length_mbs]

/-- A call returns, and the node goes on working. -/
theorem Working.perform (h : T.Working r e) (hr : r ∈ peers T.cfg) (hProper : T.Proper r e call) :
    ∃ e' taken worked, call.perform T.cfg T.keys e = .ok e' ∧
      Effect T.cfg T.keys e call e' taken worked e'.outbox ∧
      T.Working r { e' with outbox := [] } := by
  obtain ⟨e', hStep⟩ := Executor.Call.perform_returns T.grouped h.nested hProper.continues
    (h.equipped hr hProper)
  obtain ⟨taken, worked, messages, hEffect⟩ :=
    Executor.Call.perform_effect T.grouped h.nested hProper.continues hStep
  have hMessages : e'.outbox = messages := by rw [hEffect.outbox, h.outbox, List.nil_append]
  have hNested := Executor.Call.perform_nested T.grouped h.nested hProper.continues hStep
  have hOpen : e'.delivered = T.mbs r → e'.HeadOpen T.cfg := fun hAll =>
    h.headOpen_after hProper hStep (hEffect.delivered ▸ hAll)
  refine ⟨e', taken, worked, hStep, hMessages ▸ hEffect, {
    id := hEffect.id.trans h.id
    gm := hEffect.gm.trans h.gm
    outbox := rfl
    nested := { hNested with }
    blocked := (Executor.Call.perform_blocked T.grouped h.blocked hStep).congr rfl rfl
    delivered := hEffect.delivered ▸ hProper.batch
    history := ?_
    headOpen := hOpen }⟩
  show e'.applied.map Applied.microblock ++ e'.mbs = e'.delivered
  have hApplied : e'.applied.map Applied.microblock =
      e.applied.map Applied.microblock ++ (taken ++ worked) := by
    rw [hEffect.applied]
    simp [Function.comp_def, Applied.microblock]
  rw [hApplied, hEffect.delivered, ← h.history, List.append_assoc, List.append_assoc,
    List.append_assoc, hEffect.queue]

end Team
end Bamboo
