import Bamboo.HotStuff.Provenance

/-! The lock that a vote leaves behind. The lock is written only when the block's
certificate is processed, while the vote is decided later: a certificate from an
older view, one of the replica's own proposals, or one that is rejected or
buffered leaves the lock where it was. -/
namespace Bamboo

open Library LockedVoting

/-- The stored block two steps below `block`, if its parent is stored as well. -/
def Snapshot.grandparent (s : Snapshot) (block : Block) : Option BlockContainer :=
  (s.forest.getVertex block.prevID).bind fun parent => s.forest.getVertex parent.block.prevID

theorem Snapshot.grandparent_eq_some {s : Snapshot} {block : Block} {g : BlockContainer} :
    s.grandparent block = some g ↔ ∃ parent, s.forest.getVertex block.prevID = some parent ∧
      s.forest.getVertex parent.block.prevID = some g :=
  Option.bind_eq_some_iff

/-- The blocks that a run is fed with. -/
def HotStuff.fedBlocks (events : List HotStuff.Event) : List Block :=
  events.filterMap fun
    | .block block => some block
    | _ => none

/-- Blocks as `MakeProposal` builds them: on top of the block their certificate
is for, and in a higher view. -/
def HonestFeed (blocks : List Block) : Prop :=
  ∀ b ∈ blocks, ∃ qc ∈ b.qc, b.prevID = qc.blockID ∧ qc.view < b.view ∧
    ∀ p ∈ blocks, p.id = b.prevID → p.view = qc.view

instance (blocks : List Block) : Decidable (HonestFeed blocks) :=
  inferInstanceAs (Decidable (∀ b ∈ blocks, ∃ qc ∈ b.qc, _))

instance (cfg : Config) (id : NodeID) (qc : QC) : Decidable (cfg.Accepts id qc) :=
  inferInstanceAs (Decidable (_ ∨ _))

instance (cfg : Config) (id : NodeID) (s : Snapshot) (block : Block) (qc : QC) :
    Decidable (s.Processes cfg id block qc) :=
  inferInstanceAs (Decidable (_ ∧ _))

/-- When the replica `id` enters the call, the certificate is exempt from the
lock, or the block is old, or the certificate will be processed, or the lock is
already as high as the certificate would raise it. -/
def Call.KeepsLock (cfg : Config) (id : NodeID) (call : Call) : Prop :=
  ∀ qc ∈ call.block.qc, qc.view ≤ 2 ∨ call.block.view < call.entry.curView ∨
    call.entry.Processes cfg id call.block qc ∨
    ∀ g ∈ call.entry.grandparent call.block, g.block.view ≤ call.entry.preferredView

instance (cfg : Config) (id : NodeID) (call : Call) : Decidable (call.KeepsLock cfg id) :=
  inferInstanceAs (Decidable (∀ qc ∈ call.block.qc, _))

/-- The lock is at the grandparent's view, when that block is stored. -/
def VoteRecord.Locked (r : VoteRecord) : Prop :=
  ∀ qc ∈ r.block.qc, 2 < qc.view →
    ∀ g ∈ r.cast.grandparent r.block, g.block.view ≤ r.cast.preferredView

instance (r : VoteRecord) : Decidable r.Locked :=
  inferInstanceAs (Decidable (∀ qc ∈ r.block.qc, _))

namespace HotStuff

/-- The sources of a replica that is fed with the given blocks. -/
def feedOrigins (blocks : List Block) : Origins where
  qc := fun _ => True
  vote := fun _ => True
  block := fun b => b ∈ blocks

theorem run_covers_feed {cfg : Config} {id : NodeID} {n : Nat} {events : List Event}
    {hs : HotStuff} (hRun : run (step cfg) (new id false n) events = .ok hs) :
    (feedOrigins (fedBlocks events)).Covers hs := by
  have hGuard : Guarded (step cfg) (fun _ e => (feedOrigins (fedBlocks events)).event e)
      (new id false n) events := by
    apply guarded_of_mem
    intro s e he
    cases e with
    | block block => exact List.mem_filterMap.mpr ⟨_, he, rfl⟩
    | vote vote => trivial
    | tmo tmo => exact fun _ _ => trivial
    | localTmo view => trivial
    | kickOff => trivial
  refine guarded_run_invariant ?_ hGuard hRun (Origins.new_covers id false n trivial)
  intro hs e hs' hCovers hEvent hStep
  exact hCovers.step ⟨fun _ _ _ _ => trivial, fun _ _ _ _ _ _ _ _ => trivial⟩ hEvent
    (fun _ _ _ _ _ _ => trivial) hStep

/-- With an honest feed, the grandparent that is stored when a vote is made was
stored when the call was entered: the block itself is not among its ancestors. -/
theorem grandparent_at_entry {cfg : Config} {id : NodeID} {blocks : List Block} {r : VoteRecord}
    (hFeed : HonestFeed blocks) (hSound : r.Sound cfg id) (hBlock : r.block ∈ blocks)
    (hCast : (feedOrigins blocks).Stores r.cast.forest) {g : BlockContainer}
    (hg : r.cast.grandparent r.block = some g) : r.entry.grandparent r.block = some g := by
  obtain ⟨parent, hParent, hGrandparent⟩ := Snapshot.grandparent_eq_some.mp hg
  obtain ⟨hParentFed, hParentId⟩ := hCast _ parent hParent
  obtain ⟨qc, _, hPrev, hView, hParents⟩ := hFeed r.block hBlock
  obtain ⟨qc', _, _, hView', hParents'⟩ := hFeed parent.block hParentFed
  have hParentView := hParents parent.block hParentFed hParentId
  refine Snapshot.grandparent_eq_some.mpr ⟨parent, ?_, ?_⟩
  · rcases hSound.kept _ parent hParent with hOld | ⟨_, hSelf⟩
    · exact hOld
    · rw [hSelf] at hParentView
      lia
  · rcases hSound.kept _ g hGrandparent with hOld | ⟨hId, _⟩
    · exact hOld
    · have hBlockView := hParents' r.block hBlock hId.symm
      lia

/-- If every call of a run finds the lock kept or its certificate processed, then
every vote leaves the replica locked on the two-chain it extends. -/
theorem votes_locked (cfg : Config) (id : NodeID) (n : Nat) (events : List Event) (hs : HotStuff)
    (hRun : run (step cfg) (new id false n) events = .ok hs)
    (hFeed : HonestFeed (fedBlocks events)) (hCalls : ∀ call ∈ hs.calls, call.KeepsLock cfg id) :
    ∀ record ∈ hs.voteLog, record.Locked := by
  have hRecorded := run_recorded hRun
  have hCovers := run_covers_feed hRun
  have hId : hs.id = id := run_invariant (P := fun hs => hs.id = id)
    (fun _ _ _ hId hStep => (step_progress hStep).id_eq.trans hId) hRun rfl
  intro record hRecord qc hQC hView g hg
  have hSound := hRecorded.sound record hRecord
  rw [hId] at hSound
  obtain ⟨hBlock, _, hCast⟩ := hCovers.recorded record hRecord
  have hEntry := grandparent_at_entry hFeed hSound hBlock hCast hg
  have hEntryLock : record.entry.preferredView ≤ record.accept.preferredView :=
    hSound.entry_accept.lock_le
  have hAcceptLock : record.accept.preferredView ≤ record.cast.preferredView :=
    hSound.accept_cast.lock_le
  obtain ⟨before, after, hSplit⟩ := List.append_of_mem hRecord
  obtain ⟨call, hCall, hCallBlock, hCallEntry, _⟩ := hRecorded.called before record after hSplit
  have hKeeps := hCalls call hCall
  unfold Call.KeepsLock at hKeeps
  rw [hCallBlock, hCallEntry] at hKeeps
  rcases hKeeps qc hQC with hExempt | hStale | hProcesses | hAlready
  · exact absurd hView (not_lt.mpr hExempt)
  · have hEntryView : record.entry.curView ≤ record.accept.curView := hSound.entry_accept.view_le
    exact absurd (hEntryView.trans hSound.current) (not_le.mpr hStale)
  · obtain ⟨parent, hParent, hGrandparent⟩ := Snapshot.grandparent_eq_some.mp hEntry
    obtain ⟨qc', hQC', hPrev, _⟩ := hFeed record.block hBlock
    cases hQC.symm.trans hQC'
    exact (hSound.locked qc hQC hProcesses hView parent g (hPrev ▸ hParent) hGrandparent).trans
      hAcceptLock
  · exact (hAlready g hEntry).trans (hEntryLock.trans hAcceptLock)

end HotStuff

namespace Scenario

/-- The blocks of four views arrive one after the other. -/
def onTime : List HotStuff.Event :=
  [.block (block 1 1 0), .block (block 2 2 1), .block (block 3 3 2), .block (block 4 4 3)]

/-- The same blocks, with a timeout in the third view. -/
def timedOut : List HotStuff.Event :=
  [.block (block 1 1 0), .block (block 2 2 1), .block (block 3 3 2), .localTmo 3,
    .block (block 4 4 3)]

end Scenario

namespace HotStuff

theorem votes_locked_on_time :
    ∃ hs, run (step (Scenario.config fun _ => "1")) (new "2" false 4)
        Scenario.onTime = .ok hs ∧
      hs.votedViews = [1, 2, 3, 4] ∧ ∀ record ∈ hs.voteLog, record.Locked := by
  obtain ⟨hs, hRun, hCalls, hViews⟩ := Outcome.of_test
    (x := run (step (Scenario.config fun _ => "1")) (new "2" false 4)
      Scenario.onTime)
    (P := fun hs => (∀ call ∈ hs.calls, call.KeepsLock (Scenario.config fun _ => "1") "2") ∧
      hs.votedViews = [1, 2, 3, 4]) (by decide)
  exact ⟨hs, hRun, hViews, votes_locked _ _ _ _ hs hRun (by decide) hCalls⟩

/-- A timeout in view 3 makes the certificate of the next block old. The block is
voted for all the same, without the lock on the block of view 2. -/
theorem timeout_loses_lock :
    ∃ hs, run (step (Scenario.config fun _ => "1")) (new "2" false 4)
        Scenario.timedOut = .ok hs ∧
      HonestFeed (fedBlocks Scenario.timedOut) ∧ ¬∀ record ∈ hs.voteLog, record.Locked :=
  Outcome.of_test (by decide)

end HotStuff
end Bamboo
