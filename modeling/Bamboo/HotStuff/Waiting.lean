import Bamboo.HotStuff.HighQC
import Bamboo.HotStuff.Range

/-! The certificates that wait for a block. `ProcessVote` and `processCertificate` put a
certificate into `bufferedQCs` when its block, or that block's parent, is not stored.
When the block arrives `ProcessBlock` processes the certificate and then deletes it,
also if it has just been buffered again. -/
namespace Bamboo

open Library

namespace HotStuff

/-- `processCertificate` puts the certificate into the buffer. -/
def Buffers (cfg : Config) (hs : HotStuff) (qc : QC) : Prop :=
  hs.pm.curView ≤ qc.view ∧ hs.certificateVerified cfg qc = .ok true ∧
    (hs.updatePreferredView qc).isNone

instance (cfg : Config) (hs : HotStuff) (qc : QC) : Decidable (hs.Buffers cfg qc) :=
  inferInstanceAs (Decidable (_ ∧ _ ∧ _))

/-- No current certificate of a higher view waits for the same block. -/
def Newest (hs : HotStuff) (qc : QC) : Prop :=
  ∀ old ∈ hs.bufferedQCs.lookup qc.blockID, old.view < hs.pm.curView ∨ old.view ≤ qc.view

instance (hs : HotStuff) (qc : QC) : Decidable (hs.Newest qc) :=
  inferInstanceAs (Decidable (∀ old ∈ hs.bufferedQCs.lookup qc.blockID, _))

/-- The certificate that an action puts into the buffer. -/
def Action.buffered (cfg : Config) (hs : HotStuff) : Action → Option QC
  | .certificate _ qc => if hs.Buffers cfg qc then some qc else none
  | .hold qc => some qc
  | _ => none

/-- The actions of `ProcessBlock` on a certificate that waited for the block. -/
def Action.replays : Action → Bool
  | .certificate (.waiting _) _ => true
  | .settle _ => true
  | _ => false

/-- What is put into the buffer is not about to be deleted, and replaces nothing newer. -/
def Spares (cfg : Config) (hs : HotStuff) (a : Action) : Prop :=
  ∀ qc ∈ a.buffered cfg hs, a.replays = false ∧ hs.Newest qc

instance (cfg : Config) (hs : HotStuff) (a : Action) : Decidable (hs.Spares cfg a) :=
  inferInstanceAs (Decidable (∀ qc ∈ a.buffered cfg hs, _))

/-! What the replica has built is applied, obsolete or still waiting. -/

structure Kept (cfg : Config) (built : List QC) (hs : HotStuff) : Prop where
  honest : hs.isByz = false
  waiting : ∀ key held, hs.bufferedQCs.lookup key = some held →
    held.blockID = key ∧ cfg.Accepts hs.id held
  kept : ∀ qc ∈ built, qc.view < hs.pm.curView ∨
    ∃ held, hs.bufferedQCs.lookup qc.blockID = some held ∧ qc.view ≤ held.view

variable {cfg : Config} {built extra : List QC} {hs hs' : HotStuff} {qc : QC}

theorem new_kept (cfg : Config) (id : NodeID) (n : Nat) :
    (HotStuff.new id false n).Kept cfg [] where
  honest := rfl
  waiting key held hLookup := by
    have hEmpty : (∅ : Table Identifier QC).lookup key = some held := hLookup
    rw [Finmap.lookup_empty] at hEmpty
    cases hEmpty
  kept qc hqc := by cases hqc

/-- The buffer stays and the view does not go back. -/
theorem Kept.of_same (h : hs.Kept cfg built) (hId : hs'.id = hs.id) (hByz : hs'.isByz = hs.isByz)
    (hBuffer : hs'.bufferedQCs = hs.bufferedQCs) (hView : hs.pm.curView ≤ hs'.pm.curView)
    (hExtra : ∀ q ∈ extra, q.view < hs'.pm.curView) : hs'.Kept cfg (built ++ extra) where
  honest := hByz.trans h.honest
  waiting := by
    rw [hBuffer, hId]
    exact h.waiting
  kept q hq := by
    rw [hBuffer]
    rcases List.mem_append.mp hq with hOld | hNew
    · exact (h.kept q hOld).imp_left fun hBelow => hBelow.trans_le hView
    · exact Or.inl (hExtra q hNew)

theorem Kept.bufferQC (h : hs.Kept cfg built) (hAccepts : cfg.Accepts hs.id qc)
    (hNewest : hs.Newest qc) (hExtra : ∀ q ∈ extra, q = qc) :
    (hs.bufferQC qc).Kept cfg (built ++ extra) where
  honest := h.honest
  waiting key held hLookup := by
    rcases Table.of_lookup_insert hLookup with ⟨hKey, rfl⟩ | hOld
    · exact ⟨hKey.symm, hAccepts⟩
    · exact h.waiting key held hOld
  kept q hq := by
    change _ ∨ ∃ held, (hs.bufferedQCs.insert qc.blockID qc).lookup q.blockID = some held ∧ _
    rw [Table.lookup_insert_ite]
    by_cases hSame : q.blockID = qc.blockID
    · rw [if_pos hSame]
      rcases List.mem_append.mp hq with hOld | hNew
      · rcases h.kept q hOld with hBelow | ⟨old, hLookup, hHigher⟩
        · exact Or.inl hBelow
        · rw [hSame] at hLookup
          rcases hNewest old hLookup with hObsolete | hLower
          · exact Or.inl (hHigher.trans_lt hObsolete)
          · exact Or.inr ⟨qc, rfl, hHigher.trans hLower⟩
      · exact Or.inr ⟨qc, rfl, (congrArg QC.view (hExtra q hNew)).le⟩
    · rw [if_neg hSame]
      rcases List.mem_append.mp hq with hOld | hNew
      · exact h.kept q hOld
      · exact absurd (congrArg QC.blockID (hExtra q hNew)) hSame

/-- A certificate that is processed and not buffered is old afterwards, unless it fails
the check. -/
theorem processCertificate_old (hHonest : hs.isByz = false) (hAccepts : cfg.Accepts hs.id qc)
    (hNot : ¬hs.Buffers cfg qc) (h : hs.processCertificate cfg qc = .ok hs') :
    qc.view < hs'.pm.curView ∧ hs'.bufferedQCs = hs.bufferedQCs := by
  have hVerified := certificateVerified_iff.mpr hAccepts
  rcases processCertificate_cases h with ⟨hSkipped, rfl⟩ | ⟨hCurrent, _, hTaken⟩
  · rcases hSkipped with hStale | hRejected
    · exact ⟨hStale, rfl⟩
    · rw [hVerified] at hRejected
      cases hRejected
  · rcases hTaken with ⟨hByz, _⟩ | ⟨hNone, _⟩ | ⟨locked, hLocked, hApply⟩
    · rw [hHonest] at hByz
      cases hByz
    · exact absurd ⟨hCurrent, hVerified, Option.isNone_iff_eq_none.mpr hNone⟩ hNot
    · obtain ⟨lock, rfl, _⟩ := updatePreferredView_eq_some hLocked
      obtain ⟨bc, committed, forked, rfl, _⟩ := applyCertificate_spec hApply
      refine ⟨?_, rfl⟩
      change qc.view < (hs.pm.advanceView qc.view).curView
      rw [Pacemaker.advanceView_curView hCurrent]
      lia

theorem Kept.processCertificate (h : hs.Kept cfg built)
    (hExtra : ∀ q ∈ extra, q = qc ∧ cfg.Accepts hs.id qc)
    (hNewest : hs.Buffers cfg qc → hs.Newest qc)
    (hProcess : hs.processCertificate cfg qc = .ok hs') : hs'.Kept cfg (built ++ extra) := by
  have hQuiet := processCertificate_quiet hProcess
  by_cases hAccepts : cfg.Accepts hs.id qc
  · by_cases hBuffers : hs.Buffers cfg qc
    · have hNone := Option.isNone_iff_eq_none.mp hBuffers.2.2
      rcases processCertificate_cases hProcess with ⟨hSkipped, _⟩ | ⟨_, _, hTaken⟩
      · rcases hSkipped with hStale | hRejected
        · exact absurd hStale (not_lt.mpr hBuffers.1)
        · rw [hBuffers.2.1] at hRejected
          cases hRejected
      · rcases hTaken with ⟨hByz, _⟩ | ⟨_, rfl⟩ | ⟨locked, hLocked, _⟩
        · rw [h.honest] at hByz
          cases hByz
        · exact h.bufferQC hAccepts (hNewest hBuffers) fun q hq => (hExtra q hq).1
        · rw [hNone] at hLocked
          cases hLocked
    · obtain ⟨hOld, hSame⟩ := processCertificate_old h.honest hAccepts hBuffers hProcess
      refine h.of_same hQuiet.id_eq hQuiet.isByz_eq hSame hQuiet.pm.view_le fun q hq => ?_
      rw [(hExtra q hq).1]
      exact hOld
  · -- a rejected certificate was not built here
    have hNone : ∀ q ∈ extra, q.view < hs'.pm.curView := fun q hq => absurd (hExtra q hq).2 hAccepts
    rcases processCertificate_cases hProcess with ⟨_, rfl⟩ | ⟨_, hVerified, _⟩
    · exact h.of_same rfl rfl rfl (le_refl _) hNone
    · exact absurd (certificateVerified_iff.mp hVerified) hAccepts

/-- The deleted certificate is old, and it was the highest that the replica had built for
its block. -/
theorem Kept.replay {key : Identifier} (h : hs.Kept cfg built)
    (hWaiting : hs.bufferedQCs.lookup key = some qc) (hNot : ¬hs.Buffers cfg qc)
    (hProcess : hs.processCertificate cfg qc = .ok hs') :
    Kept cfg built { hs' with bufferedQCs := hs'.bufferedQCs.erase key } := by
  obtain ⟨hOld, hSame⟩ :=
    processCertificate_old h.honest (h.waiting key qc hWaiting).2 hNot hProcess
  have hQuiet := processCertificate_quiet hProcess
  have hErased : ∀ key', (hs'.bufferedQCs.erase key).lookup key' =
      if key' = key then none else hs.bufferedQCs.lookup key' := by
    intro key'
    rw [hSame, Table.lookup_erase_ite]
  refine ⟨hQuiet.isByz_eq.trans h.honest, ?_, ?_⟩
  · intro key' held hLookup
    have hLeft := (hErased key').symm.trans hLookup
    split_ifs at hLeft
    rw [show ({ hs' with bufferedQCs := hs'.bufferedQCs.erase key } : HotStuff).id = hs.id from
      hQuiet.id_eq]
    exact h.waiting key' held hLeft
  · intro q hq
    change _ ∨ ∃ held, (hs'.bufferedQCs.erase key).lookup q.blockID = some held ∧ _
    rw [hErased]
    rcases h.kept q hq with hBelow | ⟨held, hLookup, hHigher⟩
    · exact Or.inl (hBelow.trans_le hQuiet.pm.view_le)
    · by_cases hKey : q.blockID = key
      · rw [hKey, hWaiting] at hLookup
        cases hLookup
        exact Or.inl (hHigher.trans_lt hOld)
      · rw [if_neg hKey]
        exact Or.inr ⟨held, hLookup, hHigher⟩

theorem Kept.act {o : Origins} {a : Action} (h : hs.Kept cfg built)
    (hPermits : o.Permits cfg hs a) (hSpares : hs.Spares cfg a) (hSingle : a.replays = false)
    (hAct : hs.act cfg a = .ok hs') : hs'.Kept cfg (built ++ a.built.toList) := by
  obtain ⟨_, hAction⟩ := hPermits
  cases a with
  | certificate source qc =>
      have hNewest : hs.Buffers cfg qc → hs.Newest qc :=
        fun hBuffers => (hSpares qc (if_pos hBuffers)).2
      refine h.processCertificate (fun q hq => ?_) hNewest hAct
      cases source with
      | votes => exact ⟨List.mem_singleton.mp hq, Or.inl hAction.2⟩
      | block | waiting | timeout => cases hq
  | hold qc =>
      cases Outcome.pure_eq_ok.mp hAct
      exact h.bufferQC (Or.inl hAction.2) (hSpares qc rfl).2 fun q hq => List.mem_singleton.mp hq
  | settle id => cases hSingle
  | raise block qc =>
      cases Outcome.pure_eq_ok.mp hAct
      rw [updateHighQC_eq]
      exact h.of_same rfl rfl rfl (le_refl _) fun q hq => by cases hq
  | advance view =>
      cases Outcome.pure_eq_ok.mp hAct
      exact h.of_same rfl rfl rfl (hs.pm.advanceView_advances view).view_le fun q hq => by cases hq
  | collect tmo =>
      cases Outcome.pure_eq_ok.mp hAct
      exact h.of_same rfl rfl rfl (hs.pm.processRemoteTmo_advances tmo).2.ge fun q hq => by cases hq
  | _ =>
      cases Outcome.pure_eq_ok.mp hAct
      exact h.of_same rfl rfl rfl (le_refl _) fun q hq => by cases hq

theorem builtQCs_append (first rest : List Action) :
    builtQCs (first ++ rest) = builtQCs first ++ builtQCs rest :=
  List.filterMap_append

theorem builtQCs_singleton (a : Action) : builtQCs [a] = a.built.toList := by
  unfold builtQCs
  cases hBuilt : a.built <;> simp [hBuilt]

theorem replays_of_paired {a : Action} (h : a.paired = false) : a.replays = false := by
  cases a with
  | certificate source qc =>
      cases source with
      | waiting key => cases h
      | block | votes | timeout => rfl
  | settle id => cases h
  | _ => rfl

theorem Kept.chunk {o : Origins} {id : NodeID} {past actions : List Action}
    (h : hs.Kept cfg (builtQCs past)) (hChunk : Chunk id actions)
    (hGuard : Guarded (HotStuff.act cfg) (fun s a => o.Permits cfg s a ∧ s.Spares cfg a) hs actions)
    (hRun : run (HotStuff.act cfg) hs actions = .ok hs') :
    hs'.Kept cfg (builtQCs (past ++ actions)) := by
  have hOne : ∀ {past : List Action} {hs middle : HotStuff} {a : Action},
      hs.Kept cfg (builtQCs past) → o.Permits cfg hs a ∧ hs.Spares cfg a → a.replays = false →
      hs.act cfg a = .ok middle → middle.Kept cfg (builtQCs (past ++ [a])) := by
    intro past hs middle a h hGuard hSingle hAct
    rw [builtQCs_append, builtQCs_singleton]
    exact h.act hGuard.1 hGuard.2 hSingle hAct
  cases hChunk with
  | single hSingle =>
      obtain ⟨middle, hAct, hRest⟩ := Outcome.bind_eq_ok.mp hRun
      cases Outcome.pure_eq_ok.mp hRest
      exact hOne h hGuard.1 (replays_of_paired hSingle) hAct
  | own qc hOwn =>
      obtain ⟨middle, hAct, hRest⟩ := Outcome.bind_eq_ok.mp hRun
      cases Outcome.pure_eq_ok.mp hRest
      exact hOne h hGuard.1 rfl hAct
  | carried block qc =>
      obtain ⟨middle, hAct, hRest⟩ := Outcome.bind_eq_ok.mp hRun
      obtain ⟨last, hCertificate, hDone⟩ := Outcome.bind_eq_ok.mp hRest
      cases Outcome.pure_eq_ok.mp hDone
      have hTwo := hOne (hOne h hGuard.1 rfl hAct) (hGuard.2 middle hAct).1 rfl hCertificate
      rwa [List.append_assoc] at hTwo
  | replay key qc =>
      rw [builtQCs_append]
      obtain ⟨middle, hAct, hRest⟩ := Outcome.bind_eq_ok.mp hRun
      obtain ⟨last, hSettle, hDone⟩ := Outcome.bind_eq_ok.mp hRest
      cases Outcome.pure_eq_ok.mp hSettle
      cases Outcome.pure_eq_ok.mp hDone
      obtain ⟨⟨_, hAction⟩, hSpares⟩ := hGuard.1
      have hNot : ¬hs.Buffers cfg qc := by
        intro hBuffers
        cases (hSpares qc (if_pos hBuffers)).1
      have hNext := h.replay hAction.2 hNot hAct
      rw [← List.append_nil (builtQCs past)] at hNext
      exact hNext

/-- A certificate that the replica has built is applied, obsolete or waiting after every
event, if none is buffered again while it is replayed and none is replaced by an older
one, and the current view does not wrap around. -/
theorem built_certificate_kept (cfg : Config) (id : NodeID) (n : Nat) (events : List Event)
    (hs : HotStuff) (hRun : run (step cfg) (HotStuff.new id false n) events = .ok hs)
    (hRange : ∀ e ∈ events, e.InRange)
    (hSpares : Guarded (HotStuff.act cfg) (Spares cfg) (HotStuff.new id false n)
      (runActions cfg (HotStuff.new id false n) events)) :
    (∀ qc ∈ builtQCs (runActions cfg (HotStuff.new id false n) events),
      qc.view < hs.pm.curView ∨ ∃ held, hs.bufferedQCs.lookup qc.blockID = some held ∧
        held.blockID = qc.blockID ∧ qc.view ≤ held.view) ∧
      hs.pm.curView < maxInt64 := by
  obtain ⟨hPasses, _⟩ := Origins.run_passes (anyOrigins_unrestricted.inclusive n)
    (fun e _ => anyOrigins_unrestricted.event fun _ _ => trivial) hRun
  have hChunked := runActions_chunked cfg id false n events
  have hKept : hs.Kept cfg (builtQCs ([] ++ runActions cfg (HotStuff.new id false n) events)) :=
    hChunked.history (P := fun past hs => hs.Kept cfg (builtQCs past))
      (fun past s c s' h hChunk hGuard hRun => h.chunk hChunk hGuard hRun)
      (hPasses.guarded.and hSpares) hPasses.returns [] (new_kept cfg id n)
  refine ⟨fun qc hqc => ?_, run_curView hRange hRun⟩
  rcases hKept.kept qc hqc with hBelow | ⟨held, hLookup, hHigher⟩
  · exact Or.inl hBelow
  · exact Or.inr ⟨held, hLookup, (hKept.waiting _ held hLookup).1, hHigher⟩

end HotStuff

namespace Scenario

/-- A vote for the block named by its own view. -/
def voteFor (key : Nat) (name : NodeID) (view : Nat) : HotStuff.Event :=
  .vote {
    view, voter := name, blockID := BitVec.ofNat 256 view
    signature := keys.sign key (BitVec.ofNat 256 view) }

/-- Three votes for block 3, then the replica gets to view 2 by timeouts. -/
def votesFirst : List HotStuff.Event :=
  [voteFor 0 "1" 3, voteFor 2 "3" 3, voteFor 3 "4" 3, .localTmo 0, .localTmo 1]

end Scenario

namespace HotStuff

theorem built_certificate_kept_in_order :
    ∃ hs, run (step (Scenario.config fun _ => "1")) (HotStuff.new "2" false 4)
        (Scenario.votesFirst ++ [.block (Scenario.block 2 2 1), .block (Scenario.block 3 3 2)]) =
          .ok hs ∧ hs.pm.curView = 4 ∧
      ∀ qc ∈ builtQCs (runActions (Scenario.config fun _ => "1") (HotStuff.new "2" false 4)
          (Scenario.votesFirst ++ [.block (Scenario.block 2 2 1), .block (Scenario.block 3 3 2)])),
        qc.view < hs.pm.curView ∨ ∃ held, hs.bufferedQCs.lookup qc.blockID = some held ∧
          held.blockID = qc.blockID ∧ qc.view ≤ held.view := by
  obtain ⟨hs, hRun, hView⟩ := Outcome.of_test
    (x := run (step (Scenario.config fun _ => "1")) (HotStuff.new "2" false 4)
      (Scenario.votesFirst ++ [.block (Scenario.block 2 2 1), .block (Scenario.block 3 3 2)]))
    (P := fun hs => hs.pm.curView = 4) (by decide)
  exact ⟨hs, hRun, hView,
    (built_certificate_kept _ _ _ _ hs hRun (by decide) (by decide)).1⟩

/-- The block of view 2 is lost. The certificate that waits for the block of view 3 is
buffered again when that block arrives, and then deleted. -/
theorem built_certificate_lost :
    ∃ hs, run (step (Scenario.config fun _ => "1")) (HotStuff.new "2" false 4)
        (Scenario.votesFirst ++ [.block (Scenario.block 3 3 2)]) = .ok hs ∧
      ∃ qc ∈ builtQCs (runActions (Scenario.config fun _ => "1") (HotStuff.new "2" false 4)
          (Scenario.votesFirst ++ [.block (Scenario.block 3 3 2)])),
        ¬qc.view < hs.pm.curView ∧ hs.bufferedQCs.lookup qc.blockID = none :=
  Outcome.of_test (by decide)

end HotStuff
end Bamboo
