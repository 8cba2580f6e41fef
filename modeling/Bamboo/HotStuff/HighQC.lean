import Bamboo.HotStuff.Chunks
import Bamboo.HotStuff.Lock

/-! Where the highest certificate of a replica comes from. `processCertificate` checks
the signatures before it adopts a certificate, but `ProcessBlock` adopts the
certificate of a block before that check, and the check is left out for a
certificate that is old or names the replica itself as its leader. A run is therefore
followed together with the certificates that the replica has built and those that it
has checked so far. -/
namespace Bamboo

open Library

/-- `VerifyQuorumSignature` returns true for the certificate. -/
def QC.Verifies (cfg : Config) (qc : QC) : Prop :=
  cfg.keys.verifyQuorumSignature qc.blockID qc.aggSig qc.signers = .ok true

instance (cfg : Config) (qc : QC) : Decidable (qc.Verifies cfg) :=
  inferInstanceAs (Decidable (_ = _))

/-- The first certificate, or one of those in `known`. -/
def QC.Justified (known : List QC) (qc : QC) : Prop :=
  qc = .initial ∨ qc ∈ known

instance (known : List QC) (qc : QC) : Decidable (qc.Justified known) :=
  inferInstanceAs (Decidable (_ ∨ _))

theorem QC.Justified.mono {known known' : List QC} {qc : QC} (h : qc.Justified known)
    (hKnown : known ⊆ known') : qc.Justified known' :=
  h.imp_right fun hMem => hKnown hMem

namespace HotStuff

/-- The certificate that the replica has built from votes when it takes the action. -/
def Action.built : Action → Option QC
  | .certificate .votes qc => some qc
  | .hold qc => some qc
  | _ => none

def builtQCs (actions : List Action) : List QC :=
  actions.filterMap Action.built

/-- `processCertificate` calls `VerifyQuorumSignature` for the certificate, and the
call returns true. -/
def ChecksOut (cfg : Config) (hs : HotStuff) (qc : QC) : Prop :=
  hs.pm.curView ≤ qc.view ∧ qc.leader ≠ hs.id ∧ qc.Verifies cfg

instance (cfg : Config) (hs : HotStuff) (qc : QC) : Decidable (hs.ChecksOut cfg qc) :=
  inferInstanceAs (Decidable (_ ∧ _ ∧ _))

/-- The certificate that the action checks with success. -/
def Action.verified (cfg : Config) (hs : HotStuff) : Action → Option QC
  | .certificate _ qc => if hs.ChecksOut cfg qc then some qc else none
  | _ => none

end HotStuff

/-- A replica with the certificates that it has built or checked with success so far. -/
structure Audited where
  hs : HotStuff
  known : List QC

namespace Audited

open HotStuff

def new (id : NodeID) (isByz : Bool) (n : Nat) : Audited :=
  { hs := .new id isByz n, known := [] }

def learns (cfg : Config) (s : Audited) (a : Action) : List QC :=
  s.known ++ a.built.toList ++ (a.verified cfg s.hs).toList

def act (cfg : Config) (s : Audited) (a : Action) : Outcome Audited := do
  let hs ← s.hs.act cfg a
  pure { hs, known := s.learns cfg a }

/-- What an action may adopt without a check of its own is not higher, or has been built or
checked before, or is checked by the next action. -/
def Checked (cfg : Config) (s : Audited) : Action → Prop
  | .raise block qc => qc.view ≤ s.hs.highQC.view ∨ qc ∈ s.known ∨
      (block.proposer ≠ s.hs.id ∧ s.hs.ChecksOut cfg qc)
  | .certificate .timeout qc => qc.view < s.hs.pm.curView ∨ qc.leader ≠ s.hs.id ∨
      qc.view ≤ s.hs.highQC.view ∨ qc ∈ s.known
  | _ => True

instance (cfg : Config) (s : Audited) : (a : Action) → Decidable (s.Checked cfg a)
  | .raise _ _ => inferInstanceAs (Decidable (_ ∨ _ ∨ _))
  | .certificate .timeout _ => inferInstanceAs (Decidable (_ ∨ _ ∨ _ ∨ _))
  | .certificate .block _ | .certificate (.waiting _) _ | .certificate .votes _ | .enter _
  | .delay _ | .store _ | .settle _ | .record _ | .send _ | .addVote _ | .hold _ | .release _
  | .advance _ | .collect _ => inferInstanceAs (Decidable True)

/-! The record does not change what the replica does. -/

theorem act_spec {cfg : Config} {s s' : Audited} {a : Action} (h : s.act cfg a = .ok s') :
    ∃ hs', s.hs.act cfg a = .ok hs' ∧ s' = { hs := hs', known := s.learns cfg a } := by
  obtain ⟨hs', hAct, hDone⟩ := Outcome.bind_eq_ok.mp h
  exact ⟨hs', hAct, (Outcome.pure_eq_ok.mp hDone).symm⟩

theorem run_hs {cfg : Config} {s s' : Audited} {actions : List Action}
    (h : run (Audited.act cfg) s actions = .ok s') : run (HotStuff.act cfg) s.hs actions = .ok s'.hs := by
  induction actions generalizing s with
  | nil =>
      cases Outcome.pure_eq_ok.mp h
      rfl
  | cons a rest ih =>
      obtain ⟨middle, hFirst, hRest⟩ := Outcome.bind_eq_ok.mp h
      obtain ⟨hs', hAct, rfl⟩ := act_spec hFirst
      exact Outcome.bind_eq_ok.mpr ⟨hs', hAct, ih hRest⟩

theorem guarded_hs {cfg : Config} {guard : HotStuff → Action → Prop} {s : Audited}
    {actions : List Action} (h : Guarded (HotStuff.act cfg) guard s.hs actions) :
    Guarded (Audited.act cfg) (fun s a => guard s.hs a) s actions := by
  induction actions generalizing s with
  | nil => trivial
  | cons a rest ih =>
      refine ⟨h.1, fun s' hStep => ?_⟩
      obtain ⟨hs', hAct, rfl⟩ := act_spec hStep
      exact ih (h.2 hs' hAct)

end Audited

namespace HotStuff

/-- The highest certificate is justified, and a certificate that waits for its block
is so too unless it is not higher. -/
structure Certified (known : List QC) (hs : HotStuff) : Prop where
  highQC : hs.highQC.Justified known
  waiting : ∀ key qc, hs.bufferedQCs.lookup key = some qc →
    qc.view ≤ hs.highQC.view ∨ qc.Justified known

variable {cfg : Config} {known known' : List QC} {hs hs' : HotStuff} {qc : QC}

theorem new_certified (known : List QC) (id : NodeID) (isByz : Bool) (n : Nat) :
    (HotStuff.new id isByz n).Certified known where
  highQC := Or.inl rfl
  waiting := by
    intro key qc hLookup
    have hEmpty : (∅ : Table Identifier QC).lookup key = some qc := hLookup
    rw [Finmap.lookup_empty] at hEmpty
    cases hEmpty

theorem Certified.mono (h : hs.Certified known) (hKnown : known ⊆ known') :
    hs.Certified known' where
  highQC := h.highQC.mono hKnown
  waiting key qc hLookup := (h.waiting key qc hLookup).imp_right fun hQC => hQC.mono hKnown

/-- Only the two fields matter. -/
theorem Certified.of_same (h : hs.Certified known) (hHigh : hs'.highQC = hs.highQC)
    (hBuffer : hs'.bufferedQCs = hs.bufferedQCs) : hs'.Certified known where
  highQC := by
    rw [hHigh]
    exact h.highQC
  waiting := by
    rw [hHigh, hBuffer]
    exact h.waiting

theorem Certified.adopt (h : hs.Certified known)
    (hQC : qc.view ≤ hs.highQC.view ∨ qc.Justified known) :
    (hs.updateHighQC qc).Certified known := by
  unfold updateHighQC
  split_ifs with hHigher
  · have hJustified := hQC.resolve_left (not_le.mpr hHigher)
    refine ⟨hJustified, ?_⟩
    intro key waiting hLookup
    exact (h.waiting key waiting hLookup).imp_left fun hView => hView.trans hHigher.le
  · exact h

theorem Certified.bufferQC (h : hs.Certified known)
    (hQC : qc.view ≤ hs.highQC.view ∨ qc.Justified known) :
    (hs.bufferQC qc).Certified known where
  highQC := h.highQC
  waiting := by
    intro key waiting hLookup
    rcases Table.of_lookup_insert hLookup with ⟨_, rfl⟩ | hOld
    · exact hQC
    · exact h.waiting key waiting hOld

theorem Certified.settle (h : hs.Certified known) (id : Identifier) :
    Certified known { hs with bufferedQCs := hs.bufferedQCs.erase id } where
  highQC := h.highQC
  waiting key waiting hLookup := h.waiting key waiting (Table.of_lookup_erase hLookup)

/-- A certificate that passes `processCertificate` names the replica as its leader, or has
been checked. -/
theorem checksOut_of_verified (hCurrent : hs.pm.curView ≤ qc.view)
    (hVerified : hs.certificateVerified cfg qc = .ok true) :
    qc.leader = hs.id ∨ hs.ChecksOut cfg qc := by
  unfold certificateVerified at hVerified
  split_ifs at hVerified with hOwn
  · exact Or.inl hOwn
  · exact Or.inr ⟨hCurrent, hOwn, hVerified⟩

theorem Certified.processCertificate (h : hs.Certified known)
    (hOwn : hs.pm.curView ≤ qc.view → qc.leader = hs.id →
      qc.view ≤ hs.highQC.view ∨ qc.Justified known)
    (hChecked : hs.ChecksOut cfg qc → qc ∈ known)
    (hProcess : hs.processCertificate cfg qc = .ok hs') : hs'.Certified known := by
  rcases processCertificate_cases hProcess with ⟨_, rfl⟩ | ⟨hCurrent, hVerified, hTaken⟩
  · exact h
  have hKnown : qc.view ≤ hs.highQC.view ∨ qc.Justified known := by
    rcases checksOut_of_verified hCurrent hVerified with hLeader | hChecks
    · exact hOwn hCurrent hLeader
    · exact Or.inr (Or.inr (hChecked hChecks))
  rcases hTaken with ⟨_, rfl⟩ | ⟨_, rfl⟩ | ⟨locked, hLock, hApply⟩
  · exact h.of_same rfl rfl
  · exact h.bufferQC hKnown
  · obtain ⟨lock, rfl, _⟩ := updatePreferredView_eq_some hLock
    obtain ⟨bc, committed, forked, rfl, _⟩ := applyCertificate_spec hApply
    have hAdopted := h.adopt hKnown
    rw [updateHighQC_eq] at hAdopted
    exact hAdopted.of_same rfl rfl

end HotStuff

namespace Audited

open HotStuff

variable {cfg : Config} {s s' : Audited} {a : Action}

theorem known_subset_learns (cfg : Config) (s : Audited) (a : Action) :
    s.known ⊆ s.learns cfg a := by
  intro qc hMem
  exact List.mem_append_left _ (List.mem_append_left _ hMem)

theorem built_mem_learns {qc : QC} (h : a.built = some qc) : qc ∈ s.learns cfg a := by
  simp [learns, h]

theorem verified_mem_learns {source : Source} {qc : QC} (h : s.hs.ChecksOut cfg qc) :
    qc ∈ s.learns cfg (.certificate source qc) := by
  simp [learns, Action.verified, h]

/-- Each action keeps the highest certificate justified, by the way in which a
certificate comes to the replica, unless it adopts one that is checked next. -/
theorem act_certified {o : Origins} (h : s.hs.Certified s.known)
    (hPermits : o.Permits cfg s.hs a) (hChecked : s.Checked cfg a)
    (hRaise : ∀ block qc, a = .raise block qc →
      qc.view ≤ s.hs.highQC.view ∨ qc.Justified s.known)
    (hAct : s.act cfg a = .ok s') : s'.hs.Certified s'.known := by
  obtain ⟨_, hAction⟩ := hPermits
  obtain ⟨hs', hDone, rfl⟩ := act_spec hAct
  have hMore := known_subset_learns cfg s a
  have hNow := h.mono hMore
  cases a with
  | certificate source qc =>
      refine hNow.processCertificate (fun hCurrent hLeader => ?_) verified_mem_learns hDone
      cases source with
      | block => exact Or.inl hAction.2
      | waiting key => exact hNow.waiting key qc hAction.2
      | votes => exact Or.inr (Or.inr (built_mem_learns rfl))
      | timeout =>
          rcases hChecked with hStale | hOther | hLower | hMem
          · exact absurd hStale (not_lt.mpr hCurrent)
          · exact absurd hLeader hOther
          · exact Or.inl hLower
          · exact Or.inr (Or.inr (hMore hMem))
  | raise block qc =>
      cases Outcome.pure_eq_ok.mp hDone
      exact hNow.adopt ((hRaise block qc rfl).imp_right fun hQC => hQC.mono hMore)
  | hold qc =>
      cases Outcome.pure_eq_ok.mp hDone
      exact hNow.bufferQC (Or.inr (Or.inr (built_mem_learns rfl)))
  | settle id =>
      cases Outcome.pure_eq_ok.mp hDone
      exact hNow.settle id
  | _ =>
      cases Outcome.pure_eq_ok.mp hDone
      exact hNow.of_same rfl rfl

/-- After a certificate is adopted it is justified, or it is the highest one and the check
that comes next succeeds. -/
theorem raise_certified {o : Origins} {block : Block} {qc : QC} (h : s.hs.Certified s.known)
    (hPermits : o.Permits cfg s.hs (.raise block qc)) (hChecked : s.Checked cfg (.raise block qc))
    (hAct : s.act cfg (.raise block qc) = .ok s') :
    s'.hs.Certified s'.known ∨ (block.proposer ≠ s.hs.id ∧ s'.hs.highQC = qc ∧
      s'.hs.ChecksOut cfg qc ∧ s'.hs.Certified (s'.known ++ [qc])) := by
  by_cases hKnown : qc.view ≤ s.hs.highQC.view ∨ qc.Justified s.known
  · left
    refine act_certified h hPermits hChecked (fun other found hRaise => ?_) hAct
    cases hRaise
    exact hKnown
  · right
    obtain ⟨hNotLower, hNotKnown⟩ := not_or.mp hKnown
    have hChecks := (hChecked.resolve_left hNotLower).resolve_left fun hMem =>
      hNotKnown (Or.inr hMem)
    obtain ⟨hs', hDone, rfl⟩ := act_spec hAct
    cases Outcome.pure_eq_ok.mp hDone
    have hAdopted : s.hs.updateHighQC qc = { s.hs with highQC := qc } :=
      if_pos (not_le.mp hNotLower)
    refine ⟨hChecks.1, ?_, ?_, ?_⟩
    · exact congrArg HotStuff.highQC hAdopted
    · change (s.hs.updateHighQC qc).ChecksOut cfg qc
      rw [hAdopted]
      exact hChecks.2
    · have hMore : s.known ⊆ s.learns cfg (.raise block qc) ++ [qc] := fun q hq =>
        List.mem_append_left _ (known_subset_learns cfg s _ hq)
      exact (h.mono hMore).adopt (Or.inr (Or.inr (by simp)))

/-- What holds between two chunks of a run. -/
theorem chunk_certified {o : Origins} {actions : List Action} (h : s.hs.Certified s.known)
    (hChunk : Chunk s.hs.id actions)
    (hGuard : Guarded (Audited.act cfg) (fun s a => o.Permits cfg s.hs a ∧ s.Checked cfg a) s
      actions)
    (hRun : run (Audited.act cfg) s actions = .ok s') : s'.hs.Certified s'.known := by
  cases hChunk with
  | single hSingle =>
      obtain ⟨middle, hAct, hRest⟩ := Outcome.bind_eq_ok.mp hRun
      obtain ⟨⟨hPermits, hChecked⟩, _⟩ := hGuard
      cases Outcome.pure_eq_ok.mp hRest
      refine act_certified h hPermits hChecked (fun block qc hRaise => ?_) hAct
      cases hRaise
      cases hSingle
  | own qc hOwn =>
      obtain ⟨middle, hAct, hRest⟩ := Outcome.bind_eq_ok.mp hRun
      obtain ⟨⟨hPermits, hChecked⟩, _⟩ := hGuard
      cases Outcome.pure_eq_ok.mp hRest
      rcases raise_certified h hPermits hChecked hAct with hDone | ⟨hOther, _⟩
      · exact hDone
      · exact absurd hOwn hOther
  | carried block qc =>
      obtain ⟨middle, hAct, hRest⟩ := Outcome.bind_eq_ok.mp hRun
      obtain ⟨⟨hPermits, hChecked⟩, hLater⟩ := hGuard
      obtain ⟨last, hCertificate, hDone⟩ := Outcome.bind_eq_ok.mp hRest
      cases Outcome.pure_eq_ok.mp hDone
      obtain ⟨hNext, hNextChecked⟩ := (hLater middle hAct).1
      rcases raise_certified h hPermits hChecked hAct with hMiddle | ⟨_, hHigh, hChecks, hMiddle⟩
      · exact act_certified hMiddle hNext hNextChecked (fun _ _ hRaise => by cases hRaise)
          hCertificate
      · -- the check adds the certificate to what is known
        obtain ⟨hs', hProcess, rfl⟩ := act_spec hCertificate
        have hSame : middle.known ++ [qc] ⊆ middle.learns cfg (.certificate .block qc) := by
          intro q hq
          rcases List.mem_append.mp hq with hOld | hNew
          · exact known_subset_learns cfg middle _ hOld
          · cases List.mem_singleton.mp hNew
            exact verified_mem_learns hChecks
        refine (hMiddle.mono hSame).processCertificate (fun _ hLeader => ?_) verified_mem_learns
          hProcess
        exact absurd hLeader hChecks.2.1
  | replay key qc =>
      obtain ⟨middle, hAct, hRest⟩ := Outcome.bind_eq_ok.mp hRun
      obtain ⟨⟨hPermits, hChecked⟩, hLater⟩ := hGuard
      obtain ⟨last, hSettle, hDone⟩ := Outcome.bind_eq_ok.mp hRest
      cases Outcome.pure_eq_ok.mp hDone
      have hMiddle := act_certified h hPermits hChecked (fun _ _ hRaise => by cases hRaise) hAct
      obtain ⟨hNext, hNextChecked⟩ := (hLater middle hAct).1
      exact act_certified hMiddle hNext hNextChecked (fun _ _ hRaise => by cases hRaise) hSettle

theorem act_id (h : s.act cfg a = .ok s') : s'.hs.id = s.hs.id := by
  obtain ⟨hs', hDone, rfl⟩ := act_spec h
  cases a with
  | certificate source qc => exact (processCertificate_quiet hDone).id_eq
  | raise block qc =>
      cases Outcome.pure_eq_ok.mp hDone
      exact (updateHighQC_quiet s.hs qc).id_eq
  | _ =>
      cases Outcome.pure_eq_ok.mp hDone
      rfl

theorem chunks_certified {o : Origins} {id : NodeID} {actions : List Action}
    (hChunked : Chunked (Chunk id) actions)
    (hGuard : Guarded (Audited.act cfg) (fun s a => o.Permits cfg s.hs a ∧ s.Checked cfg a) s
      actions)
    (hRun : run (Audited.act cfg) s actions = .ok s') (hId : s.hs.id = id)
    (h : s.hs.Certified s.known) : s'.hs.id = id ∧ s'.hs.Certified s'.known := by
  refine hChunked.history (P := fun _ s => s.hs.id = id ∧ s.hs.Certified s.known) ?_ hGuard hRun []
    ⟨hId, h⟩
  rintro _ s c s' ⟨rfl, h⟩ hChunk hGuard hRun
  have hSame : s'.hs.id = s.hs.id :=
    run_invariant (P := fun t : Audited => t.hs.id = s.hs.id)
      (fun _ _ _ hId hAct => (act_id hAct).trans hId) hRun rfl
  exact ⟨hSame, chunk_certified h hChunk hGuard hRun⟩

/-- In the middle of a chunk only a certificate whose check comes next is not justified. -/
theorem cut_justified {o : Origins} {front back : List Action} (h : s.hs.Certified s.known)
    (hChunk : Chunk s.hs.id (front ++ back))
    (hGuard : Guarded (Audited.act cfg) (fun s a => o.Permits cfg s.hs a ∧ s.Checked cfg a) s front)
    (hRun : run (Audited.act cfg) s front = .ok s') :
    s'.hs.highQC.Justified s'.known ∨
      (back = [.certificate .block s'.hs.highQC] ∧ s'.hs.ChecksOut cfg s'.hs.highQC) := by
  rcases hChunk.cut with rfl | rfl | ⟨block, qc, rfl, rfl⟩ | ⟨key, qc, rfl, rfl⟩
  · cases Outcome.pure_eq_ok.mp hRun
    exact Or.inl h.highQC
  · rw [List.append_nil] at hChunk
    exact Or.inl (chunk_certified h hChunk hGuard hRun).highQC
  · obtain ⟨middle, hAct, hDone⟩ := Outcome.bind_eq_ok.mp hRun
    cases Outcome.pure_eq_ok.mp hDone
    rcases raise_certified h hGuard.1.1 hGuard.1.2 hAct with hNext | ⟨_, rfl, hChecks, _⟩
    · exact Or.inl hNext.highQC
    · exact Or.inr ⟨rfl, hChecks⟩
  · obtain ⟨middle, hAct, hDone⟩ := Outcome.bind_eq_ok.mp hRun
    cases Outcome.pure_eq_ok.mp hDone
    have hNext := act_certified h hGuard.1.1 hGuard.1.2 (fun _ _ hRaise => by cases hRaise) hAct
    exact Or.inl hNext.highQC

end Audited

namespace HotStuff

/-- No condition on what the replica receives. -/
def anyOrigins : Origins where
  qc := fun _ => True
  vote := fun _ => True
  block := fun _ => True

theorem anyOrigins_unrestricted : anyOrigins.Unrestricted :=
  ⟨fun _ => trivial, fun _ => trivial⟩

/-- At every moment of a run, between two events or in the middle of one, the highest
certificate is the first one, one that the replica has built by then, or one for which
`VerifyQuorumSignature` has returned true by then, if whatever is adopted without a check of
its own is so. Only between `updateHighQC` and `processCertificate`, which `ProcessBlock`
calls in this order, the check that returns true may still be to come. -/
theorem highQC_justified (cfg : Config) (id : NodeID) (isByz : Bool) (n : Nat)
    (events : List Event) (last : HotStuff)
    (hRun : run (step cfg) (HotStuff.new id isByz n) events = .ok last)
    (hChecked : Guarded (Audited.act cfg) (Audited.Checked cfg) (.new id isByz n)
      (runActions cfg (HotStuff.new id isByz n) events))
    (first rest : List Action) (s : Audited)
    (hSplit : runActions cfg (HotStuff.new id isByz n) events = first ++ rest)
    (hAt : run (Audited.act cfg) (.new id isByz n) first = .ok s) :
    s.hs.highQC.Justified s.known ∨
      ∃ later, rest = .certificate .block s.hs.highQC :: later ∧
        s.hs.ChecksOut cfg s.hs.highQC := by
  obtain ⟨hPasses, _⟩ := Origins.run_passes_between (anyOrigins_unrestricted.inclusive n)
    (fun e _ => anyOrigins_unrestricted.event fun _ _ => trivial) hRun hSplit
    (Audited.run_hs hAt)
  rw [hSplit] at hChecked
  have hGuarded := (Audited.guarded_hs (s := .new id isByz n) hPasses.guarded).and
    hChecked.of_append
  have hChunked := runActions_chunked cfg id isByz n events
  rw [hSplit] at hChunked
  obtain ⟨past, front, back, later, rfl, rfl, hPast, hCut⟩ := hChunked.cut
  rw [run_append] at hAt
  obtain ⟨between, hBefore, hFront⟩ := Outcome.bind_eq_ok.mp hAt
  obtain ⟨rfl, hCertified⟩ := Audited.chunks_certified hPast hGuarded.of_append hBefore rfl
    (new_certified [] id isByz n)
  rcases hCut with rfl | hChunk
  · cases Outcome.pure_eq_ok.mp hFront
    exact Or.inl hCertified.highQC
  · rcases Audited.cut_justified hCertified hChunk (hGuarded.split hBefore) hFront with
      hDone | ⟨rfl, hChecks⟩
    · exact Or.inl hDone
    · exact Or.inr ⟨later, rfl, hChecks⟩

end HotStuff

namespace Scenario

/-- Three blocks in order. -/
def inOrder : List HotStuff.Event :=
  [.block (block 1 1 0), .block (block 2 2 1), .block (block 3 3 2)]

/-- A certificate with a signature that nobody made. -/
def forgedQC (leader : NodeID) : QC :=
  { leader, view := 1, signers := ["3"], aggSig := [[[9], [9]]] }

def forgedBlock : HotStuff.Event :=
  .block { block 1 1 0 with qc := some (forgedQC "3") }

def forgedTmo : HotStuff.Event :=
  .tmo { view := 1, nodeID := "3", highQC := some (forgedQC "2") }

/-- The actions of a run of replica 2. -/
def actions (events : List HotStuff.Event) : List HotStuff.Action :=
  HotStuff.runActions (config fun _ => "1") (HotStuff.new "2" false 4) events

end Scenario

namespace HotStuff

theorem highQC_justified_in_order :
    ∃ s, run (Audited.act (Scenario.config fun _ => "1")) (.new "2" false 4)
        (Scenario.actions Scenario.inOrder) = .ok s ∧
      s.hs.highQC = Scenario.certificate 2 2 ∧
      s.known = [.initial, Scenario.certificate 1 1, Scenario.certificate 2 2] ∧
      s.hs.highQC.Justified s.known := by
  obtain ⟨last, hRun, _⟩ := Outcome.of_test
    (x := run (step (Scenario.config fun _ => "1")) (HotStuff.new "2" false 4)
      Scenario.inOrder) (P := fun _ => True) (by decide)
  obtain ⟨s, hAt, hHigh, hKnown⟩ := Outcome.of_test
    (x := run (Audited.act (Scenario.config fun _ => "1")) (.new "2" false 4)
      (Scenario.actions Scenario.inOrder))
    (P := fun s => s.hs.highQC = Scenario.certificate 2 2 ∧
      s.known = [.initial, Scenario.certificate 1 1, Scenario.certificate 2 2]) (by decide)
  refine ⟨s, hAt, hHigh, hKnown, ?_⟩
  have hJustified := highQC_justified _ _ _ _ _ last hRun (by decide) _ [] s
    (List.append_nil _).symm hAt
  refine hJustified.resolve_right ?_
  rintro ⟨later, hRest, _⟩
  cases hRest

/-- A forged certificate becomes the highest one although its check fails, when it
comes with a block, and is not checked at all when it comes with a timeout and
names the replica as its leader. Nor is the certificate of a block checked that
comes after the replica has left its view. -/
theorem forged_certificate_adopted :
    (∃ s, run (Audited.act (Scenario.config fun _ => "1")) (.new "2" false 4)
        (Scenario.actions [Scenario.forgedBlock]) = .ok s ∧ ¬s.hs.highQC.Justified s.known) ∧
    (∃ s, run (Audited.act (Scenario.config fun _ => "1")) (.new "2" false 4)
        (Scenario.actions [Scenario.forgedTmo]) = .ok s ∧ ¬s.hs.highQC.Justified s.known) ∧
    ∃ s, run (Audited.act (Scenario.config fun _ => "1")) (.new "2" false 4)
        (Scenario.actions Scenario.timedOut) = .ok s ∧ ¬s.hs.highQC.Justified s.known := by
  refine ⟨?_, ?_, ?_⟩
  · exact Outcome.of_test (by decide)
  · exact Outcome.of_test (by decide)
  · exact Outcome.of_test (by decide)

end HotStuff
end Bamboo
