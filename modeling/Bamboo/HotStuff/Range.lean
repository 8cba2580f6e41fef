import Bamboo.HotStuff.Actions
import Bamboo.Library.Int64

/-! Views are `int64` in the source and integers here. The handlers only add small numbers to the
views that they are given, so the two agree in runs whose events bring no view near the largest
`int64`. -/
namespace Bamboo

open Library

namespace HotStuff

/-- The views that an event brings to the replica. -/
def Event.views : Event → List View
  | .block b => b.view :: (b.qc.map QC.view).toList
  | .vote ballot => [ballot.view]
  | .tmo timeout => timeout.view :: (timeout.highQC.map QC.view).toList
  | .localTmo view => [view]
  | .kickOff => []

/-- No sum that the handlers form of the event's views leaves `int64`. The largest one is
`curView + 1` once the timeout messages that answer a local timeout of `view` have advanced the
replica to `view + 2`. -/
def Event.InRange (e : Event) : Prop :=
  ∀ view ∈ e.views, view + 3 ≤ maxInt64

instance (e : Event) : Decidable e.InRange :=
  inferInstanceAs (Decidable (∀ view ∈ e.views, _))

def rangeOrigins : Origins where
  qc := fun qc => qc.view + 3 ≤ maxInt64
  vote := fun vote => vote.view + 3 ≤ maxInt64
  block := fun block => block.view + 3 ≤ maxInt64 ∧
    ∀ qc, block.qc = some qc → qc.view + 3 ≤ maxInt64

theorem rangeOrigins_inclusive (n : Nat) : rangeOrigins.Inclusive n where
  carried block qc hBlock hQC := hBlock.2 qc hQC
  quorum vote qc hVote hView _ _ _ _ := by
    change qc.view + 3 ≤ maxInt64
    rw [hView]
    exact hVote
  initial := show (0 : Int) + 3 ≤ maxInt64 by decide
  own block vote hBlock hView _ := by
    change vote.view + 3 ≤ maxInt64
    rw [hView]
    exact hBlock.1

theorem Event.InRange.origins {e : Event} (h : e.InRange) : rangeOrigins.event e := by
  cases e with
  | block block =>
      refine ⟨h block.view List.mem_cons_self, fun qc hQC => h qc.view ?_⟩
      simp [Event.views, hQC]
  | vote vote => exact h vote.view List.mem_cons_self
  | tmo tmo =>
      intro qc hQC
      apply h qc.view
      simp [Event.views, hQC]
  | localTmo view => trivial
  | kickOff => trivial

/-- An advance to a view below the largest `int64`. -/
def Action.Advances : Action → Prop
  | .advance view => view + 2 ≤ maxInt64
  | _ => True

theorem tc_view {pm : Pacemaker} {tmo : TMO} {tc : TC}
    (h : (pm.processRemoteTmo tmo).2 = some tc) : tc.view = tmo.view := by
  unfold Pacemaker.processRemoteTmo TimeoutController.addTmo at h
  split_ifs at h
  dsimp only at h
  split_ifs at h
  cases h
  rfl

theorem tmoActions_advances {cfg : Config} {hs : HotStuff} {tmo : TMO} {a : Action}
    (hView : tmo.view + 2 ≤ maxInt64) (h : a ∈ tmoActions cfg hs tmo) : a.Advances := by
  unfold tmoActions at h
  split at h
  · cases h
  · rcases List.mem_cons.mp h with rfl | h
    · trivial
    · split at h
      · cases h
      · rcases List.mem_cons.mp h with rfl | h
        · trivial
        · split at h
          · cases h
          · next hTC =>
              split_ifs at h
              · cases h
              · cases List.mem_singleton.mp h
                change _ + 2 ≤ maxInt64
                rw [tc_view hTC]
                exact hView

theorem voteActions_advances {cfg : Config} {hs : HotStuff} {vote : Vote} {a : Action}
    (h : a ∈ voteActions cfg hs vote) : a.Advances := by
  rcases mem_voteActions h with rfl | ⟨qc, rfl | rfl⟩ <;> trivial

theorem storeActions_advances {hs : HotStuff} {container : BlockContainer} {a : Action}
    (h : a ∈ hs.storeActions container) : a.Advances := by
  unfold storeActions at h
  rcases List.mem_cons.mp h with rfl | h
  · trivial
  · split at h
    · cases h
    · rcases List.mem_cons.mp h with rfl | h
      · trivial
      · cases List.mem_singleton.mp h
        trivial

theorem castActions_advances {cfg : Config} {hs : HotStuff} {record : VoteRecord} {a : Action}
    (h : a ∈ castActions cfg hs record) : a.Advances := by
  rcases mem_castActions h with rfl | ⟨message, rfl⟩ | ⟨_, _, hVote⟩
  · trivial
  · trivial
  · exact voteActions_advances hVote

/-- `ProcessBlock` advances only with certificates. -/
theorem takeUpActions_advances {cfg : Config} {hs : HotStuff} {block : Block} {a : Action}
    (h : a ∈ takeUpActions cfg hs block) : a.Advances := by
  by_cases hAhead : hs.pm.curView + 1 < block.view
  · rw [Origins.takeUpActions_ahead hAhead] at h
    cases List.mem_singleton.mp h
    trivial
  cases hQC : block.qc with
  | none =>
      rw [Origins.takeUpActions_none hAhead hQC] at h
      cases h
  | some qc =>
      rw [Origins.takeUpActions_some hAhead hQC] at h
      rcases List.mem_append.mp h with hFirst | hStore
      · rcases List.mem_cons.mp hFirst with rfl | hFirst
        · trivial
        · split_ifs at hFirst
          · cases hFirst
          · cases List.mem_singleton.mp hFirst
            trivial
      · split at hStore
        · cases hStore
        · split_ifs at hStore
          · cases hStore
          · cases hStore
          · exact storeActions_advances hStore

theorem blockActions_advances {cfg : Config} {depth : Nat} {hs : HotStuff} {block : Block}
    {a : Action} (h : a ∈ blockActions cfg depth hs block) : a.Advances := by
  induction depth generalizing hs block with
  | zero => cases h
  | succ depth ih =>
      unfold blockActions at h
      rcases List.mem_append.mp h with hFirst | hRest
      · rcases List.mem_cons.mp hFirst with rfl | hTaken
        · trivial
        · exact takeUpActions_advances hTaken
      · split at hRest
        · rcases List.mem_append.mp hRest with hCast | hNext
          · exact castActions_advances hCast
          · split at hNext
            · cases hNext
            · split at hNext
              · cases hNext
              · rcases List.mem_append.mp hNext with hNested | hRelease
                · exact ih hNested
                · cases List.mem_singleton.mp hRelease
                  trivial
        · cases hRest

/-- What the handlers advance to without a certificate comes from a timeout. -/
theorem eventActions_advances {cfg : Config} {hs : HotStuff} {e : Event} {a : Action}
    (hRange : e.InRange) (h : a ∈ eventActions cfg hs e) : a.Advances := by
  cases e with
  | block block => exact blockActions_advances h
  | vote vote => exact voteActions_advances h
  | tmo tmo =>
      have hView : tmo.view + 3 ≤ maxInt64 := hRange tmo.view List.mem_cons_self
      exact tmoActions_advances (by lia) h
  | localTmo view =>
      have hView : view + 3 ≤ maxInt64 := hRange view List.mem_cons_self
      rcases List.mem_cons.mp h with rfl | h
      · change view + 2 ≤ maxInt64
        lia
      · rcases List.mem_cons.mp h with rfl | h
        · trivial
        · refine tmoActions_advances ?_ h
          change view + 1 + 2 ≤ maxInt64
          lia
  | kickOff =>
      unfold eventActions at h
      split_ifs at h
      · cases List.mem_singleton.mp h
        change (0 : Int) + 2 ≤ maxInt64
        decide
      · cases h

/-- One action leaves the view after the current one in the range. -/
theorem act_curView {cfg : Config} {hs hs' : HotStuff} {a : Action}
    (hPermits : rangeOrigins.Permits cfg hs a) (hAdvances : a.Advances)
    (hCurrent : hs.pm.curView < maxInt64) (hAct : hs.act cfg a = .ok hs') :
    hs'.pm.curView < maxInt64 := by
  have hTo : ∀ view : View, view + 2 ≤ maxInt64 →
      (hs.pm.advanceView view).curView < maxInt64 := by
    intro view hView
    unfold Pacemaker.advanceView
    split_ifs
    · exact hCurrent
    · change view + 1 < maxInt64
      lia
  cases a with
  | certificate source qc =>
      have hView : qc.view + 3 ≤ maxInt64 := hPermits.2.1
      rcases processCertificate_cases hAct with
        ⟨_, rfl⟩ | ⟨_, _, ⟨_, rfl⟩ | ⟨_, rfl⟩ | ⟨locked, hLock, hApply⟩⟩
      · exact hCurrent
      · exact hTo qc.view (by lia)
      · exact hCurrent
      · obtain ⟨lock, rfl, _⟩ := updatePreferredView_eq_some hLock
        obtain ⟨bc, committed, forked, rfl, _⟩ := applyCertificate_spec hApply
        exact hTo qc.view (by lia)
  | advance view =>
      cases Outcome.pure_eq_ok.mp hAct
      exact hTo view hAdvances
  | collect tmo =>
      cases Outcome.pure_eq_ok.mp hAct
      exact (hs.pm.processRemoteTmo_advances tmo).2 ▸ hCurrent
  | raise block qc =>
      cases Outcome.pure_eq_ok.mp hAct
      rw [updateHighQC_eq]
      exact hCurrent
  | _ =>
      cases Outcome.pure_eq_ok.mp hAct
      exact hCurrent

/-- In a run whose events are in the range, the current view and the one after it are `int64`. -/
theorem run_curView {cfg : Config} {id : NodeID} {isByz : Bool} {n : Nat} {events : List Event}
    {hs : HotStuff} (hRange : ∀ e ∈ events, e.InRange)
    (hRun : run (step cfg) (HotStuff.new id isByz n) events = .ok hs) :
    hs.pm.curView < maxInt64 := by
  obtain ⟨hPasses, _⟩ := Origins.run_passes (rangeOrigins_inclusive n)
    (fun e he => (hRange e he).origins) hRun
  refine guarded_run_invariant (P := fun hs => hs.pm.curView < maxInt64) ?_
    (hPasses.guarded.and (guarded_mem _ _)) hPasses.returns (show (0 : Int) < maxInt64 by decide)
  rintro s a s' hCurrent ⟨hPermits, hMem⟩ hAct
  obtain ⟨_, e, he, hExpand⟩ := mem_expandAll hMem
  exact act_curView hPermits (eventActions_advances (hRange e he) hExpand) hCurrent hAct

end HotStuff
end Bamboo
