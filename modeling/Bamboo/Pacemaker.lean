import Bamboo.Blockchain.Quorum
import Bamboo.Library.LockedVoting

/-! The pacemaker: the current view, the views announced to the replica, and the
timeout messages collected for a view. A send on the view channel never blocks
here; the channel is the list of the views not taken from it yet. A view is an `int64`
in the source and an integer here, so `view + 1` does not wrap around; results that
depend on this are about views below the largest `int64`. -/
namespace Bamboo

open Library

/-- A timeout message. A peer may leave the certificate out. -/
structure TMO where
  view : View
  nodeID : NodeID
  highQC : Option QC
deriving DecidableEq

/-- A timeout certificate. It carries a view and no signatures. -/
structure TC where
  view : View

structure TimeoutController where
  n : Nat
  timeouts : Table View (Table NodeID TMO)

namespace TimeoutController

def new (n : Nat) : TimeoutController := { n, timeouts := ∅ }

def timeoutsAt (tcl : TimeoutController) (view : View) : Table NodeID TMO :=
  (tcl.timeouts.lookup view).getD ∅

def total (tcl : TimeoutController) (view : View) : Nat :=
  (tcl.timeoutsAt view).keys.card

def superMajority (tcl : TimeoutController) (view : View) : Bool :=
  tcl.n * 2 / 3 < tcl.total view

def addTmo (tcl : TimeoutController) (tmo : TMO) : TimeoutController × Option TC :=
  if tcl.superMajority tmo.view then (tcl, none)
  else
    let tcl' := { tcl with
      timeouts := tcl.timeouts.insert tmo.view ((tcl.timeoutsAt tmo.view).insert tmo.nodeID tmo) }
    (tcl', if tcl'.superMajority tmo.view then some { view := tmo.view } else none)

end TimeoutController

structure Pacemaker where
  curView : View
  newViewChan : List View
  timeoutController : TimeoutController

namespace Pacemaker

def new (n : Nat) : Pacemaker :=
  { curView := 0, newViewChan := [], timeoutController := .new n }

/-- `ProcessRemoteTmo`, with the timeout certificate it builds. -/
def processRemoteTmo (pm : Pacemaker) (tmo : TMO) : Pacemaker × Option TC :=
  if tmo.view < pm.curView then (pm, none)
  else
    let added := pm.timeoutController.addTmo tmo
    ({ pm with timeoutController := added.1 }, added.2)

def advanceView (pm : Pacemaker) (view : View) : Pacemaker :=
  if view < pm.curView then pm
  else { pm with curView := view + 1, newViewChan := pm.newViewChan ++ [view + 1] }

theorem advanceView_curView {pm : Pacemaker} {view : View} (h : pm.curView ≤ view) :
    (pm.advanceView view).curView = view + 1 := by
  unfold advanceView
  rw [if_neg (not_lt.mpr h)]

/-- What any sequence of pacemaker calls does: the view never decreases, and the
views announced on the way are new and increasing. -/
structure Advances (pm pm' : Pacemaker) : Prop where
  view_le : pm.curView ≤ pm'.curView
  announced : ∃ views : List View, pm'.newViewChan = pm.newViewChan ++ views ∧
    views.Pairwise (· < ·) ∧ ∀ view ∈ views, pm.curView < view ∧ view ≤ pm'.curView

theorem Advances.refl (pm : Pacemaker) : pm.Advances pm :=
  ⟨le_refl _, [], by simp, List.Pairwise.nil, by simp⟩

theorem Advances.trans {pm pm' pm'' : Pacemaker} (first : pm.Advances pm')
    (second : pm'.Advances pm'') : pm.Advances pm'' := by
  obtain ⟨hLe, views, hChan, hSorted, hBounds⟩ := first
  obtain ⟨hLe', views', hChan', hSorted', hBounds'⟩ := second
  refine ⟨hLe.trans hLe', views ++ views', ?_, ?_, ?_⟩
  · rw [hChan', hChan, List.append_assoc]
  · refine List.pairwise_append.mpr ⟨hSorted, hSorted', fun view hView view' hView' => ?_⟩
    exact (hBounds view hView).2.trans_lt (hBounds' view' hView').1
  · intro view hView
    rcases List.mem_append.mp hView with hView | hView
    · exact ⟨(hBounds view hView).1, (hBounds view hView).2.trans hLe'⟩
    · exact ⟨hLe.trans_lt (hBounds' view hView).1, (hBounds' view hView).2⟩

theorem advanceView_advances (pm : Pacemaker) (view : View) : pm.Advances (pm.advanceView view) := by
  unfold advanceView
  split_ifs with hOld
  · exact Advances.refl pm
  · have hNew : pm.curView ≤ view := not_lt.mp hOld
    refine ⟨?_, [view + 1], rfl, List.pairwise_singleton _ _, ?_⟩
    · change pm.curView ≤ view + 1
      lia
    · intro v hv
      cases List.mem_singleton.mp hv
      exact ⟨by lia, le_refl _⟩

theorem processRemoteTmo_advances (pm : Pacemaker) (tmo : TMO) :
    pm.Advances (pm.processRemoteTmo tmo).1 ∧
      (pm.processRemoteTmo tmo).1.curView = pm.curView := by
  unfold processRemoteTmo
  split_ifs
  · exact ⟨Advances.refl pm, rfl⟩
  · exact ⟨⟨le_refl _, [], by simp, List.Pairwise.nil, by simp⟩, rfl⟩

end Pacemaker
end Bamboo
