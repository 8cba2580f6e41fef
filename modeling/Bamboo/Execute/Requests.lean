import Bamboo.Execute.Sample

/-! When the executor asks for content. Without groups it does so only for a
placeholder that names the executor's own node among the holders. With groups it
asks an empty list of nodes. -/
namespace Bamboo

open Library

namespace Executor

/-- The queue can only become shorter, and nobody is asked for anything new. -/
structure Calm (e e' : Executor) : Prop where
  id : e'.id = e.id
  mbReceive : e'.mbReceive = e.mbReceive
  missReceive : e'.missReceive = e.missReceive
  mbs : ∀ mb ∈ e'.mbs, mb ∈ e.mbs
  requests : ∀ nodes h, .missingRequest nodes h ∈ e'.outbox →
    .missingRequest nodes h ∈ e.outbox ∨ nodes = ∅

variable {cfg : Settings} {keys : KeyRing} {e e' e'' : Executor}

namespace Calm

theorem refl (e : Executor) : e.Calm e :=
  ⟨rfl, rfl, rfl, fun _ h => h, fun _ _ h => Or.inl h⟩

theorem trans (h : e.Calm e') (h' : e'.Calm e'') : e.Calm e'' where
  id := h'.id.trans h.id
  mbReceive := h'.mbReceive.trans h.mbReceive
  missReceive := h'.missReceive.trans h.missReceive
  mbs mb hMem := h.mbs mb (h'.mbs mb hMem)
  requests nodes hash hMem := by
    rcases h'.requests nodes hash hMem with hMiddle | hNobody
    · exact h.requests nodes hash hMiddle
    · exact Or.inr hNobody

/-- A step that applies something, keeps the messages and takes from the queue. -/
theorem of_advance {now : List Applied} (h : Advance now e e')
    (hQueue : ∀ mb ∈ e'.mbs, mb ∈ e.mbs) (hOutbox : e'.outbox = e.outbox) : e.Calm e' :=
  ⟨h.id, h.mbReceive, h.missReceive, hQueue, fun _ _ hMem => Or.inl (hOutbox ▸ hMem)⟩

theorem execute (e : Executor) (mb : MicroBlock) : e.Calm (e.execute mb) := by
  obtain ⟨hAdvance, hQueue, hOutbox⟩ := execute_spec e mb
  exact of_advance hAdvance (fun mb hMem => hQueue ▸ hMem) hOutbox

theorem sendResult (e : Executor) (recipients : Option (Finset NodeID)) (result : ExecuteResult) :
    e.Calm (e.send (.result recipients result)) where
  id := rfl
  mbReceive := rfl
  missReceive := rfl
  mbs _ hMem := hMem
  requests nodes h hMem := Or.inl (by simpa [send] using hMem)

/-- A request that goes to nobody. -/
theorem askNobody (e : Executor) (mbID : Identifier) : e.Calm (e.send (.missingRequest ∅ mbID)) where
  id := rfl
  mbReceive := rfl
  missReceive := rfl
  mbs _ hMem := hMem
  requests nodes h hMem := by
    rcases List.mem_append.mp hMem with hOld | hNew
    · exact Or.inl hOld
    · cases List.mem_singleton.mp hNew
      exact Or.inr rfl

/-- The queue may be cut. -/
theorem drop (e : Executor) (count : Nat) : e.Calm { e with mbs := e.mbs.drop count } :=
  ⟨rfl, rfl, rfl, fun _ hMem => List.mem_of_mem_drop hMem, fun _ _ hMem => Or.inl hMem⟩

end Calm

/-- With sampling, placeholders that do not name the node are passed over. -/
theorem executeSample_calm {curIndex successNum last : Nat} {list : List MicroBlock}
    (hInert : ∀ mb ∈ list, mb.Inert e.id)
    (h : e.executeSample keys curIndex successNum list = .ok (e', last)) : e.Calm e' := by
  induction list generalizing e curIndex successNum with
  | nil =>
      cases Outcome.pure_eq_ok.mp h
      exact .refl _
  | cons mb rest ih =>
      have hRest : ∀ later ∈ rest, later.Inert e.id := fun later hMem =>
        hInert later (List.mem_cons_of_mem mb hMem)
      rcases executeSample_cons h with
        ⟨_, recipients, result, hLater⟩ | ⟨_, _, hLater⟩ | ⟨hFake, hMine, _, _⟩
      · have hStep := (Calm.execute e mb).trans (Calm.sendResult _ recipients result)
        refine hStep.trans (ih ?_ hLater)
        rw [hStep.id]
        exact hRest
      · exact ih hRest hLater
      · exact absurd hMine (hInert mb List.mem_cons_self hFake)

theorem executeGroup_calm {curIndex successNum last : Nat} {list : List MicroBlock}
    (h : e.executeGroup keys curIndex successNum list = .ok (e', last)) : e.Calm e' := by
  induction list generalizing e curIndex successNum with
  | nil =>
      cases Outcome.pure_eq_ok.mp h
      exact .refl _
  | cons mb rest ih =>
      rcases executeGroup_cons h with ⟨_, recipients, result, hLater⟩ | ⟨_, _, rfl | rfl⟩
      · exact ((Calm.execute e mb).trans (.sendResult _ recipients result)).trans (ih hLater)
      · exact .refl _
      · exact .askNobody e mb.hash

theorem executePlain_calm (e : Executor) (list : List MicroBlock) :
    e.Calm (e.executePlain list) := by
  obtain ⟨front, rest, _, hQueue, hOutbox, hAdvance⟩ := executePlain_spec e list
  refine .of_advance hAdvance (fun mb hMem => ?_) hOutbox
  rw [hQueue] at hMem
  exact List.mem_of_mem_drop hMem

theorem executeThread_calm (hInert : ∀ mb ∈ e.mbs, mb.Inert e.id)
    (h : e.executeThread cfg keys = .ok e') : e.Calm e' := by
  rcases executeThread_cases h with ⟨_, last, successNum, hLoop, rfl⟩ |
    ⟨_, _, last, successNum, hLoop, rfl⟩ | ⟨_, _, rfl⟩
  · exact (executeGroup_calm hLoop).trans (.drop last successNum)
  · exact (executeSample_calm hInert hLoop).trans (.drop last successNum)
  · exact executePlain_calm e e.mbs

theorem applyHeads_calm {count : Nat} (h : e.applyHeads count = .ok e') : e.Calm e' := by
  obtain ⟨front, hQueue, _, hOutbox, hAdvance⟩ := applyHeads_spec h
  refine .of_advance hAdvance (fun mb hMem => ?_) hOutbox
  rw [hQueue]
  exact List.mem_append_right front hMem

theorem handleResult_calm {result : ExecuteResult}
    (hInert : ∀ mb ∈ e.mbs, mb.Inert e.id) (h : e.handleResult cfg keys result = .ok e') :
    e.Calm e' := by
  obtain ⟨done, hCases⟩ := handleResult_cases h
  have hRecorded : e.Calm { e with done } :=
    ⟨rfl, rfl, rfl, fun _ hMem => hMem, fun _ _ hMem => Or.inl hMem⟩
  rcases hCases with rfl | ⟨count, middle, hApplied, hThread⟩
  · exact hRecorded
  · have hFirst := hRecorded.trans (applyHeads_calm hApplied)
    refine hFirst.trans (executeThread_calm (fun mb hMem => ?_) hThread)
    rw [hFirst.id]
    exact hInert mb (hFirst.mbs mb hMem)

theorem applyConfirmed_calm (h : e.applyConfirmed cfg = .ok e') : e.Calm e' := by
  unfold applyConfirmed at h
  by_cases hGroup : cfg.broadcastByGroup = true
  · rw [if_pos hGroup] at h
    exact applyHeads_calm h
  · rw [if_neg hGroup] at h
    cases Outcome.pure_eq_ok.mp h
    exact .refl _

theorem addMbToExecute_calm {batch : List MicroBlock}
    (hInert : ∀ mb ∈ e.mbs ++ batch, mb.Inert e.id)
    (h : e.addMbToExecute cfg keys batch = .ok e') : (e.enqueue batch).Calm e' := by
  obtain ⟨middle, hApplied, hThread⟩ := Outcome.bind_eq_ok.mp h
  have hFirst := applyConfirmed_calm hApplied
  refine hFirst.trans (executeThread_calm (fun mb hMem => ?_) hThread)
  rw [hFirst.id]
  exact hInert mb (hFirst.mbs mb hMem)

/-- Nothing comes into the queue, and the channels stay as they are. -/
structure Narrows (e e' : Executor) : Prop where
  mbReceive : e'.mbReceive = e.mbReceive
  missReceive : e'.missReceive = e.missReceive
  mbs : ∀ mb ∈ e'.mbs, mb ∈ e.mbs

theorem Calm.narrows (h : e.Calm e') : e.Narrows e' :=
  ⟨h.mbReceive, h.missReceive, h.mbs⟩

theorem Narrows.trans (h : e.Narrows e') (h' : e'.Narrows e'') : e.Narrows e'' where
  mbReceive := h'.mbReceive.trans h.mbReceive
  missReceive := h'.missReceive.trans h.missReceive
  mbs mb hMem := h.mbs mb (h'.mbs mb hMem)

theorem loopRelation_narrows : LoopRelation Narrows where
  refl _ := ⟨rfl, rfl, fun _ hMem => hMem⟩
  trans := Narrows.trans
  execute e mb := (Calm.execute e mb).narrows
  send _ _ := ⟨rfl, rfl, fun _ hMem => hMem⟩
  drop e count := (Calm.drop e count).narrows

theorem handleResult_narrows {result : ExecuteResult} (h : e.handleResult cfg keys result = .ok e') :
    e.Narrows e' := by
  obtain ⟨done, rfl | ⟨count, middle, hApplied, hThread⟩⟩ := handleResult_cases h
  · exact ⟨rfl, rfl, fun _ hMem => hMem⟩
  · have hBoth := (applyHeads_calm hApplied).narrows.trans
      (loopRelation_narrows.executeThread hThread)
    exact ⟨hBoth.mbReceive, hBoth.missReceive, hBoth.mbs⟩

theorem addMbToExecute_narrows {batch : List MicroBlock}
    (h : e.addMbToExecute cfg keys batch = .ok e') : (e.enqueue batch).Narrows e' := by
  obtain ⟨middle, hApplied, hThread⟩ := Outcome.bind_eq_ok.mp h
  exact (applyConfirmed_calm hApplied).narrows.trans (loopRelation_narrows.executeThread hThread)

end Executor
end Bamboo
