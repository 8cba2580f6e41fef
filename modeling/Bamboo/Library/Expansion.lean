import Bamboo.Library.Outcome

/-! Runs of a system seen at two grains. A step of the coarse system is performed by
a list of actions of a finer one; a whole run is then a run of actions, and what
holds along every run of the finer system can be used for the states between two
steps as well. -/
namespace Library

universe u v w

variable {σ : Type u} {ε : Type v} {α : Type w}

/-- The actions lead from `s` to `s'`, each of them within the guard. -/
structure Passes (act : σ → α → Outcome σ) (guard : σ → α → Prop) (s : σ) (actions : List α)
    (s' : σ) : Prop where
  returns : run act s actions = .ok s'
  guarded : Guarded act guard s actions

/-- The actions of a whole run of the coarse system. -/
def expandAll (step : σ → ε → Outcome σ) (expand : σ → ε → List α) : σ → List ε → List α
  | _, [] => []
  | s, e :: rest => expand s e ++
      match step s e with
      | .ok s' => expandAll step expand s' rest
      | .error _ => []

theorem mem_expandAll {step : σ → ε → Outcome σ} {expand : σ → ε → List α} {s : σ} {events : List ε}
    {a : α} (h : a ∈ expandAll step expand s events) : ∃ s', ∃ e ∈ events, a ∈ expand s' e := by
  induction events generalizing s with
  | nil => cases h
  | cons e rest ih =>
      rcases List.mem_append.mp h with hHere | hLater
      · exact ⟨s, e, List.mem_cons_self, hHere⟩
      · split at hLater
        · obtain ⟨s', e', hMem, hExpand⟩ := ih hLater
          exact ⟨s', e', List.mem_cons_of_mem e hMem, hExpand⟩
        · cases hLater

section Guarded

variable {act : σ → α → Outcome σ} {guard guard' : σ → α → Prop}

theorem Guarded.split {s s' : σ} {first rest : List α} (h : Guarded act guard s (first ++ rest))
    (hRun : run act s first = .ok s') : Guarded act guard s' rest := by
  induction first generalizing s with
  | nil =>
      cases Outcome.pure_eq_ok.mp hRun
      exact h
  | cons a first ih =>
      obtain ⟨middle, hStep, hLater⟩ := Outcome.bind_eq_ok.mp hRun
      exact ih (h.2 middle hStep) hLater

theorem Guarded.and {s : σ} {actions : List α} (h : Guarded act guard s actions)
    (h' : Guarded act guard' s actions) :
    Guarded act (fun s a => guard s a ∧ guard' s a) s actions := by
  induction actions generalizing s with
  | nil => trivial
  | cons a actions ih =>
      exact ⟨⟨h.1, h'.1⟩, fun s' hStep => ih (h.2 s' hStep) (h'.2 s' hStep)⟩

/-- A guard may use that each input is one of the inputs of the run. -/
theorem guarded_mem (s : σ) (actions : List α) :
    Guarded act (fun _ a => a ∈ actions) s actions :=
  guarded_of_mem fun _ _ ha => ha

end Guarded

namespace Passes

variable {act : σ → α → Outcome σ} {guard : σ → α → Prop}

theorem nil (s : σ) : Passes act guard s [] s := ⟨rfl, trivial⟩

theorem single {s s' : σ} {a : α} (hGuard : guard s a) (h : act s a = .ok s') :
    Passes act guard s [a] s' :=
  ⟨Outcome.bind_eq_ok.mpr ⟨s', h, rfl⟩, hGuard, fun _ _ => trivial⟩

theorem append {s middle s' : σ} {first rest : List α} (hFirst : Passes act guard s first middle)
    (hRest : Passes act guard middle rest s') : Passes act guard s (first ++ rest) s' where
  returns := by
    rw [run_append]
    exact Outcome.bind_eq_ok.mpr ⟨middle, hFirst.returns, hRest.returns⟩
  guarded := hFirst.guarded.append hFirst.returns hRest.guarded

theorem cons {s middle s' : σ} {a : α} {rest : List α} (hGuard : guard s a)
    (h : act s a = .ok middle) (hRest : Passes act guard middle rest s') :
    Passes act guard s (a :: rest) s' :=
  (single hGuard h).append hRest

/-- What every guarded action keeps is kept by all of them. -/
theorem invariant {P : σ → Prop} (hStep : ∀ s a s', P s → guard s a → act s a = .ok s' → P s')
    {s s' : σ} {actions : List α} (h : Passes act guard s actions s') (hStart : P s) : P s' :=
  guarded_run_invariant hStep h.guarded h.returns hStart

end Passes

/-- A list of actions that is put together from chunks. What a chunk keeps as a whole
need not hold between its actions. -/
inductive Chunked (chunk : List α → Prop) : List α → Prop
  | nil : Chunked chunk []
  | cons {first rest : List α} (hFirst : chunk first) (hRest : Chunked chunk rest) :
      Chunked chunk (first ++ rest)

namespace Chunked

variable {chunk : List α → Prop} {act : σ → α → Outcome σ} {guard : σ → α → Prop}

theorem of_chunk {actions : List α} (h : chunk actions) : Chunked chunk actions := by
  have hOne : Chunked chunk (actions ++ []) := .cons h .nil
  rwa [List.append_nil] at hOne

theorem append {first rest : List α} (hFirst : Chunked chunk first) (hRest : Chunked chunk rest) :
    Chunked chunk (first ++ rest) := by
  induction hFirst with
  | nil => exact hRest
  | cons hHere _ ih =>
      rw [List.append_assoc]
      exact .cons hHere ih

theorem single {a : α} {rest : List α} (h : chunk [a]) (hRest : Chunked chunk rest) :
    Chunked chunk (a :: rest) :=
  .cons h hRest

/-- Actions each of which is a chunk. -/
theorem of_forall {actions : List α} (h : ∀ a ∈ actions, chunk [a]) : Chunked chunk actions := by
  induction actions with
  | nil => exact .nil
  | cons a rest ih =>
      have hRest := ih fun b hb => h b (List.mem_cons_of_mem a hb)
      exact .single (h a List.mem_cons_self) hRest

/-- A list may be cut between two of its chunks or inside one. -/
theorem cut {first rest : List α} (h : Chunked chunk (first ++ rest)) :
    ∃ past front back later, first = past ++ front ∧ rest = back ++ later ∧ Chunked chunk past ∧
      (front = [] ∨ chunk (front ++ back)) := by
  generalize hWhole : first ++ rest = whole at h
  induction h generalizing first with
  | nil =>
      obtain ⟨rfl, rfl⟩ := List.append_eq_nil_iff.mp hWhole
      exact ⟨[], [], [], [], rfl, rfl, .nil, Or.inl rfl⟩
  | @cons c cs hFirst _ ih =>
      rcases List.append_eq_append_iff.mp hWhole with ⟨back, rfl, rfl⟩ | ⟨front, rfl, hRest⟩
      · exact ⟨[], first, back, cs, rfl, rfl, .nil, Or.inr hFirst⟩
      · obtain ⟨past, front, back, later, rfl, rfl, hPast, hCut⟩ := ih hRest.symm
        exact ⟨c ++ past, front, back, later, (List.append_assoc _ _ _).symm, rfl,
          .cons hFirst hPast, hCut⟩

/-- Induction over a run, chunk by chunk. -/
theorem history {P : List α → σ → Prop}
    (hChunk : ∀ past s c s', P past s → chunk c → Guarded act guard s c → run act s c = .ok s' →
      P (past ++ c) s')
    {actions : List α} (h : Chunked chunk actions) {s s' : σ} (hGuard : Guarded act guard s actions)
    (hRun : run act s actions = .ok s') (past : List α) (hStart : P past s) :
    P (past ++ actions) s' := by
  induction h generalizing s past with
  | nil =>
      cases Outcome.pure_eq_ok.mp hRun
      rwa [List.append_nil]
  | cons hFirst _ ih =>
      rw [run_append] at hRun
      obtain ⟨middle, hFront, hBack⟩ := Outcome.bind_eq_ok.mp hRun
      have hMiddle := hChunk past s _ middle hStart hFirst hGuard.of_append hFront
      rw [← List.append_assoc]
      exact ih (hGuard.split hFront) hBack _ hMiddle

end Chunked

variable {step : σ → ε → Outcome σ} {expand : σ → ε → List α} {act : σ → α → Outcome σ}
  {stepGuard : σ → ε → Prop} {guard : σ → α → Prop}

/-- A run is performed by its actions when every step is. -/
theorem expandAll_passes {P : σ → Prop}
    (hStep : ∀ s e s', P s → stepGuard s e → step s e = .ok s' →
      Passes act guard s (expand s e) s' ∧ P s')
    {s s' : σ} {events : List ε} (hGuard : Guarded step stepGuard s events)
    (hRun : run step s events = .ok s') (hStart : P s) :
    Passes act guard s (expandAll step expand s events) s' ∧ P s' := by
  induction events generalizing s with
  | nil =>
      cases Outcome.pure_eq_ok.mp hRun
      exact ⟨.nil _, hStart⟩
  | cons e rest ih =>
      obtain ⟨middle, hFirst, hRest⟩ := Outcome.bind_eq_ok.mp hRun
      obtain ⟨hPasses, hNext⟩ := hStep s e middle hStart hGuard.1 hFirst
      obtain ⟨hLater, hEnd⟩ := ih (hGuard.2 middle hFirst) hRest hNext
      rw [expandAll, hFirst]
      exact ⟨hPasses.append hLater, hEnd⟩

/-- An invariant between the steps of a run whose actions all meet a guard. -/
theorem expandAll_invariant {P : σ → Prop}
    (hStep : ∀ s e s', P s → stepGuard s e → Guarded act guard s (expand s e) →
      step s e = .ok s' → run act s (expand s e) = .ok s' ∧ P s')
    {s s' : σ} {events : List ε} (hGuard : Guarded step stepGuard s events)
    (hActions : Guarded act guard s (expandAll step expand s events))
    (hRun : run step s events = .ok s') (hStart : P s) : P s' := by
  induction events generalizing s with
  | nil =>
      cases Outcome.pure_eq_ok.mp hRun
      exact hStart
  | cons e rest ih =>
      obtain ⟨middle, hFirst, hRest⟩ := Outcome.bind_eq_ok.mp hRun
      rw [expandAll, hFirst] at hActions
      obtain ⟨hPerformed, hNext⟩ := hStep s e middle hStart hGuard.1 hActions.of_append hFirst
      exact ih (hGuard.2 middle hFirst) (hActions.split hPerformed) hRest hNext

theorem expandAll_chunked {chunk : List α → Prop} {P : σ → Prop}
    (hExpand : ∀ s e, P s → Chunked chunk (expand s e))
    (hStep : ∀ s e s', P s → step s e = .ok s' → P s') {s : σ} (hStart : P s) (events : List ε) :
    Chunked chunk (expandAll step expand s events) := by
  induction events generalizing s with
  | nil => exact .nil
  | cons e rest ih =>
      unfold expandAll
      apply (hExpand s e hStart).append
      cases hNext : step s e with
      | ok s' => exact ih (hStep s e s' hStart hNext)
      | error => exact .nil

end Library
