import Mathlib.Logic.Relation

/-! Calls which return a value or stop with a run-time fault, and runs of a
system whose steps are such calls. The fault of a run is the first fault of one
of its steps; a run that returns has passed through every state before it. -/
namespace Library

universe u v w

/-- What can stop a call before it returns. -/
inductive Fault where
  | outOfRange
  | nilDereference
  | diverges
deriving DecidableEq, Repr

abbrev Outcome (α : Type u) := Except Fault α

namespace Outcome

variable {α : Type u} {β : Type u}

/-- A sequence of two calls returns exactly when both of them return. -/
theorem bind_eq_ok {x : Outcome α} {f : α → Outcome β} {b : β} :
    (x >>= f) = .ok b ↔ ∃ a, x = .ok a ∧ f a = .ok b := by
  cases x with
  | error fault =>
      constructor
      · intro h
        cases h
      · rintro ⟨a, h, _⟩
        cases h
  | ok a =>
      constructor
      · intro h
        exact ⟨a, rfl, h⟩
      · rintro ⟨a', h, h'⟩
        cases h
        exact h'

/-- A call whose result is only repackaged returns when the call does. -/
theorem bind_pure_returns_iff {x : Outcome α} {f : α → β} :
    (∃ b, (x >>= fun a => pure (f a)) = .ok b) ↔ ∃ a, x = .ok a := by
  constructor
  · rintro ⟨_, h⟩
    obtain ⟨a, hFirst, _⟩ := bind_eq_ok.mp h
    exact ⟨a, hFirst⟩
  · rintro ⟨a, hFirst⟩
    exact ⟨f a, bind_eq_ok.mpr ⟨a, hFirst, rfl⟩⟩

/-- What follows a computation matters only at the values it returns. -/
theorem bind_congr {x : Outcome α} {f g : α → Outcome β} (h : ∀ a, x = .ok a → f a = g a) :
    x >>= f = x >>= g := by
  cases x with
  | error => rfl
  | ok a => exact h a rfl

theorem pure_eq_ok {a b : α} : (pure a : Outcome α) = .ok b ↔ a = b := by
  constructor
  · intro h
    cases h
    rfl
  · rintro rfl
    rfl

theorem ok_bind (a : α) (f : α → Outcome β) : ((Except.ok a : Outcome α) >>= f) = f a :=
  rfl

/-- A loop of calls that all return. -/
theorem mapM_eq_ok {f : α → Outcome β} {g : α → β} {xs : List α} (h : ∀ x ∈ xs, f x = .ok (g x)) :
    xs.mapM f = .ok (xs.map g) := by
  induction xs with
  | nil => rfl
  | cons x xs ih =>
      rw [List.mapM_cons, h x List.mem_cons_self, ok_bind,
        ih fun y hy => h y (List.mem_cons_of_mem x hy)]
      rfl

/-- The call returns, and what it returns satisfies `P`. -/
def Ensures (x : Outcome α) (P : α → Prop) : Prop :=
  ∃ a, x = .ok a ∧ P a

theorem Ensures.pure {a : α} {P : α → Prop} (h : P a) : Ensures (Pure.pure a) P :=
  ⟨a, rfl, h⟩

theorem Ensures.bind {x : Outcome α} {f : α → Outcome β} {P : α → Prop} {Q : β → Prop}
    (h : Ensures x P) (hNext : ∀ a, x = .ok a → P a → Ensures (f a) Q) : Ensures (x >>= f) Q := by
  obtain ⟨a, hFirst, hHere⟩ := h
  obtain ⟨b, hSecond, hEnd⟩ := hNext a hFirst hHere
  exact ⟨b, bind_eq_ok.mpr ⟨a, hFirst, hSecond⟩, hEnd⟩

/-- Evaluate a call and test what it returns. -/
def test (x : Outcome α) (P : α → Prop) [DecidablePred P] : Bool :=
  match x with
  | .ok a => decide (P a)
  | .error _ => false

theorem of_test {x : Outcome α} {P : α → Prop} [DecidablePred P] (h : test x P = true) :
    ∃ a, x = .ok a ∧ P a := by
  cases x with
  | error fault => cases h
  | ok a => exact ⟨a, rfl, of_decide_eq_true h⟩

/-- Reading a list at a machine index. A negative or too large index faults. -/
def index (xs : List α) (i : Int) : Outcome α :=
  if i < 0 then throw .outOfRange
  else match xs[i.toNat]? with
    | some x => pure x
    | none => throw .outOfRange

theorem index_eq_ok {xs : List α} {i : Nat} {a : α} : index xs i = .ok a ↔ xs[i]? = some a := by
  unfold index
  rw [if_neg (Int.not_lt.mpr (Int.natCast_nonneg i)), Int.toNat_natCast]
  cases xs[i]? with
  | none =>
      constructor
      · intro h
        cases h
      · intro h
        cases h
  | some x => rw [pure_eq_ok, Option.some.injEq]

theorem index_of_lt {xs : List α} {i : Nat} (h : i < xs.length) : index xs i = .ok xs[i] :=
  index_eq_ok.mpr (List.getElem?_eq_getElem h)

/-- A list can be read at the positions it has. -/
theorem index_returns_iff {xs : List α} {i : Int} :
    (∃ a, index xs i = .ok a) ↔ 0 ≤ i ∧ i < xs.length := by
  by_cases hNegative : i < 0
  · unfold index
    rw [if_pos hNegative]
    refine iff_of_false ?_ (by omega)
    rintro ⟨_, h⟩
    cases h
  · obtain ⟨k, rfl⟩ := Int.eq_ofNat_of_zero_le (Int.not_lt.mp hNegative)
    simp only [index_eq_ok, List.getElem?_eq_some_iff]
    constructor
    · rintro ⟨_, hLength, _⟩
      omega
    · rintro ⟨_, hLength⟩
      exact ⟨_, by omega, rfl⟩

/-- Writing a list at a position. A position that the list does not have faults. -/
def assign (xs : List α) (i : Nat) (a : α) : Outcome (List α) :=
  if i < xs.length then pure (xs.set i a) else throw .outOfRange

theorem assign_of_lt {xs : List α} {i : Nat} (h : i < xs.length) (a : α) :
    assign xs i a = .ok (xs.set i a) :=
  if_pos h

/-- The last three entries of a list, read from its end. -/
theorem eq_append_three {xs : List α} {a b c : α} (hLength : 3 ≤ xs.length)
    (ha : index xs (xs.length - 3) = .ok a) (hb : index xs (xs.length - 2) = .ok b)
    (hc : index xs (xs.length - 1) = .ok c) : ∃ rest, xs = rest ++ [a, b, c] := by
  obtain ⟨k, hk⟩ := Nat.exists_eq_add_of_le' hLength
  have hFirst : (xs.length : Int) - 3 = k := by omega
  have hSecond : (xs.length : Int) - 2 = (k + 1 : Nat) := by omega
  have hThird : (xs.length : Int) - 1 = (k + 2 : Nat) := by omega
  rw [hFirst, index_eq_ok] at ha
  rw [hSecond, index_eq_ok] at hb
  rw [hThird, index_eq_ok] at hc
  refine ⟨xs.take k, ?_⟩
  have hDrop : xs.drop k = [a, b, c] := by
    apply List.ext_getElem?
    intro i
    rw [List.getElem?_drop]
    match i with
    | 0 => exact ha
    | 1 => exact hb
    | 2 => exact hc
    | i + 3 =>
        rw [List.getElem?_eq_none (by omega)]
        rfl
  rw [← hDrop, List.take_append_drop]

end Outcome

section Run

variable {σ : Type u} {ε : Type v}

/-- Perform the steps of `events` in order, starting from `s`. -/
def run (step : σ → ε → Outcome σ) : σ → List ε → Outcome σ
  | s, [] => pure s
  | s, e :: rest => step s e >>= fun s' => run step s' rest

/-- Every step of the run starts in a state, and on an input, that meets `guard`. -/
def Guarded (step : σ → ε → Outcome σ) (guard : σ → ε → Prop) : σ → List ε → Prop
  | _, [] => True
  | s, e :: rest => guard s e ∧ ∀ s', step s e = .ok s' → Guarded step guard s' rest

variable {step : σ → ε → Outcome σ} {guard : σ → ε → Prop}

theorem run_append (s : σ) (first rest : List ε) :
    run step s (first ++ rest) = run step s first >>= fun s' => run step s' rest := by
  induction first generalizing s with
  | nil => rfl
  | cons e first ih =>
      simp only [List.cons_append, run, bind_assoc]
      congr 1
      funext s'
      exact ih s'

theorem run_snoc (s s' : σ) (events : List ε) (e : ε) :
    run step s (events ++ [e]) = .ok s' ↔
      ∃ middle, run step s events = .ok middle ∧ step middle e = .ok s' := by
  rw [run_append, Outcome.bind_eq_ok]
  constructor
  · rintro ⟨middle, hFirst, hLast⟩
    obtain ⟨last, hStep, hDone⟩ := Outcome.bind_eq_ok.mp hLast
    cases Outcome.pure_eq_ok.mp hDone
    exact ⟨middle, hFirst, hStep⟩
  · rintro ⟨middle, hFirst, hStep⟩
    exact ⟨middle, hFirst, Outcome.bind_eq_ok.mpr ⟨s', hStep, rfl⟩⟩

theorem guarded_cons_ok {s s' : σ} {e : ε} {rest : List ε} (hStep : step s e = .ok s') :
    guard s e ∧ Guarded step guard s' rest ↔ Guarded step guard s (e :: rest) := by
  constructor
  · rintro ⟨hHere, hRest⟩
    refine ⟨hHere, fun next hNext => ?_⟩
    cases hStep.symm.trans hNext
    exact hRest
  · rintro ⟨hHere, hRest⟩
    exact ⟨hHere, hRest s' hStep⟩

theorem guarded_cons_error {s : σ} {e : ε} {rest : List ε} {fault : Fault}
    (hStep : step s e = .error fault) : guard s e ↔ Guarded step guard s (e :: rest) := by
  constructor
  · intro hHere
    refine ⟨hHere, fun next hNext => ?_⟩
    cases hStep.symm.trans hNext
  · exact fun h => h.1

/-- A decidable guard can be evaluated along a run. -/
instance decidableGuarded [∀ s e, Decidable (guard s e)] :
    (s : σ) → (events : List ε) → Decidable (Guarded step guard s events)
  | _, [] => .isTrue trivial
  | s, e :: rest =>
      match hStep : step s e with
      | .error _ => decidable_of_iff (guard s e) (guarded_cons_error hStep)
      | .ok s' =>
          haveI : Decidable (Guarded step guard s' rest) := decidableGuarded s' rest
          decidable_of_iff (guard s e ∧ Guarded step guard s' rest) (guarded_cons_ok hStep)

/-- A guard that all inputs meet in every state. -/
theorem guarded_of_mem {s : σ} {events : List ε} (h : ∀ s, ∀ e ∈ events, guard s e) :
    Guarded step guard s events := by
  induction events generalizing s with
  | nil => trivial
  | cons e rest ih =>
      exact ⟨h s e List.mem_cons_self, fun s' _ => ih fun s e he => h s e (List.mem_cons_of_mem _ he)⟩

theorem guarded_true (s : σ) (events : List ε) : Guarded step (fun _ _ => True) s events :=
  guarded_of_mem fun _ _ _ => trivial

/-- The last input of a guarded run meets the guard in the state before it. -/
theorem Guarded.last {s s' : σ} {events : List ε} {e : ε}
    (h : Guarded step guard s (events ++ [e])) (hRun : run step s events = .ok s') :
    guard s' e := by
  induction events generalizing s with
  | nil =>
      cases Outcome.pure_eq_ok.mp hRun
      exact h.1
  | cons first rest ih =>
      obtain ⟨middle, hFirst, hRest⟩ := Outcome.bind_eq_ok.mp hRun
      exact ih (h.2 middle hFirst) hRest

theorem Guarded.of_append {s : σ} {first rest : List ε}
    (h : Guarded step guard s (first ++ rest)) : Guarded step guard s first := by
  induction first generalizing s with
  | nil => trivial
  | cons e first ih => exact ⟨h.1, fun s' hStep => ih (h.2 s' hStep)⟩

theorem Guarded.append {s s' : σ} {first rest : List ε} (hFirst : Guarded step guard s first)
    (hRun : run step s first = .ok s') (hRest : Guarded step guard s' rest) :
    Guarded step guard s (first ++ rest) := by
  induction first generalizing s with
  | nil =>
      cases Outcome.pure_eq_ok.mp hRun
      exact hRest
  | cons e first ih =>
      obtain ⟨middle, hStep, hLater⟩ := Outcome.bind_eq_ok.mp hRun
      refine ⟨hFirst.1, fun next hNext => ?_⟩
      cases hStep.symm.trans hNext
      exact ih (hFirst.2 middle hStep) hLater

/-- Induction over a run. The property may speak about the inputs consumed so
far, so that a state can be related to its whole past. -/
theorem run_history {P : List ε → σ → Prop}
    (hStep : ∀ past s e s', P past s → guard s e → step s e = .ok s' → P (past ++ [e]) s')
    {events : List ε} {s s' : σ} (hGuard : Guarded step guard s events)
    (hRun : run step s events = .ok s') (past : List ε) (hStart : P past s) :
    P (past ++ events) s' := by
  induction events generalizing s past with
  | nil =>
      cases Outcome.pure_eq_ok.mp hRun
      simpa using hStart
  | cons e rest ih =>
      obtain ⟨middle, hFirst, hRest⟩ := Outcome.bind_eq_ok.mp hRun
      obtain ⟨hHere, hLater⟩ := hGuard
      have hNext := hStep past s e middle hStart hHere hFirst
      simpa using ih (hLater middle hFirst) hRest (past ++ [e]) hNext

/-- A property kept by every guarded step holds at the end of every guarded run. -/
theorem guarded_run_invariant {P : σ → Prop}
    (hStep : ∀ s e s', P s → guard s e → step s e = .ok s' → P s')
    {events : List ε} {s s' : σ} (hGuard : Guarded step guard s events)
    (hRun : run step s events = .ok s') (hStart : P s) : P s' :=
  run_history (P := fun _ => P) (fun _ => hStep) hGuard hRun [] hStart

/-- A property kept by every step holds at the end of every run. -/
theorem run_invariant {P : σ → Prop} (hStep : ∀ s e s', P s → step s e = .ok s' → P s')
    {events : List ε} {s s' : σ} (hRun : run step s events = .ok s') (hStart : P s) : P s' := by
  exact guarded_run_invariant (fun s e s' hs _ => hStep s e s' hs) (guarded_true s events) hRun hStart

/-- A property that every step keeps, and under which every input meets the guard. -/
theorem guarded_of_invariant {P : σ → Prop} (hStep : ∀ s e s', P s → step s e = .ok s' → P s')
    (hGuard : ∀ s e, P s → guard s e) {s : σ} (hStart : P s) (events : List ε) :
    Guarded step guard s events := by
  induction events generalizing s with
  | nil => trivial
  | cons e rest ih => exact ⟨hGuard s e hStart, fun s' hFirst => ih (hStep s e s' hStart hFirst)⟩

/-- A property that lets every guarded step return, and that the step keeps, lets a
guarded run return. -/
theorem guarded_run_returns {P : σ → Prop}
    (hStep : ∀ s e, P s → guard s e → ∃ s', step s e = .ok s' ∧ P s')
    {events : List ε} {s : σ} (hGuard : Guarded step guard s events) (hStart : P s) :
    ∃ s', run step s events = .ok s' ∧ P s' := by
  induction events generalizing s with
  | nil => exact ⟨s, rfl, hStart⟩
  | cons e rest ih =>
      obtain ⟨middle, hFirst, hMiddle⟩ := hStep s e hStart hGuard.1
      obtain ⟨s', hRest, hEnd⟩ := ih (hGuard.2 middle hFirst) hMiddle
      exact ⟨s', Outcome.bind_eq_ok.mpr ⟨middle, hFirst, hRest⟩, hEnd⟩

/-- A property that lets every step return, and that the step keeps, lets every run return. -/
theorem run_returns {P : σ → Prop} (hStep : ∀ s e, P s → ∃ s', step s e = .ok s' ∧ P s') {s : σ}
    (hStart : P s) (events : List ε) : ∃ s', run step s events = .ok s' ∧ P s' :=
  guarded_run_returns (fun s e h _ => hStep s e h) (guarded_true s events) hStart

/-- A property that a step leaves true exactly if it was true and the input is admitted
is true after a run exactly if it was true before and every input is admitted. -/
theorem guarded_run_iff {Inv P : σ → Prop} {admits : σ → ε → Prop}
    (hStep : ∀ s e s', Inv s → guard s e → step s e = .ok s' →
      Inv s' ∧ (P s' ↔ P s ∧ admits s e))
    {events : List ε} {s s' : σ} (hGuard : Guarded step guard s events)
    (hRun : run step s events = .ok s') (hStart : Inv s) :
    P s' ↔ P s ∧ Guarded step admits s events := by
  induction events generalizing s with
  | nil =>
      cases Outcome.pure_eq_ok.mp hRun
      exact (and_iff_left trivial).symm
  | cons e rest ih =>
      obtain ⟨middle, hFirst, hRest⟩ := Outcome.bind_eq_ok.mp hRun
      obtain ⟨hMiddle, hIff⟩ := hStep s e middle hStart hGuard.1 hFirst
      rw [ih (hGuard.2 middle hFirst) hRest hMiddle, hIff, and_assoc, guarded_cons_ok hFirst]

/-- Two guards that agree wherever the run comes under the first of them. -/
theorem guarded_congr {P : σ → Prop} {guard' admits : σ → ε → Prop}
    (hIff : ∀ s e s', P s → guard s e → step s e = .ok s' → (guard' s e ↔ admits s e))
    (hStep : ∀ s e s', P s → guard s e → guard' s e → step s e = .ok s' → P s')
    {events : List ε} {s s' : σ} (hGuard : Guarded step guard s events)
    (hRun : run step s events = .ok s') (hStart : P s) :
    Guarded step guard' s events ↔ Guarded step admits s events := by
  induction events generalizing s with
  | nil => exact Iff.rfl
  | cons e rest ih =>
      obtain ⟨middle, hFirst, hRest⟩ := Outcome.bind_eq_ok.mp hRun
      rw [← guarded_cons_ok hFirst, ← guarded_cons_ok hFirst,
        ← hIff s e middle hStart hGuard.1 hFirst]
      refine and_congr_right fun hHere => ?_
      exact ih (hGuard.2 middle hFirst) hRest (hStep s e middle hStart hGuard.1 hHere hFirst)

/-- A property of all states on the way, as a guard of the steps that lead to them. -/
theorem forall_prefix_iff_guarded {P : σ → Prop} {events : List ε} {s : σ} (hStart : P s) :
    (∀ past, past <+: events → ∀ s', run step s past = .ok s' → P s') ↔
      Guarded step (fun s e => ∀ s', step s e = .ok s' → P s') s events := by
  induction events generalizing s with
  | nil =>
      refine iff_of_true (fun past hPast s' hRun => ?_) trivial
      cases List.prefix_nil.mp hPast
      cases Outcome.pure_eq_ok.mp hRun
      exact hStart
  | cons e rest ih =>
      constructor
      · intro hAll
        refine ⟨fun s' hFirst => ?_, fun s' hFirst => ?_⟩
        · refine hAll [e] ⟨rest, rfl⟩ s' ?_
          exact Outcome.bind_eq_ok.mpr ⟨s', hFirst, rfl⟩
        · have hHere : P s' :=
            hAll [e] ⟨rest, rfl⟩ s' (Outcome.bind_eq_ok.mpr ⟨s', hFirst, rfl⟩)
          refine (ih hHere).mp fun past hPast s'' hRun => ?_
          exact hAll (e :: past) (List.cons_prefix_cons.mpr ⟨rfl, hPast⟩) s''
            (Outcome.bind_eq_ok.mpr ⟨s', hFirst, hRun⟩)
      · rintro ⟨hHere, hLater⟩ past hPast s'' hRun
        cases past with
        | nil =>
            cases Outcome.pure_eq_ok.mp hRun
            exact hStart
        | cons first past =>
            obtain ⟨rfl, hRest⟩ := List.cons_prefix_cons.mp hPast
            obtain ⟨s', hFirst, hRun⟩ := Outcome.bind_eq_ok.mp hRun
            exact (ih (hHere s' hFirst)).mpr (hLater s' hFirst) past hRest s'' hRun

end Run
end Library
