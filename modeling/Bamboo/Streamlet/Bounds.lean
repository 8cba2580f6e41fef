import Bamboo.Streamlet.Replica

/-! Where the notarized chain is read. The voting rule reads the last level even of an empty
chain, and the search for a parent leaves a chain of one or two levels at the bottom. From
three levels on every access is inside the chain, and the chain never gets shorter. -/
namespace Bamboo

open Library

namespace Notarization

theorem votingRule_returns_iff (n : Notarization) (block : Block) :
    (∃ vote, n.votingRule block = .ok vote) ↔ block.view ≤ 2 ∨ n.notarizedChain ≠ [] := by
  unfold votingRule
  by_cases hView : block.view ≤ 2
  · rw [if_pos hView]
    exact iff_of_true ⟨true, rfl⟩ (Or.inl hView)
  · rw [if_neg hView, Outcome.bind_pure_returns_iff, Outcome.index_returns_iff,
      or_iff_right hView, ← List.length_pos_iff]
    unfold getNotarizedHeight
    omega

theorem updateNotarizedChain_returns_iff (n : Notarization) (bc : BlockChain) (qc : QC) :
    (∃ result, n.updateNotarizedChain bc qc = .ok result) ↔
      ∀ block ∈ bc.getBlockByID qc.blockID,
        n.notarizedChain = [] ∨ 3 ≤ n.getNotarizedHeight ∨ n.HasParent block := by
  cases hBlock : bc.getBlockByID qc.blockID with
  | none =>
      refine iff_of_true ⟨(n, some .cannotFind), ?_⟩ (fun block h => nomatch h)
      unfold updateNotarizedChain
      rw [hBlock]
      rfl
  | some block =>
      simp only [Option.mem_some_iff, forall_eq', n.updateNotarizedChain_eq hBlock]
      by_cases hAccepted : n.notarizedChain = [] ∨ n.HasParent block
      · rw [if_pos hAccepted]
        exact iff_of_true ⟨_, rfl⟩ (hAccepted.imp_right Or.inr)
      · rw [if_neg hAccepted]
        obtain ⟨hEmpty, hParent⟩ := not_or.mp hAccepted
        simp only [hEmpty, hParent, or_false, false_or]
        split_ifs with hLong
        · exact iff_of_true ⟨_, rfl⟩ hLong
        · exact iff_of_false (fun h => nomatch h) hLong

theorem commitRule_returns (n : Notarization) : ∃ block, n.commitRule = .ok block := by
  unfold commitRule
  dsimp only
  by_cases hShort : n.getNotarizedHeight < 3
  · rw [if_pos hShort]
    exact ⟨none, rfl⟩
  · rw [if_neg hShort]
    -- The rule reads the last three levels, and stops at one that is not a single block.
    have hRead : ∀ i : Int, 0 < i → i ≤ 3 → ∃ level,
        Outcome.index n.notarizedChain (n.getNotarizedHeight - i) = .ok level := by
      intro i hPositive hThree
      refine Outcome.index_returns_iff.mpr ?_
      unfold getNotarizedHeight at hShort ⊢
      omega
    obtain ⟨lastBlocks, hLast⟩ := hRead 1 (by decide) (by decide)
    obtain ⟨secondBlocks, hSecond⟩ := hRead 2 (by decide) (by decide)
    obtain ⟨firstBlocks, hFirst⟩ := hRead 3 (by decide) (by decide)
    rw [hLast]
    match lastBlocks with
    | [] | _ :: _ :: _ => exact ⟨none, rfl⟩
    | [last] =>
        change ∃ block, (Outcome.index n.notarizedChain (n.getNotarizedHeight - 2) >>= _) = .ok block
        rw [hSecond]
        match secondBlocks with
        | [] | _ :: _ :: _ => exact ⟨none, rfl⟩
        | [second] =>
            change ∃ block,
              (Outcome.index n.notarizedChain (n.getNotarizedHeight - 3) >>= _) = .ok block
            rw [hFirst]
            match firstBlocks with
            | [] | _ :: _ :: _ => exact ⟨none, rfl⟩
            | [first] =>
                by_cases hViews : first.view + 1 = second.view ∧ second.view + 1 = last.view
                · exact ⟨some second, if_pos hViews⟩
                · exact ⟨none, if_neg hViews⟩

/-- Levels are only added. -/
theorem step_height_le {n n' : Notarization} {certificate : BlockChain × QC}
    (h : n.step certificate = .ok n') : n.getNotarizedHeight ≤ n'.getNotarizedHeight := by
  unfold getNotarizedHeight
  rcases step_cases h with hSame | ⟨block, _, rfl, _⟩
  · rw [hSame]
  · simp [extend]

end Notarization

namespace Streamlet

@[simp] theorem echo_notarization (sl : Streamlet) (id : Identifier) (message : StreamletMessage) :
    (sl.echo id message).notarization = sl.notarization := by
  unfold echo
  split_ifs <;> rfl

/-- `ProcessBlock` does not touch the notarized chain before the voting rule. -/
theorem processBlock_notarization {cfg : Config} {sl sl' : Streamlet} {container : BlockContainer}
    {result : Except StreamletError (List StreamletFrame)}
    (h : sl.processBlock cfg container = .ok (sl', result)) :
    sl'.notarization = sl.notarization := by
  unfold processBlock at h
  dsimp only at h
  split_ifs at h
  · cases Outcome.pure_eq_ok.mp h
    rfl
  · cases Outcome.pure_eq_ok.mp h
    rfl
  · cases Outcome.pure_eq_ok.mp h
    rfl
  · cases Outcome.pure_eq_ok.mp h
    rfl
  · obtain ⟨_, _, hDone⟩ := Outcome.bind_eq_ok.mp h
    cases Outcome.pure_eq_ok.mp hDone
    exact echo_notarization _ _ _

theorem vote_notarization {cfg : Config} {sl sl' : Streamlet} {container : BlockContainer}
    {calls : List StreamletFrame} (h : sl.vote cfg container = .ok (sl', calls)) :
    sl'.notarization = sl.notarization := by
  obtain ⟨shouldVote, _, h⟩ := Outcome.bind_eq_ok.mp h
  cases shouldVote with
  | true =>
      obtain ⟨vote, _, hDone⟩ := Outcome.bind_eq_ok.mp h
      cases Outcome.pure_eq_ok.mp hDone
      rfl
  | false =>
      cases Outcome.pure_eq_ok.mp h
      rfl

theorem processVote_notarization {cfg : Config} {sl sl' : Streamlet} {vote : Vote}
    {calls : List StreamletFrame} (h : sl.processVote cfg vote = .ok (sl', calls)) :
    sl'.notarization = sl.notarization := by
  obtain ⟨verified, _, h⟩ := Outcome.bind_eq_ok.mp h
  cases verified with
  | false =>
      cases Outcome.pure_eq_ok.mp h
      rfl
  | true =>
      cases Outcome.pure_eq_ok.mp h
      exact echo_notarization _ _ _

theorem processCertificate_notarization {cfg : Config} {sl sl' : Streamlet} {qc : QC}
    {calls : List StreamletFrame} (h : sl.processCertificate cfg qc = .ok (sl', calls)) :
    sl'.notarization = sl.notarization := by
  unfold processCertificate at h
  split_ifs at h
  · cases Outcome.pure_eq_ok.mp h
    rfl
  · cases Outcome.pure_eq_ok.mp h
    rfl
  · obtain ⟨verified, _, h⟩ := Outcome.bind_eq_ok.mp h
    cases verified with
    | false =>
        cases Outcome.pure_eq_ok.mp h
        rfl
    | true =>
        cases Outcome.pure_eq_ok.mp h
        rfl

/-- The update processes the certificate as a step of the notarized chain. -/
theorem updateNotarizedChain_notarization {sl sl' : Streamlet} {qc : QC}
    {calls : List StreamletFrame} (h : sl.updateNotarizedChain qc = .ok (sl', calls)) :
    sl.notarization.step (sl.bc, qc) = .ok sl'.notarization := by
  obtain ⟨⟨notarization, error⟩, hUpdate, h⟩ := Outcome.bind_eq_ok.mp h
  have hSame : sl'.notarization = notarization := by
    cases error with
    | some error =>
        cases Outcome.pure_eq_ok.mp h
        rfl
    | none =>
        by_cases hView : qc.view < 3
        · cases Outcome.pure_eq_ok.mp ((if_pos hView).symm.trans h)
          rfl
        · cases Outcome.pure_eq_ok.mp ((if_neg hView).symm.trans h)
          rfl
  rw [hSame]
  exact Outcome.bind_eq_ok.mpr ⟨_, hUpdate, rfl⟩

theorem commit_notarization {sl sl' : Streamlet} {qc : QC} {calls : List StreamletFrame}
    (h : sl.commit qc = .ok (sl', calls)) : sl'.notarization = sl.notarization := by
  obtain ⟨block, _, h⟩ := Outcome.bind_eq_ok.mp h
  cases block with
  | none =>
      cases Outcome.pure_eq_ok.mp h
      rfl
  | some block =>
      obtain ⟨⟨bc, result⟩, _, h⟩ := Outcome.bind_eq_ok.mp h
      cases result with
      | none =>
          cases Outcome.pure_eq_ok.mp h
          rfl
      | some result =>
          cases Outcome.pure_eq_ok.mp h
          rfl

theorem processRemoteTmo_notarization (sl : Streamlet) (tmo : TMO) :
    (sl.processRemoteTmo tmo).notarization = sl.notarization := by
  unfold processRemoteTmo
  dsimp only
  split
  · rfl
  · split_ifs <;> rfl

/-- Executing a frame leaves the notarized chain alone or processes a certificate. -/
theorem perform_notarization {cfg : Config} {sl sl' : Streamlet} {frame : StreamletFrame}
    {calls : List StreamletFrame} (h : sl.perform cfg frame = .ok (sl', calls)) :
    sl'.notarization = sl.notarization ∨
      ∃ qc, sl.notarization.step (sl.bc, qc) = .ok sl'.notarization := by
  cases frame with
  | processBlock container =>
      obtain ⟨⟨_, result⟩, hBlock, hDone⟩ := Outcome.bind_eq_ok.mp h
      cases Outcome.pure_eq_ok.mp hDone
      exact Or.inl (processBlock_notarization hBlock)
  | votingRule container => exact Or.inl (vote_notarization h)
  | processVote vote => exact Or.inl (processVote_notarization h)
  | processCertificate qc => exact Or.inl (processCertificate_notarization h)
  | updateNotarizedChain qc => exact Or.inr ⟨qc, updateNotarizedChain_notarization h⟩
  | commitRule qc => exact Or.inl (commit_notarization h)
  | processRemoteTmo tmo =>
      cases Outcome.pure_eq_ok.mp h
      exact Or.inl (processRemoteTmo_notarization sl tmo)
  | processLocalTmo view =>
      cases Outcome.pure_eq_ok.mp h
      exact Or.inl (processRemoteTmo_notarization _ _)
  | voted | bufferedBlock | deleteBufferedBlock | bufferedNotarizedBlock | deleteBufferedQC =>
      cases Outcome.pure_eq_ok.mp h
      exact Or.inl rfl

/-- An access to the notarized chain that a frame makes is inside it. -/
def InBounds (sl : Streamlet) : StreamletFrame → Prop
  | .votingRule container => ∃ vote, sl.notarization.votingRule container.block = .ok vote
  | .updateNotarizedChain qc =>
      ∃ result, sl.notarization.updateNotarizedChain sl.bc qc = .ok result
  | .commitRule _ => ∃ block, sl.notarization.commitRule = .ok block
  | _ => True

/-- A block of a view above 2 is voted on only when something is notarized, and while the
chain has one or two levels only children of notarized blocks are certified. -/
def Covered (sl : Streamlet) : StreamletFrame → Prop
  | .votingRule container => container.block.view ≤ 2 ∨ sl.notarization.notarizedChain ≠ []
  | .updateNotarizedChain qc => ∀ block ∈ sl.bc.getBlockByID qc.blockID,
      sl.notarization.notarizedChain = [] ∨ 3 ≤ sl.notarization.getNotarizedHeight ∨
        sl.notarization.HasParent block
  | _ => True

theorem inBounds_iff_covered (sl : Streamlet) (frame : StreamletFrame) :
    sl.InBounds frame ↔ sl.Covered frame := by
  cases frame with
  | votingRule container => exact sl.notarization.votingRule_returns_iff container.block
  | updateNotarizedChain qc => exact sl.notarization.updateNotarizedChain_returns_iff sl.bc qc
  | commitRule qc => exact iff_of_true sl.notarization.commitRule_returns trivial
  | _ => exact Iff.rfl

theorem covered_of_long {sl : Streamlet} (h : 3 ≤ sl.notarization.getNotarizedHeight)
    (frame : StreamletFrame) : sl.Covered frame := by
  cases frame with
  | votingRule container =>
      refine Or.inr fun hEmpty => ?_
      rw [Notarization.getNotarizedHeight, hEmpty] at h
      cases h
  | updateNotarizedChain qc => exact fun block _ => Or.inr (Or.inl h)
  | _ => trivial

end Streamlet

namespace StreamletRun

open Notarization (getNotarizedHeight)

theorem step_height_le {cfg : Config} {x x' : StreamletRun} {input : StreamletInput}
    (h : x.step cfg input = .ok x') :
    x.sl.notarization.getNotarizedHeight ≤ x'.sl.notarization.getNotarizedHeight := by
  cases input with
  | block | vote | certificate | tmo | localTmo =>
      cases Outcome.pure_eq_ok.mp h
      exact le_refl _
  | goroutine view =>
      unfold step at h
      dsimp only at h
      split_ifs at h
      · cases Outcome.pure_eq_ok.mp h
        exact le_refl _
      · cases Outcome.pure_eq_ok.mp h
        exact le_refl _
  | proceed =>
      change x.proceed cfg = .ok x' at h
      unfold proceed at h
      cases hStack : x.stack with
      | nil =>
          rw [hStack] at h
          cases Outcome.pure_eq_ok.mp h
          exact le_refl _
      | cons frame rest =>
          rw [hStack] at h
          obtain ⟨⟨sl, calls⟩, hPerform, hDone⟩ := Outcome.bind_eq_ok.mp h
          cases Outcome.pure_eq_ok.mp hDone
          rcases Streamlet.perform_notarization hPerform with hSame | ⟨qc, hStep⟩
          · exact (congrArg getNotarizedHeight hSame).ge
          · exact Notarization.step_height_le hStep

/-- A property of the frame that is executed next. -/
def Next (P : Streamlet → StreamletFrame → Prop) (x : StreamletRun) (input : StreamletInput) :
    Prop :=
  input = .proceed → ∀ frame ∈ x.stack.head?, P x.sl frame

/-- Along a run every access to the notarized chain is inside it exactly when every call is
covered, and from three notarized blocks on it always is. A certificate for a stored block is
accepted if the chain is empty or a notarized block is the parent, and otherwise, if the call
returns, an error is reported and the certificate is buffered. -/
theorem chain_accesses_in_bounds_iff (cfg : Config) (id : NodeID) (n : Nat)
    (inputs : List StreamletInput) :
    (Guarded (step cfg) (Next Streamlet.InBounds) { sl := .new id n } inputs ↔
      Guarded (step cfg) (Next Streamlet.Covered) { sl := .new id n } inputs) ∧
    ∀ past later x, past ++ later = inputs →
      run (step cfg) { sl := .new id n } past = .ok x →
      (3 ≤ x.sl.notarization.getNotarizedHeight →
        Guarded (step cfg) (Next Streamlet.InBounds) x later) ∧
      ∀ qc block notarization error, x.sl.bc.getBlockByID qc.blockID = some block →
        x.sl.notarization.updateNotarizedChain x.sl.bc qc = .ok (notarization, error) →
        ((error ≠ none ∧ notarization.bufferedNotarizedBlock.lookup block.prevID = some qc) ↔
          x.sl.notarization.notarizedChain ≠ [] ∧ ¬x.sl.notarization.HasParent block) := by
  have hSame : Streamlet.InBounds = Streamlet.Covered := by
    funext sl frame
    exact propext (sl.inBounds_iff_covered frame)
  refine ⟨by rw [hSame], ?_⟩
  intro past later x _ _
  constructor
  · intro hLong
    -- Levels are never removed, so three of them are there at every later call.
    refine guarded_of_invariant
      (P := fun x : StreamletRun => 3 ≤ x.sl.notarization.getNotarizedHeight)
      (fun x input x' hLong hStep => hLong.trans (step_height_le hStep))
      (fun x input hLong _ frame _ => ?_) hLong later
    exact (x.sl.inBounds_iff_covered frame).mpr (Streamlet.covered_of_long hLong frame)
  · intro qc block notarization error hBlock hUpdate
    rw [Notarization.updateNotarizedChain_eq _ hBlock] at hUpdate
    by_cases hAccepted : x.sl.notarization.notarizedChain = [] ∨ x.sl.notarization.HasParent block
    · rw [if_pos hAccepted] at hUpdate
      cases hUpdate
      refine iff_of_false (fun h => h.1 rfl) (fun h => ?_)
      exact hAccepted.elim h.1 h.2
    · rw [if_neg hAccepted] at hUpdate
      split_ifs at hUpdate
      cases hUpdate
      refine iff_of_true ⟨by simp, ?_⟩ (not_or.mp hAccepted)
      exact Finmap.lookup_insert _

end StreamletRun

namespace Scenario

/-- A block of replica 1, in a container with the first certificate. -/
def proposed (id : Identifier) (view : View) (prevID : Identifier) : BlockContainer where
  block := { view, qc := some .initial, proposer := "1", prevID, id, sig := keys.sign 0 id }
  qc := .initial
  carries := rfl

/-- Every message is dealt with before the next one comes. -/
def oneByOne (messages : List StreamletInput) : List StreamletInput :=
  messages.flatMap fun message => message :: List.replicate 5 .proceed

/-- Replica 2 under replica 1 as the leader of all views. -/
def streamletRun (inputs : List StreamletInput) : Outcome StreamletRun :=
  run (StreamletRun.step (config fun _ => "1")) { sl := .new "2" 4 } inputs

end Scenario

namespace StreamletRun

open Scenario

/-- Three blocks in a row and their certificates. -/
def threeNotarized : List StreamletInput :=
  oneByOne [.block (proposed 1 1 0), .certificate (certificate 1 1), .block (proposed 2 2 1),
    .certificate (certificate 2 2), .block (proposed 3 3 2), .certificate (certificate 3 3)]

theorem chain_accesses_in_bounds_iff_threeNotarized :
    ∃ x, streamletRun threeNotarized = .ok x ∧ x.sl.notarization.getNotarizedHeight = 3 ∧
      ∀ later, Guarded (step (config fun _ => "1")) (Next Streamlet.InBounds) x later := by
  obtain ⟨x, hRun, hHeight⟩ := Outcome.of_test
    (P := fun x : StreamletRun => x.sl.notarization.getNotarizedHeight = 3)
    (x := streamletRun threeNotarized) (by decide)
  refine ⟨x, hRun, hHeight, fun later => ?_⟩
  have hAll := chain_accesses_in_bounds_iff (config fun _ => "1") "2" 4 (threeNotarized ++ later)
  exact (hAll.2 threeNotarized later x rfl hRun).1 hHeight.ge

/-- Block 3 of view 3 is on top of block 1, and nothing has been notarized when it is voted
on. Blocks 1 and 2 are of view 1, block 3 of view 2 on top of block 2, and block 3 is
certified when only block 1 is notarized. The first certificate is accepted although no
notarized block is the parent. -/
theorem chain_accesses_out_of_bounds :
    (∃ x container rest,
      streamletRun (oneByOne [.block (proposed 1 1 0)] ++ [.block (proposed 3 3 1), .proceed]) =
        .ok x ∧ x.stack = .votingRule container :: rest ∧
      x.sl.notarization.votingRule container.block = .error .outOfRange) ∧
    (∃ x qc rest,
      streamletRun (oneByOne [.block (proposed 1 1 0), .block (proposed 2 1 0),
          .block (proposed 3 2 2), .certificate (certificate 1 1)] ++
        [.certificate (certificate 2 3), .proceed]) = .ok x ∧
      x.stack = .updateNotarizedChain qc :: rest ∧
      x.sl.notarization.updateNotarizedChain x.sl.bc qc = .error .outOfRange) ∧
    ∃ x qc rest block n,
      streamletRun (oneByOne [.block (proposed 1 1 0)] ++
        [.certificate (certificate 1 1), .proceed]) = .ok x ∧
      x.stack = .updateNotarizedChain qc :: rest ∧
      x.sl.bc.getBlockByID qc.blockID = some block ∧ ¬x.sl.notarization.HasParent block ∧
      x.sl.notarization.updateNotarizedChain x.sl.bc qc = .ok (n, none) := by
  refine ⟨⟨_, _, _, rfl, rfl, rfl⟩, ⟨_, _, _, rfl, rfl, rfl⟩, _, _, _, _, _, rfl, rfl, rfl, ?_, rfl⟩
  rintro ⟨level, hLevel, _⟩
  cases hLevel

end StreamletRun
end Bamboo
