import Bamboo.HotStuff.Actions

/-! Which actions follow each other directly. `ProcessBlock` adopts the certificate of a
block and processes it at once, unless the block is the replica's own, and it deletes a
certificate that waited for a block as soon as it has processed it. -/
namespace Bamboo

open Library

namespace HotStuff

/-- The actions that come in pairs. -/
def Action.paired : Action → Bool
  | .raise _ _ => true
  | .certificate .block _ => true
  | .certificate (.waiting _) _ => true
  | .settle _ => true
  | _ => false

inductive Chunk (id : NodeID) : List Action → Prop
  | single {a : Action} (h : a.paired = false) : Chunk id [a]
  | own {block : Block} (qc : QC) (h : block.proposer = id) : Chunk id [.raise block qc]
  | carried (block : Block) (qc : QC) : Chunk id [.raise block qc, .certificate .block qc]
  | replay (key : Identifier) (qc : QC) : Chunk id [.certificate (.waiting key) qc, .settle key]

/-- Where a chunk can be cut. -/
theorem Chunk.cut {id : NodeID} {front back : List Action} (h : Chunk id (front ++ back)) :
    front = [] ∨ back = [] ∨
      (∃ block qc, front = [.raise block qc] ∧ back = [.certificate .block qc]) ∨
      ∃ key qc, front = [.certificate (.waiting key) qc] ∧ back = [.settle key] := by
  cases front with
  | nil => exact Or.inl rfl
  | cons a front =>
      right
      cases back with
      | nil => exact Or.inl rfl
      | cons b back =>
          right
          generalize hWhole : a :: front ++ b :: back = whole at h
          cases h with
          | single | own => simp at hWhole
          | carried block qc =>
              left
              cases front with
              | nil =>
                  cases hWhole
                  exact ⟨block, qc, rfl, rfl⟩
              | cons => simp at hWhole
          | replay key qc =>
              right
              cases front with
              | nil =>
                  cases hWhole
                  exact ⟨key, qc, rfl, rfl⟩
              | cons => simp at hWhole

theorem voteActions_chunked (cfg : Config) (id : NodeID) (hs : HotStuff) (vote : Vote) :
    Chunked (Chunk id) (voteActions cfg hs vote) := by
  apply Chunked.of_forall
  intro a ha
  apply Chunk.single
  rcases mem_voteActions ha with rfl | ⟨qc, rfl | rfl⟩
  all_goals rfl

theorem storeActions_chunked (id : NodeID) (hs : HotStuff) (container : BlockContainer) :
    Chunked (Chunk id) (hs.storeActions container) := by
  unfold storeActions
  apply Chunked.single (.single rfl)
  cases hs.bufferedQCs.lookup container.block.id with
  | none => exact .nil
  | some qc => exact .of_chunk (.replay _ qc)

theorem takeUpActions_chunked (cfg : Config) (hs : HotStuff) (block : Block) :
    Chunked (Chunk hs.id) (takeUpActions cfg hs block) := by
  by_cases hAhead : hs.pm.curView + 1 < block.view
  · rw [Origins.takeUpActions_ahead hAhead]
    exact .of_chunk (.single rfl)
  cases hQC : block.qc with
  | none =>
      rw [Origins.takeUpActions_none hAhead hQC]
      exact .nil
  | some qc =>
      rw [Origins.takeUpActions_some hAhead hQC]
      apply Chunked.append
      · split_ifs with hOwn
        · exact .of_chunk (.own qc hOwn)
        · exact .of_chunk (.carried block qc)
      · cases hs.processBlockQC cfg block qc with
        | error => exact .nil
        | ok admitted =>
            dsimp only
            split_ifs
            · exact .nil
            · exact .nil
            · exact storeActions_chunked hs.id admitted _

theorem castActions_chunked (cfg : Config) (id : NodeID) (hs : HotStuff) (record : VoteRecord) :
    Chunked (Chunk id) (castActions cfg hs record) := by
  apply Chunked.of_forall
  intro a ha
  apply Chunk.single
  rcases mem_castActions ha with rfl | ⟨message, rfl⟩ | ⟨hs', vote, ha⟩
  · rfl
  · rfl
  · rcases mem_voteActions ha with rfl | ⟨qc, rfl | rfl⟩
    all_goals rfl

theorem blockActions_chunked (cfg : Config) (depth : Nat) (hs : HotStuff) (block : Block) :
    Chunked (Chunk hs.id) (blockActions cfg depth hs block) := by
  induction depth generalizing hs block with
  | zero => exact .nil
  | succ depth ih =>
      unfold blockActions
      apply Chunked.append
      · exact .single (.single rfl) (takeUpActions_chunked cfg (hs.logCall block) block)
      · split
        · next hTaken =>
            apply (castActions_chunked cfg hs.id _ _).append
            split
            · exact .nil
            · next voted hCast =>
                split
                · exact .nil
                · -- the replica that votes is the one that entered the call
                  have hId : voted.id = hs.id := (Turn.voted hTaken hCast).progress.id_eq
                  rw [← hId]
                  exact (ih voted _).append (.of_chunk (.single rfl))
        · exact .nil

theorem tmoActions_chunked (cfg : Config) (id : NodeID) (hs : HotStuff) (tmo : TMO) :
    Chunked (Chunk id) (tmoActions cfg hs tmo) := by
  apply Chunked.of_forall
  intro a ha
  apply Chunk.single
  rcases mem_tmoActions ha with ⟨qc, rfl⟩ | rfl | ⟨view, rfl⟩
  all_goals rfl

theorem eventActions_chunked (cfg : Config) (hs : HotStuff) (e : Event) :
    Chunked (Chunk hs.id) (eventActions cfg hs e) := by
  cases e with
  | block block => exact blockActions_chunked cfg _ hs block
  | vote vote => exact voteActions_chunked cfg hs.id hs vote
  | tmo tmo => exact tmoActions_chunked cfg hs.id hs tmo
  | localTmo view =>
      exact .single (.single rfl) (.single (.single rfl) (tmoActions_chunked cfg hs.id _ _))
  | kickOff =>
      unfold eventActions
      split_ifs
      · exact .of_chunk (.single rfl)
      · exact .nil

theorem runActions_chunked (cfg : Config) (id : NodeID) (isByz : Bool) (n : Nat)
    (events : List Event) :
    Chunked (Chunk id) (runActions cfg (HotStuff.new id isByz n) events) := by
  refine expandAll_chunked (P := fun hs : HotStuff => hs.id = id) ?_ ?_ rfl events
  · rintro hs e rfl
    exact eventActions_chunked cfg hs e
  · rintro hs e hs' rfl hStep
    exact (step_progress hStep).id_eq

end HotStuff
end Bamboo
