import Mathlib.Data.List.Forall2

/-! Lists that are filled position by position, each entry from the entry of another
list at the same place. -/
namespace Library

universe u v w

variable {α : Type u} {β : Type v} {γ : Type w}

/-- A list can be filled when every position can. -/
theorem exists_forall₂_iff {R : α → β → Prop} {as : List α} :
    (∃ bs, List.Forall₂ R as bs) ↔ ∀ a ∈ as, ∃ b, R a b := by
  induction as with
  | nil => simp
  | cons a as ih =>
      rw [List.forall_mem_cons, ← ih]
      constructor
      · rintro ⟨_, hFilled⟩
        cases hFilled with
        | cons hHead hTail => exact ⟨⟨_, hHead⟩, _, hTail⟩
      · rintro ⟨⟨b, hHead⟩, bs, hTail⟩
        exact ⟨b :: bs, .cons hHead hTail⟩

/-- Two lists can be filled alike when every position can be filled alike in both. -/
theorem exists_forall₂_alike_iff {R : α → β → Prop} {S : α → γ → Prop} {T : β → γ → Prop}
    {as : List α} :
    (∃ bs cs, List.Forall₂ R as bs ∧ List.Forall₂ S as cs ∧ List.Forall₂ T bs cs) ↔
      ∀ a ∈ as, ∃ b c, R a b ∧ S a c ∧ T b c := by
  induction as with
  | nil => simp
  | cons a as ih =>
      rw [List.forall_mem_cons, ← ih]
      constructor
      · rintro ⟨_, _, hLeft, hRight, hAlike⟩
        cases hLeft with
        | cons hLeftHead hLeftTail =>
            cases hRight with
            | cons hRightHead hRightTail =>
                cases hAlike with
                | cons hAlikeHead hAlikeTail =>
                    exact ⟨⟨_, _, hLeftHead, hRightHead, hAlikeHead⟩,
                      _, _, hLeftTail, hRightTail, hAlikeTail⟩
      · rintro ⟨⟨b, c, hLeftHead, hRightHead, hAlikeHead⟩, bs, cs, hLeft, hRight, hAlike⟩
        exact ⟨b :: bs, c :: cs, .cons hLeftHead hLeft, .cons hRightHead hRight,
          .cons hAlikeHead hAlike⟩

end Library
