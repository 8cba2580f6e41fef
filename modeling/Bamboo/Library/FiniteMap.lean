import Mathlib.Data.Finmap

/-! Finite maps with one value type. `Finmap` is used where only lookups matter
and `AList` where a map is also enumerated; these are the read-over-write facts
in conditional form, and how writes change the number of keys. -/
namespace Library

universe u v

/-- A finite map whose enumeration order is not observable. -/
abbrev Table (K : Type u) (V : Type v) := Finmap (fun _ : K => V)

/-- A finite map together with one order of enumeration. -/
abbrev Listing (K : Type u) (V : Type v) := AList (fun _ : K => V)

variable {K : Type u} {V : Type v} [DecidableEq K]

namespace Table

theorem lookup_insert_ite (m : Table K V) (k k' : K) (v : V) :
    (m.insert k' v).lookup k = if k = k' then some v else m.lookup k := by
  split_ifs with h
  · subst h
    exact Finmap.lookup_insert m
  · exact Finmap.lookup_insert_of_ne m h

theorem lookup_erase_ite (m : Table K V) (k k' : K) :
    (m.erase k').lookup k = if k = k' then none else m.lookup k := by
  split_ifs with h
  · subst h
    exact Finmap.lookup_erase k m
  · exact Finmap.lookup_erase_ne h

/-- What is found after a write was written or was there before. -/
theorem of_lookup_insert {m : Table K V} {k k' : K} {v w : V}
    (h : (m.insert k' w).lookup k = some v) : k = k' ∧ v = w ∨ m.lookup k = some v := by
  rw [lookup_insert_ite] at h
  split_ifs at h with hSame
  · exact Or.inl ⟨hSame, (Option.some.inj h).symm⟩
  · exact Or.inr h

theorem of_lookup_erase {m : Table K V} {k k' : K} {v : V}
    (h : (m.erase k').lookup k = some v) : m.lookup k = some v := by
  rw [lookup_erase_ite] at h
  split_ifs at h
  exact h

theorem mem_of_lookup {m : Table K V} {k : K} {v : V} (h : m.lookup k = some v) : k ∈ m := by
  rw [← Finmap.lookup_isSome, h]
  rfl

/-- Writing under the same key keeps the inclusion of the keys of two tables. -/
theorem mem_insert_of_forall {W : Type*} {m : Table K V} {m' : Table K W}
    (h : ∀ k, k ∈ m → k ∈ m') {k' : K} {v : V} {w : W} (k : K) (hMem : k ∈ m.insert k' v) :
    k ∈ m'.insert k' w := by
  rw [Finmap.mem_insert] at hMem ⊢
  exact hMem.imp_right (h k)

/-- Writing under a new key keeps what is there. -/
theorem lookup_insert_of_new {m : Table K V} {k k' : K} {v w : V} (hNew : k' ∉ m)
    (h : m.lookup k = some v) : (m.insert k' w).lookup k = some v := by
  have hOther : k ≠ k' := by
    rintro rfl
    exact hNew (mem_of_lookup h)
  rw [Finmap.lookup_insert_of_ne m hOther]
  exact h

theorem keys_insert (m : Table K V) (k : K) (v : V) : (m.insert k v).keys = insert k m.keys := by
  ext k'
  rw [Finmap.mem_keys, Finmap.mem_insert, Finset.mem_insert, Finmap.mem_keys]

/-- Writing the value that is already there changes nothing. -/
theorem insert_eq_self_iff (m : Table K V) (k : K) (v : V) :
    m.insert k v = m ↔ m.lookup k = some v := by
  constructor
  · intro h
    rw [← h]
    exact Finmap.lookup_insert m
  · intro h
    apply Finmap.ext_lookup
    intro k'
    rw [lookup_insert_ite]
    split_ifs with hk
    · rw [hk, h]
    · rfl

end Table

namespace Listing

theorem lookup_insert_ite (m : Listing K V) (k k' : K) (v : V) :
    (m.insert k' v).lookup k = if k = k' then some v else m.lookup k := by
  split_ifs with h
  · subst h
    exact AList.lookup_insert m
  · exact AList.lookup_insert_ne h

omit [DecidableEq K] in
theorem card_keys (m : Listing K V) : m.toFinmap.keys.card = m.keys.length := by
  rw [Finset.card_def, Finmap.keys_val, Multiset.coe_card]

end Listing
end Library
