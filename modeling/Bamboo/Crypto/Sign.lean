import Bamboo.Identity
import Mathlib.Data.Finset.Card
import Mathlib.Data.Finset.Image

/-! Signatures under the configured keys. The elliptic-curve operations are
parameters; which key is used, which indices are read and how a list of
signatures is accepted is the program's. -/
namespace Bamboo

open Library

/-- A hash of 32 bytes. -/
abbrev Identifier := BitVec 256

/-- The two byte strings of an ECDSA signature, or whatever a peer sent. -/
abbrev Signature := List (List UInt8)

abbrev AggSig := List Signature

/-- The keys of `SetKeys(size)`. The two functions are the standard library's
signing and verification under the key at a position. -/
structure KeyRing where
  size : Nat
  sign : Nat → Identifier → Signature
  verify : Nat → Signature → Identifier → Bool

namespace KeyRing

variable (keys : KeyRing)

/-- The position of a node's key in a slice of `size` keys. -/
def position (id : NodeID) : Outcome Nat :=
  if 1 ≤ node id ∧ node id ≤ keys.size then pure (node id - 1).toNat else throw .outOfRange

/-- `PrivSign` without a hasher. -/
def privSign (data : Identifier) (id : NodeID) : Outcome Signature := do
  let i ← keys.position id
  pure (keys.sign i data)

/-- `PubVerify`. `ToECDSA` reads two components of the signature. -/
def pubVerify (sig : Signature) (data : Identifier) (id : NodeID) : Outcome Bool := do
  let i ← keys.position id
  if sig.length < 2 then throw .outOfRange
  pure (keys.verify i sig data)

/-- `VerifyQuorumSignature`: the signature at each signer's position is read and
checked, up to the first one that fails. -/
def verifyQuorumSignature (data : Identifier) : AggSig → List NodeID → Outcome Bool
  | _, [] => pure true
  | [], _ :: _ => throw .outOfRange
  | sig :: sigs, signer :: signers => do
      let correct ← keys.pubVerify sig data signer
      if correct then verifyQuorumSignature data sigs signers else pure false

/-- A signature of the node on `data` that the key ring accepts. -/
def Valid (sig : Signature) (data : Identifier) (id : NodeID) : Prop :=
  keys.pubVerify sig data id = .ok true

instance (sig : Signature) (data : Identifier) (id : NodeID) :
    Decidable (keys.Valid sig data id) :=
  inferInstanceAs (Decidable (_ = _))

/-- The numbers of the signers next to whom a valid signature stands. -/
def validSigners (data : Identifier) (sigs : AggSig) (signers : List NodeID) : Finset Int :=
  (((sigs.zip signers).filter fun pair => keys.Valid pair.1 data pair.2).map
    fun pair => node pair.2).toFinset

/-- An accepted list has a valid signature next to every signer. -/
theorem verifyQuorumSignature_ok (data : Identifier) (sigs : AggSig) (signers : List NodeID)
    (h : keys.verifyQuorumSignature data sigs signers = .ok true) :
    signers.length ≤ sigs.length ∧ ∀ pair ∈ sigs.zip signers, keys.Valid pair.1 data pair.2 := by
  induction signers generalizing sigs with
  | nil => simp
  | cons signer signers ih =>
      cases sigs with
      | nil => cases h
      | cons sig sigs =>
          obtain ⟨correct, hHead, hTail⟩ := Outcome.bind_eq_ok.mp h
          cases correct with
          | false => cases Outcome.pure_eq_ok.mp hTail
          | true =>
              obtain ⟨hLength, hValid⟩ := ih sigs hTail
              refine ⟨Nat.succ_le_succ hLength, ?_⟩
              intro pair hPair
              rcases List.mem_cons.mp hPair with rfl | hPair
              · exact hHead
              · exact hValid pair hPair

/-- After an accepting check only repeated node numbers are left to exclude. -/
theorem validSigners_of_accepted (data : Identifier) (sigs : AggSig) (signers : List NodeID)
    (h : keys.verifyQuorumSignature data sigs signers = .ok true) :
    keys.validSigners data sigs signers = (signers.map node).toFinset := by
  obtain ⟨hLength, hValid⟩ := keys.verifyQuorumSignature_ok data sigs signers h
  have hAll : (sigs.zip signers).filter (fun pair => keys.Valid pair.1 data pair.2) =
      sigs.zip signers := by
    apply List.filter_eq_self.mpr
    intro pair hPair
    exact decide_eq_true (hValid pair hPair)
  have hSigners : (sigs.zip signers).map Prod.snd = signers :=
    List.map_snd_zip hLength
  unfold validSigners
  rw [hAll]
  conv_rhs => rw [← hSigners, List.map_map]
  rfl

end KeyRing

namespace Scenario

/-- Ideal signatures of four nodes: the position of the key and the data. -/
def keys : KeyRing where
  size := 4
  sign := fun i data => [[UInt8.ofNat i], [UInt8.ofNat data.toNat]]
  verify := fun i sig data => sig = [[UInt8.ofNat i], [UInt8.ofNat data.toNat]]

end Scenario
end Bamboo
