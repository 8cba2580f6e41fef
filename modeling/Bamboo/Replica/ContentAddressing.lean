import Bamboo.Crypto.Merkle
import Bamboo.Replica.Content

/-! What the hash of a microblock says about its content. `MicroBlock.hash` is the
identifier of a Merkle root over the transactions and the text of a clock reading. Handlers
never check it, but every record with content carries the hash of its own transactions, so
that a hash names one list of transactions in the whole network. -/
namespace Bamboo

open Library

/-- `IDToByte`. -/
def idToByte (id : Identifier) : Bytes :=
  (List.range 32).map fun i => UInt8.ofBitVec (id.extractLsb' (8 * i) 8)

theorem idToByte_injective : Function.Injective idToByte := by
  intro first second hSame
  have hByte : ∀ i < 32, first.extractLsb' (8 * i) 8 = second.extractLsb' (8 * i) 8 := by
    intro i hi
    have := congrArg (fun bytes : Bytes => bytes[i]?) hSame
    simpa [idToByte, hi] using this
  apply BitVec.eq_of_getLsbD_eq
  intro i hi
  have := congrArg (fun byte => byte.getLsbD (i % 8)) (hByte (i / 8) (by omega))
  simpa [BitVec.getLsbD_extractLsb', Nat.mod_lt, Nat.div_add_mod] using this

/-- What `MakeID` makes of a transaction and of a Merkle root, the hash function of the
Merkle trees, and the text of a clock reading. -/
structure ContentHashing where
  hasher : Hasher
  txnID : Transaction → Identifier
  rootID : Bytes → Identifier
  timeText : Int → Bytes

namespace ContentHashing

variable (hashing : ContentHashing)

/-- The leaves of a microblock's Merkle tree. -/
def hashList (txns : List Transaction) (timestamp : Int) : List Bytes :=
  txns.map (fun tx => idToByte (hashing.txnID tx)) ++ [hashing.timeText timestamp]

/-- `MicroBlock.hash`. -/
def hash : ContentHash := fun txns timestamp =>
  hashing.rootID (hashing.hasher.hashFromByteSlices (hashing.hashList txns timestamp))

/-- Nothing that is hashed for two microblocks collides. -/
structure Apart (made made' : List Transaction × Int) : Prop where
  txnID : ∀ tx ∈ made.1, ∀ tx' ∈ made'.1, hashing.txnID tx = hashing.txnID tx' → tx = tx'
  inputs : hashing.hasher.CollisionFree (hashing.hasher.inputs (hashing.hashList made.1 made.2))
    (hashing.hasher.inputs (hashing.hashList made'.1 made'.2))
  rootID : hashing.hash made.1 made.2 = hashing.hash made'.1 made'.2 →
    hashing.hasher.hashFromByteSlices (hashing.hashList made.1 made.2) =
      hashing.hasher.hashFromByteSlices (hashing.hashList made'.1 made'.2)

variable {hashing}

theorem txns_eq_of_ids {txns txns' : List Transaction}
    (hTx : ∀ tx ∈ txns, ∀ tx' ∈ txns', hashing.txnID tx = hashing.txnID tx' → tx = tx')
    (hSame : txns.map (fun tx => idToByte (hashing.txnID tx)) =
      txns'.map fun tx => idToByte (hashing.txnID tx)) : txns = txns' := by
  induction txns generalizing txns' with
  | nil => simpa using hSame.symm
  | cons tx rest ih =>
      cases txns' with
      | nil => simp at hSame
      | cons tx' rest' =>
          obtain ⟨hHead, hTail⟩ := List.cons.inj hSame
          rw [hTx tx List.mem_cons_self tx' List.mem_cons_self (idToByte_injective hHead),
            ih (fun a ha b hb => hTx a (List.mem_cons_of_mem _ ha) b (List.mem_cons_of_mem _ hb))
              hTail]

/-- A hash shows the transactions and the text of the time. -/
theorem Apart.binding {made made' : List Transaction × Int} (h : hashing.Apart made made')
    (hSame : hashing.hash made.1 made.2 = hashing.hash made'.1 made'.2) :
    made.1 = made'.1 ∧ hashing.timeText made.2 = hashing.timeText made'.2 := by
  have hLeaves := Hasher.hashFromByteSlices_binding h.inputs (h.rootID hSame)
  obtain ⟨hTxns, hTime⟩ := List.append_inj' hLeaves rfl
  exact ⟨txns_eq_of_ids h.txnID hTxns, (List.cons.inj hTime).1⟩

end ContentHashing

namespace Dissemination

variable {hash : ContentHash} {wire : Int → Int} {cfg : Settings} {keys : KeyRing}
  {sort : GroupSort} {peers : Finset NodeID} {net : Dissemination} {x : NodeID}

/-- The transactions of the microblock that an event makes, and the time they are hashed with. -/
def Stamped.content (e : Stamped) : Option (List Transaction × Int) :=
  match e.event with
  | .observePool _ _ txns _ _ | .handleTxn _ _ txns _ => some (txns, e.created)
  | _ => none

/-- The record carries the hash of its own transactions, as they were put together once. -/
def HashedFrom (hash : ContentHash) (made : List (List Transaction × Int)) (mb : MicroBlock) :
    Prop :=
  ∃ created, (mb.txns, created) ∈ made ∧ mb.hash = hash mb.txns created

theorem hashedFrom_survives (hash : ContentHash) (wire : Int → Int)
    (made : List (List Transaction × Int)) : Survives wire (HashedFrom hash made) where
  copied mb mb' hHash hTxns _ h := by
    obtain ⟨created, hMade, hSame⟩ := h
    exact ⟨created, hTxns.symm ▸ hMade, by rw [hHash, hTxns, hSame]⟩
  decoded _ h := h

/-- The clock may move, and the encoding may change what it showed: neither enters the hash
again. -/
theorem run_hashed {events : List Stamped}
    (hRun : run (stepHashed hash wire cfg keys sort peers) (new cfg) events = .ok net) :
    net.Carries (OfContent (HashedFrom hash (events.filterMap Stamped.content))) fun _ => True := by
  refine runHashed_carries (hashedFrom_survives hash wire _) (fun e hMem mb hMade => ?_) hRun
  have hNew : ∀ txns, (txns, e.created) ∈ e.content →
      (txns, e.created) ∈ events.filterMap Stamped.content :=
    fun txns hContent => List.mem_filterMap.mpr ⟨e, hMem, hContent⟩
  obtain ⟨node, event, created⟩ := e
  cases event with
  | observePool _ groupId txns now sample =>
      cases hMade
      exact ⟨created, hNew txns rfl, rfl⟩
  | handleTxn _ groupId txns now =>
      cases hMade
      exact ⟨created, hNew txns rfl, rfl⟩
  | _ => cases hMade

/-- Replicas that have content under the same hash have the same transactions in the same
order, whatever the clocks do, if nothing that `MicroBlock.hash` hashes for the microblocks of
the run collides. -/
theorem content_addressing {hashing : ContentHashing} {events : List Stamped}
    (hRun : run (stepHashed hashing.hash wire cfg keys sort peers) (new cfg) events = .ok net)
    (hApart : ∀ a ∈ events.filterMap Stamped.content, ∀ b ∈ events.filterMap Stamped.content,
      hashing.Apart a b)
    {y : NodeID} {id : Identifier} {mb mb' : MicroBlock}
    (hStored : (net.replicas x).sm.microblockMap.lookup id = some mb) (hReal : mb.isFake = false)
    (hStored' : (net.replicas y).sm.microblockMap.lookup id = some mb')
    (hReal' : mb'.isFake = false) : mb.txns = mb'.txns := by
  have hHashed := run_hashed hRun
  obtain ⟨created, hMade, hHash⟩ := (hHashed.replica x).sm.records mb (.stored hStored) hReal
  obtain ⟨created', hMade', hHash'⟩ := (hHashed.replica y).sm.records mb' (.stored hStored') hReal'
  obtain ⟨_, hWell⟩ := (hHashed.replica x).sm.wellFormed
  obtain ⟨_, hWell'⟩ := (hHashed.replica y).sm.wellFormed
  have hSame : hashing.hash mb.txns created = hashing.hash mb'.txns created' := by
    rw [← hHash, ← hHash', hWell.stored_hash id mb hStored, hWell'.stored_hash id mb' hStored']
  exact ((hApart _ hMade _ hMade').binding hSame).1

end Dissemination

namespace Scenario

def hashing : ContentHashing where
  hasher := Hasher.firstBytes
  txnID tx := BitVec.ofNat 256 tx.id.length
  rootID root := BitVec.ofNat 256 (root.foldl (fun total byte => total + byte.toNat) 0)
  timeText time := [UInt8.ofNat time.toNat]

/-- The leaves of the microblock with one transaction, made at time 5. -/
def oneLeaf : List Bytes := [idToByte 1]

theorem hashing_balanced : Library.BalancedFold.Balanced oneLeaf [[5]] :=
  ⟨by simp [oneLeaf], by simp, by decide⟩

theorem hashing_hash : hashing.hash oneTransaction 5 = 2 := by
  have hRoot := Hasher.firstBytes.hashFromByteSlices_append hashing_balanced
  show hashing.rootID (Hasher.firstBytes.hashFromByteSlices (oneLeaf ++ [[5]])) = 2
  rw [hRoot, oneLeaf, Hasher.hashFromByteSlices, Hasher.hashFromByteSlices]
  decide

theorem hashing_apart : hashing.Apart (oneTransaction, 5) (oneTransaction, 5) := by
  constructor
  · decide
  · have hInputs := Hasher.firstBytes.inputs_append hashing_balanced
    have hInput := Hasher.firstBytes.rootInput_append hashing_balanced
    show Hasher.firstBytes.CollisionFree (Hasher.firstBytes.inputs (oneLeaf ++ [[5]]))
      (Hasher.firstBytes.inputs (oneLeaf ++ [[5]]))
    simp only [oneLeaf, Hasher.hashFromByteSlices, Hasher.inputs] at hInputs hInput ⊢
    simp only [hInputs, hInput, Hasher.CollisionFree]
    decide
  · exact fun _ => rfl

/-- Node 1 makes a microblock at time 5 and sends it at time 6; node 2 receives it. -/
def addressed : List Dissemination.Stamped :=
  [{ node := "1", event := .handleTxn 0 0 oneTransaction 6, created := 5 },
    { node := "2", event := .deliver 0 (.microBlock
        { newMicroblock 2 0 oneTransaction 6 with sender := "1" }) }]

end Scenario

namespace Dissemination

/-- Only the hashes that are computed matter. -/
theorem run_stepHashed_congr {hash hash' : ContentHash} {events : List Stamped}
    (h : ∀ e ∈ events, e.event.hashed hash e.created = e.event.hashed hash' e.created)
    (net : Dissemination) :
    run (stepHashed hash wire cfg keys sort peers) net events =
      run (stepHashed hash' wire cfg keys sort peers) net events := by
  induction events generalizing net with
  | nil => rfl
  | cons e rest ih =>
      have hStep : net.stepHashed hash wire cfg keys sort peers e =
          net.stepHashed hash' wire cfg keys sort peers e := by
        unfold stepHashed
        rw [h e List.mem_cons_self]
      rw [run, run, hStep]
      congr 1
      funext net'
      exact ih (fun e' he' => h e' (List.mem_cons_of_mem e he')) net'

/-- The time that node 2 has decoded is another one than at node 1. -/
theorem content_addressing_addressed :
    ∃ net mb mb', run (stepHashed Scenario.hashing.hash (fun time => time / 10 * 10) Scenario.pool
        Scenario.keys Scenario.sortByGroup Scenario.four) (new Scenario.pool) Scenario.addressed =
          .ok net ∧
      (net.replicas "1").sm.microblockMap.lookup 2 = some mb ∧
      (net.replicas "2").sm.microblockMap.lookup 2 = some mb' ∧
      mb.timestamp ≠ mb'.timestamp ∧ mb.txns = mb'.txns := by
  obtain ⟨net, hRun, hFirst, hSecond⟩ := Outcome.of_test
    (P := fun net : Dissemination =>
      (net.replicas "1").sm.microblockMap.lookup 2 =
        some { newMicroblock 2 0 Scenario.oneTransaction 6 with sender := "1" } ∧
      (net.replicas "2").sm.microblockMap.lookup 2 = some
        { newMicroblock 2 0 Scenario.oneTransaction 0 with sender := "1" })
    (x := run (stepHashed (fun _ _ => 2) (fun time => time / 10 * 10) Scenario.pool
      Scenario.keys Scenario.sortByGroup Scenario.four) (new Scenario.pool) Scenario.addressed)
    (by decide)
  have hHashes : ∀ e ∈ Scenario.addressed, e.event.hashed (fun _ _ => 2) e.created =
      e.event.hashed Scenario.hashing.hash e.created := by
    simp [Scenario.addressed, Event.hashed, Scenario.hashing_hash]
  rw [run_stepHashed_congr hHashes] at hRun
  refine ⟨net, _, _, hRun, hFirst, hSecond, by decide, ?_⟩
  refine content_addressing hRun ?_ hFirst rfl hSecond rfl
  simp only [Scenario.addressed, Stamped.content, List.filterMap_cons, List.filterMap_nil,
    List.mem_singleton]
  rintro a rfl b rfl
  exact Scenario.hashing_apart

end Dissemination
end Bamboo
