import Bamboo.Replica.Model

/-! What each handler of a replica can do, stated once per handler. -/
namespace Bamboo

open Library

/-- Delivered microblocks are committed ones with another number, and nothing else
becomes committed. -/
theorem numberCommitted_origin (seen : Finset Identifier) (no : Int) (mbs : List MicroBlock) :
    (∀ mb ∈ (numberCommitted seen no mbs).2.2,
      ∃ original ∈ mbs, ∃ number, mb = { original with committedNo := number }) ∧
    ∀ h ∈ (numberCommitted seen no mbs).1, h ∈ seen ∨ ∃ mb ∈ mbs, mb.hash = h := by
  induction mbs generalizing seen no with
  | nil => simp [numberCommitted]
  | cons mb rest ih =>
      unfold numberCommitted
      by_cases hSeen : mb.hash ∈ seen
      · rw [if_pos hSeen]
        obtain ⟨hDelivered, hCommitted⟩ := ih seen no
        constructor
        · intro found hMem
          obtain ⟨original, hOriginal, hCopy⟩ := hDelivered found hMem
          exact ⟨original, List.mem_cons_of_mem mb hOriginal, hCopy⟩
        · intro h hMem
          refine (hCommitted h hMem).imp_right ?_
          rintro ⟨later, hLater, hHash⟩
          exact ⟨later, List.mem_cons_of_mem mb hLater, hHash⟩
      · rw [if_neg hSeen]
        obtain ⟨hDelivered, hCommitted⟩ := ih (insert mb.hash seen) (no + 1)
        constructor
        · intro found hMem
          rcases List.mem_cons.mp hMem with rfl | hLater
          · exact ⟨mb, List.mem_cons_self, _, rfl⟩
          · obtain ⟨original, hOriginal, hCopy⟩ := hDelivered found hLater
            exact ⟨original, List.mem_cons_of_mem mb hOriginal, hCopy⟩
        · intro h hMem
          rcases hCommitted h hMem with hOld | ⟨later, hLater, hHash⟩
          · rcases Finset.mem_insert.mp hOld with rfl | hOld
            · exact Or.inr ⟨mb, List.mem_cons_self, rfl⟩
            · exact Or.inl hOld
          · exact Or.inr ⟨later, List.mem_cons_of_mem mb hLater, hHash⟩

namespace Replica

variable {cfg : Settings} {keys : KeyRing} {r r' : Replica}

/-- An ack is dropped or added to the mempool. -/
theorem processAcks_cases {ack : Ack} (h : r.processAcks cfg keys ack = .ok r') :
    r' = r ∨ r' = { r with sm := r.sm.addAck cfg ack } := by
  unfold processAcks at h
  by_cases hStable : r.sm.isStable ack.microblockID = true
  · rw [if_pos hStable] at h
    exact Or.inl (Outcome.pure_eq_ok.mp h).symm
  rw [if_neg hStable] at h
  by_cases hOther : ack.receiver ≠ r.id
  · rw [if_pos hOther] at h
    obtain ⟨verified, _, hDone⟩ := Outcome.bind_eq_ok.mp h
    cases verified with
    | false => exact Or.inl (Outcome.pure_eq_ok.mp hDone).symm
    | true => exact Or.inr (Outcome.pure_eq_ok.mp hDone).symm
  · rw [if_neg hOther] at h
    exact Or.inr (Outcome.pure_eq_ok.mp h).symm

/-- The ack for a microblock of another node is sent, the other one is processed here. -/
theorem acknowledge_cases {mb : MicroBlock} (h : r.acknowledge cfg keys mb = .ok r') :
    (mb.sender ≠ r.id ∧ ∃ ack : Ack, ack.receiver = r.id ∧ ack.microblockID = mb.hash ∧
        r' = r.send (.one mb.sender) (.ack ack)) ∨
      mb.sender = r.id ∧ (r' = r ∨ ∃ ack, r' = { r with sm := r.sm.addAck cfg ack }) := by
  obtain ⟨ack, hMade, hSend⟩ := Outcome.bind_eq_ok.mp h
  obtain ⟨sig, _, hSigned⟩ := Outcome.bind_eq_ok.mp hMade
  cases Outcome.pure_eq_ok.mp hSigned
  dsimp only at hSend
  by_cases hOther : mb.sender ≠ r.id
  · rw [if_pos hOther] at hSend
    exact Or.inl ⟨hOther, _, rfl, rfl, (Outcome.pure_eq_ok.mp hSend).symm⟩
  · rw [if_neg hOther] at hSend
    exact Or.inr ⟨not_not.mp hOther, (processAcks_cases hSend).imp_right fun hAdd => ⟨_, hAdd⟩⟩

/-- A microblock is forwarded, dropped, taken over as a requested one, or added and acked. -/
theorem handleMicroblock_cases {mb : MicroBlock} (h : r.handleMicroblock cfg keys mb = .ok r') :
    (cfg.loadBalance = true ∧ r' = r.send .all (.microBlock { mb with isForward := false })) ∨
      r' = r ∨ mb.hash ∉ r.receivedMBs ∧
      (mb.isRequested = true ∧ r' = { r with
          receivedMBs := insert mb.hash r.receivedMBs
          sm := r.sm.store mb
          ex := { r.ex with missReceive := r.ex.missReceive ++ [mb] } } ∨
        mb.isRequested = false ∧ ∃ sm, r.sm.addMicroblock mb = .ok sm ∧
          { r with receivedMBs := insert mb.hash r.receivedMBs, sm }.acknowledge cfg keys mb =
            .ok r') := by
  unfold handleMicroblock at h
  by_cases hForward : (cfg.loadBalance && mb.isForward) = true
  · rw [if_pos hForward] at h
    exact Or.inl ⟨(Bool.and_eq_true_iff.mp hForward).1, (Outcome.pure_eq_ok.mp h).symm⟩
  rw [if_neg hForward] at h
  refine Or.inr ?_
  by_cases hSeen : mb.hash ∈ r.receivedMBs
  · rw [if_pos hSeen] at h
    exact Or.inl (Outcome.pure_eq_ok.mp h).symm
  rw [if_neg hSeen] at h
  dsimp only at h
  refine Or.inr ⟨hSeen, ?_⟩
  cases hRequested : mb.isRequested with
  | true =>
      rw [if_pos hRequested] at h
      exact Or.inl ⟨rfl, (Outcome.pure_eq_ok.mp h).symm⟩
  | false =>
      rw [if_neg (by simp [hRequested])] at h
      obtain ⟨sm, hMem, hAck⟩ := Outcome.bind_eq_ok.mp h
      exact Or.inr ⟨rfl, sm, hMem, hAck⟩

/-- The oldest microblock of the channel, if there is one, is sent to somebody. -/
theorem loadbalance_cases (cfg : Settings) (r : Replica) (pick : Option NodeID) :
    (r.selfMBChan = [] ∧ r.loadbalance cfg pick = r) ∨
      ∃ mb rest recipients isForward, r.selfMBChan = mb :: rest ∧
        r.loadbalance cfg pick = { r with selfMBChan := rest }.send recipients
          (.microBlock { mb with isForward }) := by
  unfold loadbalance
  cases hChan : r.selfMBChan with
  | nil => exact Or.inl ⟨rfl, rfl⟩
  | cons mb rest =>
      right
      cases pick with
      | none => exact ⟨mb, rest, .all, mb.isForward, rfl, rfl⟩
      | some to' =>
          dsimp only
          split_ifs
          · exact ⟨mb, rest, .one to', true, rfl, rfl⟩
          · exact ⟨mb, rest, .all, mb.isForward, rfl, rfl⟩

theorem loadbalance_of_empty (cfg : Settings) {r : Replica} (hChan : r.selfMBChan = [])
    (pick : Option NodeID) : r.loadbalance cfg pick = r := by
  unfold loadbalance
  rw [hChan]

/-- The record of a new microblock as its maker adds and sends it: the sender, the nodes that
were drawn and the hops are filled in. -/
def SentBy (id : NodeID) (mb copy : MicroBlock) : Prop :=
  ∃ list hops, copy = { mb with sender := id, generateNodeList := list, hops }

/-- Whom a new microblock is sent to: never its maker, and with groups the members of the
microblock's group. -/
structure Addresses (cfg : Settings) (r : Replica) (mb : MicroBlock) (recipients : Recipients) :
    Prop where
  others : ∀ to', Recipients.includes r.id recipients to' = true → to' ≠ r.id
  group : cfg.broadcastByGroup = true → ∃ nodes, recipients = .members nodes ∧
    r.sm.gm.getGroupListByGroupId mb.groupId = .ok nodes

/-- Both ways to make a microblock add it to the mempool. Then it is sent, or with load
balancing put into the channel. -/
def MakesFrom (cfg : Settings) (mb : MicroBlock) (r r' : Replica) : Prop :=
  ∃ copy sm, SentBy r.id mb copy ∧ r.sm.addMicroblock copy = .ok sm ∧
    ((cfg.loadBalance = false ∧ ∃ recipients, Addresses cfg r mb recipients ∧
        r' = { r with sm }.send recipients (.microBlock copy)) ∨
      (cfg.loadBalance = true ∧ r' = { r with sm, selfMBChan := r.selfMBChan ++ [copy] }))

theorem members_exclude {self : NodeID} {nodes : Finset NodeID} (to' : NodeID)
    (h : Recipients.includes self (.members nodes) to' = true) : to' ≠ self := by
  simp only [Recipients.includes, Bool.and_eq_true, decide_eq_true_eq] at h
  exact h.1

theorem all_exclude {self : NodeID} (to' : NodeID)
    (h : Recipients.includes self .all to' = true) : to' ≠ self := by
  simpa [Recipients.includes] using h

theorem publish_makes {mb copy : MicroBlock} {recipients : Recipients}
    (hBalance : cfg.loadBalance = false) (hCopy : SentBy r.id mb copy)
    (hAddresses : Addresses cfg r mb recipients) (h : r.publish copy recipients = .ok r') :
    MakesFrom cfg mb r r' := by
  obtain ⟨sm, hAdd, hDone⟩ := Outcome.bind_eq_ok.mp h
  exact ⟨copy, sm, hCopy, hAdd,
    Or.inl ⟨hBalance, recipients, hAddresses, (Outcome.pure_eq_ok.mp hDone).symm⟩⟩

theorem enqueue_makes {mb : MicroBlock} (hBalance : cfg.loadBalance = true)
    (h : r.enqueue { mb with sender := r.id } = .ok r') : MakesFrom cfg mb r r' := by
  obtain ⟨sm, hAdd, hDone⟩ := Outcome.bind_eq_ok.mp h
  exact ⟨_, sm, ⟨mb.generateNodeList, mb.hops + 1, rfl⟩, hAdd,
    Or.inr ⟨hBalance, (Outcome.pure_eq_ok.mp hDone).symm⟩⟩

theorem handleTxn_makes {mb : MicroBlock} (h : r.handleTxn cfg mb = .ok r') :
    MakesFrom cfg mb r r' := by
  unfold handleTxn at h
  dsimp only at h
  have hCopy : SentBy r.id mb { mb with sender := r.id } := ⟨mb.generateNodeList, mb.hops, rfl⟩
  cases hBalance : cfg.loadBalance with
  | true =>
      rw [if_pos hBalance] at h
      exact enqueue_makes hBalance h
  | false =>
      rw [if_neg (by simp [hBalance])] at h
      by_cases hGroup : cfg.broadcastByGroup = true
      · rw [if_pos hGroup] at h
        obtain ⟨recipients, hRecipients, hPublish⟩ := Outcome.bind_eq_ok.mp h
        obtain ⟨nodes, hList, hNodes⟩ := Outcome.bind_eq_ok.mp hRecipients
        cases Outcome.pure_eq_ok.mp hNodes
        exact publish_makes hBalance hCopy ⟨members_exclude, fun _ => ⟨nodes, rfl, hList⟩⟩ hPublish
      · rw [if_neg hGroup] at h
        exact publish_makes hBalance hCopy ⟨all_exclude, fun hOn => absurd hOn hGroup⟩ h

/-- Apart from the limit and from sampling, `observePool` does what `handleTxn` does. -/
theorem observePool_makes {mb : MicroBlock} {sample : Finset NodeID}
    (h : r.observePool cfg mb sample = .ok r') : r' = r ∨ MakesFrom cfg mb r r' := by
  unfold observePool at h
  by_cases hFull : r.sm.memsize ≤ r.sm.remainingMB
  · rw [if_pos hFull] at h
    exact Or.inl (Outcome.pure_eq_ok.mp h).symm
  rw [if_neg hFull] at h
  refine Or.inr ?_
  by_cases hSample : cfg.loadBalance = false ∧ cfg.broadcastByGroup = false ∧
      cfg.broadcastBySample = true
  · obtain ⟨hBalance, hGroup, hOn⟩ := hSample
    dsimp only at h
    rw [if_neg (by simp [hBalance]), if_neg (by simp [hGroup]), if_pos hOn] at h
    refine publish_makes hBalance ⟨insert r.id sample, mb.hops, rfl⟩ ⟨members_exclude, fun hOn => ?_⟩ h
    rw [hGroup] at hOn
    cases hOn
  · refine handleTxn_makes ?_
    rw [← h]
    unfold handleTxn
    cases hBalance : cfg.loadBalance with
    | true => rfl
    | false =>
        cases hGroup : cfg.broadcastByGroup with
        | true => rfl
        | false =>
            have hPlain : cfg.broadcastBySample = false := by simpa [hBalance, hGroup] using hSample
            rw [hPlain]
            rfl

theorem handleBatch_cases (h : r.handleBatch cfg keys = .ok r') :
    r' = r ∨ ∃ batch rest ex, r.ex.mbReceive = batch :: rest ∧
      { r.ex with mbReceive := rest }.addMbToExecute cfg keys batch = .ok ex ∧
      r' = { r with ex } := by
  unfold handleBatch at h
  cases hChannel : r.ex.mbReceive with
  | nil =>
      rw [hChannel] at h
      exact Or.inl (Outcome.pure_eq_ok.mp h).symm
  | cons batch rest =>
      rw [hChannel] at h
      obtain ⟨ex, hAdd, hDone⟩ := Outcome.bind_eq_ok.mp h
      exact Or.inr ⟨batch, rest, ex, rfl, hAdd, (Outcome.pure_eq_ok.mp hDone).symm⟩

theorem handleMissing_cases (h : r.handleMissing cfg keys = .ok r') :
    r' = r ∨ ∃ mb rest ex, r.ex.missReceive = mb :: rest ∧
      { r.ex with missReceive := rest }.handleMiss cfg keys mb = .ok ex ∧ r' = { r with ex } := by
  unfold handleMissing at h
  cases hChannel : r.ex.missReceive with
  | nil =>
      rw [hChannel] at h
      exact Or.inl (Outcome.pure_eq_ok.mp h).symm
  | cons mb rest =>
      rw [hChannel] at h
      obtain ⟨ex, hMiss, hDone⟩ := Outcome.bind_eq_ok.mp h
      exact Or.inr ⟨mb, rest, ex, rfl, hMiss, (Outcome.pure_eq_ok.mp hDone).symm⟩

theorem handleResult_cases {result : ExecuteResult} (h : r.handleResult cfg keys result = .ok r') :
    ∃ ex, r.ex.handleResult cfg keys result = .ok ex ∧ r' = { r with ex } := by
  obtain ⟨ex, hResult, hDone⟩ := Outcome.bind_eq_ok.mp h
  exact ⟨ex, hResult, (Outcome.pure_eq_ok.mp hDone).symm⟩

end Replica
end Bamboo
