import Devcash.HashLinks

/-! The handlers behind the decoding: a node that is handed decoded payloads, and what one
delivery can do to it. -/
namespace Devcash

/-- A payload after decoding. The votes of a `VALID` message stay bytes: the pending
proposal reads them itself. -/
inductive Delivery where
  | transactionAnnouncement (txs : List Transaction)
  | proposalBlock (block : ProposedBlock)
  | valid (data : Bytes)
  | finalBlock (fields : BlockFields)

section
variable {o : Ossl} (keys : KeyRing o) (context : DevcashContext)

/-- `HandleProposalBlock` behind the decoding. -/
def answerProposal (toValidate : ProposedBlock) : Result (List Message) := do
  let ok ← toValidate.validate keys
  if ok then
    let signed ← toValidate.signBlock keys context
    .ok [.valid signed.getValidationData]
  else .ok []

/-- `validatorCallback` behind the decoding. -/
def acceptTransactions (held : Bool) (finalChain : Blockchain)
    (utxPool : UnrecordedTransactionPool) (txs : List Transaction) : Effect :=
  match utxPool.addTransactions keys txs with
  | (.error e, utxPool) => ⟨finalChain, utxPool, [], some e⟩
  | (.ok _, utxPool) =>
    if held && myTurn context finalChain then ⟨finalChain, utxPool, [], some .deadlock⟩
    else proposeInTurn keys context finalChain utxPool

/-- `HandleFinalBlock` behind the decoding. -/
def adoptBlock (finalChain : Blockchain) (utxPool : UnrecordedTransactionPool)
    (fields : BlockFields) : Effect :=
  handleFinalBlockWith keys context (fun _ => .ok fields) finalChain utxPool []

/-- The decoding of a message by a node with this mode and chain. -/
def Message.decode (mode : AppMode) (finalChain : Blockchain) : Message → Result Delivery
  | .transactionAnnouncement data => do
    let txs ← UnrecordedTransactionPool.decodeAnnouncement keys mode data
    .ok (.transactionAnnouncement txs)
  | .proposalBlock data => do
    let block ← decodeProposal keys mode finalChain data
    .ok (.proposalBlock block)
  | .valid data => .ok (.valid data)
  | .finalBlock data => do
    let fields ← FinalBlock.decode keys mode data
    .ok (.finalBlock fields)

variable {keys context}

end

namespace Node
variable {o : Ossl} (keys : KeyRing o) (context : DevcashContext)

/-- A delivery at the time `now`, to the thread it is for. -/
def deliver (n : Node) (now : Nat) : Delivery → Node × List Message
  | .transactionAnnouncement txs =>
    if n.validatorFailure.isSome then (n, [])
    else
      n.validator (acceptTransactions keys context (n.consensusFailure = some .deadlock)
        n.finalChain n.utxPool txs)
  | .proposalBlock block =>
    if n.consensusFailure.isSome then (n, [])
    else
      match answerProposal keys context block with
      | .error e => n.consensus ⟨n.finalChain, n.utxPool, [], some e⟩
      | .ok sent => n.consensus ⟨n.finalChain, n.utxPool, sent, none⟩
  | .valid data =>
    if n.consensusFailure.isSome then (n, [])
    else n.consensus (handleValidationBlock context o now n.finalChain n.utxPool data)
  | .finalBlock fields =>
    if n.consensusFailure.isSome then (n, [])
    else n.consensus (adoptBlock keys context n.finalChain n.utxPool fields)

/-- One delivery and its time, as a step. -/
def arrive (n : Node) (a : Nat × Delivery) : Node := (n.deliver keys context a.1 a.2).1

variable {keys context}

/-- Everything a delivery can do to a node. -/
inductive Arrives (keys : KeyRing o) (context : DevcashContext) (n : Node) (a : Nat × Delivery)
    (n' : Node) : Prop where
  | rested (chain : n'.finalChain = n.finalChain) (pool : n'.utxPool = n.utxPool)
      (failed : n'.consensusFailure = n.consensusFailure ∨ n.consensusFailure = none)
  | announced (txs : List Transaction) (chain : n'.finalChain = n.finalChain)
      (failed : n'.consensusFailure = n.consensusFailure)
      (pool : n'.utxPool = (n.utxPool.addTransactions keys txs).2 ∨
        Proposes keys context n.finalChain (n.utxPool.addTransactions keys txs).2 n'.utxPool)
  | counted (data : Bytes) (up : n.consensusFailure = none)
      (effect : n' = (n.consensus
        (handleValidationBlock context o a.1 n.finalChain n.utxPool data)).1)
  | adopted (fields : BlockFields) (up : n.consensusFailure = none)
      (effect : n' = (n.consensus (adoptBlock keys context n.finalChain n.utxPool fields)).1)
      (delivered : a.2 = .finalBlock fields)

theorem acceptTransactions_cases (held : Bool) (finalChain : Blockchain)
    (pool : UnrecordedTransactionPool) (txs : List Transaction) :
    (acceptTransactions keys context held finalChain pool txs).finalChain = finalChain ∧
      ((acceptTransactions keys context held finalChain pool txs).utxPool =
          (pool.addTransactions keys txs).2 ∨
        Proposes keys context finalChain (pool.addTransactions keys txs).2
          (acceptTransactions keys context held finalChain pool txs).utxPool) := by
  rw [acceptTransactions]
  split
  · rename_i e pool' h
    rw [h]
    exact ⟨rfl, Or.inl rfl⟩
  · rename_i r pool' h
    rw [h]
    split_ifs
    · exact ⟨rfl, Or.inl rfl⟩
    · obtain ⟨hc, -, hp⟩ := proposeInTurn_cases keys context finalChain pool'
      exact ⟨hc, hp⟩

theorem arrive_cases (n : Node) (a : Nat × Delivery) :
    Arrives keys context n a (n.arrive keys context a) := by
  rw [arrive]
  cases hd : a.2 with
  | transactionAnnouncement txs =>
    simp only [deliver]
    split_ifs
    · exact .rested rfl rfl (Or.inl rfl)
    · obtain ⟨hc, hp⟩ := @acceptTransactions_cases o keys context
        (decide (n.consensusFailure = some .deadlock)) n.finalChain n.utxPool txs
      exact .announced txs hc rfl hp
  | proposalBlock block =>
    simp only [deliver]
    split_ifs with hf
    · exact .rested rfl rfl (Or.inl rfl)
    · have hup : n.consensusFailure = none := Option.not_isSome_iff_eq_none.mp hf
      split
      · exact .rested rfl rfl (Or.inr hup)
      · exact .rested rfl rfl (Or.inr hup)
  | valid data =>
    simp only [deliver]
    split_ifs with hf
    · exact .rested rfl rfl (Or.inl rfl)
    · exact .counted data (Option.not_isSome_iff_eq_none.mp hf) rfl
  | finalBlock fields =>
    simp only [deliver]
    split_ifs with hf
    · exact .rested rfl rfl (Or.inl rfl)
    · exact .adopted fields (Option.not_isSome_iff_eq_none.mp hf) rfl hd

end Node

namespace UnrecordedTransactionPool
variable {context : DevcashContext}

/-- A check of votes leaves the transactions alone and changes the proposal in its votes
only. -/
theorem checkValidation_ok {pool pool' : UnrecordedTransactionPool} {data : Bytes} {enough : Bool}
    (h : pool.checkValidation context data = .ok (enough, pool')) :
    pool'.txs = pool.txs ∧ pool.pendingProposal.SameContent pool'.pendingProposal ∧
      (pool'.hasProposal = true ∨ enough = true → pool.hasProposal = true) := by
  rw [checkValidation] at h
  split_ifs at h with hnull
  · cases h
    refine ⟨rfl, .refl _, fun h => ?_⟩
    cases h with
    | inl h => exact h
    | inr h => cases h
  · obtain ⟨⟨e, p⟩, hc, h⟩ := Result.bind_eq_ok h
    cases h
    have hhas : pool.hasProposal = true := by
      rw [hasProposal, Bool.eq_false_iff.mpr hnull]
      rfl
    refine ⟨rfl, ?_, fun _ => hhas⟩
    obtain ⟨rfl, -⟩ | ⟨v, -, rfl, -⟩ := ProposedBlock.checkValidationData_ok hc
    · exact .refl _
    · exact ⟨rfl, rfl, rfl, rfl⟩

end UnrecordedTransactionPool
end Devcash
