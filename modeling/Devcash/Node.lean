import Devcash.Lib.HashChain
import Devcash.Pool

/-! The message handlers of a tier-2 node and the node as a state machine: one thread
for the consensus messages, one for the announced transactions. -/
namespace Devcash

/-- The parts of a `DevcashMessage` the handlers read. -/
inductive Message where
  | transactionAnnouncement (data : Bytes)
  | proposalBlock (data : Bytes)
  | valid (data : Bytes)
  | finalBlock (data : Bytes)
  deriving DecidableEq, Repr

abbrev Blockchain := List FinalBlock

def Blockchain.getHighestChainState (chain : Blockchain) : ChainState :=
  match chain.getLast? with
  | none => ChainState.empty
  | some back => back.getChainState

/-- `DevcashHash(block->getCanonical())`; `getCanonical` reserves as many bytes as the block
says it has, which for a block that was refused half way can be any number. -/
def FinalBlock.canonicalHash (o : Ossl) (block : FinalBlock) : Result Hash := do
  reserve block.numBytes
  .ok (o.devcashHash block.getCanonical)

theorem FinalBlock.canonicalHash_ok {o : Ossl} {block : FinalBlock} {h : Hash}
    (hh : block.canonicalHash o = .ok h) : h = o.devcashHash block.getCanonical := by
  obtain ⟨_, -, hh⟩ := Result.bind_eq_ok hh
  exact (Except.ok.inj hh).symm

/-- What a proposal on this chain names: the hash of the last block, or that of `Genesis`. -/
def Blockchain.topHash (o : Ossl) (chain : Blockchain) : Result Hash :=
  match chain.getLast? with
  | some back => back.canonicalHash o
  | none => .ok o.genesisHash

/-- What a callback leaves behind and sends, and what it throws. -/
structure Effect where
  finalChain : Blockchain
  utxPool : UnrecordedTransactionPool
  sent : List Message
  failure : Option Error

section
variable {o : Ossl} (keys : KeyRing o) (context : DevcashContext)

/-- A pool without a proposal and with transactions proposes on top of the chain. -/
def proposeNext (finalChain : Blockchain) (utxPool : UnrecordedTransactionPool) :
    Result UnrecordedTransactionPool :=
  if !utxPool.hasProposal && utxPool.hasPendingTransactions then
    match finalChain.getLast? with
    | some back => do
      let prevHash ← back.canonicalHash o
      utxPool.proposeBlock keys context prevHash finalChain.getHighestChainState
    | none => utxPool.proposeBlock keys context o.genesisHash ChainState.empty
  else .ok utxPool

def createNextProposal (finalChain : Blockchain) (utxPool : UnrecordedTransactionPool) :
    Result (Bytes × UnrecordedTransactionPool) := do
  let utxPool ← proposeNext keys context finalChain utxPool
  .ok (utxPool.getProposal, utxPool)

/-- Whether the next block is this node's to propose. -/
def myTurn (finalChain : Blockchain) : Bool :=
  finalChain.length % context.getPeerCount == context.getCurrentNode % context.getPeerCount

/-- The end of two handlers: a node without a proposal makes one when it is its turn. -/
def proposeInTurn (finalChain : Blockchain) (utxPool : UnrecordedTransactionPool) : Effect :=
  if myTurn context finalChain && !utxPool.hasProposal then
    match createNextProposal keys context finalChain utxPool with
    | .error e => ⟨finalChain, utxPool, [], some e⟩
    | .ok (proposal, utxPool) =>
      ⟨finalChain, utxPool,
        if ProposedBlock.isNullProposal proposal then [] else [.proposalBlock proposal], none⟩
  else ⟨finalChain, utxPool, [], none⟩

/-- What a new top block does to a pending proposal. -/
def reverifyOn (topBlock : FinalBlock) (utxPool : UnrecordedTransactionPool) :
    Result UnrecordedTransactionPool :=
  if utxPool.hasProposal then do
    let prevHash ← topBlock.canonicalHash o
    utxPool.reverifyProposal keys context prevHash topBlock.getChainState
  else .ok utxPool

/-- What comes behind the push in `push_back` and `HandleFinalBlock`: the hash of the block is
logged, then the pending proposal is verified again. -/
def afterPush (topBlock : FinalBlock) (utxPool : UnrecordedTransactionPool) :
    Result UnrecordedTransactionPool := do
  let _ ← topBlock.canonicalHash o
  reverifyOn keys context topBlock utxPool

/-- `HandleFinalBlock`, with `read` for the decoding of the message. The block is
pushed as it comes. -/
def handleFinalBlockWith (read : Bytes → Result BlockFields) (finalChain : Blockchain)
    (utxPool : UnrecordedTransactionPool) (data : Bytes) : Effect :=
  match read data with
  | .error e => ⟨finalChain, utxPool, [], some e⟩
  | .ok fields =>
    let topBlock := FinalBlock.ofFields fields finalChain.getHighestChainState
    let finalChain := finalChain ++ [topBlock]
    match afterPush keys context topBlock utxPool with
    | .error e => ⟨finalChain, utxPool, [], some e⟩
    | .ok utxPool =>
      if utxPool.hasPendingTransactions then proposeInTurn keys context finalChain utxPool
      else ⟨finalChain, utxPool, [], none⟩

def handleFinalBlock (finalChain : Blockchain) (utxPool : UnrecordedTransactionPool)
    (data : Bytes) : Effect :=
  handleFinalBlockWith keys context (FinalBlock.decode keys utxPool.mode) finalChain utxPool data

/-- The block that `HandleProposalBlock` decodes from its message. -/
def decodeProposal (mode : AppMode) (finalChain : Blockchain) (data : Bytes) :
    Result ProposedBlock := do
  let (toValidate, _) ← ProposedBlock.create keys mode finalChain.getHighestChainState
    (InputBuffer.ofBytes data)
  .ok toValidate

def handleProposalBlock (mode : AppMode) (finalChain : Blockchain) (data : Bytes) :
    Result (List Message) := do
  let toValidate ← decodeProposal keys mode finalChain data
  let ok ← toValidate.validate keys
  if ok then
    let signed ← toValidate.signBlock keys context
    .ok [.valid signed.getValidationData]
  else .ok []

/-- `HandleValidationBlock` at the time `now`. -/
def handleValidationBlock (o : Ossl) (now : Nat) (finalChain : Blockchain)
    (utxPool : UnrecordedTransactionPool) (data : Bytes) : Effect :=
  match utxPool.checkValidation context data with
  | .error e => ⟨finalChain, utxPool, [], some e⟩
  | .ok (false, utxPool) => ⟨finalChain, utxPool, [], none⟩
  | .ok (true, utxPool) =>
    match utxPool.finalizeLocalBlock o now with
    | (.error e, utxPool) => ⟨finalChain, utxPool, [], some e⟩
    | (.ok topBlock, utxPool) =>
      ⟨finalChain ++ [topBlock], utxPool, [.finalBlock topBlock.getCanonical], none⟩

/-- `validatorCallback`; the answer of `AddTransactions` is not used. The call waits
for ever when the lock of the pending proposal is `held`. -/
def validatorCallback (held : Bool) (finalChain : Blockchain)
    (utxPool : UnrecordedTransactionPool) (data : Bytes) : Effect :=
  match utxPool.addSerial keys data with
  | (.error e, utxPool) => ⟨finalChain, utxPool, [], some e⟩
  | (.ok _, utxPool) =>
    if held && myTurn context finalChain then ⟨finalChain, utxPool, [], some .deadlock⟩
    else proposeInTurn keys context finalChain utxPool

end

/-- A node; each of its two threads runs until a callback throws. -/
structure Node where
  finalChain : Blockchain
  utxPool : UnrecordedTransactionPool
  consensusFailure : Option Error
  validatorFailure : Option Error

/-- A message and the time at which it is handled. -/
structure Event where
  now : Nat
  message : Message
  deriving DecidableEq, Repr

namespace Node

/-- A node with an empty chain. -/
def init (mode : AppMode) (maxTxPerBlock : Nat) : Node where
  finalChain := []
  utxPool := UnrecordedTransactionPool.make ChainState.empty mode maxTxPerBlock
  consensusFailure := none
  validatorFailure := none

/-- The effect of a callback of the consensus thread. -/
def consensus (n : Node) (e : Effect) : Node × List Message :=
  ({ n with finalChain := e.finalChain, utxPool := e.utxPool, consensusFailure := e.failure }, e.sent)

/-- The effect of a callback of the validator thread. -/
def validator (n : Node) (e : Effect) : Node × List Message :=
  ({ n with finalChain := e.finalChain, utxPool := e.utxPool, validatorFailure := e.failure }, e.sent)

section
variable (n : Node) (e : Effect)

@[simp] theorem consensus_finalChain : (n.consensus e).1.finalChain = e.finalChain := rfl

@[simp] theorem consensus_utxPool : (n.consensus e).1.utxPool = e.utxPool := rfl

@[simp] theorem consensus_failure : (n.consensus e).1.consensusFailure = e.failure := rfl

end

variable {o : Ossl} (keys : KeyRing o) (context : DevcashContext)

/-- `consensusCallback` and `validatorCallback` on one message. A consensus thread
that waits for the lock of the pending proposal holds it itself. -/
def handle (n : Node) (e : Event) : Node × List Message :=
  match e.message with
  | .transactionAnnouncement data =>
    if n.validatorFailure.isSome then (n, [])
    else
      n.validator (validatorCallback keys context (n.consensusFailure = some .deadlock)
        n.finalChain n.utxPool data)
  | .proposalBlock data =>
    if n.consensusFailure.isSome then (n, [])
    else
      match handleProposalBlock keys context n.utxPool.mode n.finalChain data with
      | .error e => n.consensus ⟨n.finalChain, n.utxPool, [], some e⟩
      | .ok sent => n.consensus ⟨n.finalChain, n.utxPool, sent, none⟩
  | .valid data =>
    if n.consensusFailure.isSome then (n, [])
    else n.consensus (handleValidationBlock context o e.now n.finalChain n.utxPool data)
  | .finalBlock data =>
    if n.consensusFailure.isSome then (n, [])
    else n.consensus (handleFinalBlock keys context n.finalChain n.utxPool data)

def step (n : Node) (e : Event) : Node := (n.handle keys context e).1

end Node

/-- The hash the next block has to name. -/
def Blockchain.tipHash (o : Ossl) (chain : Blockchain) : Hash :=
  HashChain.tip (fun b : FinalBlock => o.devcashHash b.getCanonical) o.genesisHash chain

namespace Blockchain

theorem getHighestChainState_concat (chain : Blockchain) (b : FinalBlock) :
    getHighestChainState (chain ++ [b]) = b.blockState := by
  rw [getHighestChainState, List.getLast?_concat]
  rfl

theorem tipHash_concat (o : Ossl) (chain : Blockchain) (b : FinalBlock) :
    tipHash o (chain ++ [b]) = o.devcashHash b.getCanonical :=
  HashChain.tip_concat chain b

theorem tipHash_of_topHash {o : Ossl} {chain : Blockchain} {h : Hash}
    (hh : topHash o chain = .ok h) : h = tipHash o chain := by
  rw [topHash] at hh
  rw [tipHash, HashChain.tip]
  cases hl : chain.getLast? with
  | some back =>
    rw [hl] at hh
    exact FinalBlock.canonicalHash_ok hh
  | none =>
    rw [hl] at hh
    exact (Except.ok.inj hh).symm

end Blockchain

/-- No final block is among the messages. -/
def Quiet (sent : List Message) : Prop := ∀ data, .finalBlock data ∉ sent

theorem quiet_nil : Quiet [] := fun _ => List.not_mem_nil

section
variable {o : Ossl} {keys : KeyRing o} {context : DevcashContext} {finalChain : Blockchain}
  {pool : UnrecordedTransactionPool}

/-- A pool without a proposal proposes on top of the chain. -/
def Proposes (keys : KeyRing o) (context : DevcashContext) (finalChain : Blockchain)
    (pool pool' : UnrecordedTransactionPool) : Prop :=
  myTurn context finalChain = true ∧ pool.hasProposal = false ∧
    finalChain.topHash o = .ok (finalChain.tipHash o) ∧
    pool.proposeBlock keys context (finalChain.tipHash o) finalChain.getHighestChainState = .ok pool'

theorem proposeNext_ok {pool' : UnrecordedTransactionPool}
    (h : proposeNext keys context finalChain pool = .ok pool') :
    pool' = pool ∨ finalChain.topHash o = .ok (finalChain.tipHash o) ∧
      pool.proposeBlock keys context (finalChain.tipHash o) finalChain.getHighestChainState =
        .ok pool' := by
  rw [proposeNext] at h
  split_ifs at h
  · right
    obtain ⟨prevHash, hhash, h⟩ : ∃ prevHash, finalChain.topHash o = .ok prevHash ∧
        pool.proposeBlock keys context prevHash finalChain.getHighestChainState = .ok pool' := by
      rw [Blockchain.topHash, Blockchain.getHighestChainState]
      cases hl : finalChain.getLast? with
      | some back =>
        rw [hl] at h
        obtain ⟨prevHash, hhash, h⟩ := Result.bind_eq_ok h
        exact ⟨prevHash, hhash, by simpa only [Blockchain.getHighestChainState, hl] using h⟩
      | none =>
        rw [hl] at h
        exact ⟨o.genesisHash, rfl, h⟩
    obtain rfl := Blockchain.tipHash_of_topHash hhash
    exact ⟨hhash, h⟩
  · exact Or.inl (Except.ok.inj h).symm

theorem proposeInTurn_cases (keys : KeyRing o) (context : DevcashContext)
    (finalChain : Blockchain) (pool : UnrecordedTransactionPool) :
    (proposeInTurn keys context finalChain pool).finalChain = finalChain ∧
      Quiet (proposeInTurn keys context finalChain pool).sent ∧
      ((proposeInTurn keys context finalChain pool).utxPool = pool ∨
        Proposes keys context finalChain pool
          (proposeInTurn keys context finalChain pool).utxPool) := by
  rw [proposeInTurn]
  split_ifs with hturn
  · rw [Bool.and_eq_true, Bool.not_eq_true'] at hturn
    split
    · exact ⟨rfl, quiet_nil, Or.inl rfl⟩
    · rename_i proposal pool' hc
      obtain ⟨pool'', hp, hc⟩ := Result.bind_eq_ok hc
      obtain rfl : pool'' = pool' := (Prod.mk.inj (Except.ok.inj hc)).2
      refine ⟨rfl, ?_, ?_⟩
      · intro data
        dsimp only
        split_ifs
        · exact List.not_mem_nil
        · simp
      · obtain h | h := proposeNext_ok hp
        · exact Or.inl h
        · exact Or.inr ⟨hturn.1, hturn.2, h⟩
  · exact ⟨rfl, quiet_nil, Or.inl rfl⟩

theorem validatorCallback_cases (held : Bool) (data : Bytes) :
    (validatorCallback keys context held finalChain pool data).finalChain = finalChain ∧
      Quiet (validatorCallback keys context held finalChain pool data).sent ∧
      ((validatorCallback keys context held finalChain pool data).utxPool =
          (pool.addSerial keys data).2 ∨
        Proposes keys context finalChain (pool.addSerial keys data).2
          (validatorCallback keys context held finalChain pool data).utxPool) := by
  rw [validatorCallback]
  split
  · rename_i e pool' h
    rw [h]
    exact ⟨rfl, quiet_nil, Or.inl rfl⟩
  · rename_i r pool' h
    rw [h]
    split_ifs
    · exact ⟨rfl, quiet_nil, Or.inl rfl⟩
    · exact proposeInTurn_cases keys context finalChain pool'

theorem handleProposalBlock_quiet {mode : AppMode} {data : Bytes} {sent : List Message}
    (h : handleProposalBlock keys context mode finalChain data = .ok sent) : Quiet sent := by
  obtain ⟨p, -, h⟩ := Result.bind_eq_ok h
  obtain ⟨ok, -, h⟩ := Result.bind_eq_ok h
  split_ifs at h
  · obtain ⟨signed, -, h⟩ := Result.bind_eq_ok h
    obtain rfl := Except.ok.inj h
    intro data
    simp
  · obtain rfl := Except.ok.inj h
    exact quiet_nil

theorem afterPush_ok {top : FinalBlock} {pool' : UnrecordedTransactionPool}
    (h : afterPush keys context top pool = .ok pool') :
    (pool.hasProposal = false ∧ pool' = pool) ∨
    (pool.hasProposal = true ∧ pool' = pool.moveTo (o.devcashHash top.getCanonical)) := by
  obtain ⟨_, -, h⟩ := Result.bind_eq_ok h
  rw [reverifyOn] at h
  split_ifs at h with hp
  · obtain ⟨prevHash, hhash, h⟩ := Result.bind_eq_ok h
    rw [FinalBlock.canonicalHash_ok hhash] at h
    exact Or.inr ⟨hp, UnrecordedTransactionPool.reverifyProposal_ok hp h⟩
  · exact Or.inl ⟨Bool.eq_false_iff.mpr hp, (Except.ok.inj h).symm⟩

/-- What a `FINAL_BLOCK` message that pushes the block `top` can leave of the pool: a
pending proposal moves to the new top, a node without one may propose, or the thread
ends. -/
def Adopts (keys : KeyRing o) (context : DevcashContext) (finalChain : Blockchain)
    (top : FinalBlock) (pool : UnrecordedTransactionPool) (e : Effect) : Prop :=
  e.finalChain = finalChain ++ [top] ∧ Quiet e.sent ∧
    ((e.utxPool = pool ∧ (e.failure.isSome ∨ pool.hasProposal = false)) ∨
      (pool.hasProposal = true ∧ e.utxPool = pool.moveTo (o.devcashHash top.getCanonical)) ∨
      Proposes keys context (finalChain ++ [top]) pool e.utxPool)

/-- A block that can be read is pushed, whatever it is. -/
theorem handleFinalBlockWith_ok {read : Bytes → Result BlockFields} {data : Bytes}
    {fields : BlockFields} (hread : read data = .ok fields) :
    Adopts keys context finalChain
      (FinalBlock.ofFields fields finalChain.getHighestChainState) pool
      (handleFinalBlockWith keys context read finalChain pool data) := by
  have hturn := proposeInTurn_cases keys context
    (finalChain ++ [FinalBlock.ofFields fields finalChain.getHighestChainState])
  rw [handleFinalBlockWith]
  simp only [hread]
  split
  · exact ⟨rfl, quiet_nil, Or.inl ⟨rfl, Or.inl rfl⟩⟩
  · rename_i pool' hr
    obtain ⟨hn, rfl⟩ | ⟨hp, hpool⟩ := afterPush_ok hr
    · split_ifs
      · obtain ⟨hc, hq, h | h⟩ := hturn pool'
        · exact ⟨hc, hq, Or.inl ⟨h, Or.inr hn⟩⟩
        · exact ⟨hc, hq, Or.inr (Or.inr h)⟩
      · exact ⟨rfl, quiet_nil, Or.inl ⟨rfl, Or.inr hn⟩⟩
    · split_ifs
      · obtain ⟨hc, hq, h | h⟩ := hturn pool'
        · exact ⟨hc, hq, Or.inr (Or.inl ⟨hp, h.trans hpool⟩)⟩
        · rw [hpool] at h
          exact absurd (h.2.1.symm.trans hp) Bool.false_ne_true
      · exact ⟨rfl, quiet_nil, Or.inr (Or.inl ⟨hp, hpool⟩)⟩

/-- What a `VALID` message can do: count the votes, with or without an error on the way,
or finalize the pending proposal. -/
inductive Counts (o : Ossl) (now : Nat) (finalChain : Blockchain)
    (pool : UnrecordedTransactionPool) (e : Effect) : Prop where
  | counted (p : ProposedBlock) (same : pool.pendingProposal.SameContent p)
      (null : pool.hasProposal = false → p = pool.pendingProposal)
      (chain : e.finalChain = finalChain) (sent : e.sent = [])
      (proposal : e.utxPool.pendingProposal = p)
      (txs : e.utxPool.txs = pool.txs ∨ e.failure.isSome ∧ e.utxPool.txs =
        (UnrecordedTransactionPool.removeTransactions p.transactionVector pool.txs).2)
  | finalized (p : ProposedBlock) (same : pool.pendingProposal.SameContent p)
      (notNull : pool.hasProposal = true)
      (chain : e.finalChain = finalChain ++ [FinalBlock.ofProposed o now p])
      (sent : e.sent = [.finalBlock (FinalBlock.ofProposed o now p).getCanonical])
      (proposal : e.utxPool.pendingProposal = p.setNull)
      (txs : e.utxPool.txs =
        (UnrecordedTransactionPool.removeTransactions p.transactionVector pool.txs).2)

theorem handleValidationBlock_counts (now : Nat) (data : Bytes) :
    Counts o now finalChain pool
      (handleValidationBlock context o now finalChain pool data) := by
  rw [handleValidationBlock, UnrecordedTransactionPool.checkValidation]
  cases hn : pool.pendingProposal.isNull with
  | true => exact .counted _ (.refl _) (fun _ => rfl) rfl rfl rfl (Or.inl rfl)
  | false =>
    have hnot : pool.hasProposal = true := by rw [UnrecordedTransactionPool.hasProposal, hn]; rfl
    have hnull : ∀ p, pool.hasProposal = false → p = pool.pendingProposal :=
      fun p h => absurd (hnot.symm.trans h) (by decide)
    simp only [Bool.false_eq_true, if_false]
    cases hc : pool.pendingProposal.checkValidationData context data with
    | error e => exact .counted _ (.refl _) (hnull _) rfl rfl rfl (Or.inl rfl)
    | ok r =>
      obtain ⟨enough, p⟩ := r
      have hsame : pool.pendingProposal.SameContent p := by
        obtain ⟨rfl, -⟩ | ⟨v, -, rfl, -⟩ := ProposedBlock.checkValidationData_ok hc
        · exact .refl _
        · exact ⟨rfl, rfl, rfl, rfl⟩
      cases enough with
      | false => exact .counted p hsame (hnull p) rfl rfl rfl (Or.inl rfl)
      | true =>
        simp only [Result.bind_ok, UnrecordedTransactionPool.finalizeLocalBlock]
        cases hr : UnrecordedTransactionPool.removeTransactions p.transactionVector pool.txs with
        | mk r txs =>
          cases r with
          | error e => exact .counted p hsame (hnull p) rfl rfl rfl (Or.inr ⟨rfl, by rw [hr]⟩)
          | ok u => exact .finalized p hsame hnot rfl rfl rfl (by rw [hr])

end

namespace Node
variable {o : Ossl} {keys : KeyRing o} {context : DevcashContext}

/-- Everything a message can do to the chain and to the pool of a node, and when it
makes the node send a final block. -/
inductive Moves (keys : KeyRing o) (context : DevcashContext) (n : Node) (e : Event) (n' : Node)
    (sent : List Message) : Prop where
  | rested (chain : n'.finalChain = n.finalChain) (pool : n'.utxPool = n.utxPool)
      (failed : n.consensusFailure.isSome → n'.consensusFailure.isSome) (quiet : Quiet sent)
  | announced (data : Bytes) (message : e.message = .transactionAnnouncement data)
      (chain : n'.finalChain = n.finalChain) (failed : n'.consensusFailure = n.consensusFailure)
      (pool : n'.utxPool = (n.utxPool.addSerial keys data).2 ∨
        Proposes keys context n.finalChain (n.utxPool.addSerial keys data).2 n'.utxPool)
      (quiet : Quiet sent)
  | counted (data : Bytes) (message : e.message = .valid data) (up : n.consensusFailure = none)
      (f : Effect) (effect : n' = (n.consensus f).1) (output : sent = f.sent)
      (counts : Counts o e.now n.finalChain n.utxPool f)
  | adopted (data : Bytes) (message : e.message = .finalBlock data) (fields : BlockFields)
      (up : n.consensusFailure = none)
      (decoded : FinalBlock.decode keys n.utxPool.mode data = .ok fields) (f : Effect)
      (effect : n' = (n.consensus f).1) (output : sent = f.sent)
      (adopts : Adopts keys context n.finalChain
        (FinalBlock.ofFields fields n.finalChain.getHighestChainState) n.utxPool f)

theorem handle_finalBlock {n : Node} {e : Event} {data : Bytes} {fields : BlockFields}
    (hm : e.message = .finalBlock data) (hup : n.consensusFailure = none)
    (hd : FinalBlock.decode keys n.utxPool.mode data = .ok fields) :
    ∃ f, n.handle keys context e = n.consensus f ∧ Adopts keys context n.finalChain
      (FinalBlock.ofFields fields n.finalChain.getHighestChainState) n.utxPool f := by
  refine ⟨_, ?_, handleFinalBlockWith_ok hd⟩
  simp only [handle, hm, hup, Option.isSome_none, Bool.false_eq_true, if_false]
  rfl

theorem handle_moves (n : Node) (e : Event) :
    Moves keys context n e (n.handle keys context e).1 (n.handle keys context e).2 := by
  cases hm : e.message with
  | transactionAnnouncement data =>
    simp only [handle, hm]
    split_ifs
    · exact .rested rfl rfl id quiet_nil
    · obtain ⟨hc, hq, hp⟩ := @validatorCallback_cases o keys context n.finalChain n.utxPool
        (decide (n.consensusFailure = some .deadlock)) data
      exact .announced data hm hc rfl hp hq
  | proposalBlock data =>
    simp only [handle, hm]
    split_ifs with hf
    · exact .rested rfl rfl id quiet_nil
    · split
      · exact .rested rfl rfl (fun h => absurd h hf) quiet_nil
      · rename_i sent hs
        exact .rested rfl rfl (fun h => absurd h hf) (handleProposalBlock_quiet hs)
  | valid data =>
    simp only [handle, hm]
    split_ifs with hf
    · exact .rested rfl rfl id quiet_nil
    · exact .counted data hm (Option.not_isSome_iff_eq_none.mp hf) _ rfl rfl
        (handleValidationBlock_counts e.now data)
  | finalBlock data =>
    by_cases hf : n.consensusFailure.isSome
    · simp only [handle, hm, hf, if_true]
      exact .rested rfl rfl id quiet_nil
    · have hup : n.consensusFailure = none := Option.not_isSome_iff_eq_none.mp hf
      cases hd : FinalBlock.decode keys n.utxPool.mode data with
      | error err =>
        simp only [handle, hm, hf, handleFinalBlock, handleFinalBlockWith, hd]
        exact .rested rfl rfl (fun h => absurd h hf) quiet_nil
      | ok fields =>
        obtain ⟨f, hfx, hadopts⟩ := @handle_finalBlock o keys context n e data fields hm hup hd
        rw [hfx]
        exact .adopted data hm fields hup hd f rfl rfl hadopts

theorem step_moves (n : Node) (e : Event) :
    Moves keys context n e (n.step keys context e) (n.handle keys context e).2 :=
  handle_moves n e

end Node
end Devcash
