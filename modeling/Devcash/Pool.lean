import Devcash.FinalBlock

/-! `UnrecordedTransactionPool`: the pending transactions in the order of their
signatures and the node's own proposal. -/
namespace Devcash
open Endian Reader InputBuffer

/-- The reference counts of the entries are never read and left out. -/
abbrev TxMap := OrdMap Signature Transaction

structure UnrecordedTransactionPool where
  txs : TxMap
  pendingProposal : ProposedBlock
  maxTxPerBlock : Nat
  mode : AppMode
  deriving DecidableEq

namespace UnrecordedTransactionPool

/-- The constructor. -/
def make (prior : ChainState) (mode : AppMode) (maxTxPerBlock : Nat) :
    UnrecordedTransactionPool where
  txs := OrdMap.empty
  pendingProposal := ProposedBlock.ofPrior prior
  maxTxPerBlock := maxTxPerBlock
  mode := mode

def hasPendingTransactions (pool : UnrecordedTransactionPool) : Bool := !pool.txs.entries.isEmpty

def hasProposal (pool : UnrecordedTransactionPool) : Bool := !pool.pendingProposal.isNull

def getProposal (pool : UnrecordedTransactionPool) : Bytes := pool.pendingProposal.getCanonical

/-- The transactions in the order of the map. -/
def pending (pool : UnrecordedTransactionPool) : List Transaction :=
  pool.txs.entries.map Prod.snd

section
variable {o : Ossl} (keys : KeyRing o)

/-- The body of the loop of `AddTransactions`. -/
def addTransaction (tx : Transaction) (allGood : Bool) (txs : TxMap) : Result (Bool × TxMap) := do
  let sig ← tx.getSignature
  match txs.find? sig with
  | some _ => .ok (allGood, txs)
  | none =>
    let sound ← tx.isSound keys
    if sound then .ok (allGood, txs.insert sig tx) else .ok (false, txs)

/-- The loop; an exception ends it, and what was added stays. -/
def addEach : List Transaction → Bool → TxMap → Result Bool × TxMap
  | [], allGood, txs => (.ok allGood, txs)
  | tx :: l, allGood, txs =>
    match addTransaction keys tx allGood txs with
    | .error e => (catchFalse (.error e), txs)
    | .ok (allGood', txs') => addEach l allGood' txs'

/-- `AddTransactions(txs, keys)`. -/
def addTransactions (pool : UnrecordedTransactionPool) (l : List Transaction) :
    Result Bool × UnrecordedTransactionPool :=
  let r := addEach keys l true pool.txs
  (r.1, { pool with txs := r.2 })

/-- The decoding loop of `AddTransactions(serial, keys)`. -/
def decodeAnnouncement (mode : AppMode) (serial : Bytes) : Result (List Transaction) := do
  let r ← whileBelow Error.diverges (createTransaction keys mode true) serial.length
    (serial.length + 1) (ofBytes serial)
  .ok r.1

/-- `AddTransactions(serial, keys)`. -/
def addSerial (pool : UnrecordedTransactionPool) (serial : Bytes) :
    Result Bool × UnrecordedTransactionPool :=
  match decodeAnnouncement keys pool.mode serial with
  | .error e => (.error e, pool)
  | .ok temp => pool.addTransactions keys temp

/-- The loop of `CollectValidTransactions`. -/
def collectFrom (prior : ChainState) (maxTxPerBlock : Nat) :
    List Transaction → Nat → Books → Result (List Transaction × Books)
  | [], _, b => .ok ([], b)
  | tx :: l, numTxs, b =>
    match tx.isValidInAggregate keys prior b with
    | (.error e, _) => .error e
    | (.ok false, b') => collectFrom prior maxTxPerBlock l numTxs b'
    | (.ok true, b') =>
      if u32 (numTxs + 1) ≥ maxTxPerBlock then .ok ([tx], b')
      else do
        let (valid, b'') ← collectFrom prior maxTxPerBlock l (u32 (numTxs + 1)) b'
        .ok (tx :: valid, b'')

/-- `CollectValidTransactions`, from a state and an empty summary. -/
def collectValidTransactions (pool : UnrecordedTransactionPool) (state : ChainState) :
    Result (List Transaction × Books) :=
  collectFrom keys state pool.maxTxPerBlock pool.pending 0 { Books.empty with state }

/-- `ProposeBlock` up to the lock of the pending proposal. -/
def newProposal (pool : UnrecordedTransactionPool) (context : DevcashContext) (prevHash : Hash)
    (priorState : ChainState) : Result ProposedBlock := do
  let (validated, b) ← pool.collectValidTransactions keys priorState
  (ProposedBlock.ofTransactions prevHash validated b.summary Validation.empty b.state).signBlock
    keys context

def proposeBlock (pool : UnrecordedTransactionPool) (context : DevcashContext) (prevHash : Hash)
    (priorState : ChainState) : Result UnrecordedTransactionPool := do
  let pendingProposal ← pool.newProposal keys context prevHash priorState
  .ok { pool with pendingProposal }

/-- The loop of `ReverifyTransactions`. -/
def reverifyFrom (prior : ChainState) : List Transaction → Books → Result Bool
  | [], _ => .ok true
  | tx :: l, b =>
    match tx.isValidInAggregate keys prior b with
    | (.ok true, b') => reverifyFrom prior l b'
    | (r, _) => r

def reverifyTransactions (pool : UnrecordedTransactionPool) (prior : ChainState) : Result Bool :=
  reverifyFrom keys prior pool.pendingProposal.transactionVector { Books.empty with state := prior }

/-- The pending proposal follows a new top block. -/
def moveTo (pool : UnrecordedTransactionPool) (prevHash : Hash) : UnrecordedTransactionPool :=
  { pool with pendingProposal := pool.pendingProposal.setPrevHash prevHash }

/-- `ReverifyProposal` holds the lock of the pending proposal when it calls
`ProposeBlock`, which takes the lock again. -/
def reverifyProposal (pool : UnrecordedTransactionPool) (context : DevcashContext)
    (prevHash : Hash) (prior : ChainState) : Result UnrecordedTransactionPool :=
  if pool.pendingProposal.isNull then .ok pool
  else do
    let verified ← pool.reverifyTransactions keys prior
    if verified then .ok (pool.moveTo prevHash)
    else
      let _ ← pool.newProposal keys context prevHash prior
      .error .deadlock

end

def checkValidation (pool : UnrecordedTransactionPool) (context : DevcashContext) (data : Bytes) :
    Result (Bool × UnrecordedTransactionPool) :=
  if pool.pendingProposal.isNull then .ok (false, pool)
  else do
    let (enough, pendingProposal) ← pool.pendingProposal.checkValidationData context data
    .ok (enough, { pool with pendingProposal })

def removeTransactions : List Transaction → TxMap → Result Unit × TxMap
  | [], txs => (.ok (), txs)
  | tx :: l, txs =>
    match tx.getSignature with
    | .error e => (.error e, txs)
    | .ok sig => removeTransactions l (txs.erase sig)

/-- `FinalizeLocalBlock` at the time `now`. -/
def finalizeLocalBlock (o : Ossl) (now : Nat) (pool : UnrecordedTransactionPool) :
    Result FinalBlock × UnrecordedTransactionPool :=
  match removeTransactions pool.pendingProposal.transactionVector pool.txs with
  | (.error e, txs) => (.error e, { pool with txs })
  | (.ok _, txs) =>
    (.ok (FinalBlock.ofProposed o now pool.pendingProposal),
      { pool with txs, pendingProposal := pool.pendingProposal.setNull })

section
variable {o : Ossl} {keys : KeyRing o} {context : DevcashContext}

theorem newProposal_ok {pool : UnrecordedTransactionPool} {prevHash : Hash} {prior : ChainState}
    {p : ProposedBlock} (h : pool.newProposal keys context prevHash prior = .ok p) :
    p.prevHash = prevHash ∧ ∃ b, pool.collectValidTransactions keys prior =
      .ok (p.transactionVector, b) ∧ p.summary = b.summary ∧ p.blockState = b.state := by
  obtain ⟨⟨valid, b⟩, hc, h⟩ := Result.bind_eq_ok h
  have hsame := ProposedBlock.signBlock_ok h
  exact ⟨hsame.prevHash, b, by rw [hsame.transactionVector]; exact hc, hsame.summary,
    hsame.blockState⟩

theorem proposeBlock_ok {pool pool' : UnrecordedTransactionPool} {prevHash : Hash}
    {prior : ChainState} (h : pool.proposeBlock keys context prevHash prior = .ok pool') :
    pool.newProposal keys context prevHash prior = .ok pool'.pendingProposal ∧
      pool' = { pool with pendingProposal := pool'.pendingProposal } := by
  obtain ⟨p, hp, h⟩ := Result.bind_eq_ok h
  cases h
  exact ⟨hp, rfl⟩

/-- A proposal that was verified again is the old one on a new top. -/
theorem reverifyProposal_ok {pool pool' : UnrecordedTransactionPool} {prevHash : Hash}
    {prior : ChainState} (hhas : pool.hasProposal = true)
    (h : pool.reverifyProposal keys context prevHash prior = .ok pool') :
    pool' = pool.moveTo prevHash := by
  rw [hasProposal, Bool.not_eq_true'] at hhas
  rw [reverifyProposal, hhas, if_neg Bool.false_ne_true] at h
  obtain ⟨verified, -, h⟩ := Result.bind_eq_ok h
  cases verified with
  | true => exact (Except.ok.inj h).symm
  | false =>
    obtain ⟨p, -, h⟩ := Result.bind_eq_ok h
    cases h

@[simp] theorem addSerial_pendingProposal (pool : UnrecordedTransactionPool) (serial : Bytes) :
    (pool.addSerial keys serial).2.pendingProposal = pool.pendingProposal := by
  rw [addSerial]
  split
  · rfl
  · rfl

@[simp] theorem addSerial_hasProposal (pool : UnrecordedTransactionPool) (serial : Bytes) :
    (pool.addSerial keys serial).2.hasProposal = pool.hasProposal := by
  rw [hasProposal, addSerial_pendingProposal, hasProposal]

theorem hasProposal_of_kept {pool pool' : UnrecordedTransactionPool}
    (hnull : pool.hasProposal = false → pool'.pendingProposal = pool.pendingProposal)
    (h : pool'.hasProposal = true) : pool.hasProposal = true := by
  by_contra hn
  rw [hasProposal, hnull (Bool.eq_false_iff.mpr hn)] at h
  exact hn h

theorem hasProposal_of_setNull {pool : UnrecordedTransactionPool} {p : ProposedBlock}
    (h : pool.pendingProposal = p.setNull) : pool.hasProposal = false := by
  rw [hasProposal, h]
  rfl

end

/-- A pool for up to ten transactions a block that was given these. -/
def sample (l : List Tier1Transaction) : UnrecordedTransactionPool :=
  ((make ChainState.empty .t1 10).addTransactions KeyRing.toy (l.map Transaction.tier1)).2

/-- The first of three nodes has proposed its first block from the pool. -/
def sampleProposed (prior : ChainState) (l : List Tier1Transaction) : UnrecordedTransactionPool :=
  match (sample l).proposeBlock KeyRing.toy (DevcashContext.sample 0) Ossl.toy.genesisHash
    prior with
  | .ok pool => pool
  | .error _ => sample l

theorem proposeBlock_sample {prior : ChainState} {l : List Tier1Transaction}
    (h : ((sample l).proposeBlock KeyRing.toy (DevcashContext.sample 0) Ossl.toy.genesisHash
      prior).toOption.isSome = true) :
    (sample l).proposeBlock KeyRing.toy (DevcashContext.sample 0) Ossl.toy.genesisHash prior =
      .ok (sampleProposed prior l) := by
  obtain ⟨pool, hpool⟩ := Result.exists_ok h
  rw [sampleProposed, hpool]

end UnrecordedTransactionPool
end Devcash
