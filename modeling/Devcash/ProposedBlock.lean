import Devcash.Transaction

/-! `Validation` and `ProposedBlock`: the votes on a block and the block they are for. -/
namespace Devcash
open Endian Reader InputBuffer

abbrev ValidationMap := OrdMap Address Signature

structure Validation where
  sigs : ValidationMap
  deriving DecidableEq

namespace Validation

/-- `Validation::Create()`. -/
def empty : Validation := ⟨OrdMap.empty⟩

def pairSize : Nat := kNodeAddrBufSize + kNodeSigBufSize

/-- `addValidation(node, sig)`; an entry that exists is kept. -/
def addValidation (v : Validation) (node : Address) (sig : Signature) : Result Validation :=
  if node.size ≠ kNodeAddrBufSize then .error (.runtime "Address must be a node Address")
  else if sig.size ≠ kNodeSigBufSize then .error (.runtime "Signature must be a node Signature")
  else .ok ⟨v.sigs.insert node sig⟩

/-- `addValidation(other)`; no size is checked. -/
def addAll (v other : Validation) : Validation := ⟨v.sigs.insertAll other.sigs.entries⟩

def getCanonical (v : Validation) : Bytes :=
  v.sigs.entries.flatMap (fun item => item.1.getCanonical ++ item.2.getCanonical)

def getValidationCount (v : Validation) : Nat := u32 v.sigs.size

def readPair : BufReader (Address × Signature) := do
  let oneAddr ← copyAddress
  let oneSig ← copySignature
  pure (oneAddr, oneSig)

/-- `Validation::Create(buffer)`: as many pairs as node pairs fit in the rest. -/
def create : BufReader Validation := fun b =>
  (do
    let l ← times readPair ((InputBuffer.size b - b.offset) / pairSize)
    pure (Validation.mk (OrdMap.empty.insertAll l))) b

/-- `Validation::Create(buffer, count)`; a buffer that is too small is only logged. -/
def createCount (count : Nat) : BufReader Validation := do
  let l ← times readPair count
  pure (Validation.mk (OrdMap.empty.insertAll l))

/-- `getFirstValidation`: the pair of the smallest address. -/
def getFirstValidation (v : Validation) : Result (Address × Signature) :=
  match v.sigs.entries with
  | [] => .error (.rangeError "ValidationMap is empty")
  | pair :: _ => .ok pair

end Validation

structure ProposedBlock where
  version : Byte
  numBytes : Nat
  prevHash : Hash
  txSize : Nat
  sumSize : Nat
  valCount : Nat
  transactionVector : List Transaction
  summary : Summary
  vals : Validation
  blockState : ChainState
  deriving DecidableEq

namespace ProposedBlock

def minSize : Nat := 61

def minValidationSize : Nat := 32 + Validation.pairSize * 2

/-- `ProposedBlock::Create(prior)`. -/
def ofPrior (prior : ChainState) : ProposedBlock where
  version := 0
  numBytes := 0
  prevHash := Hash.zero
  txSize := 0
  sumSize := 0
  valCount := 0
  transactionVector := []
  summary := Summary.empty
  vals := Validation.empty
  blockState := prior

/-- The size of a block from the sizes of its parts. -/
def bytesFor (txSize sumSize valCount : Nat) : Nat :=
  u64 (minSize + txSize + sumSize + valCount * Validation.pairSize)

/-- The constructor from transactions. -/
def ofTransactions (prevHash : Hash) (txs : List Transaction) (summary : Summary)
    (validations : Validation) (priorState : ChainState) : ProposedBlock :=
  let txSize := u64 ((txs.map Transaction.getByteSize).sum)
  let sumSize := summary.getByteSize
  let valCount := validations.getValidationCount
  { version := 0
    numBytes := bytesFor txSize sumSize valCount
    prevHash, txSize, sumSize, valCount
    transactionVector := txs
    summary
    vals := validations
    blockState := priorState }

def isNullProposal (vec : Bytes) : Bool := vec == List.replicate vec.length 0

def isNull (p : ProposedBlock) : Bool := p.numBytes < minSize

def setNull (p : ProposedBlock) : ProposedBlock := { p with numBytes := 0 }

def setPrevHash (p : ProposedBlock) (prevHash : Hash) : ProposedBlock := { p with prevHash }

/-- Other votes, with the count and the size that go with them. -/
def setVals (p : ProposedBlock) (vals : Validation) : ProposedBlock :=
  let valCount := vals.getValidationCount
  { p with vals, valCount, numBytes := bytesFor p.txSize p.sumSize valCount }

def getCanonical (p : ProposedBlock) : Bytes :=
  let txs := p.transactionVector.flatMap Transaction.getCanonical
  let serial := uint64ToBin p.numBytes [p.version]
  let serial := serial ++ p.prevHash.1
  let serial := uint32ToBin p.valCount (uint64ToBin p.sumSize (uint64ToBin p.txSize serial))
  serial ++ txs ++ p.summary.getCanonical ++ p.vals.getCanonical

def getValidationData (p : ProposedBlock) : Bytes := p.prevHash.1 ++ p.vals.getCanonical

section
variable {o : Ossl} (keys : KeyRing o)

/-- The loop of `validate` over the votes. -/
def verifyVals (md : Hash) : List (Address × Signature) → Result Bool
  | [] => .ok true
  | (addr, sig) :: l => do
    let eckey ← keys.getKey addr
    if o.verifyByteSig eckey md sig then verifyVals md l else .ok false

def validate (p : ProposedBlock) : Result Bool :=
  if p.transactionVector.length < 1 then .ok false
  else if p.summary.isSane = false then .ok false
  else verifyVals keys (o.devcashHash p.summary.getCanonical) p.vals.sigs.entries

def signBlock (context : DevcashContext) (p : ProposedBlock) : Result ProposedBlock := do
  let nodeNum := context.getCurrentNode % context.getPeerCount
  let nodeAddr ← keys.getNodeAddr nodeNum
  let eckey ← keys.getNodeKey nodeNum
  let nodeSig ← o.signBinary eckey (o.devcashHash p.summary.getCanonical)
  let vals ← p.vals.addValidation nodeAddr nodeSig
  let valCount := u32 (p.valCount + 1)
  .ok { p with vals, valCount, numBytes := bytesFor p.txSize p.sumSize valCount }

/-- The votes are merged and counted; nothing is verified. -/
def checkValidationData (context : DevcashContext) (p : ProposedBlock) (data : Bytes) :
    Result (Bool × ProposedBlock) :=
  if data.length < minValidationSize then .ok (false, p)
  else do
    let (incomingHash, b) ← copyHash (ofBytes data)
    if incomingHash = p.prevHash then
      let (valTemp, _) ← Validation.create b
      let p' := p.setVals (p.vals.addAll valTemp)
      .ok (decide (p'.valCount > context.getPeerCount / 2), p')
    else .ok (false, p)

/-- `ProposedBlock::Create(buffer, prior, keys, tcm)`. -/
def create (mode : AppMode) (prior : ChainState) : BufReader ProposedBlock := fun b =>
  if InputBuffer.size b < minSize then
    .error (.runtime "Invalid serialized ProposedBlock, too small!")
  else
    (do
      let version ← getNextByte
      if version ≠ 0 then
        fail (.runtime ("Invalid ProposedBlock.version: " ++ toString version.toNat))
      else
        let numBytes ← getNextUint64 true
        if InputBuffer.size b ≠ numBytes then
          fail (.runtime ("Invalid serialized ProposedBlock, wrong size! (" ++
            toString (InputBuffer.size b) ++ " != " ++ toString numBytes ++ ")"))
        else
          let prevHash ← copyHash
          let txSize ← getNextUint64 true
          let sumSize ← getNextUint64 true
          let valCount ← getNextUint32 true
          let transactionVector ← createTransactions keys mode minSize txSize
          let summary ← Summary.create
          let vals ← Validation.create
          pure { version, numBytes, prevHash, txSize, sumSize, valCount, transactionVector,
                 summary, vals, blockState := prior : ProposedBlock }) b

end

section
variable {o : Ossl} {keys : KeyRing o} {context : DevcashContext}

/-- Two proposals differ in nothing but their votes and the sizes. -/
structure SameContent (p p' : ProposedBlock) : Prop where
  prevHash : p'.prevHash = p.prevHash
  transactionVector : p'.transactionVector = p.transactionVector
  summary : p'.summary = p.summary
  blockState : p'.blockState = p.blockState

theorem SameContent.refl (p : ProposedBlock) : p.SameContent p := ⟨rfl, rfl, rfl, rfl⟩

theorem SameContent.trans {p q r : ProposedBlock} (h : p.SameContent q) (h' : q.SameContent r) :
    p.SameContent r :=
  ⟨h'.prevHash.trans h.prevHash, h'.transactionVector.trans h.transactionVector,
    h'.summary.trans h.summary, h'.blockState.trans h.blockState⟩

theorem signBlock_ok {p p' : ProposedBlock} (h : p.signBlock keys context = .ok p') :
    p.SameContent p' := by
  obtain ⟨nodeAddr, -, h⟩ := Result.bind_eq_ok h
  obtain ⟨eckey, -, h⟩ := Result.bind_eq_ok h
  obtain ⟨nodeSig, -, h⟩ := Result.bind_eq_ok h
  obtain ⟨vals, -, h⟩ := Result.bind_eq_ok h
  cases h
  exact ⟨rfl, rfl, rfl, rfl⟩

/-- The votes a `VALID` message holds for a proposal: none, unless it is large enough
and names the proposal's previous hash. -/
def votesFor (p : ProposedBlock) (data : Bytes) : Result (Option Validation) :=
  if data.length < minValidationSize then .ok none
  else do
    let (incomingHash, b) ← copyHash (ofBytes data)
    if incomingHash = p.prevHash then
      let (valTemp, _) ← Validation.create b
      .ok (some valTemp)
    else .ok none

theorem checkValidationData_eq (p : ProposedBlock) (data : Bytes) :
    p.checkValidationData context data =
      match p.votesFor data with
      | .error e => .error e
      | .ok none => .ok (false, p)
      | .ok (some v) =>
        .ok (decide ((p.setVals (p.vals.addAll v)).valCount > context.getPeerCount / 2),
          p.setVals (p.vals.addAll v)) := by
  rw [checkValidationData, votesFor]
  split_ifs with hlen
  · rfl
  · cases hc : copyHash (ofBytes data) with
    | error e => rfl
    | ok r =>
      obtain ⟨incomingHash, b⟩ := r
      simp only [Result.bind_ok]
      split_ifs
      · cases Validation.create b <;> rfl
      · rfl

theorem checkValidationData_ok {p p' : ProposedBlock} {data : Bytes} {enough : Bool}
    (h : p.checkValidationData context data = .ok (enough, p')) :
    (p' = p ∧ enough = false) ∨
    ∃ v, p.votesFor data = .ok (some v) ∧ p' = p.setVals (p.vals.addAll v) ∧
      (enough = true → context.getPeerCount / 2 < p'.vals.getValidationCount) := by
  rw [checkValidationData_eq] at h
  split at h
  · cases h
  · cases h
    exact Or.inl ⟨rfl, rfl⟩
  · rename_i v hv
    cases h
    exact Or.inr ⟨v, hv, rfl, of_decide_eq_true⟩

end
end ProposedBlock
end Devcash
