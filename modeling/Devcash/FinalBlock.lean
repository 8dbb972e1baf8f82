import Devcash.ProposedBlock

/-! `FinalBlock` and its two ways to be made: from the node's own proposal and from
the bytes of another node. -/
namespace Devcash
open Endian Reader InputBuffer

/-- What the encoding of a final block carries. -/
structure BlockFields where
  version : Byte
  numBytes : Nat
  blockTime : Nat
  prevHash : Hash
  merkleRoot : Hash
  txSize : Nat
  sumSize : Nat
  valCount : Nat
  transactionVector : List Transaction
  rawTransactions : List Bytes
  summary : Summary
  vals : Validation
  deriving DecidableEq

/-- The chain state after the block is kept beside the encoded fields. -/
structure FinalBlock extends BlockFields where
  blockState : ChainState
  deriving DecidableEq

/-- The initial values of the fields. -/
def BlockFields.default : BlockFields where
  version := 0
  numBytes := 0
  blockTime := 0
  prevHash := Hash.zero
  merkleRoot := Hash.zero
  txSize := 0
  sumSize := 0
  valCount := 0
  transactionVector := []
  rawTransactions := []
  summary := Summary.empty
  vals := Validation.empty

namespace FinalBlock

def minSize : Nat := 101

def getPreviousHash (f : FinalBlock) : Hash := f.prevHash

def getChainState (f : FinalBlock) : ChainState := f.blockState

def getTransactions (f : FinalBlock) : List Transaction := f.transactionVector

end FinalBlock

namespace BlockFields

/-- The common part of `getBlockDigest` and `getCanonical`, which differ in the Merkle
root. -/
def serialize (f : BlockFields) (merkle : Bytes) : Bytes :=
  let serial := uint64ToBin f.blockTime (uint64ToBin f.numBytes [f.version])
  let serial := serial ++ f.prevHash.1 ++ merkle
  let serial := uint32ToBin f.valCount (uint64ToBin f.sumSize (uint64ToBin f.txSize serial))
  serial ++ f.rawTransactions.flatten ++ f.summary.getCanonical ++ f.vals.getCanonical

def getBlockDigest (f : BlockFields) : Bytes := f.serialize []

def getCanonical (f : BlockFields) : Bytes := f.serialize f.merkleRoot.1

theorem getCanonical_eq (f : BlockFields) :
    f.getCanonical = ((f.version :: leBytes 8 f.numBytes) ++ leBytes 8 f.blockTime) ++
      (f.prevHash.1 ++ (f.merkleRoot.1 ++ (leBytes 8 f.txSize ++ (leBytes 8 f.sumSize ++
        (leBytes 4 f.valCount ++ (f.rawTransactions.flatten ++ (f.summary.getCanonical ++
          f.vals.getCanonical))))))) := by
  simp only [getCanonical, serialize, uint64ToBin_eq, uint32ToBin_eq, List.append_assoc,
    List.cons_append, List.nil_append]

theorem length_getCanonical (f : BlockFields) : FinalBlock.minSize ≤ f.getCanonical.length := by
  rw [getCanonical_eq]
  simp [f.prevHash.2, f.merkleRoot.2, FinalBlock.minSize]
  omega

theorem prevHash_eq_of_getCanonical {f g : BlockFields} (h : f.getCanonical = g.getCanonical) :
    f.prevHash = g.prevHash := by
  rw [getCanonical_eq, getCanonical_eq] at h
  obtain ⟨-, h⟩ := List.append_inj h (by simp)
  exact Subtype.ext (List.append_inj h (by rw [f.prevHash.2, g.prevHash.2])).1

end BlockFields

namespace FinalBlock
variable {o : Ossl} (keys : KeyRing o)

/-- The fields of the constructor from a proposal, at the time `now`. -/
def fieldsOf (o : Ossl) (now : Nat) (proposed : ProposedBlock) : BlockFields :=
  let f : BlockFields :=
    { version := 0
      numBytes := u64 (proposed.numBytes + 40)
      blockTime := now
      prevHash := proposed.prevHash
      merkleRoot := Hash.zero
      txSize := proposed.txSize
      sumSize := proposed.sumSize
      valCount := proposed.valCount
      transactionVector := proposed.transactionVector
      rawTransactions := proposed.transactionVector.map Transaction.getCanonical
      summary := proposed.summary
      vals := proposed.vals }
  { f with merkleRoot := o.devcashHash f.getBlockDigest }

/-- `FinalBlock(proposed)`. -/
def ofProposed (o : Ossl) (now : Nat) (proposed : ProposedBlock) : FinalBlock :=
  { fieldsOf o now proposed with blockState := proposed.blockState }

/-- The reads of `FinalBlock(buffer, prior, keys, tcm)`. A buffer that is too small,
has another version or another size ends the constructor, with what it has read. -/
def readFields (mode : AppMode) : BufReader BlockFields := fun b =>
  if InputBuffer.size b < minSize then .ok (BlockFields.default, b)
  else
    (do
      let version ← getNextByte
      if version ≠ 0 then pure { BlockFields.default with version }
      else
        let numBytes ← getNextUint64 true
        if InputBuffer.size b ≠ numBytes then pure { BlockFields.default with version, numBytes }
        else
          let blockTime ← getNextUint64 true
          let prevHash ← copyHash
          let merkleRoot ← copyHash
          let txSize ← getNextUint64 true
          let sumSize ← getNextUint64 true
          let valCount ← getNextUint32 true
          let transactionVector ← createTransactions keys mode minSize txSize
          let summary ← Summary.create
          let vals ← Validation.create
          pure
            { version, numBytes, blockTime, prevHash, merkleRoot, txSize, sumSize, valCount,
              transactionVector,
              rawTransactions := transactionVector.map Transaction.getCanonical,
              summary, vals : BlockFields }) b

/-- The payloads that fail one of the three checks of the constructor. -/
def Malformed (data : Bytes) : Prop :=
  data.length < minSize ∨ byteAt data 0 ≠ .ok 0 ∨ binToUint64 data 1 ≠ .ok data.length

instance (data : Bytes) : Decidable (Malformed data) := inferInstanceAs (Decidable (_ ∨ _ ∨ _))

/-- The fields a message decodes to. -/
def decode (mode : AppMode) (data : Bytes) : Result BlockFields := do
  let (fields, _) ← readFields keys mode (ofBytes data)
  .ok fields

section
variable (failure : String → Error) (transactions : Nat → BufReader (List Transaction × List Bytes))
  (validations : Nat → BufReader Validation) (prior : ChainState)

/-- The reads of a block in a buffer of `size` bytes. -/
def parseSized (size : Nat) : BufReader FinalBlock := do
  let version ← getNextByte
  if version ≠ 0 then
    fail (failure ("Invalid FinalBlock.version: " ++ toString version.toNat))
  else
    let numBytes ← getNextUint64 true
    if size < numBytes then fail (failure "Invalid serialized FinalBlock, wrong size!")
    else
      let blockTime ← getNextUint64 true
      let prevHash ← copyHash
      let merkleRoot ← copyHash
      let txSize ← getNextUint64 true
      let sumSize ← getNextUint64 true
      let valCount ← getNextUint32 true
      let (transactionVector, rawTransactions) ← transactions txSize
      let summary ← Summary.create
      let vals ← validations valCount
      pure
        { version, numBytes, blockTime, prevHash, merkleRoot, txSize, sumSize, valCount,
          transactionVector, rawTransactions, summary, vals, blockState := prior }

/-- `FinalBlock::Create` and the constructor with a mode differ in the class of their
exceptions, the transaction loop and the way the validations end. -/
def parse : BufReader FinalBlock := fun b =>
  if InputBuffer.size b < minSize then
    .error (failure "Invalid serialized FinalBlock, too small!")
  else parseSized failure transactions validations prior (InputBuffer.size b) b

end

/-- The transaction loop of `FinalBlock::Create` groups the bytes of the transactions. -/
def groupTransactions (txSize : Nat) : BufReader (List Bytes) := fun b =>
  whileBelow Error.diverges getNextTransaction (u64 (b.offset + txSize)) (b.buffer.length + 1) b

/-- `FinalBlock::Create(buffer, prior)`. -/
def create (prior : ChainState) : BufReader FinalBlock :=
  parse Error.deserialization
    (fun txSize => do
      let raw ← groupTransactions txSize
      pure ([], raw))
    Validation.createCount prior

/-- One turn of the transaction loop of the constructor with a mode. -/
def nextInMode (mode : AppMode) : BufReader Transaction :=
  match mode with
  | .t1 => return .tier1 (← Tier1Transaction.ofBuffer keys true)
  | .t2 => return .tier2 (← Tier2Transaction.createUniquePtr keys true)
  | .scan => fail (.runtime "Unsupported mode: 2")

def transactionsInMode (mode : AppMode) (txSize : Nat) : BufReader (List Transaction) := fun b =>
  whileBelow Error.diverges (nextInMode keys mode) (u64 (b.offset + txSize)) (b.buffer.length + 1) b

/-- `FinalBlock(buffer, prior, keys, mode)`. -/
def ofMode (mode : AppMode) (prior : ChainState) : BufReader FinalBlock :=
  parse Error.runtime
    (fun txSize => do
      let txs ← transactionsInMode keys mode txSize
      pure (txs, txs.map Transaction.getCanonical))
    (fun _ => Validation.create) prior

/-- `FinalBlock(buffer, prior, keys, tcm)` starts from the prior state and leaves it so. -/
def ofFields (fields : BlockFields) (prior : ChainState) : FinalBlock :=
  { fields with blockState := prior }

end FinalBlock
end Devcash
