import Devcash.Tier2Transaction

/-! `Tier1Transaction`, the two kinds of transaction as one type, and the
`TransactionCreationManager` that decodes a series of them. -/
namespace Devcash
open Endian Reader InputBuffer

structure Tier1Transaction where
  canonical : Bytes
  isSoundFlag : Bool
  sumSize : Nat
  deriving DecidableEq, Repr

namespace Tier1Transaction

def getCanonical (tx : Tier1Transaction) : Bytes := tx.canonical

/-- The size around a summary. -/
def wholeSize (sumSize : Nat) : Nat :=
  u64 (sumSize + kNodeSigBufSize + kUint64Size + kNodeAddrBufSize)

def getNodeAddress (tx : Tier1Transaction) : Result Address := do
  let tmp ← slice tx.canonical (u64 (tx.sumSize + kUint64Size)) kNodeAddrBufSize
  .ok (Address.ofBytes tmp)

def getMessageDigest (tx : Tier1Transaction) : Result Bytes :=
  slice tx.canonical kUint64Size tx.sumSize

def getTransfers (tx : Tier1Transaction) : Result (List Transfer) := do
  let s ← Summary.create ⟨tx.canonical, kUint64Size⟩
  .ok s.1.getTransfers

def getSignature (tx : Tier1Transaction) : Result Signature := do
  let sigBin ← slice tx.canonical (u64 (tx.sumSize + kUint64Size + kNodeAddrBufSize)) kNodeSigBufSize
  Signature.ofBytes sigBin

section
variable {o : Ossl} (keys : KeyRing o)

def isSound (tx : Tier1Transaction) : Result Bool := do
  if tx.isSoundFlag then .ok true
  else
    let nodeAddr ← tx.getNodeAddress
    let eckey ← keys.getKey nodeAddr
    let msg ← tx.getMessageDigest
    let sig ← tx.getSignature
    .ok (o.verifyByteSig eckey (o.devcashHash msg) sig)

def setIsSound (tx : Tier1Transaction) : Result Tier1Transaction := do
  let sound ← tx.isSound keys
  if sound then .ok { tx with isSoundFlag := true }
  else .error (.message "Invalid serialized T1 transaction, not sound!")

/-- The constructor from a summary. -/
def ofSummary (summary : Summary) (sig : Signature) (nodeAddr : Address) :
    Result Tier1Transaction := do
  if summary.isSane = false then .error (.message "Serialized T1 transaction has bad summary!")
  else if sig.size ≠ kNodeSigBufSize then .error (.message "Incorrect signature!")
  else
    let sumSize := summary.getByteSize
    let canonical := uint64ToBin sumSize [] ++ summary.getCanonical ++ nodeAddr.getCanonical ++
      sig.getCanonical
    setIsSound keys ⟨canonical, false, sumSize⟩

/-- The constructor from a buffer. The bytes are copied before any check, and the
size is compared again with the offset behind them. -/
def ofBuffer (calculateSoundness : Bool) : BufReader Tier1Transaction := do
  let sumSize ← getNextUint64 false
  let canonical ← copy (wholeSize sumSize)
  fun b =>
    if InputBuffer.size b < u64 (b.offset + wholeSize sumSize) then
      .ok (⟨canonical, false, sumSize⟩, b)
    else if calculateSoundness then lift (setIsSound keys ⟨canonical, false, sumSize⟩) b
    else .ok (⟨canonical, false, sumSize⟩, b)

/-- `Fill`. A buffer that is too small leaves the transaction without bytes, and one that is
not sound is only logged. -/
def fill (calculateSoundness : Bool) : BufReader Tier1Transaction := fun b =>
  (do
    let sumSize ← getNextUint64 false
    if InputBuffer.size b < u64 (b.offset + wholeSize sumSize) then
      pure (Tier1Transaction.mk [] false sumSize)
    else
      let canonical ← copy (wholeSize sumSize)
      let tx : Tier1Transaction := ⟨canonical, false, sumSize⟩
      if calculateSoundness then
        let sound ← lift (tx.isSound keys)
        pure { tx with isSoundFlag := sound }
      else pure tx) b

def create (calculateSoundness : Bool) : BufReader Tier1Transaction := fill keys calculateSoundness

def createUniquePtr (calculateSoundness : Bool) : BufReader Tier1Transaction :=
  fill keys calculateSoundness

/-- `do_isValid`. -/
def isValid (tx : Tier1Transaction) (b : Books) : Result Bool × Books :=
  validateWith (tx.isSound keys)
    (do
      let xfers ← tx.getTransfers
      .ok (xfers, spendFreely))
    Transfer.amountCoinAddr b

/-- `do_isValidInAggregate`. -/
def isValidInAggregate (prior : ChainState) (tx : Tier1Transaction) (b : Books) :
    Result Bool × Books :=
  validateWith (tx.isSound keys)
    (do
      let xfers ← tx.getTransfers
      .ok (xfers, spendInAggregate prior))
    Transfer.coinAddrAmount b

end

/-- A node moves coins of type 1 from one wallet to another, signed in the toy scheme. -/
def sampleMove (source target : Byte) (amount : Nat) : Tier1Transaction :=
  let summary := Summary.empty.addFlows
    [⟨Address.sample source, 1, -amount, 0⟩, ⟨Address.sample target, 1, amount, 0⟩]
  let node := Address.sampleNode 1
  { canonical := uint64ToBin summary.getByteSize [] ++ summary.getCanonical ++ node.getCanonical ++
      (Ossl.toySignature node (Ossl.toyHash summary.getCanonical)).getCanonical
    isSoundFlag := false
    sumSize := summary.getByteSize }

end Tier1Transaction

inductive Transaction where
  | tier1 (tx : Tier1Transaction)
  | tier2 (tx : Tier2Transaction)
  deriving DecidableEq, Repr

namespace Transaction

def getCanonical : Transaction → Bytes
  | .tier1 tx => tx.getCanonical
  | .tier2 tx => tx.getCanonical

def getByteSize (tx : Transaction) : Nat := tx.getCanonical.length

def getTransfers : Transaction → Result (List Transfer)
  | .tier1 tx => tx.getTransfers
  | .tier2 tx => tx.getTransfers

def getSignature : Transaction → Result Signature
  | .tier1 tx => tx.getSignature
  | .tier2 tx => tx.getSignature

section
variable {o : Ossl} (keys : KeyRing o)

def isSound : Transaction → Result Bool
  | .tier1 tx => tx.isSound keys
  | .tier2 tx => tx.isSound keys

def setIsSound : Transaction → Result Transaction
  | .tier1 tx => return .tier1 (← tx.setIsSound keys)
  | .tier2 tx => return .tier2 (← tx.setIsSound keys)

def isValid (tx : Transaction) (b : Books) : Result Bool × Books :=
  match tx with
  | .tier1 tx => tx.isValid keys b
  | .tier2 tx => tx.isValid keys b

def isValidInAggregate (prior : ChainState) (tx : Transaction) (b : Books) : Result Bool × Books :=
  match tx with
  | .tier1 tx => tx.isValidInAggregate keys prior b
  | .tier2 tx => tx.isValidInAggregate keys prior b

end
end Transaction

section
variable {o : Ossl} (keys : KeyRing o)

/-- `CreateTransaction`. -/
def createTransaction (mode : AppMode) (calculateSoundness : Bool) : BufReader Transaction :=
  match mode with
  | .t1 => return .tier1 (← Tier1Transaction.ofBuffer keys calculateSoundness)
  | .t2 => return .tier2 (← Tier2Transaction.createUniquePtr keys calculateSoundness)
  | .scan => fail (.deserialization "CreateTransaction(): unknown eAppMode type")

/-- The decoding loop of `CreateTransactions(buffer, vtx, start_size, tx_size)`. -/
def decodeTransactions (mode : AppMode) (startSize txSize : Nat) : BufReader (List Transaction) :=
  fun b => whileBelow Error.diverges (createTransaction keys mode false) (u64 (startSize + txSize))
    (b.buffer.length + 1) b

/-- A pushed job. What it throws stays in its future, which nobody reads. -/
def pushJob (tx : Transaction) : Result Transaction :=
  match tx.setIsSound keys with
  | .ok tx' => .ok tx'
  | .error .badAccess => .error .badAccess
  | .error .diverges => .error .diverges
  | .error _ => .ok tx

/-- `CreateTransactions`: the loop, then one job a transaction. -/
def createTransactions (mode : AppMode) (startSize txSize : Nat) : BufReader (List Transaction) := do
  let vtx ← decodeTransactions keys mode startSize txSize
  lift (vtx.mapM (pushJob keys))

end
end Devcash
