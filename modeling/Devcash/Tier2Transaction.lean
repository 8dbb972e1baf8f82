import Devcash.Books
import Devcash.KeyRing

/-! `Tier2Transaction`: the constructors, the decoders, soundness and validity. -/
namespace Devcash
open Endian Reader InputBuffer

structure Tier2Transaction where
  canonical : Bytes
  isSoundFlag : Bool
  xferSize : Nat
  nonceSize : Nat
  deriving DecidableEq, Repr

namespace Tier2Transaction

def getCanonical (tx : Tier2Transaction) : Bytes := tx.canonical

/-- The bytes before the signature, as every constructor lays them out. -/
def layout (oper : Byte) (xfers : List Transfer) (nonce : Bytes) : Bytes :=
  let canonical := uint64ToBin nonce.length [] ++ [oper]
  let canonical := canonical ++ xfers.flatMap Transfer.getCanonical
  let xferSizeBin := uint64ToBin (u64 ((xfers.map Transfer.size).sum)) []
  xferSizeBin ++ canonical ++ nonce

/-- A transaction before its signature is appended. -/
def unsigned (oper : Byte) (xfers : List Transfer) (nonce : Bytes) : Tier2Transaction where
  canonical := layout oper xfers nonce
  isSoundFlag := false
  xferSize := u64 ((xfers.map Transfer.size).sum)
  nonceSize := nonce.length

/-- The constructor from a signature. -/
def ofSignature (oper : Byte) (xfers : List Transfer) (nonce : Bytes) (signature : Signature) :
    Tier2Transaction :=
  { unsigned oper xfers nonce with
    canonical := layout oper xfers nonce ++ signature.getCanonical }

/-- `canonical_[kOPERATION_OFFSET]`. -/
def getOperation (tx : Tier2Transaction) : Result Byte :=
  match tx.canonical[kOperationOffset]? with
  | some b => .ok b
  | none => .error .badAccess

def getNonce (tx : Tier2Transaction) : Result Bytes :=
  slice tx.canonical (u64 (kEnvelopeSize + tx.xferSize)) tx.nonceSize

def getMessageDigest (tx : Tier2Transaction) : Result Bytes :=
  slice tx.canonical 0 (u64 (kEnvelopeSize + tx.nonceSize + tx.xferSize))

/-- The loop of `getTransfers`; every transfer has a size of at least its 24 bytes of
numbers. -/
def transfersFrom (tx : Tier2Transaction) : Nat → Nat → Result (List Transfer)
  | 0, offset => if offset < tx.xferSize then .error .diverges else .ok []
  | fuel+1, offset =>
    if offset < tx.xferSize then do
      let t ← Transfer.ofBuffer ⟨tx.canonical, kTransferOffset + offset⟩
      let ts ← transfersFrom tx fuel (offset + t.1.size)
      .ok (t.1 :: ts)
    else .ok []

def getTransfers (tx : Tier2Transaction) : Result (List Transfer) :=
  transfersFrom tx (tx.canonical.length + 1) 0

/-- The size of the signature follows from the operation. -/
def getSignature (tx : Tier2Transaction) : Result Signature := do
  let oper ← tx.getOperation
  let size := if oper = OpType.exchange.toByte then kWalletSigBufSize else kNodeSigBufSize
  let sigBin ← slice tx.canonical (u64 (kEnvelopeSize + tx.nonceSize + tx.xferSize)) size
  Signature.ofBytes sigBin

/-- The loop of `isSound`: the total and the sender. -/
def scanTransfers : List Transfer → Int → Option Address → Result (Int × Option Address)
  | [], total, sender => .ok (total, sender)
  | t :: ts, total, sender => do
    let amount ← t.getAmount
    let total := i64 (total + amount)
    if amount < 0 then
      let addr ← t.getAddress
      match sender with
      | some s =>
        if s ≠ addr then .error (.runtime "TransactionError: Multiple senders in transaction")
        else scanTransfers ts total (some addr)
      | none => scanTransfers ts total (some addr)
    else scanTransfers ts total sender

section
variable {o : Ossl} (keys : KeyRing o)

/-- `isSound` returns true or throws. -/
def isSound (tx : Tier2Transaction) : Result Bool := do
  if tx.isSoundFlag then .ok true
  else
    let oper ← tx.getOperation
    let xfers ← tx.getTransfers
    let (total, scanned) ← scanTransfers xfers 0 none
    let sender := scanned.getD Address.null
    if (oper = OpType.create.toByte ∨ oper = OpType.delete.toByte ∨ oper = OpType.modify.toByte) ∧
        keys.isINN sender = false then
      .error (.runtime "TransactionError: Invalid operation, non-INN address performing privileged operation.")
    else if total ≠ 0 then
      .error (.runtime ("TransactionError: transaction amounts are asymmetric. (sum=" ++ toString total ++ ")"))
    else if oper ≠ OpType.exchange.toByte ∧ keys.isINN sender = false then
      .error (.runtime "TransactionError: INN transaction not performed by INN")
    else
      let eckey ← keys.getKey sender
      let msg ← tx.getMessageDigest
      let sig ← tx.getSignature
      if o.verifyByteSig eckey (o.devcashHash msg) sig then .ok true
      else .error (.runtime "TransactionError: transaction signature did not validate")

def setIsSound (tx : Tier2Transaction) : Result Tier2Transaction := do
  let sound ← tx.isSound keys
  .ok { tx with isSoundFlag := sound }

/-- The constructor that signs. -/
def sign (oper : Byte) (xfers : List Transfer) (nonce : Bytes) (eckey : o.EcKey) :
    Result Tier2Transaction := do
  let msg ← (unsigned oper xfers nonce).getMessageDigest
  let sig ← o.signBinary eckey (o.devcashHash msg)
  .ok (ofSignature oper xfers nonce sig)

/-- A constructor with a key directory demands soundness. -/
def demandSound (tx : Tier2Transaction) : Result Tier2Transaction := do
  let sound ← tx.isSound keys
  if sound then .ok { tx with isSoundFlag := true }
  else .error (.message "Invalid serialized T2 transaction, not sound!")

/-- The constructor that signs and demands soundness. -/
def signSound (oper : Byte) (xfers : List Transfer) (nonce : Bytes) (eckey : o.EcKey) :
    Result Tier2Transaction := do
  if nonce.length < kMinNonceSize then
    .error (.message ("Invalid serialized T2 transaction, nonce is too small (" ++
      toString nonce.length ++ ")"))
  else
    let tx ← sign oper xfers nonce eckey
    tx.demandSound keys

/-- The constructor from a signature that demands soundness. -/
def ofSignatureSound (oper : Byte) (xfers : List Transfer) (nonce : Bytes)
    (signature : Signature) : Result Tier2Transaction :=
  (ofSignature oper xfers nonce signature).demandSound keys

/-- The message of a size error: the first eight bytes and the offset. -/
def sizeError (what : String) (n : Nat) (b : InputBuffer) : Error :=
  .deserialization ("Invalid serialized T2 transaction, " ++ what ++ " (" ++ toString n ++ ")!" ++
    "Transaction prefix: " ++ toHex ((b.buffer.drop b.offset).take 8) ++
    "Bytes offset: " ++ toString b.offset)

/-- `QuickFill`. The signature's type byte is added as its size. -/
def quickFill : BufReader Tier2Transaction := fun b =>
  if InputBuffer.size b < b.offset + kTxMinSize then
    .error (.deserialization "Invalid serialized T2 transaction, too small!")
  else
    (do
      let xferSize ← getNextUint64 false
      let nonceSize ← getSecondUint64 false
      if nonceSize < kMinNonceSize then fail (sizeError "bad nonce size" nonceSize b)
      else
        let oper ← offsetAt kOperationOffset
        if oper.toNat ≥ OpType.numOperations then
          fail (.deserialization "Invalid serialized T2 transaction, invalid operation!")
        else
          let typeByte ← offsetAt (u64 (kTransferOffset + xferSize + nonceSize))
          let txSize := u64 (typeByte.toNat + kTransferOffset + xferSize + nonceSize)
          if InputBuffer.size b < u64 (b.offset + txSize) then
            fail (sizeError "wrong size" txSize b)
          else
            let canonical ← copy txSize
            pure (Tier2Transaction.mk canonical false xferSize nonceSize)) b

/-- `Fill` reads as `quickFill` does. -/
def fill (calculateSoundness : Bool) : BufReader Tier2Transaction := do
  let tx ← quickFill
  if calculateSoundness then
    let sound ← lift (tx.isSound keys)
    pure { tx with isSoundFlag := sound }
  else pure tx

def quickCreate : BufReader Tier2Transaction := quickFill

def create (calculateSoundness : Bool) : BufReader Tier2Transaction :=
  fill keys calculateSoundness

def createUniquePtr (calculateSoundness : Bool) : BufReader Tier2Transaction :=
  fill keys calculateSoundness

/-- `do_isValid`. -/
def isValid (tx : Tier2Transaction) (b : Books) : Result Bool × Books :=
  validateWith (tx.isSound keys)
    (do
      let oper ← tx.getOperation
      let xfers ← tx.getTransfers
      .ok (xfers, spendAvailable oper spendFreely))
    Transfer.amountCoinAddr b

/-- `do_isValidInAggregate`. -/
def isValidInAggregate (prior : ChainState) (tx : Tier2Transaction) (b : Books) :
    Result Bool × Books :=
  validateWith (tx.isSound keys)
    (do
      let oper ← tx.getOperation
      let xfers ← tx.getTransfers
      .ok (xfers, spendAvailable oper (spendInAggregate prior)))
    Transfer.amountCoinAddr b

end

/-- A wallet pays another 5 coins of type 1, signed in the toy scheme. -/
def samplePayment : Tier2Transaction :=
  let xfers := [Transfer.make (Address.sample 1) 1 (-5) 0, Transfer.make (Address.sample 2) 1 5 0]
  let nonce : Bytes := [0, 1, 2, 3, 4, 5, 6, 7]
  ofSignature OpType.exchange.toByte xfers nonce
    (Ossl.toySignature (Address.sample 1)
      (Ossl.toyHash (layout OpType.exchange.toByte xfers nonce)))

end Tier2Transaction
end Devcash
