import Devcash.FinalBlock
import Devcash.Pbuf

/-! Transactions and blocks as protocol buffers for the clients. A transaction that was made from a
message is written with all of its fields, except that the addresses are strings from the begin of
one copy to the end of another one. -/
namespace Devcash
open Endian Reader InputBuffer

namespace Pbuf

/-- `Devv::proto::FinalBlock`. -/
structure FinalBlock where
  version : Nat
  numBytes : Nat
  blockTime : Nat
  prevHash : Bytes
  merkleRoot : Bytes
  txSize : Nat
  sumSize : Nat
  valCount : Nat
  txs : List Transaction
  summary : Bytes
  vals : Bytes

/-- `Devv::proto::Proposal`. -/
structure Proposal where
  oracleName : String
  data : Bytes

/-- `Devv::proto::Envelope`. -/
structure Envelope where
  txs : List Transaction
  proposals : List Proposal

section
/-! `text` is a string from `f().getCanonical().begin()` to `f().getCanonical().end()`, where each
call of `f` returns an object of its own. -/
variable (text : Bytes → Result Bytes)

def serializeTransfer (xfer : Devcash.Transfer) : Result Transfer := do
  let canonical ← xfer.getAddress
  let addr ← text canonical.getCanonical
  let coin ← xfer.getCoin
  let amount ← xfer.getAmount
  let delay ← xfer.getDelay
  .ok ⟨addr, coin, amount, delay⟩

def serializeTransaction (oneTx : Tier2Transaction) : Result Transaction := do
  let operation ← oneTx.getOperation
  let nonce ← oneTx.getNonce
  let xfers ← oneTx.getTransfers
  let transfers ← xfers.mapM (serializeTransfer text)
  let sig ← oneTx.getSignature
  .ok ⟨operation.toNat, transfers, nonce, sig.getCanonical⟩

/-- The body of the loops over the transactions of a block and of an envelope. -/
def serializeBinary (oneTx : Bytes) : Result Transaction := do
  let r ← Tier2Transaction.quickCreate (ofBytes oneTx)
  serializeTransaction text r.1

def serializeFinalBlock (block : Devcash.FinalBlock) : Result FinalBlock := do
  let txs ← block.rawTransactions.mapM (serializeBinary text)
  .ok { version := block.version.toNat, numBytes := block.numBytes, blockTime := block.blockTime,
        prevHash := block.prevHash.1, merkleRoot := block.merkleRoot.1, txSize := block.txSize,
        sumSize := block.sumSize, valCount := block.valCount, txs,
        summary := block.summary.getCanonical, vals := block.vals.getCanonical }

def serializeEnvelopeFromBinaryTransactions (txs : List Bytes) : Result Envelope := do
  let txs ← txs.mapM (serializeBinary text)
  .ok ⟨txs, []⟩

end

/-- The message with every address, the operation and the signature in full. -/
def Transaction.full (pb : Transaction) (sig : Signature) : Transaction where
  operation := pb.oper.toNat
  xfers := pb.xfers.map fun x => { x with address := x.flow.addr.canonical }
  nonce := pb.nonce
  sig := sig.canonical

/-- The transfer with the string for its address. -/
def Transfer.written (text : Bytes → Result Bytes) (x : Transfer) : Result Transfer := do
  let address ← text x.flow.addr.canonical
  .ok { x with address }

/-- The message with the strings for its addresses. -/
def Transaction.written (text : Bytes → Result Bytes) (pb : Transaction) (sig : Signature) :
    Result Transaction := do
  let xfers ← pb.xfers.mapM (Transfer.written text)
  .ok { pb.full sig with xfers }

section
variable {text : Bytes → Result Bytes} {pb : Transaction} {sig : Signature} (h : pb.Typed sig)
include h

end

end Pbuf
end Devcash
