import Devcash.DevcashMessage
import Devcash.Lib.Run
import Devcash.Repeater
import Devcash.Serialization

/-! The repeater as a whole: one thread writes the final blocks it hears into the directory of
its shard, the other one answers requests from the files. -/
namespace Devcash
open Endian Reader InputBuffer DevvUri

structure RepeaterRequest where
  timestamp : Int
  operation : Nat
  uri : Text

structure RepeaterResponse where
  requestTimestamp : Int
  operation : Nat
  returnCode : Nat
  message : Text
  rawResponse : Bytes

/-- The text of an exception. What the library says about an index is left out. -/
def Error.what : Error → Text
  | .deserialization what | .message what | .runtime what | .rangeError what | .logic what
  | .thrown what => what.toList
  | _ => []

/-- `SerializeToOstream` of the three kinds of messages, and what the string for an address
becomes in `SerializeTransaction`. -/
structure PbufCodec where
  address : Bytes → Result Bytes
  block : Pbuf.FinalBlock → Bytes
  transaction : Pbuf.Transaction → Bytes
  envelope : Pbuf.Envelope → Bytes

namespace Repeater

/-- The directories under the working directory, by name. -/
abbrev WorkingDir := Text → Option ShardDir

/-- The body of `HandleRepeaterRequest`: what it has put into the response stays there when an
exception leaves it. -/
abbrev Service := EStateM Error RepeaterResponse

def call {α : Type} : Result α → Service α
  | .ok a => fun r => .ok a r
  | .error e => fun r => .error e r

/-- A response with a code and a message, and nothing behind it. -/
def refuse (code : Nat) (message : Text) : Service Unit :=
  modify fun r => { r with returnCode := code, message }

def respond (data : Bytes) : Service Unit := modify fun r => { r with rawResponse := data }

def insert (data : Bytes) : Service Unit :=
  modify fun r => { r with rawResponse := r.rawResponse ++ data }

def named (block : Nat) (file : BlockFile) : Bool :=
  file.stem = toText block ∧ file.extension = kBlockExtension

def hasBlock (dir : ShardDir) (block : Nat) : Bool := dir.any (named block)

/-- `for (uint32_t i=first; i<=highest_block; ++i)` with a body that puts bytes behind the
response. -/
def forHeights (read : Nat → Result Bytes) (highest : Nat) : Nat → Nat → Service Unit
  | 0, i => if i ≤ highest then throw .diverges else pure ()
  | fuel+1, i =>
    if i ≤ highest then do
      let data ← call (read i)
      insert data
      forHeights read highest fuel (u32 (i + 1))
    else pure ()

/-- The loop over the transactions of a block that stops at a signature. -/
def findTransaction (txId : Signature) : List Transaction → Result (Option Transaction)
  | [] => .ok none
  | tx :: txs => do
    let sig ← tx.getSignature
    if sig = txId then .ok (some tx) else findTransaction txId txs

def protobufBlock (codec : PbufCodec) (dir : ShardDir) (block : Nat) : Result Bytes := do
  let oneBlock ← readFinalBlock dir block
  let protoBlock ← Pbuf.serializeFinalBlock codec.address oneBlock
  .ok (codec.block protoBlock)

/-- A part of the URI that an operation needs. -/
def demandPart (missing : Bool) (message : Text) (k : Service Unit) : Service Unit :=
  if missing then refuse 1051 message else k

def demandHeight (id : DevvUri) : Service Unit → Service Unit :=
  demandPart (id.blockHeight = kUint32Max) "Block height is missing from the URI.".toList

def demandSig (id : DevvUri) : Service Unit → Service Unit :=
  demandPart id.sig.isNull "Transaction signature is missing from the URI.".toList

def demandAddr (id : DevvUri) : Service Unit → Service Unit :=
  demandPart id.addr.isNull "Transaction address is missing from the URI.".toList

section
variable (codec : PbufCodec) (fuel : Nat) (dir : ShardDir) (id : DevvUri)

/-- The transaction that operations 4 and 8 answer with. -/
def transactionAt : Result (Option Transaction) := do
  let height ← searchForTransaction fuel dir id.blockHeight id.sig
  let oneBlock ← readFinalBlock dir height
  findTransaction id.sig oneBlock.transactionVector

/-- `switch (request->operation)`. -/
def operate : Nat → Service Unit
  | 1 => demandHeight id do
    let block ← call (readBlock dir id.blockHeight)
    respond block
  | 2 => do
    let highest ← call (getHighestBlock dir)
    if id.blockHeight ≤ highest then forHeights (readBlock dir) highest fuel id.blockHeight
    else pure ()
  | 3 => do
    let highest ← call (getHighestBlock dir)
    forHeights (readBlock dir) highest fuel 0
  | 4 => demandHeight id <| demandSig id do
    match ← call (transactionAt fuel dir id) with
    | some tx => respond tx.getCanonical
    | none => pure ()
  | 5 => do
    let pbufBlock ← call (protobufBlock codec dir id.blockHeight)
    respond pbufBlock
  | 6 => do
    let highest ← call (getHighestBlock dir)
    if id.blockHeight ≤ highest then
      forHeights (protobufBlock codec dir) highest fuel id.blockHeight
    else pure ()
  | 7 => do
    let highest ← call (getHighestBlock dir)
    forHeights (protobufBlock codec dir) highest fuel 0
  | 8 => demandHeight id <| demandSig id do
    match ← call (transactionAt fuel dir id) with
    | some tx =>
      let pbufTx ← call (Pbuf.serializeBinary codec.address tx.getCanonical)
      respond (codec.transaction pbufTx)
    | none => pure ()
  | 9 => demandHeight id <| demandSig id do
    let height ← call (searchForTransaction fuel dir id.blockHeight id.sig)
    if height ≠ kUint32Max then insert (uint32ToBin height [])
    else refuse 3020 ("Transaction not found since block ".toList ++ toText id.blockHeight ++ ['.'])
  | 10 => demandHeight id <| demandAddr id do
    let txs ← call (searchForAddress fuel dir id.blockHeight id.addr)
    let envelope ← call (Pbuf.serializeEnvelopeFromBinaryTransactions codec.address txs)
    respond (codec.envelope envelope)
  | operation => refuse 1020 ("Unknown operation: ".toList ++ toText operation)

end

section
variable (codec : PbufCodec) (fuel : Nat) (workingDir : WorkingDir)

/-- What stands inside the `try` of `HandleRepeaterRequest`. -/
def serve (request : RepeaterRequest) : Service Unit := do
  let id ← call (parseDevvUri request.uri)
  if !id.valid then refuse 1052 "URI is not valid.".toList
  else match workingDir id.shard with
    | none => refuse 1050 ("Shard ".toList ++ id.shard ++ " is not available.".toList)
    | some dir =>
      if id.blockHeight ≠ kUint32Max ∧ hasBlock dir id.blockHeight = false then
        refuse 1050 ("Block ".toList ++ toText id.blockHeight ++ " is not available.".toList)
      else operate codec fuel dir id request.operation

/-- What is not an exception is not answered. -/
def handleRepeaterRequest (request : RepeaterRequest) : Result RepeaterResponse :=
  match serve codec fuel workingDir request
      ⟨request.timestamp, request.operation, 0, [], []⟩ with
  | .ok _ response => .ok response
  | .error e response =>
    if e.isException then
      .ok { response with returnCode := 1010, message := "Repeater Error: ".toList ++ e.what }
    else .error e

end

section
variable {α β : Type} {r r' : RepeaterResponse}

@[simp] theorem refuse_eq (code : Nat) (message : Text) :
    refuse code message r = .ok () { r with returnCode := code, message } := rfl

theorem bind_call_ok (a : α) (f : α → Service β) : (call (.ok a) >>= f) r = f a r := rfl

theorem bind_call_error (e : Error) (f : α → Service β) :
    (call (.error e) >>= f) r = .error e r := rfl

theorem bind_call_eq_ok {x : Result α} {f : α → Service β} {b : β}
    (h : (call x >>= f) r = .ok b r') : ∃ a, x = .ok a ∧ f a r = .ok b r' := by
  cases x with
  | error e => cases h
  | ok a => exact ⟨a, rfl, h⟩

end

theorem handle_zero {codec : PbufCodec} {fuel : Nat} {workingDir : WorkingDir}
    {request : RepeaterRequest} {response : RepeaterResponse}
    (h : handleRepeaterRequest codec fuel workingDir request = .ok response)
    (hcode : response.returnCode = 0) : ∃ id dir, parseDevvUri request.uri = .ok id ∧
      workingDir id.shard = some dir ∧
      operate codec fuel dir id request.operation
        ⟨request.timestamp, request.operation, 0, [], []⟩ = .ok () response := by
  rw [handleRepeaterRequest] at h
  split at h
  · rename_i u r hserve
    cases h
    obtain ⟨id, hid, hserve⟩ := bind_call_eq_ok hserve
    split_ifs at hserve with hvalid
    · cases hserve
      cases hcode
    · cases hdir : workingDir id.shard with
      | none =>
        rw [hdir] at hserve
        cases hserve
        cases hcode
      | some dir =>
        simp only [hdir] at hserve
        split_ifs at hserve
        · cases hserve
          cases hcode
        · exact ⟨id, dir, hid, hdir, hserve⟩
  · split_ifs at h
    cases h
    cases hcode

theorem blockHeight_lt {uri : Text} {id : DevvUri} (h : parseDevvUri uri = .ok id) :
    id.blockHeight < 2 ^ 32 := by
  have hpart : ∀ (p : Option Text) (height : Nat), readHeight p = .ok height → height < 2 ^ 32 := by
    intro p height hread
    cases p with
    | none =>
      cases hread
      decide
    | some p =>
      obtain ⟨n, -, hread⟩ := Result.bind_eq_ok hread
      cases hread
      exact Nat.mod_lt _ (by decide)
  rw [parseDevvUri] at h
  split_ifs at h
  · obtain ⟨height, hheight, h⟩ := Result.bind_eq_ok h
    obtain ⟨sig, -, h⟩ := Result.bind_eq_ok h
    obtain ⟨addr, -, h⟩ := Result.bind_eq_ok h
    cases h
    exact hpart _ _ hheight
  · cases h
    decide

theorem highest_of_readBlock {dir : ShardDir} {data : Bytes} {highest : Nat}
    (hread : readBlock dir kUint32Max = .ok data) (hget : getHighestBlock dir = .ok highest) :
    2 ^ 32 - 1 ≤ highest := by
  rw [readBlock] at hread
  split at hread
  · rename_i file hfind
    have hname := List.find?_some hfind
    rw [decide_eq_true_eq] at hname
    obtain ⟨n, hn, hle⟩ := (getHighestBlock_ge hget).2 file (List.mem_of_find?_eq_some hfind)
    rw [hname.1, stoul_toText (by decide)] at hn
    cases hn
    exact hle
  · cases hread

section
variable {fuel : Nat} {dir : ShardDir} {startBlock : Nat} {txId : Signature}

theorem visitTransaction_ne (i : Nat) (g : FinalBlock) (s : Unit) (r : Nat)
    (hread : readFinalBlock dir i = .ok g) : visitTransaction txId i g s ≠ .ok (.inl r) := by
  rw [visitTransaction_none (readFinalBlock_vector hread)]
  intro h
  cases h

theorem searchForTransaction_ok {height : Nat}
    (h : searchForTransaction fuel dir startBlock txId = .ok height) : height = kUint32Max := by
  obtain ⟨highest, -, h⟩ := Result.bind_eq_ok h
  split_ifs at h
  · cases h
    rfl
  · obtain ⟨target, -, h⟩ := Result.bind_eq_ok h
    obtain ⟨x, hloop, h⟩ := Result.bind_eq_ok h
    cases x with
    | inl i => exact absurd hloop (forBlocks_ne_inl visitTransaction_ne _ _ _ _)
    | inr s =>
      cases h
      rfl

/-- Nor is there a block under the number that stands for nothing: the search would have gone
round and round. -/
theorem transactionAt_ne {id : DevvUri} (hheight : id.blockHeight < 2 ^ 32)
    (found : Option Transaction) : transactionAt fuel dir id ≠ .ok found := by
  intro h
  obtain ⟨height, hsearch, h⟩ := Result.bind_eq_ok h
  obtain ⟨oneBlock, hblock, -⟩ := Result.bind_eq_ok h
  obtain rfl := searchForTransaction_ok hsearch
  obtain ⟨data, hread, -⟩ := Result.bind_eq_ok hblock
  obtain ⟨highest, hget, hsearch⟩ := Result.bind_eq_ok hsearch
  have hhigh := highest_of_readBlock hread hget
  rw [if_neg (by omega)] at hsearch
  obtain ⟨target, -, hsearch⟩ := Result.bind_eq_ok hsearch
  obtain ⟨x, hloop, -⟩ := Result.bind_eq_ok hsearch
  exact forBlocks_wraps visitTransaction_ne hhigh fuel hheight () x hloop

end

theorem demandPart_zero {missing : Bool} {message : Text} {k : Service Unit} {r r' : RepeaterResponse}
    (h : demandPart missing message k r = .ok () r') (hcode : r'.returnCode = 0) :
    k r = .ok () r' := by
  rw [demandPart] at h
  split_ifs at h
  · cases h
    cases hcode
  · exact h

/-- A request for a transaction by its signature has no answer with code 0, whatever the files
hold: the search comes back without a block, and no block has the number that stands for none. -/
theorem no_transaction_by_signature {codec : PbufCodec} {fuel : Nat} {workingDir : WorkingDir}
    {request : RepeaterRequest} {response : RepeaterResponse}
    (h : handleRepeaterRequest codec fuel workingDir request = .ok response)
    (hop : request.operation ∈ [4, 8, 9]) : response.returnCode ≠ 0 := by
  intro hcode
  obtain ⟨id, dir, hid, -, hserve⟩ := handle_zero h hcode
  have hheight := blockHeight_lt hid
  simp only [List.mem_cons, List.not_mem_nil, or_false] at hop
  obtain hop | hop | hop := hop
  · rw [hop] at hserve
    obtain ⟨found, hfound, -⟩ := bind_call_eq_ok (demandPart_zero (demandPart_zero hserve hcode) hcode)
    exact transactionAt_ne hheight found hfound
  · rw [hop] at hserve
    obtain ⟨found, hfound, -⟩ := bind_call_eq_ok (demandPart_zero (demandPart_zero hserve hcode) hcode)
    exact transactionAt_ne hheight found hfound
  · rw [hop] at hserve
    obtain ⟨height, hsearch, hserve⟩ :=
      bind_call_eq_ok (demandPart_zero (demandPart_zero hserve hcode) hcode)
    rw [if_neg (not_not_intro (searchForTransaction_ok hsearch))] at hserve
    cases hserve
    cases hcode

/-- A format that keeps the size of a block. -/
def sampleCodec : PbufCodec := ⟨.ok, fun pb => [UInt8.ofNat pb.numBytes], fun _ => [], fun _ => []⟩

def sampleUri (path : List Char) : Text := kDevvProtocol ++ 's' :: path

/-- The sample payment is asked for by its signature, and is not found in its block. -/
theorem no_transaction_by_signature_sampleTxId : ∃ response,
    handleRepeaterRequest sampleCodec 1 (fun _ => some sampleDir)
        ⟨0, 9, sampleUri ('/' :: '0' :: '/' :: sampleTxId.getJSON)⟩ = .ok response ∧
      response.returnCode ≠ 0 := by
  have hanswer : (handleRepeaterRequest sampleCodec 1 (fun _ => some sampleDir)
      ⟨0, 9, sampleUri ('/' :: '0' :: '/' :: sampleTxId.getJSON)⟩).toOption.isSome = true := by
    decide +kernel
  obtain ⟨response, hresponse⟩ := Result.exists_ok hanswer
  exact ⟨response, hresponse, no_transaction_by_signature hresponse (by simp)⟩

end Repeater
end Devcash
