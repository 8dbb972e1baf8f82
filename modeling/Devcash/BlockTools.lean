import Devcash.ChainDump

/-! What a file holds: the tests of `block_tools.cpp` and the readers that ask them. Both
tests look at the first 17 bytes, as the header of a block or as that of a transaction,
and at the size of the file. -/
namespace Devcash
open Endian Reader InputBuffer

/-- `raw[i]`. -/
def subscript (raw : Bytes) (i : Nat) : Result Byte :=
  match raw[i]? with
  | some b => .ok b
  | none => .error .badAccess

/-- `now` is `GetMillisecondsSinceEpoch()`. -/
def isBlockData (now : Nat) (raw : Bytes) : Result Bool := do
  if raw.length < FinalBlock.minSize then .ok false
  else
    let version ← subscript raw 0
    if version ≠ 0 then .ok false
    else
      let blockTime ← binToUint64 raw 9
      if blockTime < 1514764800 then .ok false
      else if blockTime > now then .ok false
      else .ok true

def isTxData (raw : Bytes) : Result Bool := do
  if raw.length < kTxMinSize then .ok false
  else
    let xferSize ← binToUint64 raw 0
    let txSize := u64 (kTxMinSize + xferSize)
    if raw.length < txSize then .ok false
    else
      let oper ← subscript raw 16
      if oper.toNat ≥ 4 then .ok false
      else .ok true

/-- How a program reads a file. -/
inductive FileKind where
  | blocks | transactions | unknown
  deriving DecidableEq, Repr

/-- The loop of the scanner asks for transactions first. -/
def scannerReads (now : Nat) (raw : Bytes) : Result FileKind := do
  let isBlock ← isBlockData now raw
  let isTransaction ← isTxData raw
  if isTransaction then .ok .transactions
  else if isBlock then .ok .blocks
  else .ok .unknown

/-- The loop of the verifier asks for blocks first. -/
def verifierReads (now : Nat) (raw : Bytes) : Result FileKind := do
  let isBlock ← isBlockData now raw
  let isTransaction ← isTxData raw
  if isBlock then .ok .blocks
  else if isTransaction then .ok .transactions
  else .ok .unknown

/-- The announcer asks for what its mode announces. -/
def announcerReads (mode : AppMode) (now : Nat) (raw : Bytes) : Result FileKind := do
  let isBlock ← isBlockData now raw
  let isTransaction ← isTxData raw
  if isBlock && mode = .t1 then .ok .blocks
  else if isTransaction && mode ≠ .t1 then .ok .transactions
  else .ok .unknown

section
variable (word : Nat) (rest : Bytes)

theorem subscript_leBytes (i v : Nat) :
    subscript (leBytes (i + (v + 1)) word ++ rest) i = .ok (UInt8.ofNat (word / 256 ^ i)) := by
  have hlen : i < (leBytes (i + (v + 1)) word).length := by
    rw [length_leBytes]
    omega
  have hbyte : (leBytes (i + (v + 1)) word)[i]? = some (UInt8.ofNat (word / 256 ^ i)) := by
    rw [← List.head?_drop, drop_leBytes]
    rfl
  rw [subscript, List.getElem?_append_left hlen, hbyte]

theorem binToUint64_leBytes (i v : Nat) :
    binToUint64 (leBytes (i + (8 + v)) word ++ rest) i = .ok (word / 256 ^ i % 2 ^ 64) := by
  have hwindow : ((leBytes (i + (8 + v)) word ++ rest).drop i).take 8 =
      leBytes 8 (word / 256 ^ i) := by
    rw [List.drop_append_of_le_length (by rw [length_leBytes]; omega), drop_leBytes,
      List.take_append_of_le_length (by rw [length_leBytes]; omega), take_leBytes]
  rw [binToUint64_eq (by rw [List.length_append, length_leBytes]; omega), hwindow,
    leValue_leBytes]
  rfl

/-- The first 17 bytes as one word: the bytes 0 and 9 to 16 decide whether a block starts. -/
theorem isBlockData_word (now : Nat) :
    isBlockData now (leBytes 17 word ++ rest) = .ok (decide
      (FinalBlock.minSize ≤ (leBytes 17 word ++ rest).length ∧ word % 256 = 0 ∧
        1514764800 ≤ word / 256 ^ 9 % 2 ^ 64 ∧ word / 256 ^ 9 % 2 ^ 64 ≤ now)) := by
  have hversion := subscript_leBytes word rest 0 16
  have htime := binToUint64_leBytes word rest 9 0
  have hzero : UInt8.ofNat (word / 256 ^ 0) = 0 ↔ word % 256 = 0 := by
    rw [← UInt8.toNat_inj, pow_zero, Nat.div_one]
    simp
  rw [isBlockData, hversion]
  simp only [Result.bind_ok, htime, ne_eq, hzero]
  split_ifs with hsize hv hold hnew
  · exact congrArg _ (decide_eq_false (fun h => absurd h.1 (Nat.not_le.mpr hsize))).symm
  · exact congrArg _ (decide_eq_false (fun h => absurd h.2.2.1 (Nat.not_le.mpr hold))).symm
  · exact congrArg _ (decide_eq_false (fun h => absurd h.2.2.2 (Nat.not_le.mpr hnew))).symm
  · exact congrArg _ (decide_eq_true
      ⟨Nat.not_lt.mp hsize, hv, Nat.not_lt.mp hold, Nat.not_lt.mp hnew⟩).symm
  · exact congrArg _ (decide_eq_false (fun h => hv h.2.1)).symm

theorem isTxData_word : isTxData (leBytes 17 word ++ rest) = .ok (decide
    (kTxMinSize ≤ (leBytes 17 word ++ rest).length ∧
      u64 (kTxMinSize + word % 2 ^ 64) ≤ (leBytes 17 word ++ rest).length ∧
      word / 256 ^ 16 % 256 < 4)) := by
  have hxfers := binToUint64_leBytes word rest 0 9
  have hoper := subscript_leBytes word rest 16 0
  have hbyte : (UInt8.ofNat (word / 256 ^ 16)).toNat = word / 256 ^ 16 % 256 := by simp
  rw [isTxData, hxfers]
  simp only [Result.bind_ok, hoper, hbyte, pow_zero, Nat.div_one]
  split_ifs with hsize hxfer hop
  · exact congrArg _ (decide_eq_false (fun h => absurd h.1 (Nat.not_le.mpr hsize))).symm
  · exact congrArg _ (decide_eq_false (fun h => absurd h.2.1 (Nat.not_le.mpr hxfer))).symm
  · exact congrArg _ (decide_eq_false (fun h => absurd h.2.2 (Nat.not_lt.mpr hop))).symm
  · exact congrArg _ (decide_eq_true
      ⟨Nat.not_lt.mp hsize, Nat.not_lt.mp hxfer, Nat.not_le.mp hop⟩).symm

end

/-- All readers take a file for what it is, the announcer in the mode that announces it. -/
structure Classified (kind : FileKind) (now : Nat) (raw : Bytes) : Prop where
  block : isBlockData now raw = .ok (kind = .blocks)
  transaction : isTxData raw = .ok (kind = .transactions)
  scanner : scannerReads now raw = .ok kind
  verifier : verifierReads now raw = .ok kind
  announcer : ∀ mode r, announcerReads mode now raw = .ok r → r = kind ∨ r = .unknown

theorem classified_blocks_iff {now : Nat} {raw : Bytes} (hblock : isBlockData now raw = .ok true) :
    Classified .blocks now raw ↔ isTxData raw = .ok false := by
  refine ⟨fun h => h.transaction, fun h => ⟨hblock, h, ?_, ?_, ?_⟩⟩
  · simp [scannerReads, hblock, h]
  · simp [verifierReads, hblock, h]
  · intro mode r hr
    rw [announcerReads, hblock, h] at hr
    cases mode with
    | t1 =>
      cases hr
      exact .inl rfl
    | t2 =>
      cases hr
      exact .inr rfl
    | scan =>
      cases hr
      exact .inr rfl

theorem classified_transactions_iff {now : Nat} {raw : Bytes} (htx : isTxData raw = .ok true) :
    Classified .transactions now raw ↔ isBlockData now raw = .ok false := by
  refine ⟨fun h => h.block, fun h => ⟨h, htx, ?_, ?_, ?_⟩⟩
  · simp [scannerReads, htx, h]
  · simp [verifierReads, htx, h]
  · intro mode r hr
    rw [announcerReads, h, htx] at hr
    cases mode with
    | t1 =>
      cases hr
      exact .inr rfl
    | t2 =>
      cases hr
      exact .inl rfl
    | scan =>
      cases hr
      exact .inl rfl

theorem BlockFields.HeaderFits.getCanonical_word {f : BlockFields} (h : f.HeaderFits) :
    f.getCanonical = leBytes 17 (256 * (f.numBytes + 2 ^ 64 * f.blockTime)) ++
      f.getCanonical.drop 17 := by
  have hword : [f.version] ++ leBytes 8 f.numBytes ++ leBytes 8 f.blockTime =
      leBytes 17 (256 * (f.numBytes + 2 ^ 64 * f.blockTime)) := by
    have hbytes := h.numBytes
    rw [h.version, show [(0 : Byte)] = leBytes 1 0 from rfl, leBytes_append, leBytes_append]
    congr 1
    omega
  have htake : f.getCanonical.take 17 = [f.version] ++ leBytes 8 f.numBytes ++
      leBytes 8 f.blockTime := by
    rw [BlockFields.getCanonical_nested]
    simp [List.take_append, List.take_of_length_le]
  rw [← hword, ← htake, List.take_append_drop]

theorem Tier2Transaction.layout_word {oper : Byte} {xfers : List Transfer} {nonce : Bytes}
    (hx : (xfers.flatMap Transfer.getCanonical).length < 2 ^ 64) (hn : nonce.length < 2 ^ 64) :
    layout oper xfers nonce = leBytes 17 ((xfers.flatMap Transfer.getCanonical).length +
      2 ^ 64 * (nonce.length + 2 ^ 64 * oper.toNat)) ++
        (xfers.flatMap Transfer.getCanonical ++ nonce) := by
  have hword : leBytes 8 (xfers.flatMap Transfer.getCanonical).length ++ leBytes 8 nonce.length ++
      [oper] = leBytes 17 ((xfers.flatMap Transfer.getCanonical).length +
        2 ^ 64 * (nonce.length + 2 ^ 64 * oper.toNat)) := by
    have hoper : [oper] = leBytes 1 oper.toNat := by simp [leBytes]
    rw [hoper, leBytes_append, leBytes_append]
    congr 1
    omega
  rw [layout_eq, u64_of_lt hx, ← hword]
  simp

section
variable {now : Nat} {f : FinalBlock} (hf : f.HeaderFits) (rest : Bytes)
include hf

theorem isBlockData_dump (hsince : 1514764800 ≤ f.blockTime) (hnow : f.blockTime ≤ now) :
    isBlockData now (f.getCanonical ++ rest) = .ok true := by
  have hsize : FinalBlock.minSize ≤ (f.getCanonical ++ rest).length := by
    have hmin := BlockFields.length_getCanonical f.toBlockFields
    rw [List.length_append]
    omega
  have htime : 256 * (f.numBytes + 2 ^ 64 * f.blockTime) / 256 ^ 9 % 2 ^ 64 = f.blockTime := by
    have hbytes := hf.numBytes
    have hrange := hf.blockTime
    omega
  rw [hf.getCanonical_word, List.append_assoc] at hsize ⊢
  rw [isBlockData_word, htime]
  exact congrArg _ (decide_eq_true ⟨hsize, by omega, hsince, hnow⟩)

theorem isTxData_dump : isTxData (f.getCanonical ++ rest) = .ok (decide
    (u64 (kTxMinSize + u64 (256 * f.numBytes)) ≤ (f.getCanonical ++ rest).length ∧
      f.blockTime < 2 ^ 58)) := by
  have hsize : kTxMinSize ≤ (f.getCanonical ++ rest).length := by
    have hmin := BlockFields.length_getCanonical f.toBlockFields
    rw [FinalBlock.minSize] at hmin
    rw [List.length_append, kTxMinSize]
    omega
  have hxfers : 256 * (f.numBytes + 2 ^ 64 * f.blockTime) % 2 ^ 64 = u64 (256 * f.numBytes) := by
    rw [u64]
    omega
  have hoper : 256 * (f.numBytes + 2 ^ 64 * f.blockTime) / 256 ^ 16 % 256 < 4 ↔
      f.blockTime < 2 ^ 58 := by
    have hbytes := hf.numBytes
    have hrange := hf.blockTime
    omega
  rw [hf.getCanonical_word, List.append_assoc] at hsize ⊢
  rw [isTxData_word, hxfers]
  simp only [hsize, hoper, true_and]

end

section
variable {oper : Byte} {xfers : List Transfer} {nonce : Bytes} {sig : Signature} {rest : Bytes}
  (hop : oper.toNat < OpType.numOperations) (hsig : sig.IsWallet ∨ sig.IsNode)
  (hbuf : Addressable (Tier2Transaction.layout oper xfers nonce ++ sig.canonical ++ rest))
include hsig hbuf

theorem layout_sizes : (xfers.flatMap Transfer.getCanonical).length < 2 ^ 64 ∧
    nonce.length < 2 ^ 64 ∧ kTxMinSize + (xfers.flatMap Transfer.getCanonical).length ≤
      (Tier2Transaction.layout oper xfers nonce ++ sig.canonical ++ rest).length := by
  have hmin : kWalletSigBufSize ≤ sig.canonical.length := by
    cases hsig with
    | inl h => rw [h.1]
    | inr h => rw [h.1]; decide
  have hlen : (Tier2Transaction.layout oper xfers nonce ++ sig.canonical ++ rest).length =
      kTransferOffset + (xfers.flatMap Transfer.getCanonical).length + nonce.length +
        sig.canonical.length + rest.length := by
    rw [Tier2Transaction.layout_eq]
    simp only [List.length_append, List.length_cons, length_leBytes, kTransferOffset]
    omega
  rw [Addressable] at hbuf
  simp only [kWalletSigBufSize, kWalletSigSize, kTransferOffset, kTxMinSize] at hmin hlen ⊢
  omega

include hop in
theorem isTxData_layout : isTxData (Tier2Transaction.layout oper xfers nonce ++ sig.canonical ++
    rest) = .ok true := by
  obtain ⟨hx, hn, hsize⟩ := layout_sizes hsig hbuf
  rw [Addressable] at hbuf
  rw [Tier2Transaction.layout_word hx hn, List.append_assoc, List.append_assoc] at hsize hbuf ⊢
  rw [isTxData_word]
  have hoper := oper.toNat_lt
  rw [OpType.numOperations] at hop
  refine congrArg _ (decide_eq_true ⟨by omega, ?_, by omega⟩)
  rw [Nat.add_mul_mod_self_left, Nat.mod_eq_of_lt hx, u64_of_lt (by omega)]
  exact hsize

theorem isBlockData_layout (now : Nat) : isBlockData now
    (Tier2Transaction.layout oper xfers nonce ++ sig.canonical ++ rest) = .ok (decide
      (FinalBlock.minSize ≤
          (Tier2Transaction.layout oper xfers nonce ++ sig.canonical ++ rest).length ∧
        (xfers.flatMap Transfer.getCanonical).length % 256 = 0 ∧
        1514764800 ≤ nonce.length / 256 + 2 ^ 56 * oper.toNat ∧
        nonce.length / 256 + 2 ^ 56 * oper.toNat ≤ now)) := by
  obtain ⟨hx, hn, -⟩ := layout_sizes hsig hbuf
  have hoper := oper.toNat_lt
  have htime : ((xfers.flatMap Transfer.getCanonical).length +
      2 ^ 64 * (nonce.length + 2 ^ 64 * oper.toNat)) / 256 ^ 9 % 2 ^ 64 =
        nonce.length / 256 + 2 ^ 56 * oper.toNat := by
    omega
  have hversion : ((xfers.flatMap Transfer.getCanonical).length +
      2 ^ 64 * (nonce.length + 2 ^ 64 * oper.toNat)) % 256 =
        (xfers.flatMap Transfer.getCanonical).length % 256 := by
    omega
  rw [Tier2Transaction.layout_word hx hn, List.append_assoc, List.append_assoc, isBlockData_word,
    htime, hversion]

end

/-- A chain dump is read as blocks unless the file is so long that the size of its first block,
read as that of the transfers, fits; transactions are read as such unless their transfers take
a multiple of 256 bytes and the operation, read as the top of a block time, is in the past. -/
theorem classified_iff {now : Nat} {f : FinalBlock} (hf : f.HeaderFits)
    (hsince : 1514764800000 ≤ f.blockTime) (hnow : f.blockTime ≤ now) (chain : Blockchain)
    {oper : Byte} {xfers : List Transfer} {nonce : Bytes} {sig : Signature}
    (hop : oper.toNat < OpType.numOperations) (hnonce : nonce.length < 2 ^ 32)
    (hsig : sig.IsWallet ∨ sig.IsNode) (encodings : List Bytes)
    (hbuf : Addressable (Tier2Transaction.layout oper xfers nonce ++ sig.canonical ++
      encodings.flatten)) :
    (Classified .blocks now (Blockchain.binaryDump (f :: chain)) ↔
      (Blockchain.binaryDump (f :: chain)).length < u64 (kTxMinSize + u64 (256 * f.numBytes)) ∨
        2 ^ 58 ≤ f.blockTime) ∧
    (Classified .transactions now
        (((Tier2Transaction.layout oper xfers nonce ++ sig.canonical) :: encodings).flatten) ↔
      ¬ (FinalBlock.minSize ≤
          ((Tier2Transaction.layout oper xfers nonce ++ sig.canonical) :: encodings).flatten.length ∧
        (xfers.flatMap Transfer.getCanonical).length % 256 = 0 ∧ 0 < oper.toNat ∧
        nonce.length / 256 + 2 ^ 56 * oper.toNat ≤ now)) := by
  constructor
  · rw [Blockchain.binaryDump, List.flatMap_cons,
      classified_blocks_iff (isBlockData_dump hf _ (by omega) hnow), isTxData_dump hf]
    simp only [Except.ok.injEq, decide_eq_false_iff_not]
    omega
  · rw [List.flatten_cons, classified_transactions_iff (isTxData_layout hop hsig hbuf),
      isBlockData_layout hsig hbuf]
    -- without an operation the time read is the size of the nonce, long before 2018
    have htime : 1514764800 ≤ nonce.length / 256 + 2 ^ 56 * oper.toNat ↔ 0 < oper.toNat := by
      omega
    simp only [Except.ok.injEq, decide_eq_false_iff_not, htime]

/-- A block of 2018 that holds nothing. -/
def FinalBlock.sampleSmall : FinalBlock :=
  { BlockFields.default with
    numBytes := 105
    blockTime := 1514764800000
    sumSize := Summary.empty.getByteSize
    blockState := ChainState.empty }

theorem FinalBlock.isTier2_sampleSmall : sampleSmall.IsTier2 := by
  refine ⟨⟨⟨rfl, by decide, by decide, by decide, by decide, by decide⟩,
    by decide, rfl, rfl, rfl⟩, ?_, Summary.byItems_empty, by decide⟩
  intro c hc
  cases hc

theorem classified_iff_samples :
    Classified .blocks 1514764800000 (Blockchain.binaryDump [FinalBlock.sampleSmall]) ∧
      Classified .transactions 1514764800000 [Tier2Transaction.samplePayment.canonical].flatten := by
  have h := @classified_iff 1514764800000 FinalBlock.sampleSmall
    FinalBlock.isTier2_sampleSmall.toHeaderFits (by decide) (by decide) [] OpType.exchange.toByte
    [Transfer.make (Address.sample 1) 1 (-5) 0, Transfer.make (Address.sample 2) 1 5 0]
    [0, 1, 2, 3, 4, 5, 6, 7]
    (Ossl.toySignature (Address.sample 1) (Ossl.toyHash (Tier2Transaction.layout
      OpType.exchange.toByte
      [Transfer.make (Address.sample 1) 1 (-5) 0, Transfer.make (Address.sample 2) 1 5 0]
      [0, 1, 2, 3, 4, 5, 6, 7])))
    (by decide) (by decide) (by decide) [] (by decide +kernel)
  exact ⟨h.1.mpr (.inl (by decide)), h.2.mpr (by decide +kernel)⟩

/-- In a chain of 257 such blocks the scanner reads transactions. -/
theorem sampleSmall_chain : FinalBlock.sampleSmall.IsTier2 ∧
    isTxData (Blockchain.binaryDump (List.replicate 257 FinalBlock.sampleSmall)) = .ok true ∧
    scannerReads 1514764800000
      (Blockchain.binaryDump (List.replicate 257 FinalBlock.sampleSmall)) = .ok .transactions ∧
    verifierReads 1514764800000
      (Blockchain.binaryDump (List.replicate 257 FinalBlock.sampleSmall)) = .ok .blocks := by
  have hf := FinalBlock.isTier2_sampleSmall.toHeaderFits
  obtain ⟨rest, hrest⟩ : ∃ rest, Blockchain.binaryDump (List.replicate 257 FinalBlock.sampleSmall) =
      FinalBlock.sampleSmall.getCanonical ++ rest := ⟨_, List.flatMap_cons⟩
  have hlen : (FinalBlock.sampleSmall.getCanonical ++ rest).length = 257 * 105 := by
    rw [← hrest, Blockchain.binaryDump, List.flatMap_replicate, List.length_flatten,
      List.map_replicate, List.sum_replicate, ← FinalBlock.isTier2_sampleSmall.numBytes_eq]
    rfl
  have hblock : isBlockData 1514764800000 (FinalBlock.sampleSmall.getCanonical ++ rest) = .ok true :=
    isBlockData_dump hf rest (by decide) (by decide)
  have htx : isTxData (FinalBlock.sampleSmall.getCanonical ++ rest) = .ok true := by
    rw [isTxData_dump hf, hlen]
    rfl
  rw [hrest]
  refine ⟨FinalBlock.isTier2_sampleSmall, htx, ?_, ?_⟩
  · simp [scannerReads, hblock, htx]
  · simp [verifierReads, hblock, htx]

end Devcash
