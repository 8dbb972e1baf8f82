import Devcash.ChainFile
import Devcash.Coverage
import Devcash.Progress

/-! What the decoders take from a buffer: the two decoders of Tier-1 transactions, the sizes of
Tier-2 transactions, and transfers of every type byte. -/
namespace Devcash
open Endian Reader InputBuffer

namespace InputBuffer

/-- The bytes from the first offset to the second. -/
def consumed (b b' : InputBuffer) : Bytes := (b.buffer.drop b.offset).take (b'.offset - b.offset)

theorem consumed_of_took {b b' : InputBuffer} {enc : Bytes} (h : Took b enc b') :
    consumed b b' = enc ∧ b'.offset - b.offset = enc.length := by
  obtain ⟨hstart, rfl⟩ := h
  have hlen : b.offset + enc.length - b.offset = enc.length := Nat.add_sub_cancel_left _ _
  refine ⟨?_, hlen⟩
  rw [consumed, hlen]
  exact (List.prefix_iff_eq_take.mp hstart).symm

theorem copy_ofBytes_iff (c post : Bytes) (k : Nat) :
    copy k (ofBytes (c ++ post)) = .ok (c, ⟨c ++ post, c.length⟩) ↔ k = c.length := by
  constructor
  · intro hcopy
    exact (copy_bound hcopy).1.symm
  · rintro rfl
    have hcopy := reads_copy c [] post
    rwa [List.nil_append, List.length_nil, Nat.zero_add] at hcopy

theorem offsetAt_ofBytes {loc : Nat} (h : loc < 2 ^ 64) (buf : Bytes) :
    offsetAt loc (ofBytes buf) = lift (byteAt buf loc) (ofBytes buf) := by
  rw [offsetAt, ofBytes, Nat.add_zero, u64_of_lt h]

end InputBuffer

namespace Transfer

theorem ofBytes_key {typeByte : Byte} {raw : Bytes} (hraw : raw.length = typeByte.toNat)
    (h : typeByte.toNat = kWalletAddrSize ∨ typeByte.toNat = kNodeAddrSize) :
    (Address.ofBytes raw).canonical = typeByte :: raw ∧
      ((Address.ofBytes raw).IsWallet ∨ (Address.ofBytes raw).IsNode) := by
  rw [← hraw] at h
  have hcan : (Address.ofBytes raw).canonical = UInt8.ofNat raw.length :: raw := by
    rw [Address.ofBytes]
    obtain hw | hn := h
    · rw [if_pos hw, hw]
    · rw [if_neg (by rw [hn]; decide), if_neg (fun hb => absurd (hn.symm.trans hb.1) (by decide)),
        if_pos hn, hn]
  have hbyte : UInt8.ofNat raw.length = typeByte := by rw [hraw, UInt8.ofNat_toNat]
  rw [Address.IsWallet, Address.IsNode, hcan, List.length_cons, List.head?_cons]
  refine ⟨by rw [hbyte], ?_⟩
  obtain hw | hn := h
  · exact Or.inl ⟨by rw [hw]; rfl, by rw [hw]⟩
  · exact Or.inr ⟨by rw [hn]; rfl, by rw [hn]⟩

/-- A transfer is decoded canonically if its type byte is that of a wallet or a node, and in no
other case: every other type byte is dropped from the bytes that are kept. -/
theorem ofBuffer_canonical_iff {b b' : InputBuffer} {t : Transfer}
    (h : ofBuffer b = .ok (t, b')) :
    (t.getCanonical = consumed b b' ∧ t.size = b'.offset - b.offset ∧
        ∃ a, t.getAddress = .ok a ∧ (a.IsWallet ∨ a.IsNode)) ↔
      ∃ typeByte, b.buffer[b.offset]? = some typeByte ∧
        (typeByte.toNat = kWalletAddrSize ∨ typeByte.toNat = kNodeAddrSize) := by
  obtain ⟨typeByte, raw, rest, htook, hraw, -, rfl⟩ := ofBuffer_parts h
  have hfirst : b.buffer[b.offset]? = some typeByte := by
    obtain ⟨post, hpost⟩ := htook.1
    rw [← List.head?_drop, ← hpost]
    rfl
  obtain ⟨hconsumed, hlen⟩ := consumed_of_took htook
  constructor
  · rintro ⟨-, hsize, -⟩
    refine ⟨typeByte, hfirst, ?_⟩
    by_contra hother
    have haddr : (Address.ofBytes raw).canonical.length = raw.length := by
      have hs : (Address.ofBytes raw).canonical.length = _ := Address.size_ofBytes raw
      rw [hs, if_neg (by rw [hraw]; exact hother)]
    rw [size, hlen, List.length_append, haddr, List.length_cons, List.length_append] at hsize
    omega
  · rintro ⟨typeByte', hfirst', hkind⟩
    cases hfirst.symm.trans hfirst'
    obtain ⟨haddr, hk⟩ := ofBytes_key hraw hkind
    refine ⟨?_, ?_, _, getAddress_append hk rfl, hk⟩
    · rw [getCanonical, haddr, hconsumed, List.cons_append]
    · rw [size, haddr, hlen, List.cons_append]

theorem ofBuffer_canonical_iff_sample :
    (Transfer.make (Address.sample 1) 1 (-5) 0).getCanonical =
        consumed (ofBytes (Transfer.make (Address.sample 1) 1 (-5) 0).canonical)
          ⟨(Transfer.make (Address.sample 1) 1 (-5) 0).canonical, 58⟩ ∧
      (Transfer.make (Address.sample 1) 1 (-5) 0).size = 58 ∧
      ∃ a, (Transfer.make (Address.sample 1) 1 (-5) 0).getAddress = .ok a ∧
        (a.IsWallet ∨ a.IsNode) :=
  (ofBuffer_canonical_iff (b := ofBytes (Transfer.make (Address.sample 1) 1 (-5) 0).canonical)
    (by decide)).mpr ⟨33, by decide, Or.inl rfl⟩

/-- The sample transfer with the type byte 34 in front of its own. -/
def doublyTyped : Bytes := 34 :: (Transfer.make (Address.sample 1) 1 (-5) 0).canonical

/-- Two encodings of one transfer: the second is a byte longer than what is kept of it. -/
theorem doublyTyped_misread :
    ofBuffer (ofBytes (Transfer.make (Address.sample 1) 1 (-5) 0).canonical) =
        .ok (Transfer.make (Address.sample 1) 1 (-5) 0,
          ⟨(Transfer.make (Address.sample 1) 1 (-5) 0).canonical, 58⟩) ∧
      ofBuffer (ofBytes doublyTyped) =
        .ok (Transfer.make (Address.sample 1) 1 (-5) 0, ⟨doublyTyped, 59⟩) ∧
      (Transfer.make (Address.sample 1) 1 (-5) 0).size = 58 := by
  decide

end Transfer

namespace Tier2Transaction
variable {o : Ossl} {tx : Tier2Transaction}

/-- The envelope, the transfers and the nonce, by their stored sizes, are among the bytes. -/
def Sized (tx : Tier2Transaction) : Prop :=
  kEnvelopeSize + tx.xferSize + tx.nonceSize ≤ tx.canonical.length

end Tier2Transaction

namespace Tier1Transaction
variable {o : Ossl} {keys : KeyRing o}

/-- What the caller of a decoder gets: nothing if the bytes are rejected, else the bytes of the
transaction, its flag and the offset. -/
def outcome (x : Result (Tier1Transaction × InputBuffer)) : Option (Bytes × Bool × Nat) :=
  x.toOption.map (fun p => (p.1.canonical, p.1.isSoundFlag, p.2.offset))

@[simp] theorem outcome_ok (tx : Tier1Transaction) (b : InputBuffer) :
    outcome (.ok (tx, b)) = some (tx.canonical, tx.isSoundFlag, b.offset) := rfl

@[simp] theorem outcome_error (e : Error) : outcome (.error e) = none := rfl

section
variable {b : InputBuffer} {n : Nat} (hword : getNextUint64 false b = .ok (n, b))
include hword

section
variable {c : Bytes} {b1 : InputBuffer} (hcopy : copy (wholeSize n) b = .ok (c, b1))
include hcopy

end

end

theorem getNextT1Transaction_of_encoding {n : Nat} {c : Bytes} (h : IsEncoding n c) (suffix : Bytes) :
    getNextT1Transaction (ofBytes (c ++ suffix)) = .ok (c, ⟨c ++ suffix, c.length⟩) := by
  have hpeek : getNextUint64 false (ofBytes (c ++ suffix)) = .ok (n, ofBytes (c ++ suffix)) :=
    h.peek [] suffix
  have hsize := h.wholeSize_eq
  rw [wholeSize] at hsize
  have hroom : ¬ InputBuffer.size (ofBytes (c ++ suffix)) <
      u64 ((ofBytes (c ++ suffix)).offset + c.length) := by
    rw [InputBuffer.size, ofBytes, Nat.zero_add, u64_of_lt h.bytes, List.length_append]
    omega
  have hcopy := InputBuffer.reads_copy c [] suffix
  rw [List.nil_append, List.length_nil, Nat.zero_add] at hcopy
  simp only [getNextT1Transaction]
  rw [bind_of_ok hpeek, hsize, if_neg hroom]
  exact hcopy

/-- Bytes that `getNextT1Transaction` takes are also what `getNextTransaction` takes exactly if
no operation is found in them, or if the sizes that are found lead to a byte of the buffer and
from it beyond the end, or just to the end of the transaction. -/
theorem getNextTransaction_tier1_iff {buf c post : Bytes} {x n : Nat} {op : Byte}
    (hbuf : buf = c ++ post) (hroom : kTxMinSize ≤ buf.length)
    (hx : getNextUint64 false (ofBytes buf) = .ok (x, ofBytes buf))
    (hn : getSecondUint64 false (ofBytes buf) = .ok (n, ofBytes buf)) (hmin : kMinNonceSize ≤ n)
    (hop : offsetAt kOperationOffset (ofBytes buf) = .ok (op, ofBytes buf))
    (htier1 : getNextT1Transaction (ofBytes buf) = .ok (c, ⟨buf, c.length⟩)) :
    getNextTransaction (ofBytes buf) = .ok (c, ⟨buf, c.length⟩) ↔
      (op.toNat < OpType.numOperations →
        ∃ t, byteAt buf (u64 (kTransferOffset + x + n)) = .ok t ∧
          (buf.length < u64 (t.toNat + kTransferOffset + x + n + 1) ∨
            u64 (t.toNat + kTransferOffset + x + n + 1) = c.length)) := by
  have hsmall : ¬ InputBuffer.size (ofBytes buf) < (ofBytes buf).offset + kTxMinSize := by
    rw [InputBuffer.size, ofBytes, Nat.zero_add]
    exact Nat.not_lt.mpr hroom
  simp only [getNextTransaction, if_neg hsmall]
  rw [bind_of_ok hx, bind_of_ok hn, if_neg (Nat.not_lt.mpr hmin), bind_of_ok hop]
  by_cases hnum : OpType.numOperations ≤ op.toNat
  · rw [if_pos hnum]
    exact iff_of_true htier1 (fun h => absurd h (Nat.not_lt.mpr hnum))
  rw [if_neg hnum]
  simp only [Nat.not_le.mp hnum, true_imp_iff]
  cases ht : byteAt buf (u64 (kTransferOffset + x + n)) with
  | error err =>
    have htype : offsetAt (u64 (kTransferOffset + x + n)) (ofBytes buf) = .error err := by
      rw [offsetAt_ofBytes (u64_lt _), ht]
      rfl
    rw [bind_of_error htype]
    exact iff_of_false (by simp) (by simp)
  | ok t =>
    have htype : offsetAt (u64 (kTransferOffset + x + n)) (ofBytes buf) = .ok (t, ofBytes buf) := by
      rw [offsetAt_ofBytes (u64_lt _), ht]
      rfl
    have hend : u64 ((ofBytes buf).offset + u64 (t.toNat + kTransferOffset + x + n + 1)) =
        u64 (t.toNat + kTransferOffset + x + n + 1) := by
      rw [ofBytes, Nat.zero_add, u64_of_lt (u64_lt _)]
    have hlen : InputBuffer.size (ofBytes buf) = buf.length := rfl
    rw [bind_of_ok htype]
    simp only [hend, hlen, Except.ok.injEq, exists_eq_left']
    generalize u64 (t.toNat + kTransferOffset + x + n + 1) = k
    by_cases hlong : buf.length < k
    · rw [if_pos hlong]
      exact iff_of_true htier1 (Or.inl hlong)
    · rw [if_neg hlong, or_iff_right hlong, hbuf]
      exact copy_ofBytes_iff c post k

/-- What `getNextTransaction` takes for the size of a nonce: the count of the addresses and the
first bytes of the first one. -/
def guessedNonce (s : Summary) (first : Address) : Nat :=
  u32 s.summary.size + 2 ^ 32 * leValue (first.canonical.take 4)

theorem kMinNonceSize_le_guessedNonce (s : Summary) {a : Address} (hkind : a.IsWallet ∨ a.IsNode) :
    kMinNonceSize ≤ guessedNonce s a := by
  obtain ⟨t, raw, hc, -, -⟩ := Address.ofBytes_tail hkind
  have ht : 33 ≤ t.toNat := by
    rw [Address.IsWallet, Address.IsNode, hc, List.head?_cons] at hkind
    obtain ⟨-, h⟩ | ⟨-, h⟩ := hkind
    · cases h
      decide
    · cases h
      decide
  rw [guessedNonce, hc, List.take_succ_cons, leValue, kMinNonceSize]
  omega

section
variable {s : Summary} {e : Address × SummaryPair} {nodeAddr : Address} {sig : Signature}
  (hfirst : s.summary.entries.head? = some e) (hkind : e.1.IsWallet ∨ e.1.IsNode)
include hfirst hkind

theorem encode_split : ∃ op rest, e.1.canonical[4]? = some op ∧
    encode s nodeAddr sig = leBytes 8 s.getByteSize ++
      leBytes 8 (guessedNonce s e.1) ++ op :: rest := by
  obtain ⟨l, hl⟩ : ∃ l, s.summary.entries = e :: l := List.head?_eq_some_iff.mp hfirst
  have hlen : 33 < e.1.canonical.length := by
    obtain hw | hn := hkind
    · rw [hw.1]; decide
    · rw [hn.1]; decide
  obtain ⟨op, hop⟩ : ∃ op, e.1.canonical[4]? = some op := ⟨_, List.getElem?_eq_getElem (by omega)⟩
  have htake : (e.1.canonical.take 4).length = 4 := by
    rw [List.length_take]
    omega
  have hnonce : leBytes 8 (guessedNonce s e.1) =
      leBytes 4 (u32 s.summary.size) ++ e.1.canonical.take 4 := by
    have hvalue : leValue (leBytes 4 (u32 s.summary.size) ++ e.1.canonical.take 4) =
        guessedNonce s e.1 := by
      rw [leValue_append, leValue_leBytes, length_leBytes, guessedNonce]
      congr 1
      exact Nat.mod_eq_of_lt (Nat.mod_lt _ (by decide))
    have hbytes := leBytes_leValue (leBytes 4 (u32 s.summary.size) ++ e.1.canonical.take 4)
    rwa [List.length_append, length_leBytes, htake, hvalue] at hbytes
  have haddr : e.1.canonical = e.1.canonical.take 4 ++ op :: e.1.canonical.drop 5 := by
    obtain ⟨hlt, hget⟩ := List.getElem?_eq_some_iff.mp hop
    rw [← hget, ← List.drop_eq_getElem_cons hlt, List.take_append_drop]
  refine ⟨op, e.1.canonical.drop 5 ++ (leBytes 8 e.2.1.size ++ (leBytes 8 e.2.2.size ++
    (e.2.1.entries.flatMap Summary.delayedBytes ++ e.2.2.entries.flatMap Summary.coinBytes))) ++
      (l.flatMap Summary.entryBytes ++ (nodeAddr.canonical ++ sig.canonical)), hop, ?_⟩
  rw [encode_eq, Summary.getCanonical_eq, hl, List.flatMap_cons, Summary.entryBytes, hnonce]
  nth_rewrite 1 [haddr]
  simp only [List.append_assoc, List.cons_append]

variable {suffix : Bytes} (hsize : (encode s nodeAddr sig ++ suffix).length < 2 ^ 64)
include hsize

theorem encode_words : ∃ op, e.1.canonical[4]? = some op ∧
    getNextUint64 false (ofBytes (encode s nodeAddr sig ++ suffix)) =
      .ok (s.getByteSize, ofBytes (encode s nodeAddr sig ++ suffix)) ∧
    getSecondUint64 false (ofBytes (encode s nodeAddr sig ++ suffix)) =
      .ok (guessedNonce s e.1, ofBytes (encode s nodeAddr sig ++ suffix)) ∧
    offsetAt kOperationOffset (ofBytes (encode s nodeAddr sig ++ suffix)) =
      .ok (op, ofBytes (encode s nodeAddr sig ++ suffix)) := by
  obtain ⟨op, rest, hop, hsplit⟩ := @encode_split _ _ nodeAddr sig hfirst hkind
  have hbytes : s.getByteSize < 2 ^ 64 := by
    rw [encode_eq] at hsize
    simp only [List.length_append] at hsize
    rw [Summary.getByteSize]
    omega
  have hnonce : guessedNonce s e.1 < 2 ^ 64 := by
    have hlt := leValue_lt (e.1.canonical.take 4)
    have hle : 256 ^ (e.1.canonical.take 4).length ≤ 256 ^ 4 :=
      Nat.pow_le_pow_right (by decide) (List.length_take_le 4 _)
    have hcount : u32 s.summary.size < 2 ^ 32 := Nat.mod_lt _ (by decide)
    rw [guessedNonce]
    omega
  have hword := getNextUint64_peek [] (leBytes 8 (guessedNonce s e.1) ++ op :: rest ++ suffix) hbytes
  have hsecond := getSecondUint64_peek [] (leBytes 8 s.getByteSize) (op :: rest ++ suffix)
    (length_leBytes _ _) hnonce
  have hbyte := offsetAt_append [] (leBytes 8 s.getByteSize ++ leBytes 8 (guessedNonce s e.1))
    (rest ++ suffix) op (by simp)
  rw [List.length_append, length_leBytes, length_leBytes] at hbyte
  rw [hsplit]
  simp only [List.nil_append, List.append_assoc, List.cons_append, List.length_nil]
    at hword hsecond hbyte ⊢
  exact ⟨op, hop, hword, hsecond, hbyte⟩

/-- A Tier-1 transaction is recognised exactly if the fourth byte of its first key is no
operation, or if the sizes that are guessed lead to a byte of the buffer and from it beyond the
end, or just to the end of the transaction. -/
theorem getNextTransaction_encode_iff (ha : nodeAddr.IsNode) (hsig : sig.IsNode) :
    getNextTransaction (ofBytes (encode s nodeAddr sig ++ suffix)) =
        .ok (encode s nodeAddr sig,
          ⟨encode s nodeAddr sig ++ suffix, (encode s nodeAddr sig).length⟩) ↔
      ∀ op, e.1.canonical[4]? = some op → op.toNat < OpType.numOperations →
        ∃ t, byteAt (encode s nodeAddr sig ++ suffix)
            (u64 (kTransferOffset + s.getByteSize + guessedNonce s e.1)) = .ok t ∧
          ((encode s nodeAddr sig ++ suffix).length <
              u64 (t.toNat + kTransferOffset + s.getByteSize + guessedNonce s e.1 + 1) ∨
            u64 (t.toNat + kTransferOffset + s.getByteSize + guessedNonce s e.1 + 1) =
              (encode s nodeAddr sig).length) := by
  obtain ⟨op, hop, hx, hn, hoper⟩ := encode_words hfirst hkind hsize
  have henc : IsEncoding s.getByteSize (encode s nodeAddr sig) :=
    isEncoding_encode ha hsig (by rw [List.length_append] at hsize; omega)
  have hroom : kTxMinSize ≤ (encode s nodeAddr sig ++ suffix).length := by
    rw [List.length_append, henc.length_eq, kTxMinSize, kNodeSigBufSize, kNodeSigSize]
    omega
  rw [hop]
  simp only [Option.some.injEq, forall_eq']
  exact getNextTransaction_tier1_iff rfl hroom hx hn (kMinNonceSize_le_guessedNonce s hkind) hoper
    (getNextT1Transaction_of_encoding henc suffix)

end

/-- A summary in which the first wallet's key begins with bytes of 5. -/
def sampleHigh : Summary :=
  Summary.empty.addFlows [⟨Address.sample 5, 1, -5, 0⟩, ⟨Address.sample 6, 1, 5, 0⟩]

theorem getNextTransaction_encode_iff_sampleHigh :
    getNextTransaction (ofBytes
        (encode sampleHigh (Address.sampleNode 1) (sampleSignature sampleHigh) ++ [7])) =
      .ok (encode sampleHigh (Address.sampleNode 1) (sampleSignature sampleHigh),
        ⟨encode sampleHigh (Address.sampleNode 1) (sampleSignature sampleHigh) ++ [7],
          (encode sampleHigh (Address.sampleNode 1) (sampleSignature sampleHigh)).length⟩) := by
  have hfirst : sampleHigh.summary.entries.head?.map Prod.fst = some (Address.sample 5) := by
    decide
  obtain ⟨e, he, haddr⟩ := Option.map_eq_some_iff.mp hfirst
  have hkind : e.1.IsWallet ∨ e.1.IsNode := by
    rw [haddr]
    decide
  refine (getNextTransaction_encode_iff he hkind (by decide +kernel) ⟨rfl, rfl⟩
    (isNode_sampleSignature sampleHigh)).mpr (fun op hop hlt => ?_)
  rw [haddr] at hop
  cases hop
  exact absurd hlt (by decide)

/-- The key of the first wallet begins with four bytes of 1: the last of them is taken for an
operation, and the size that is guessed leads out of the buffer. `FinalBlock::Create` throws the
same at a block with such a transaction. -/
theorem sampleMove_notRecognised :
    getNextTransaction (ofBytes (sampleMove 1 2 5).canonical) = .error .outOfRange ∧
      FinalBlock.create ChainState.empty (ofBytes FinalBlock.sampleTier1.getCanonical) =
        .error .outOfRange := by
  decide +kernel

end Tier1Transaction
end Devcash
