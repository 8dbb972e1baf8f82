import Devcash.SectionCodec

/-! The bytes of a Tier-1 transaction: the size of a summary, the summary, the address of
a node and its signature. -/
namespace Devcash
open Endian Reader InputBuffer
namespace Tier1Transaction
variable {o : Ossl} {keys : KeyRing o}

/-- What the constructor from a summary lays out. -/
def encode (summary : Summary) (nodeAddr : Address) (sig : Signature) : Bytes :=
  uint64ToBin summary.getByteSize [] ++ summary.getCanonical ++ nodeAddr.getCanonical ++
    sig.getCanonical

/-- Such a transaction before its soundness is checked. -/
def unchecked (summary : Summary) (nodeAddr : Address) (sig : Signature) : Tier1Transaction :=
  ⟨encode summary nodeAddr sig, false, summary.getByteSize⟩

theorem setIsSound_ok {tx tx' : Tier1Transaction} (h : tx.setIsSound keys = .ok tx') :
    tx.isSound keys = .ok true ∧ tx' = { tx with isSoundFlag := true } := by
  obtain ⟨sound, hs, h⟩ := Result.bind_eq_ok h
  split_ifs at h with ht
  cases h
  exact ⟨ht ▸ hs, rfl⟩

theorem ofSummary_ok {summary : Summary} {sig : Signature} {nodeAddr : Address}
    {tx : Tier1Transaction} (h : ofSummary keys summary sig nodeAddr = .ok tx) :
    summary.isSane = true ∧ sig.size = kNodeSigBufSize ∧
      (unchecked summary nodeAddr sig).setIsSound keys = .ok tx := by
  rw [ofSummary] at h
  split_ifs at h with hsane hsig
  exact ⟨by simpa using hsane, not_not.mp hsig, h⟩

theorem encode_eq (summary : Summary) (nodeAddr : Address) (sig : Signature) :
    encode summary nodeAddr sig = leBytes 8 summary.getByteSize ++ summary.getCanonical ++
      (nodeAddr.canonical ++ sig.canonical) := by
  simp only [encode, uint64ToBin_eq, List.nil_append, List.append_assoc, Address.getCanonical,
    Signature.getCanonical]

/-- The bytes are a message with an address and a signature behind it. -/
structure Frames (tx : Tier1Transaction) (msg addr sig : Bytes) : Prop where
  bytes : tx.canonical = leBytes 8 msg.length ++ (msg ++ (addr ++ sig))
  sumSize : tx.sumSize = msg.length

namespace Frames
variable {tx : Tier1Transaction} {msg addr sig : Bytes} (h : tx.Frames msg addr sig)
include h

theorem getMessageDigest : tx.getMessageDigest = .ok msg := by
  have hs := slice_append (leBytes 8 msg.length) msg (addr ++ sig)
  rw [List.append_assoc, ← h.bytes, length_leBytes] at hs
  rw [Tier1Transaction.getMessageDigest, h.sumSize]
  exact hs

variable (hsize : msg.length + kUint64Size + kNodeAddrBufSize < 2 ^ 64)
  (haddr : addr.length = kNodeAddrBufSize)
include hsize haddr

theorem getNodeAddress : tx.getNodeAddress = .ok (Address.ofBytes addr) := by
  have hs := slice_append (leBytes 8 msg.length ++ msg) addr sig
  have hstart : u64 (tx.sumSize + kUint64Size) = (leBytes 8 msg.length ++ msg).length := by
    rw [h.sumSize, u64_of_lt (by omega), List.length_append, length_leBytes, Nat.add_comm]
    rfl
  rw [List.append_assoc, List.append_assoc, ← h.bytes, haddr, ← hstart] at hs
  rw [Tier1Transaction.getNodeAddress, hs, Result.bind_ok]

theorem getSignature (hsig : sig.length = kNodeSigBufSize) :
    tx.getSignature = Signature.ofBytes sig := by
  have hs := slice_append (leBytes 8 msg.length ++ msg ++ addr) sig []
  have hstart : u64 (tx.sumSize + kUint64Size + kNodeAddrBufSize) =
      (leBytes 8 msg.length ++ msg ++ addr).length := by
    rw [h.sumSize, u64_of_lt hsize, List.length_append, List.length_append, length_leBytes, haddr]
    change msg.length + 8 + kNodeAddrBufSize = _
    omega
  rw [List.append_nil, List.append_assoc, List.append_assoc, ← h.bytes, hsig, ← hstart] at hs
  rw [Tier1Transaction.getSignature, hs, Result.bind_ok]

theorem isSound (hsig : sig.length = kNodeSigBufSize) (hflag : tx.isSoundFlag = false) :
    tx.isSound keys = (do
      let eckey ← keys.getKey (Address.ofBytes addr)
      let signature ← Signature.ofBytes sig
      .ok (o.verifyByteSig eckey (o.devcashHash msg) signature)) := by
  rw [Tier1Transaction.isSound, hflag, if_neg Bool.false_ne_true, h.getNodeAddress hsize haddr,
    h.getMessageDigest, h.getSignature hsize haddr hsig]
  rfl

end Frames

section
variable {s : Summary} {nodeAddr : Address} {sig : Signature} {tx : Tier1Transaction}
  (htx : tx.canonical = encode s nodeAddr sig)
include htx

theorem getTransfers_of_encode (h : s.ByItems) (hf : s.Fits) :
    tx.getTransfers = .ok s.getTransfers := by
  have hreads := Summary.reads_create h hf (leBytes 8 s.getByteSize)
    (nodeAddr.canonical ++ sig.canonical)
  rw [← encode_eq, ← htx, length_leBytes] at hreads
  rw [getTransfers, kUint64Size, hreads]
  rfl

variable (hsize : tx.sumSize = s.getByteSize)
include hsize

theorem frames_of_encode : tx.Frames s.getCanonical nodeAddr.canonical sig.canonical := by
  refine ⟨?_, hsize⟩
  rw [htx, encode_eq, List.append_assoc]
  rfl

theorem getMessageDigest_of_encode : tx.getMessageDigest = .ok s.getCanonical :=
  (frames_of_encode htx hsize).getMessageDigest

variable (hbytes : s.getByteSize + kUint64Size + kNodeAddrBufSize < 2 ^ 64) (ha : nodeAddr.IsNode)
include hbytes ha

theorem getNodeAddress_of_encode : tx.getNodeAddress = .ok nodeAddr := by
  rw [(frames_of_encode htx hsize).getNodeAddress hbytes ha.1, Address.ofBytes_canonical (Or.inr ha)]

theorem getSignature_of_encode (hsig : sig.IsNode) : tx.getSignature = .ok sig := by
  rw [(frames_of_encode htx hsize).getSignature hbytes ha.1 hsig.1,
    Signature.ofBytes_canonical (Or.inr hsig)]

end

theorem isSound_unchecked {s : Summary} {nodeAddr : Address} {sig : Signature}
    (hbytes : s.getByteSize + kUint64Size + kNodeAddrBufSize < 2 ^ 64) (ha : nodeAddr.IsNode)
    (hsig : sig.IsNode) : (unchecked s nodeAddr sig).isSound keys = (do
      let eckey ← keys.getKey nodeAddr
      .ok (o.verifyByteSig eckey (o.devcashHash s.getCanonical) sig)) := by
  rw [(frames_of_encode rfl rfl).isSound hbytes ha.1 hsig.1 rfl, Address.ofBytes_canonical (Or.inr ha),
    Signature.ofBytes_canonical (Or.inr hsig)]
  rfl

theorem ofSummary_of_verified {s : Summary} {nodeAddr : Address} {sig : Signature}
    {eckey : o.EcKey} (hsane : s.isSane = true)
    (hbytes : s.getByteSize + kUint64Size + kNodeAddrBufSize < 2 ^ 64) (ha : nodeAddr.IsNode)
    (hsig : sig.IsNode) (hkey : keys.getKey nodeAddr = .ok eckey)
    (hverify : o.verifyByteSig eckey (o.devcashHash s.getCanonical) sig = true) :
    ofSummary keys s sig nodeAddr = .ok { unchecked s nodeAddr sig with isSoundFlag := true } := by
  have hsound : (unchecked s nodeAddr sig).isSound keys = .ok true := by
    rw [isSound_unchecked hbytes ha hsig, hkey, Result.bind_ok, hverify]
  have hsize : ¬ sig.size ≠ kNodeSigBufSize := not_not.mpr hsig.1
  rw [ofSummary, if_neg (by simp [hsane]), if_neg hsize]
  change setIsSound keys (unchecked s nodeAddr sig) = _
  rw [setIsSound, hsound, Result.bind_ok, if_pos rfl]

/-- The first of the sample nodes signs a summary. -/
def sampleSignature (s : Summary) : Signature :=
  Ossl.toySignature (Address.sampleNode 1) (Ossl.toyHash s.getCanonical)

theorem isNode_sampleSignature (s : Summary) : (sampleSignature s).IsNode := by
  have hnode : (Address.sampleNode 1).isWalletAddress = false := rfl
  rw [sampleSignature, Ossl.toySignature, hnode]
  refine ⟨?_, rfl⟩
  simp [(Ossl.toyHash s.getCanonical).2, Address.sampleNode, kNodeSigBufSize, kNodeSigSize]

theorem ofSummary_sample {s : Summary} (hsane : s.isSane = true)
    (hbytes : s.getByteSize + kUint64Size + kNodeAddrBufSize < 2 ^ 64) :
    ofSummary KeyRing.toy s (sampleSignature s) (Address.sampleNode 1) =
      .ok { unchecked s (Address.sampleNode 1) (sampleSignature s) with isSoundFlag := true } := by
  have hkey : KeyRing.toy.getKey (Address.sampleNode 1) = .ok (Address.sampleNode 1) := by
    have hfind : @OrdMap.find? Address Address _ KeyRing.toy.keyMap (Address.sampleNode 1) =
        some (Address.sampleNode 1) := by decide +kernel
    exact KeyRing.getKey_of_find? hfind
  have hverify : Ossl.toy.verifyByteSig (Address.sampleNode 1)
      (Ossl.toy.devcashHash s.getCanonical) (sampleSignature s) = true := by
    change decide (Ossl.toySignature (Address.sampleNode 1) (Ossl.toyHash s.getCanonical) =
      sampleSignature s) = true
    rw [sampleSignature, decide_eq_true_iff]
  exact ofSummary_of_verified hsane hbytes ⟨rfl, rfl⟩ (isNode_sampleSignature s) hkey hverify

/-- A size, that many bytes, and the sizes of a node's address and signature behind them. -/
structure IsEncoding (sumSize : Nat) (c : Bytes) : Prop where
  split : ∃ rest, c = leBytes 8 sumSize ++ rest ∧
    rest.length = sumSize + kNodeAddrBufSize + kNodeSigBufSize
  bytes : c.length < 2 ^ 64

namespace IsEncoding
variable {sumSize : Nat} {c : Bytes}

theorem length_eq (h : IsEncoding sumSize c) :
    c.length = sumSize + kNodeSigBufSize + kUint64Size + kNodeAddrBufSize := by
  obtain ⟨rest, rfl, hr⟩ := h.split
  rw [List.length_append, length_leBytes, hr, kUint64Size]
  omega

theorem wholeSize_eq (h : IsEncoding sumSize c) : wholeSize sumSize = c.length := by
  have hb := h.bytes
  rw [wholeSize, h.length_eq, u64_of_lt (by rw [← h.length_eq]; exact hb)]

theorem ne_nil (h : IsEncoding sumSize c) : c ≠ [] := by
  intro hc
  have hl := h.length_eq
  rw [hc, List.length_nil, kUint64Size] at hl
  omega

theorem peek (h : IsEncoding sumSize c) (pre post : Bytes) :
    getNextUint64 false ⟨pre ++ c ++ post, pre.length⟩ =
      .ok (sumSize, ⟨pre ++ c ++ post, pre.length⟩) := by
  have hlt : sumSize < 2 ^ 64 := by
    have hb := h.bytes
    rw [h.length_eq] at hb
    omega
  obtain ⟨rest, rfl, -⟩ := h.split
  have hp := getNextUint64_peek pre (rest ++ post) hlt
  simp only [List.append_assoc] at hp ⊢
  exact hp

theorem reads_copy (h : IsEncoding sumSize c) : Reads (do
      let sumSize ← getNextUint64 false
      let canonical ← copy (wholeSize sumSize)
      pure (canonical, sumSize)) c (c, sumSize) := by
  intro pre post
  have hcopy := InputBuffer.reads_copy c pre post
  rw [bind_of_ok (h.peek pre post), h.wholeSize_eq, bind_of_ok hcopy]
  rfl

end IsEncoding

theorem ofBuffer_eq (calculateSoundness : Bool) : ofBuffer keys calculateSoundness = (do
    let p ← (do
      let sumSize ← getNextUint64 false
      let canonical ← copy (wholeSize sumSize)
      pure (canonical, sumSize))
    fun b =>
      if InputBuffer.size b < u64 (b.offset + wholeSize p.2) then .ok (⟨p.1, false, p.2⟩, b)
      else if calculateSoundness then lift (setIsSound keys ⟨p.1, false, p.2⟩) b
      else .ok (⟨p.1, false, p.2⟩, b)) := by
  simp only [ofBuffer, bind_assoc, pure_bind]

/-- Without the soundness check the bytes are given back, whatever they hold. -/
theorem reads_ofBuffer {sumSize : Nat} {c : Bytes} (h : IsEncoding sumSize c) :
    Reads (ofBuffer keys false) c ⟨c, false, sumSize⟩ := by
  rw [ofBuffer_eq]
  refine h.reads_copy.bind_done ?_
  intro pre post
  simp

/-- With the check they are given back when the transaction is sound; the flag depends on
how much follows. -/
theorem readsIn_ofBuffer {P : Bytes → Prop} {sumSize : Nat} {c : Bytes} (h : IsEncoding sumSize c)
    (hs : ∃ tx, setIsSound keys ⟨c, false, sumSize⟩ = .ok tx) :
    ReadsIn P (ofBuffer keys true) c (fun tx => tx.canonical = c ∧ tx.sumSize = sumSize) := by
  obtain ⟨tx, htx⟩ := hs
  obtain ⟨-, rfl⟩ := setIsSound_ok htx
  rw [ofBuffer_eq]
  refine (h.reads_copy.readsIn (Q := (· = (c, sumSize))) rfl).bind_done ?_
  rintro _ rfl pre post _
  simp only [List.append_nil, List.length_nil, Nat.add_zero, if_true]
  split_ifs
  · exact ⟨_, rfl, rfl, rfl⟩
  · rw [htx]
    exact ⟨_, rfl, rfl, rfl⟩

theorem create_of_encoding {sumSize : Nat} {c : Bytes} (h : IsEncoding sumSize c)
    {calculateSoundness : Bool}
    (hs : calculateSoundness = true → isSound keys ⟨c, false, sumSize⟩ = .ok true)
    (suffix : Bytes) : create keys calculateSoundness (ofBytes (c ++ suffix)) =
      .ok (⟨c, calculateSoundness, sumSize⟩, ⟨c ++ suffix, c.length⟩) := by
  have hpeek : getNextUint64 false (ofBytes (c ++ suffix)) = .ok (sumSize, ofBytes (c ++ suffix)) :=
    h.peek [] suffix
  have hfits : ¬ InputBuffer.size (ofBytes (c ++ suffix)) <
      u64 ((ofBytes (c ++ suffix)).offset + wholeSize sumSize) := by
    rw [InputBuffer.size, ofBytes, Nat.zero_add, h.wholeSize_eq, u64_of_lt h.bytes,
      List.length_append]
    omega
  have hcopy := InputBuffer.reads_copy c [] suffix
  rw [List.nil_append, List.length_nil, Nat.zero_add, ← h.wholeSize_eq] at hcopy
  change copy _ (ofBytes (c ++ suffix)) = _ at hcopy
  rw [create, fill, bind_of_ok hpeek, if_neg hfits, bind_of_ok hcopy, h.wholeSize_eq]
  cases calculateSoundness with
  | false => rfl
  | true =>
    rw [if_pos rfl, hs rfl]
    rfl

theorem isEncoding_encode {s : Summary} {nodeAddr : Address} {sig : Signature}
    (ha : nodeAddr.IsNode) (hsig : sig.IsNode)
    (hbytes : (encode s nodeAddr sig).length < 2 ^ 64) :
    IsEncoding s.getByteSize (encode s nodeAddr sig) := by
  refine ⟨⟨s.getCanonical ++ (nodeAddr.canonical ++ sig.canonical), ?_, ?_⟩, hbytes⟩
  · rw [encode_eq, List.append_assoc]
  · rw [List.length_append, List.length_append, ha.1, hsig.1, Summary.getByteSize]
    omega

end Tier1Transaction
end Devcash
