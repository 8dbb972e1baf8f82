import Devcash.Authorization

/-! The accessors of a Tier-2 transaction on the bytes a constructor laid out: they give
back the operation, the transfers, the nonce and the message that was signed. -/
namespace Devcash
open Endian Reader InputBuffer

/-- `SignBinary` makes a signature of the kind of the key's address. -/
def Signature.OfKey (sig : Signature) (a : Address) : Prop :=
  (a.IsWallet → sig.IsWallet) ∧ (a.IsNode → sig.IsNode)

theorem Address.IsWallet.not_isNode {a : Address} (h : a.IsWallet) : ¬ a.IsNode := by
  intro hn
  have hlen := h.1.symm.trans hn.1
  cases hlen

namespace Tier2Transaction
variable {o : Ossl} {keys : KeyRing o}

/-- The bytes are two sizes, an operation, the transfers, the nonce and what follows, and
the sizes fit their words. -/
structure Frames (tx : Tier2Transaction) (oper : Byte) (X nonce sig : Bytes) : Prop where
  bytes : tx.canonical = head oper X nonce ++ sig
  xferSize : tx.xferSize = X.length
  nonceSize : tx.nonceSize = nonce.length
  fits : (head oper X nonce).length < 2 ^ 64

namespace Frames
variable {tx : Tier2Transaction} {oper : Byte} {X nonce sig : Bytes}
  (h : tx.Frames oper X nonce sig)
include h

theorem getOperation : tx.getOperation = .ok oper := by
  have hm : (leBytes 8 X.length ++ leBytes 8 nonce.length).length = kOperationOffset := by
    simp [kOperationOffset]
  have hb := byteAt_append (leBytes 8 X.length ++ leBytes 8 nonce.length) (X ++ nonce ++ sig) oper
  have hget := (byteAt_ok hb).2
  rw [hm] at hget
  have hbytes : tx.canonical =
      leBytes 8 X.length ++ leBytes 8 nonce.length ++ oper :: (X ++ nonce ++ sig) := by
    rw [h.bytes, head]
    simp
  rw [Tier2Transaction.getOperation, hbytes, hget]

theorem secondWord : getSecondUint64 false (ofBytes tx.canonical) =
    .ok (nonce.length, ofBytes tx.canonical) := by
  have hsizes : getSecondUint64 false ⟨[] ++ head oper X nonce ++ sig, 0⟩ =
      .ok (nonce.length, ⟨[] ++ head oper X nonce ++ sig, 0⟩) := (head_sizes h.fits).2
  rw [List.nil_append, ← h.bytes] at hsizes
  exact hsizes

theorem signedSize : u64 (kEnvelopeSize + tx.nonceSize + tx.xferSize) =
    (head oper X nonce).length := by
  have hfits := h.fits
  rw [length_head] at hfits ⊢
  rw [h.nonceSize, h.xferSize, u64_of_lt (by rw [kEnvelopeSize]; rw [kTransferOffset] at hfits; omega)]
  rw [kEnvelopeSize, kTransferOffset]
  omega

theorem getMessageDigest : tx.getMessageDigest = .ok (head oper X nonce) := by
  have hs := slice_append [] (head oper X nonce) sig
  rw [List.nil_append, ← h.bytes] at hs
  rw [Tier2Transaction.getMessageDigest, h.signedSize]
  exact hs

theorem getNonce : tx.getNonce = .ok nonce := by
  have hs := slice_append (leBytes 8 X.length ++ leBytes 8 nonce.length ++ oper :: X) nonce sig
  have hbytes : tx.canonical =
      leBytes 8 X.length ++ leBytes 8 nonce.length ++ oper :: X ++ nonce ++ sig := by
    rw [h.bytes, head]
    simp
  have hstart : u64 (kEnvelopeSize + tx.xferSize) =
      (leBytes 8 X.length ++ leBytes 8 nonce.length ++ oper :: X).length := by
    have hfits := h.fits
    rw [length_head, kTransferOffset] at hfits
    rw [h.xferSize, kEnvelopeSize, u64_of_lt (by omega)]
    simp only [List.length_append, length_leBytes, List.length_cons]
    omega
  rw [Tier2Transaction.getNonce, hstart, h.nonceSize, hbytes]
  exact hs

theorem getSignature : tx.getSignature =
    (slice sig 0 (if oper = OpType.exchange.toByte then kWalletSigBufSize else kNodeSigBufSize) >>=
      Signature.ofBytes) := by
  have hslice : ∀ n, slice tx.canonical (head oper X nonce).length n = slice sig 0 n := by
    intro n
    rw [h.bytes, slice, slice, List.length_append, List.drop_left, List.drop_zero, Nat.zero_add]
    simp only [Nat.add_le_add_iff_left]
  rw [Tier2Transaction.getSignature, h.getOperation, Result.bind_ok, h.signedSize]
  simp only [hslice]

end Frames

theorem Frames.ofBuffer {tx : Tier2Transaction} {oper : Byte} {nonce sig : Bytes}
    {done rest : List Transfer} {t : Transfer}
    (h : tx.Frames oper ((done ++ t :: rest).flatMap Transfer.getCanonical) nonce sig)
    (ht : t.OnAccount) : ∃ b', Transfer.ofBuffer
      ⟨tx.canonical, kTransferOffset + (done.flatMap Transfer.getCanonical).length⟩ = .ok (t, b') := by
  have hread := ht.reads
    (leBytes 8 ((done ++ t :: rest).flatMap Transfer.getCanonical).length ++
      leBytes 8 nonce.length ++ oper :: done.flatMap Transfer.getCanonical)
    (rest.flatMap Transfer.getCanonical ++ nonce ++ sig)
  have hbytes : leBytes 8 ((done ++ t :: rest).flatMap Transfer.getCanonical).length ++
      leBytes 8 nonce.length ++ oper :: done.flatMap Transfer.getCanonical ++ t.canonical ++
      (rest.flatMap Transfer.getCanonical ++ nonce ++ sig) = tx.canonical := by
    rw [h.bytes, head]
    simp [Transfer.getCanonical]
  have hpos : (leBytes 8 ((done ++ t :: rest).flatMap Transfer.getCanonical).length ++
      leBytes 8 nonce.length ++ oper :: done.flatMap Transfer.getCanonical).length =
      kTransferOffset + (done.flatMap Transfer.getCanonical).length := by
    simp only [List.length_append, length_leBytes, List.length_cons, kTransferOffset]
    omega
  rw [hbytes, hpos] at hread
  exact ⟨_, hread⟩

theorem Frames.transfersFrom {tx : Tier2Transaction} {oper : Byte} {nonce sig : Bytes}
    (done : List Transfer) {rest : List Transfer}
    (h : tx.Frames oper ((done ++ rest).flatMap Transfer.getCanonical) nonce sig)
    (hrest : ∀ t ∈ rest, t.OnAccount) {fuel : Nat} (hfuel : rest.length ≤ fuel) :
    transfersFrom tx fuel (done.flatMap Transfer.getCanonical).length = .ok rest := by
  induction rest generalizing done fuel with
  | nil =>
    have hdone : ¬ (done.flatMap Transfer.getCanonical).length < tx.xferSize := by
      rw [h.xferSize, List.append_nil]
      exact Nat.lt_irrefl _
    cases fuel with
    | zero => rw [Tier2Transaction.transfersFrom, if_neg hdone]
    | succ fuel => rw [Tier2Transaction.transfersFrom, if_neg hdone]
  | cons t rest ih =>
    have ht := hrest t List.mem_cons_self
    have hmore : (done.flatMap Transfer.getCanonical).length < tx.xferSize := by
      have hpos : 0 < t.getCanonical.length := ht.size_pos
      rw [h.xferSize, List.flatMap_append, List.flatMap_cons, List.length_append, List.length_append]
      omega
    have hnext : (done.flatMap Transfer.getCanonical).length + t.size =
        ((done ++ [t]).flatMap Transfer.getCanonical).length := by
      rw [List.flatMap_append, List.length_append, List.flatMap_singleton]
      rfl
    have happend : done ++ [t] ++ rest = done ++ t :: rest := by simp
    obtain ⟨b', hread⟩ := h.ofBuffer ht
    cases fuel with
    | zero => cases hfuel
    | succ fuel =>
      have hind := ih (done ++ [t]) (by rw [happend]; exact h)
        (fun u hu => hrest u (List.mem_cons_of_mem t hu)) (Nat.le_of_succ_le_succ hfuel)
      rw [Tier2Transaction.transfersFrom, if_pos hmore, hread, Result.bind_ok]
      simp only [hnext, hind, Result.bind_ok]

theorem Frames.getTransfers {tx : Tier2Transaction} {oper : Byte} {nonce sig : Bytes}
    {xfers : List Transfer} (h : tx.Frames oper (xfers.flatMap Transfer.getCanonical) nonce sig)
    (hx : ∀ t ∈ xfers, t.OnAccount) : tx.getTransfers = .ok xfers := by
  have hfuel : xfers.length ≤ tx.canonical.length + 1 := by
    have hcount : xfers.length ≤ (xfers.flatMap Transfer.getCanonical).length :=
      length_le_flatMap (fun t ht => List.length_pos_iff.mp (hx t ht).size_pos)
    rw [h.bytes, List.length_append, length_head]
    omega
  exact Frames.transfersFrom [] h hx hfuel

theorem frames_ofSignature {oper : Byte} {xfers : List Transfer} {nonce : Bytes} {sig : Signature}
    (hsize : (ofSignature oper xfers nonce sig).canonical.length < 2 ^ 64) :
    (ofSignature oper xfers nonce sig).Frames oper (xfers.flatMap Transfer.getCanonical) nonce
      sig.canonical := by
  have hcan : (ofSignature oper xfers nonce sig).canonical =
      layout oper xfers nonce ++ sig.canonical := rfl
  have hsum : (xfers.map Transfer.size).sum = (xfers.flatMap Transfer.getCanonical).length := by
    rw [List.length_flatMap]
    rfl
  have hx : (xfers.flatMap Transfer.getCanonical).length < 2 ^ 64 := by
    rw [hcan, layout_eq] at hsize
    simp only [List.length_append, List.length_cons] at hsize
    omega
  have hlayout : layout oper xfers nonce = head oper (xfers.flatMap Transfer.getCanonical) nonce := by
    rw [layout_eq, u64_of_lt hx]
    rfl
  refine ⟨by rw [hcan, hlayout], ?_, rfl, ?_⟩
  · change u64 (xfers.map Transfer.size).sum = _
    rw [hsum, u64_of_lt hx]
  · rw [hcan, hlayout, List.length_append] at hsize
    omega

theorem frames_unsigned {oper : Byte} {xfers : List Transfer} {nonce : Bytes}
    (hsize : (layout oper xfers nonce).length < 2 ^ 64) :
    (unsigned oper xfers nonce).Frames oper (xfers.flatMap Transfer.getCanonical) nonce [] := by
  have hnil : (ofSignature oper xfers nonce ⟨[]⟩).canonical = layout oper xfers nonce :=
    List.append_nil _
  have h := frames_ofSignature (hnil ▸ hsize)
  exact ⟨hnil.symm.trans h.bytes, h.xferSize, h.nonceSize, h.fits⟩

/-- A transaction made from an operation, transfers, a nonce and a signature gives them
back, and its digest is all of it but the signature. -/
theorem ofSignature_givesBack (oper : Byte) {xfers : List Transfer}
    (hx : ∀ t ∈ xfers, t.OnAccount) (nonce : Bytes) (sig : Signature)
    (hsize : (ofSignature oper xfers nonce sig).canonical.length < 2 ^ 64) :
    (ofSignature oper xfers nonce sig).getTransfers = .ok xfers ∧
      (ofSignature oper xfers nonce sig).getNonce = .ok nonce ∧
      (ofSignature oper xfers nonce sig).getOperation = .ok oper ∧
      ∃ digest, (ofSignature oper xfers nonce sig).getMessageDigest = .ok digest ∧
        (ofSignature oper xfers nonce sig).canonical = digest ++ sig.getCanonical := by
  have h := frames_ofSignature hsize
  exact ⟨h.getTransfers hx, h.getNonce, h.getOperation, _, h.getMessageDigest, h.bytes⟩

theorem ofSignature_givesBack_samplePayment :
    samplePayment.getTransfers = .ok [Transfer.make (Address.sample 1) 1 (-5) 0,
        Transfer.make (Address.sample 2) 1 5 0] ∧
      samplePayment.getNonce = .ok [0, 1, 2, 3, 4, 5, 6, 7] ∧
      samplePayment.getOperation = .ok OpType.exchange.toByte ∧
      ∃ digest, samplePayment.getMessageDigest = .ok digest ∧
        samplePayment.canonical = digest ++ (Ossl.toySignature (Address.sample 1)
          (Ossl.toyHash (layout OpType.exchange.toByte [Transfer.make (Address.sample 1) 1 (-5) 0,
            Transfer.make (Address.sample 2) 1 5 0] [0, 1, 2, 3, 4, 5, 6, 7]))).getCanonical :=
  ofSignature_givesBack OpType.exchange.toByte (by decide) [0, 1, 2, 3, 4, 5, 6, 7] _
    (by decide +kernel)

/-- The loop of `isSound` finds one sender. -/
def SentBy (xfers : List Transfer) (a : Address) : Prop :=
  ∃ total, scanTransfers xfers 0 none = .ok (total, some a)

theorem SentBy.kind {xfers : List Transfer} {a : Address} (h : SentBy xfers a) :
    a.IsWallet ∨ a.IsNode := by
  obtain ⟨total, hscan⟩ := h
  obtain ⟨-, hall, hsome⟩ := scanTransfers_ok hscan
  obtain hnone | ⟨t, ht, x, hx, hneg⟩ := hsome
  · cases hnone
  · obtain ⟨y, hy, haddr⟩ := hall t ht
    cases hx.symm.trans hy
    obtain ⟨a', ha', hs⟩ := haddr hneg
    cases hs
    exact Transfer.getAddress_kind ha'

theorem slice_signature {sig : Signature} (h : sig.IsWallet ∨ sig.IsNode) {n : Nat}
    (hn : n = sig.canonical.length) : (slice sig.canonical 0 n >>= Signature.ofBytes) = .ok sig := by
  have hs := slice_append [] sig.canonical []
  rw [List.nil_append, List.append_nil, List.length_nil, ← hn] at hs
  rw [hs, Result.bind_ok, Signature.ofBytes_canonical h]

theorem slice_nodeSignature {sig : Signature} (h : sig.IsNode) :
    (slice sig.canonical 0 kWalletSigBufSize >>= Signature.ofBytes) =
      .error (.runtime "Invalid Signature - size == 74 but byte(0) != 73") := by
  obtain ⟨hlen, hhead⟩ := h
  have htake : (sig.canonical.take kWalletSigBufSize).length = kWalletSigBufSize := by
    rw [List.length_take, hlen]
    rfl
  have hfirst : (sig.canonical.take kWalletSigBufSize).head? = some (UInt8.ofNat kNodeSigSize) := by
    rw [List.head?_take, if_neg (by decide), hhead]
  rw [slice, if_pos (by rw [hlen]; decide), List.drop_zero, Result.bind_ok, Signature.ofBytes, htake,
    hfirst]
  rfl

/-- The accessor gives the signature back unless a node exchanges: the size it asks for is that
of a wallet's signature then. -/
theorem getSignature_ofSignature_iff {oper : Byte} {xfers : List Transfer} {nonce : Bytes}
    {sig : Signature} {a : Address} (keys : KeyRing o) (hsender : SentBy xfers a)
    (hrule : oper = OpType.exchange.toByte ∨ keys.isINN a = true) (hsig : sig.OfKey a)
    (hsize : (ofSignature oper xfers nonce sig).canonical.length < 2 ^ 64) :
    (ofSignature oper xfers nonce sig).getSignature = .ok sig ↔
      (oper = OpType.exchange.toByte → a.IsWallet) := by
  rw [(frames_ofSignature hsize).getSignature]
  by_cases hoper : oper = OpType.exchange.toByte
  · simp only [hoper, if_true, true_imp_iff]
    obtain hw | hn := hsender.kind
    · have hkind := hsig.1 hw
      exact iff_of_true (slice_signature (Or.inl hkind) hkind.1.symm) hw
    · rw [slice_nodeSignature (hsig.2 hn)]
      exact iff_of_false (by simp) (fun hw => hw.not_isNode hn)
  · have hn : a.IsNode := by
      obtain hw | hn := hsender.kind
      · have hinn : a.isNodeAddress = true := hrule.resolve_left hoper
        rw [hw.not_isNodeAddress] at hinn
        cases hinn
      · exact hn
    have hkind := hsig.2 hn
    rw [if_neg hoper]
    exact iff_of_true (slice_signature (Or.inr hkind) hkind.1.symm) (fun h => absurd h hoper)

theorem getSignature_samplePayment :
    samplePayment.getSignature = .ok (Ossl.toySignature (Address.sample 1)
      (Ossl.toyHash (layout OpType.exchange.toByte [Transfer.make (Address.sample 1) 1 (-5) 0,
        Transfer.make (Address.sample 2) 1 5 0] [0, 1, 2, 3, 4, 5, 6, 7]))) :=
  (getSignature_ofSignature_iff (a := Address.sample 1) KeyRing.toy ⟨0, by decide +kernel⟩ (Or.inl rfl)
    ⟨by decide, by decide⟩ (by decide +kernel)).mpr (by decide)

/-- A node pays a wallet 5 coins of type 1 and signs with its key. -/
def sampleNodePayment : Tier2Transaction :=
  let xfers := [Transfer.make (Address.sampleNode 1) 1 (-5) 0, Transfer.make (Address.sample 2) 1 5 0]
  let nonce : Bytes := [0, 1, 2, 3, 4, 5, 6, 7]
  ofSignature OpType.exchange.toByte xfers nonce
    (Ossl.toySignature (Address.sampleNode 1)
      (Ossl.toyHash (layout OpType.exchange.toByte xfers nonce)))

/-- The accessor throws, and with it the check of the signature. -/
theorem sampleNodePayment_refused :
    sampleNodePayment.getSignature =
        .error (.runtime "Invalid Signature - size == 74 but byte(0) != 73") ∧
      sampleNodePayment.isSound KeyRing.toy =
        .error (.runtime "Invalid Signature - size == 74 but byte(0) != 73") := by
  decide +kernel

end Tier2Transaction
end Devcash
