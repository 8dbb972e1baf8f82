import Devcash.Transaction

/-! What the Tier-2 decoders make of the bytes a constructor laid out: the last byte
of the signature is left in the buffer. -/
namespace Devcash
open Endian Reader InputBuffer
namespace Tier2Transaction
variable {o : Ossl} {keys : KeyRing o}

theorem layout_eq (oper : Byte) (xfers : List Transfer) (nonce : Bytes) :
    layout oper xfers nonce =
      leBytes 8 (u64 (xfers.flatMap Transfer.getCanonical).length) ++ leBytes 8 nonce.length ++
        oper :: (xfers.flatMap Transfer.getCanonical ++ nonce) := by
  have h : (xfers.map Transfer.size).sum = (xfers.flatMap Transfer.getCanonical).length := by
    rw [List.length_flatMap]
    rfl
  simp [layout, uint64ToBin_eq, h]

theorem quickFill_ok {b b' : InputBuffer} {tx : Tier2Transaction}
    (h : quickFill b = .ok (tx, b')) :
    getNextUint64 false b = .ok (tx.xferSize, b) ∧
      getSecondUint64 false b = .ok (tx.nonceSize, b) ∧
      ∃ t, offsetAt (u64 (kTransferOffset + tx.xferSize + tx.nonceSize)) b = .ok (t, b) ∧
        copy (u64 (t.toNat + kTransferOffset + tx.xferSize + tx.nonceSize)) b =
          .ok (tx.canonical, b') ∧ tx.isSoundFlag = false ∧
        b.offset + kTxMinSize ≤ InputBuffer.size b ∧ kMinNonceSize ≤ tx.nonceSize ∧
        ∃ op, offsetAt kOperationOffset b = .ok (op, b) ∧ op.toNat < OpType.numOperations := by
  simp only [quickFill] at h
  split_ifs at h with hsize
  obtain ⟨x, b1, h1, h⟩ := bind_eq_ok h
  obtain ⟨rfl, -⟩ := getWord_stay h1
  obtain ⟨n, b2, h2, h⟩ := bind_eq_ok h
  obtain ⟨rfl, -⟩ := getWord_stay h2
  split_ifs at h with hn
  · cases h
  obtain ⟨op, b3, h3, h⟩ := bind_eq_ok h
  obtain ⟨rfl, -⟩ := offsetAt_ok h3
  split_ifs at h with hop
  · cases h
  obtain ⟨t, b4, h4, h⟩ := bind_eq_ok h
  obtain ⟨rfl, -⟩ := offsetAt_ok h4
  split_ifs at h with hs
  · cases h
  obtain ⟨c, b5, h5, h⟩ := bind_eq_ok h
  cases pure_eq_ok h
  exact ⟨h1, h2, t, h4, h5, rfl, Nat.not_lt.mp hsize, Nat.not_lt.mp hn, op, h3, Nat.not_le.mp hop⟩

theorem typeByte_of_signature {sig : Signature} (h : sig.IsWallet ∨ sig.IsNode) :
    ∃ t raw, sig.canonical = t :: raw ∧ raw.length = t.toNat ∧ kWalletSigSize ≤ raw.length := by
  cases hc : sig.canonical with
  | nil => cases h <;> rename_i h <;> simp [Signature.IsWallet, Signature.IsNode, hc] at h
  | cons t raw =>
    refine ⟨t, raw, rfl, ?_⟩
    obtain ⟨hl, hh⟩ | ⟨hl, hh⟩ := h
    · rw [hc, List.head?_cons, Option.some.injEq] at hh
      rw [hc, List.length_cons] at hl
      subst hh
      exact ⟨Nat.succ.inj hl, Nat.le_of_eq (Nat.succ.inj hl).symm⟩
    · rw [hc, List.head?_cons, Option.some.injEq] at hh
      rw [hc, List.length_cons] at hl
      subst hh
      exact ⟨Nat.succ.inj hl, by rw [Nat.succ.inj hl]; decide⟩

theorem quickFill_of_reads {b b' : InputBuffer} {x n : Nat} {op t : Byte} {c : Bytes}
    (hsize : b.offset + kTxMinSize ≤ InputBuffer.size b)
    (h1 : getNextUint64 false b = .ok (x, b)) (h2 : getSecondUint64 false b = .ok (n, b))
    (hn : kMinNonceSize ≤ n) (h3 : offsetAt kOperationOffset b = .ok (op, b))
    (hop : op.toNat < OpType.numOperations)
    (h4 : offsetAt (u64 (kTransferOffset + x + n)) b = .ok (t, b))
    (hs : u64 (b.offset + u64 (t.toNat + kTransferOffset + x + n)) ≤ InputBuffer.size b)
    (h5 : copy (u64 (t.toNat + kTransferOffset + x + n)) b = .ok (c, b')) :
    quickFill b = .ok (⟨c, false, x, n⟩, b') := by
  simp only [quickFill, if_neg (Nat.not_lt.mpr hsize)]
  rw [bind_of_ok h1, bind_of_ok h2, if_neg (Nat.not_lt.mpr hn), bind_of_ok h3,
    if_neg (Nat.not_le.mpr hop), bind_of_ok h4]
  simp only [if_neg (Nat.not_lt.mpr hs)]
  rw [bind_of_ok h5]
  rfl

/-- The bytes up to the signature, once their length fits a word. -/
def head (oper : Byte) (X nonce : Bytes) : Bytes :=
  leBytes 8 X.length ++ leBytes 8 nonce.length ++ oper :: (X ++ nonce)

theorem length_head (oper : Byte) (X nonce : Bytes) :
    (head oper X nonce).length = kTransferOffset + X.length + nonce.length := by
  simp only [head, List.length_append, List.length_cons, length_leBytes, kTransferOffset]
  omega

section
variable {oper : Byte} {X nonce pre post : Bytes}
  (hl : (pre ++ head oper X nonce).length < 2 ^ 64)
include hl

theorem head_sizes : getNextUint64 false ⟨pre ++ head oper X nonce ++ post, pre.length⟩ =
      .ok (X.length, ⟨pre ++ head oper X nonce ++ post, pre.length⟩) ∧
    getSecondUint64 false ⟨pre ++ head oper X nonce ++ post, pre.length⟩ =
      .ok (nonce.length, ⟨pre ++ head oper X nonce ++ post, pre.length⟩) := by
  rw [List.length_append, length_head] at hl
  have e1 : pre ++ head oper X nonce ++ post = pre ++ leBytes 8 X.length ++
      (leBytes 8 nonce.length ++ (oper :: (X ++ nonce) ++ post)) := by simp [head]
  have e2 : pre ++ head oper X nonce ++ post = pre ++ leBytes 8 X.length ++
      leBytes 8 nonce.length ++ (oper :: (X ++ nonce) ++ post) := by simp [head]
  constructor
  · rw [e1]
    exact getNextUint64_peek _ _ (by omega)
  · rw [e2]
    exact getSecondUint64_peek _ _ _ (length_leBytes _ _) (by omega)

theorem head_operation :
    offsetAt kOperationOffset ⟨pre ++ head oper X nonce ++ post, pre.length⟩ =
      .ok (oper, ⟨pre ++ head oper X nonce ++ post, pre.length⟩) := by
  rw [List.length_append, length_head] at hl
  have e : pre ++ head oper X nonce ++ post =
      pre ++ (leBytes 8 X.length ++ leBytes 8 nonce.length) ++ oper :: (X ++ nonce ++ post) := by
    simp [head]
  have hm : (leBytes 8 X.length ++ leBytes 8 nonce.length).length = kOperationOffset := by
    simp [kOperationOffset]
  rw [e, ← hm]
  refine offsetAt_append _ _ _ _ ?_
  rw [List.length_append, hm]
  simp only [kOperationOffset, kTransferOffset] at hl ⊢
  omega

theorem head_typeByte (t : Byte) :
    offsetAt (u64 (kTransferOffset + X.length + nonce.length))
        ⟨pre ++ head oper X nonce ++ t :: post, pre.length⟩ =
      .ok (t, ⟨pre ++ head oper X nonce ++ t :: post, pre.length⟩) := by
  have h := offsetAt_append pre (head oper X nonce) post t hl
  rw [length_head] at h
  rwa [u64_of_lt (by rw [List.length_append, length_head] at hl; omega)]

end

theorem quickFill_head {oper : Byte} {X nonce raw pre post : Bytes} {t last : Byte}
    (ho : oper.toNat < OpType.numOperations) (hn : kMinNonceSize ≤ nonce.length)
    (ht : raw.length + 1 = t.toNat) (hw : kWalletSigSize ≤ t.toNat)
    (hl : (pre ++ head oper X nonce ++ t :: raw).length < 2 ^ 64) :
    quickFill ⟨pre ++ head oper X nonce ++ (t :: raw) ++ (last :: post), pre.length⟩ =
      .ok (⟨head oper X nonce ++ (t :: raw), false, X.length, nonce.length⟩,
        ⟨pre ++ head oper X nonce ++ (t :: raw) ++ (last :: post),
          pre.length + (head oper X nonce ++ (t :: raw)).length⟩) := by
  have hlen := hl
  simp only [List.length_append, length_head, List.length_cons, kTransferOffset] at hlen
  have hp : (pre ++ head oper X nonce).length < 2 ^ 64 := by
    rw [List.length_append] at hl
    omega
  have hsz : u64 (t.toNat + kTransferOffset + X.length + nonce.length) =
      (head oper X nonce ++ (t :: raw)).length := by
    rw [u64_of_lt (by simp only [kTransferOffset]; omega), List.length_append, length_head,
      List.length_cons]
    omega
  have hc := reads_copy (head oper X nonce ++ (t :: raw)) pre (last :: post)
  have e : pre ++ (head oper X nonce ++ (t :: raw)) ++ (last :: post) =
      pre ++ head oper X nonce ++ t :: (raw ++ last :: post) := by simp
  have e' : pre ++ head oper X nonce ++ (t :: raw) ++ (last :: post) =
      pre ++ head oper X nonce ++ t :: (raw ++ last :: post) := by simp
  rw [e, ← hsz] at hc
  rw [e', ← hsz]
  have hsize : InputBuffer.size ⟨pre ++ head oper X nonce ++ t :: (raw ++ last :: post),
      pre.length⟩ = pre.length + (17 + X.length + nonce.length) + t.toNat + 1 + post.length := by
    simp only [InputBuffer.size, List.length_append, List.length_cons, length_head, kTransferOffset]
    omega
  refine quickFill_of_reads ?_ (head_sizes hp).1 (head_sizes hp).2 hn (head_operation hp) ho
    (head_typeByte hp t) ?_ hc
  · rw [hsize]
    simp only [kTxMinSize, kMinNonceSize, kWalletSigSize] at hn hw ⊢
    omega
  · rw [hsize, hsz, u64_of_lt (by simpa [Nat.add_assoc] using hl)]
    simp only [List.length_append, List.length_cons, length_head, kTransferOffset]
    omega

/-- The arguments a round trip is asked for: an operation, transfers on wallet or
node addresses and a nonce of the least size. -/
structure Arguments (oper : Byte) (xfers : List Transfer) (nonce : Bytes) : Prop where
  operation : oper.toNat < OpType.numOperations
  transfers : ∀ t ∈ xfers, ∃ (addr : Address) (coin : Nat) (amount : Int) (delay : Nat),
    (addr.IsWallet ∨ addr.IsNode) ∧ t = Transfer.make addr coin amount delay
  nonce_size : kMinNonceSize ≤ nonce.length

/-- One of the four constructors returned the transaction. -/
inductive Built (keys : KeyRing o) : Tier2Transaction → Prop
  | ofSignature {oper : Byte} {xfers : List Transfer} {nonce : Bytes} {sig : Signature}
      (h : Arguments oper xfers nonce) (hs : sig.IsWallet ∨ sig.IsNode) :
      Built keys (ofSignature oper xfers nonce sig)
  | ofSignatureSound {oper : Byte} {xfers : List Transfer} {nonce : Bytes} {sig : Signature}
      {tx : Tier2Transaction} (h : Arguments oper xfers nonce) (hs : sig.IsWallet ∨ sig.IsNode)
      (hk : ofSignatureSound keys oper xfers nonce sig = .ok tx) : Built keys tx
  | sign {oper : Byte} {xfers : List Transfer} {nonce : Bytes} {eckey : o.EcKey}
      {tx : Tier2Transaction} (h : Arguments oper xfers nonce)
      (hk : sign oper xfers nonce eckey = .ok tx) : Built keys tx
  | signSound {oper : Byte} {xfers : List Transfer} {nonce : Bytes} {eckey : o.EcKey}
      {tx : Tier2Transaction} (h : Arguments oper xfers nonce)
      (hk : signSound keys oper xfers nonce eckey = .ok tx) : Built keys tx

theorem demandSound_canonical {tx tx' : Tier2Transaction} (h : tx.demandSound keys = .ok tx') :
    tx'.canonical = tx.canonical := by
  obtain ⟨sound, -, h⟩ := Result.bind_eq_ok h
  split_ifs at h
  cases h
  rfl

theorem demandSound_iff (tx : Tier2Transaction) :
    (∃ tx', tx.demandSound keys = .ok tx') ↔ tx.isSound keys = .ok true := by
  constructor
  · rintro ⟨tx', h⟩
    obtain ⟨sound, hs, h⟩ := Result.bind_eq_ok h
    split_ifs at h with ht
    rw [hs, ht]
  · intro hs
    rw [demandSound, hs, Result.bind_ok, if_pos rfl]
    exact ⟨_, rfl⟩

theorem sign_ok {oper : Byte} {xfers : List Transfer} {nonce : Bytes} {eckey : o.EcKey}
    {tx : Tier2Transaction} (h : sign oper xfers nonce eckey = .ok tx) :
    ∃ sig : Signature, (sig.IsWallet ∨ sig.IsNode) ∧
      tx = Tier2Transaction.ofSignature oper xfers nonce sig := by
  obtain ⟨msg, -, h⟩ := Result.bind_eq_ok h
  obtain ⟨sig, hsig, h⟩ := Result.bind_eq_ok h
  cases h
  exact ⟨sig, o.signBinary_size hsig, rfl⟩

/-- Whatever the constructor, the bytes are the layout and a signature. -/
theorem Built.canonical {tx : Tier2Transaction} (h : Built keys tx) :
    ∃ (oper : Byte) (xfers : List Transfer) (nonce : Bytes) (sig : Signature),
      Arguments oper xfers nonce ∧ (sig.IsWallet ∨ sig.IsNode) ∧
      tx.canonical = layout oper xfers nonce ++ sig.canonical := by
  cases h with
  | ofSignature h hs => exact ⟨_, _, _, _, h, hs, rfl⟩
  | ofSignatureSound h hs hk => exact ⟨_, _, _, _, h, hs, demandSound_canonical hk⟩
  | sign h hk =>
    obtain ⟨sig, hs, rfl⟩ := sign_ok hk
    exact ⟨_, _, _, sig, h, hs, rfl⟩
  | signSound h hk =>
    rw [Tier2Transaction.signSound] at hk
    split_ifs at hk
    obtain ⟨tx', h', hk⟩ := Result.bind_eq_ok hk
    obtain ⟨sig, hs, rfl⟩ := sign_ok h'
    exact ⟨_, _, _, sig, h, hs, demandSound_canonical hk⟩

/-- A decoder gives the bytes of a transaction back and stops behind them. -/
def RoundTrips (decode : BufReader Tier2Transaction) (tx : Tier2Transaction) (suffix : Bytes) :
    Prop :=
  ∃ tx', decode (ofBytes (tx.getCanonical ++ suffix)) =
      .ok (tx', ⟨tx.getCanonical ++ suffix, tx.getCanonical.length⟩) ∧
    tx'.getCanonical = tx.getCanonical

/-- The decoding loop gives a series of encodings back. -/
def ParsesBack (keys : KeyRing o) (l : List Tier2Transaction) : Prop :=
  ∃ l' b', decodeTransactions keys .t2 0 (l.flatMap getCanonical).length
      (ofBytes (l.flatMap getCanonical)) = .ok (l', b') ∧
    l'.map Transaction.getCanonical = l.map getCanonical

/-- Decoding an encoding that fits the address space loses its last byte. -/
theorem quickFill_layout {oper : Byte} {xfers : List Transfer} {nonce : Bytes} {sig : Signature}
    (ho : oper.toNat < OpType.numOperations) (hn : kMinNonceSize ≤ nonce.length)
    (hsig : sig.IsWallet ∨ sig.IsNode) {c : Bytes}
    (hc : c = layout oper xfers nonce ++ sig.canonical) (suffix : Bytes) (hl : c.length < 2 ^ 64) :
    quickFill (ofBytes (c ++ suffix)) =
      .ok (⟨c.dropLast, false, (xfers.flatMap Transfer.getCanonical).length, nonce.length⟩,
        ⟨c ++ suffix, c.length - 1⟩) := by
  obtain ⟨t, raw, hs, ht, hw⟩ := typeByte_of_signature hsig
  obtain ⟨raw', last, rfl⟩ : ∃ raw' last, raw = raw' ++ [last] := by
    refine ⟨raw.dropLast, raw.getLast ?_, (List.dropLast_concat_getLast _).symm⟩
    intro hnil
    rw [hnil] at hw
    exact absurd hw (by decide)
  have hx : (xfers.flatMap Transfer.getCanonical).length < 2 ^ 64 := by
    rw [hc, layout_eq] at hl
    simp only [List.length_append, List.length_cons] at hl
    omega
  have hcan : c = head oper (xfers.flatMap Transfer.getCanonical) nonce ++
      (t :: raw') ++ [last] := by
    rw [hc, layout_eq, u64_of_lt hx, hs]
    simp [head]
  have hq := @quickFill_head oper (xfers.flatMap Transfer.getCanonical) nonce raw' [] suffix t last
    ho hn (by simpa using ht) (by rw [← ht]; exact hw) (by
      rw [hcan, List.length_append] at hl
      simp only [List.nil_append]
      omega)
  rw [hcan, List.dropLast_concat, List.length_append, List.length_singleton, Nat.add_sub_cancel,
    List.append_assoc _ [last]]
  simpa only [List.nil_append, List.length_nil, Nat.zero_add, List.singleton_append, ofBytes] using hq

theorem quickFill_built {tx : Tier2Transaction} (h : Built keys tx) (suffix : Bytes)
    (hl : tx.canonical.length < 2 ^ 64) :
    ∃ x n, quickFill (ofBytes (tx.canonical ++ suffix)) =
      .ok (⟨tx.canonical.dropLast, false, x, n⟩,
        ⟨tx.canonical ++ suffix, tx.canonical.length - 1⟩) := by
  obtain ⟨oper, xfers, nonce, sig, ha, hsig, hc⟩ := h.canonical
  exact ⟨_, _, quickFill_layout ha.operation ha.nonce_size hsig hc suffix hl⟩

theorem fill_false : fill keys false = quickFill := by
  simp only [fill, Bool.false_eq_true, if_false]
  exact bind_pure quickFill

theorem quickFill_ne {tx tx' : Tier2Transaction} {suffix : Bytes} {b' : InputBuffer}
    (h : Built keys tx) (hd : quickFill (ofBytes (tx.canonical ++ suffix)) = .ok (tx', b')) :
    tx'.canonical ≠ tx.canonical := by
  intro he
  by_cases hl : tx.canonical.length < 2 ^ 64
  · obtain ⟨x, n, hq⟩ := quickFill_built h suffix hl
    rw [hq] at hd
    cases hd
    have hlen := congrArg List.length he
    rw [List.length_dropLast] at hlen
    obtain ⟨oper, xfers, nonce, sig, -, -, hc⟩ := h.canonical
    rw [hc, layout_eq] at hlen
    simp only [List.length_append, List.length_cons] at hlen
    omega
  · obtain ⟨-, -, t, -, hcopy, -⟩ := quickFill_ok hd
    obtain ⟨-, hlen, -⟩ := copy_ok hcopy
    have := u64_lt (t.toNat + kTransferOffset + tx'.xferSize + tx'.nonceSize)
    rw [he] at hlen
    omega

theorem not_roundTrips {tx : Tier2Transaction} (h : Built keys tx) (suffix : Bytes) :
    ¬ RoundTrips quickFill tx suffix := by
  rintro ⟨tx', hd, he⟩
  exact quickFill_ne h hd he

theorem parsesBack_iff {l : List Tier2Transaction} (h : ∀ tx ∈ l, Built keys tx) :
    ParsesBack keys l ↔ l = [] := by
  constructor
  · rintro ⟨l', b', hd, he⟩
    cases l with
    | nil => rfl
    | cons tx l =>
      exfalso
      cases l' with
      | nil => simp at he
      | cons tx' l' =>
        simp only [decodeTransactions, whileBelow] at hd
        split_ifs at hd
        · obtain ⟨t1, b1, h1, hd⟩ := bind_eq_ok hd
          obtain ⟨l1, b2, -, hd⟩ := bind_eq_ok hd
          cases pure_eq_ok hd
          obtain ⟨t2, b3, h2, h1⟩ := bind_eq_ok h1
          cases pure_eq_ok h1
          rw [createUniquePtr, fill_false, List.flatMap_cons] at h2
          rw [List.map_cons, List.map_cons, List.cons.injEq] at he
          exact quickFill_ne (h tx (by simp)) h2 he.1
        · cases hd
  · rintro rfl
    exact ⟨[], _, rfl, rfl⟩

/-- The Tier-2 decoders never give the bytes of a built transaction back, and only an
empty series of encodings parses back into itself. -/
theorem built_roundTrips_iff (l : List Tier2Transaction) (h : ∀ tx ∈ l, Built keys tx) :
    (∀ tx ∈ l, ∀ suffix, ¬ RoundTrips (create keys false) tx suffix ∧
      ¬ RoundTrips (createUniquePtr keys false) tx suffix ∧ ¬ RoundTrips quickCreate tx suffix) ∧
    (ParsesBack keys l ↔ l = []) := by
  refine ⟨fun tx htx suffix => ?_, parsesBack_iff h⟩
  have hq := not_roundTrips (h tx htx) suffix
  simp only [create, createUniquePtr, fill_false, quickCreate]
  exact ⟨hq, hq, hq⟩

theorem built_samplePayment : Built KeyRing.toy samplePayment := by
  refine .ofSignature ⟨by decide, ?_, by decide⟩ (by decide)
  simp only [List.mem_cons, List.not_mem_nil, or_false, forall_eq_or_imp, forall_eq]
  exact ⟨⟨_, _, _, _, by decide, rfl⟩, ⟨_, _, _, _, by decide, rfl⟩⟩

theorem built_roundTrips_iff_samplePayment :
    (∀ suffix, ¬ RoundTrips quickCreate samplePayment suffix) ∧
      ¬ ParsesBack KeyRing.toy [samplePayment] := by
  have h := built_roundTrips_iff [samplePayment]
    (by simpa using built_samplePayment)
  refine ⟨fun suffix => (h.1 samplePayment (by simp) suffix).2.2, fun hp => ?_⟩
  exact absurd (h.2.mp hp) (by simp)

/-- The 215 bytes of the payment come back as 214. -/
theorem quickCreate_samplePayment :
    Built KeyRing.toy samplePayment ∧ samplePayment.getCanonical.length = 215 ∧
      quickCreate (ofBytes samplePayment.getCanonical) =
        .ok (⟨samplePayment.getCanonical.dropLast, false, 116, 8⟩,
          ⟨samplePayment.getCanonical, 214⟩) ∧
      samplePayment.getCanonical.dropLast ≠ samplePayment.getCanonical := by
  refine ⟨built_samplePayment, ?_⟩
  decide +kernel

end Tier2Transaction
end Devcash
