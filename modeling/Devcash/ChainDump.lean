import Devcash.Node
import Devcash.Tier1Codec
import Devcash.Tier2Codec
import Devcash.WideSummary

/-! The binary dump of a chain, and what `FinalBlock::Create` reads from it, block after
block. -/
namespace Devcash
open Endian Reader InputBuffer

/-- What a vector of bytes can hold. -/
abbrev Addressable (bytes : Bytes) : Prop := bytes.length < 2 ^ 64

/-- The end of a part does not wrap. -/
theorem Addressable.limit {pre enc post : Bytes} (h : Addressable (pre ++ enc ++ post)) :
    u64 (pre.length + enc.length) = pre.length + enc.length := by
  refine u64_of_lt ?_
  rw [Addressable, List.length_append, List.length_append] at h
  omega

theorem length_le_fuel {raws : List Bytes} (hne : ∀ c ∈ raws, id c ≠ []) (pre post : Bytes) :
    raws.length ≤ (pre ++ raws.flatMap id ++ post).length + 1 := by
  have hle : raws.length ≤ (raws.flatMap id).length := length_le_flatMap hne
  simp only [List.length_append]
  omega

namespace Tier2Transaction

/-- The layout of the constructors with a signature behind it. -/
def IsEncoding (c : Bytes) : Prop :=
  ∃ (oper : Byte) (xfers : List Transfer) (nonce : Bytes) (sig : Signature),
    oper.toNat < OpType.numOperations ∧ kMinNonceSize ≤ nonce.length ∧
      (sig.IsWallet ∨ sig.IsNode) ∧ c = layout oper xfers nonce ++ sig.canonical

theorem Built.isEncoding {o : Ossl} {keys : KeyRing o} {tx : Tier2Transaction} (h : Built keys tx) :
    IsEncoding tx.canonical := by
  obtain ⟨oper, xfers, nonce, sig, harg, hsig, hc⟩ := h.canonical
  exact ⟨oper, xfers, nonce, sig, harg.operation, harg.nonce_size, hsig, hc⟩

theorem IsEncoding.ne_nil {c : Bytes} (h : IsEncoding c) : c ≠ [] := by
  obtain ⟨oper, xfers, nonce, sig, -, -, -, rfl⟩ := h
  rw [layout_eq]
  simp

theorem getNextTransaction_of_reads {b b' : InputBuffer} {x n : Nat} {op t : Byte} {c : Bytes}
    (hsize : b.offset + kTxMinSize ≤ InputBuffer.size b)
    (h1 : getNextUint64 false b = .ok (x, b)) (h2 : getSecondUint64 false b = .ok (n, b))
    (hn : kMinNonceSize ≤ n) (h3 : offsetAt kOperationOffset b = .ok (op, b))
    (hop : op.toNat < OpType.numOperations)
    (h4 : offsetAt (u64 (kTransferOffset + x + n)) b = .ok (t, b))
    (hs : u64 (b.offset + u64 (t.toNat + kTransferOffset + x + n + 1)) ≤ InputBuffer.size b)
    (h5 : copy (u64 (t.toNat + kTransferOffset + x + n + 1)) b = .ok (c, b')) :
    getNextTransaction b = .ok (c, b') := by
  simp only [getNextTransaction, if_neg (Nat.not_lt.mpr hsize)]
  rw [bind_of_ok h1, bind_of_ok h2, if_neg (Nat.not_lt.mpr hn), bind_of_ok h3,
    if_neg (Nat.not_le.mpr hop), bind_of_ok h4]
  simp only [if_neg (Nat.not_lt.mpr hs)]
  exact h5

theorem readsIn_getNextTransaction {c : Bytes} (h : IsEncoding c) :
    ReadsIn Addressable getNextTransaction c (· = c) := by
  intro pre post hbuf
  obtain ⟨oper, xfers, nonce, sig, hop, hn, hsig, hc⟩ := h
  obtain ⟨t, raw, hs, ht, hw⟩ := typeByte_of_signature hsig
  have hx : (xfers.flatMap Transfer.getCanonical).length < 2 ^ 64 := by
    rw [Addressable, hc, layout_eq] at hbuf
    simp only [List.length_append, List.length_cons] at hbuf
    omega
  obtain ⟨X, hX⟩ : ∃ X, X = xfers.flatMap Transfer.getCanonical := ⟨_, rfl⟩
  have hhead : c = head oper X nonce ++ t :: raw := by
    rw [hc, layout_eq, u64_of_lt hx, hs, head, hX]
  have hlen : c.length = t.toNat + kTransferOffset + X.length + nonce.length + 1 := by
    rw [hhead, List.length_append, length_head, List.length_cons, ht]
    omega
  have hsplit : pre ++ c ++ post = pre ++ head oper X nonce ++ t :: (raw ++ post) := by
    rw [hhead]
    simp
  have htotal : (pre ++ c ++ post).length = pre.length + c.length + post.length := by
    simp only [List.length_append]
  have hbound : pre.length + c.length + post.length < 2 ^ 64 := htotal ▸ hbuf
  have hpre : (pre ++ head oper X nonce).length < 2 ^ 64 := by
    rw [List.length_append, length_head]
    omega
  have hsz : u64 (t.toNat + kTransferOffset + X.length + nonce.length + 1) = c.length := by
    rw [← hlen, u64_of_lt (by omega)]
  have hcopy := reads_copy c pre post
  rw [← hsz, hsplit] at hcopy
  refine ⟨c, ?_, rfl⟩
  rw [← hsz, hsplit]
  refine getNextTransaction_of_reads ?_ (head_sizes hpre).1 (head_sizes hpre).2 hn
    (head_operation hpre) hop (head_typeByte hpre t) ?_ hcopy
  · simp only [InputBuffer.size, ← hsplit, htotal, kTxMinSize]
    simp only [kMinNonceSize, kWalletSigSize, kTransferOffset] at hn hw hlen
    omega
  · simp only [InputBuffer.size, ← hsplit, htotal, hsz]
    rw [u64_of_lt (by omega)]
    omega

end Tier2Transaction

theorem eq_of_forall₂ {α : Type} {l m : List α} (h : List.Forall₂ (fun a b => b = a) l m) :
    m = l := by
  induction h with
  | nil => rfl
  | cons hab _ ih => rw [hab, ih]

namespace FinalBlock

theorem readsIn_groupTransactions {raws : List Bytes}
    (h : ∀ c ∈ raws, Tier2Transaction.IsEncoding c) :
    ReadsIn Addressable (groupTransactions raws.flatten.length) raws.flatten (· = raws) := by
  intro pre post hbuf
  have hflat : raws.flatMap id = raws.flatten := List.flatMap_id
  have hlimit := hbuf.limit
  have hfuel := length_le_fuel (fun c hc => (h c hc).ne_nil) pre post
  rw [← hflat] at hbuf hlimit ⊢
  obtain ⟨l, hl, hall⟩ := ReadsIn.whileBelow Error.diverges raws
    (fun c hc => Tier2Transaction.readsIn_getNextTransaction (h c hc))
    (fun c hc => (h c hc).ne_nil) hbuf hfuel
  refine ⟨l, ?_, eq_of_forall₂ hall⟩
  simp only [groupTransactions, hlimit]
  exact hl

end FinalBlock

namespace BlockFields

/-- The words of the header are in range. -/
structure HeaderFits (f : BlockFields) : Prop where
  version : f.version = 0
  numBytes : f.numBytes < 2 ^ 64
  blockTime : f.blockTime < 2 ^ 64
  txSize : f.txSize < 2 ^ 64
  sumSize : f.sumSize < 2 ^ 64
  valCount : f.valCount < 2 ^ 32

/-- The fields that count are right. -/
structure FieldsMatch (f : BlockFields) : Prop extends HeaderFits f where
  numBytes_eq : f.numBytes = f.getCanonical.length
  txSize_eq : f.txSize = f.rawTransactions.flatten.length
  sumSize_eq : f.sumSize = f.summary.getByteSize
  valCount_eq : f.valCount = f.vals.sigs.size

/-- The conditions on a Tier-2 block. -/
structure IsTier2 (f : BlockFields) : Prop extends FieldsMatch f where
  transactions : ∀ c ∈ f.rawTransactions, Tier2Transaction.IsEncoding c
  summary : f.summary.ByItems
  vals : f.vals.OfNodes

theorem getCanonical_nested (f : BlockFields) :
    f.getCanonical = [f.version] ++ (leBytes 8 f.numBytes ++ (leBytes 8 f.blockTime ++
      (f.prevHash.1 ++ (f.merkleRoot.1 ++ (leBytes 8 f.txSize ++ (leBytes 8 f.sumSize ++
        (leBytes 4 f.valCount ++ (f.rawTransactions.flatten ++ (f.summary.getCanonical ++
          f.vals.getCanonical))))))))) := by
  rw [getCanonical_eq]
  simp only [List.append_assoc, List.cons_append, List.nil_append]

theorem length_getCanonical_eq (f : BlockFields) :
    f.getCanonical.length = FinalBlock.minSize + f.rawTransactions.flatten.length +
      f.summary.getByteSize + f.vals.getCanonical.length := by
  rw [getCanonical_nested]
  simp only [List.length_append, length_leBytes, List.length_singleton, f.prevHash.2,
    f.merkleRoot.2, FinalBlock.minSize, Summary.getByteSize]
  omega

theorem getCanonical_ne_nil (f : BlockFields) : f.getCanonical ≠ [] := by
  rw [getCanonical_nested]
  exact List.cons_ne_nil _ _

theorem FieldsMatch.fits {f : BlockFields} (h : f.FieldsMatch)
    (haddresses : f.summary.summary.size < 2 ^ 32) : f.summary.Fits :=
  ⟨haddresses, h.sumSize_eq ▸ h.sumSize⟩

end BlockFields

namespace FinalBlock

/-- Two blocks have the same encoding, part by part. -/
structure SameEncoding (f g : BlockFields) : Prop where
  canonical : g.getCanonical = f.getCanonical
  rawTransactions : g.rawTransactions = f.rawTransactions
  summary : g.summary = f.summary
  vals : g.vals = f.vals

section
variable {failure : String → Error} {transactions : Nat → BufReader (List Transaction × List Bytes)}
  {validations : Nat → BufReader Validation} {prior : ChainState} {f : BlockFields}
  {P : Bytes → Prop} (h : f.HeaderFits)
  (htx : ReadsIn P (transactions f.txSize) f.rawTransactions.flatten
    (fun p => p.2 = f.rawTransactions))
  (hsum : Reads Summary.create f.summary.getCanonical f.summary)
  (hvals : Reads (validations f.valCount) f.vals.getCanonical f.vals)
include h htx hsum hvals

theorem readsIn_parseSized {size : Nat} (hsize : f.numBytes ≤ size) :
    ReadsIn P (parseSized failure transactions validations prior size) f.getCanonical
      (fun g => SameEncoding f g.toBlockFields) := by
  rw [BlockFields.getCanonical_nested, parseSized]
  refine (reads_getNextByte f.version).bindIn ?_
  rw [if_neg (not_not.mpr h.version)]
  refine (reads_getNextUint64 h.numBytes).bindIn ?_
  rw [if_neg (Nat.not_lt.mpr hsize)]
  refine (reads_getNextUint64 h.blockTime).bindIn ((reads_copyHash f.prevHash).bindIn
    ((reads_copyHash f.merkleRoot).bindIn ((reads_getNextUint64 h.txSize).bindIn
      ((reads_getNextUint64 h.sumSize).bindIn ((reads_getNextUint32 h.valCount).bindIn ?_)))))
  refine htx.bind ?_
  rintro ⟨txs, _⟩ rfl
  refine hsum.bindIn ?_
  refine (hvals.readsIn (Q := (· = f.vals)) rfl).bind_done ?_
  rintro _ rfl
  refine (Reads.pure _).readsIn ⟨?_, rfl, rfl, rfl⟩
  rw [BlockFields.getCanonical_eq, BlockFields.getCanonical_eq]

theorem readsIn_parse (hP : ∀ buf, P buf → f.numBytes ≤ buf.length) :
    ReadsIn P (parse failure transactions validations prior) f.getCanonical
      (fun g => SameEncoding f g.toBlockFields) := by
  intro pre post hbuf
  have hmin := f.length_getCanonical
  have hsmall : ¬ InputBuffer.size ⟨pre ++ f.getCanonical ++ post, pre.length⟩ < minSize := by
    simp only [InputBuffer.size, List.length_append]
    omega
  simp only [parse, if_neg hsmall]
  exact readsIn_parseSized h htx hsum hvals (hP _ hbuf) pre post hbuf

end

theorem readsIn_create_of_summary {f : BlockFields} (h : f.HeaderFits)
    (htx : f.txSize = f.rawTransactions.flatten.length)
    (henc : ∀ c ∈ f.rawTransactions, Tier2Transaction.IsEncoding c)
    (hsum : Reads Summary.create f.summary.getCanonical f.summary)
    (hcount : f.valCount = f.vals.sigs.size) (hvals : f.vals.OfNodes) (prior : ChainState) :
    ReadsIn (fun buf => Addressable buf ∧ f.numBytes ≤ buf.length) (create prior) f.getCanonical
      (fun g => SameEncoding f g.toBlockFields) := by
  refine readsIn_parse h ?_ hsum ?_ (fun _ hbuf => hbuf.2)
  · rw [htx]
    refine ((readsIn_groupTransactions henc).weaken (fun _ hbuf => hbuf.1)).bind_done ?_
    rintro _ rfl
    exact (Reads.pure _).readsIn rfl
  · rw [hcount]
    exact Validation.reads_createCount hvals

theorem readsIn_create {f : BlockFields} (h : f.IsTier2)
    (haddresses : f.summary.summary.size < 2 ^ 32) (prior : ChainState) :
    ReadsIn Addressable (create prior) f.getCanonical (fun g => SameEncoding f g.toBlockFields) := by
  have hsum := Summary.reads_create h.summary (h.fits haddresses)
  intro pre post hbuf
  refine readsIn_create_of_summary h.toHeaderFits h.txSize_eq h.transactions hsum h.valCount_eq
    h.vals prior pre post ⟨hbuf, ?_⟩
  rw [h.numBytes_eq, List.length_append, List.length_append]
  omega

end FinalBlock

namespace Blockchain

def binaryDump (chain : Blockchain) : Bytes := chain.flatMap (fun item => item.getCanonical)

/-- `FinalBlock::Create` until the buffer is used up. -/
def readBlocks (prior : ChainState) (data : Bytes) : BufReader (List FinalBlock) :=
  whileBelow Error.diverges (FinalBlock.create prior) data.length (data.length + 1)

/-- The dump of a chain of Tier-2 blocks is read back block by block, to its last byte. -/
theorem binaryDump_roundTrips {chain : Blockchain} (h : ∀ f ∈ chain, f.IsTier2)
    (haddresses : ∀ f ∈ chain, f.summary.summary.size < 2 ^ 32)
    (hdump : Addressable (binaryDump chain)) (prior : ChainState) :
    ∃ l, readBlocks prior (binaryDump chain) (ofBytes (binaryDump chain)) =
        .ok (l, ⟨binaryDump chain, (binaryDump chain).length⟩) ∧
      List.Forall₂ (fun f g => FinalBlock.SameEncoding f.toBlockFields g.toBlockFields) chain l := by
  have hne : ∀ f ∈ chain, f.getCanonical ≠ [] := fun f _ => f.getCanonical_ne_nil
  have hfuel : chain.length ≤ (binaryDump chain).length + 1 :=
    Nat.le_succ_of_le (length_le_flatMap hne)
  exact ReadsIn.whileBelow_whole Error.diverges
    (fun f hf => FinalBlock.readsIn_create (h f hf) (haddresses f hf) prior) hne hdump hfuel

end Blockchain

/-- A block with the sample payment, signed by the first node. -/
def FinalBlock.sampleTier2 : FinalBlock :=
  let raw := Tier2Transaction.samplePayment.canonical
  let summary := Summary.empty.addFlows
    [⟨Address.sample 1, 1, -5, 0⟩, ⟨Address.sample 2, 1, 5, 0⟩]
  { BlockFields.default with
    numBytes := minSize + raw.length + summary.getByteSize + Validation.pairSize
    txSize := raw.length
    sumSize := summary.getByteSize
    valCount := 1
    rawTransactions := [raw]
    summary
    vals := ⟨OrdMap.empty.insert (Address.sampleNode 1) (Tier1Transaction.sampleSignature summary)⟩
    blockState := ChainState.empty }

theorem FinalBlock.isTier2_sampleTier2 : sampleTier2.IsTier2 := by
  have hfields : sampleTier2.numBytes < 2 ^ 64 ∧ sampleTier2.txSize < 2 ^ 64 ∧
      sampleTier2.sumSize < 2 ^ 64 ∧ sampleTier2.numBytes = sampleTier2.getCanonical.length ∧
      sampleTier2.vals.OfNodes := by
    decide +kernel
  refine ⟨⟨⟨rfl, hfields.1, Nat.two_pow_pos 64, hfields.2.1, hfields.2.2.1, by decide⟩,
    hfields.2.2.2.1, ?_, rfl, rfl⟩, ?_, ?_, hfields.2.2.2.2⟩
  · exact congrArg List.length (List.append_nil _).symm
  · intro c hc
    rw [List.mem_singleton.mp hc]
    exact Tier2Transaction.built_samplePayment.isEncoding
  · refine Summary.byItems_empty.addFlows (fun f hf => ?_)
    simp only [List.mem_cons, List.not_mem_nil, or_false] at hf
    obtain rfl | rfl := hf
    · exact ⟨by decide, by decide, by decide⟩
    · exact ⟨by decide, by decide, by decide⟩

/-- A block that sends nothing to each of `n` wallets. -/
def FinalBlock.wideBlock (n : Nat) : FinalBlock :=
  { BlockFields.default with
    numBytes := minSize + (Summary.wide n).getByteSize
    sumSize := (Summary.wide n).getByteSize
    summary := Summary.wide n
    blockState := ChainState.empty }

theorem FinalBlock.isTier2_wideBlock {n : Nat} (hn : n ≤ 2 ^ 32) : (wideBlock n).IsTier2 := by
  have hbytes : (Summary.wide n).getByteSize = 4 + n * 66 := Summary.length_wide (by omega)
  have hnum : (wideBlock n).numBytes = minSize + (Summary.wide n).getByteSize := rfl
  have hsum : (wideBlock n).sumSize = (Summary.wide n).getByteSize := rfl
  refine ⟨⟨⟨rfl, ?_, Nat.two_pow_pos 64, Nat.two_pow_pos 64, ?_, Nat.two_pow_pos 32⟩, ?_, rfl, rfl,
    rfl⟩, fun c hc => (List.not_mem_nil hc).elim, Summary.byItems_wide n,
    fun e he => (List.not_mem_nil he).elim⟩
  · rw [hnum, hbytes, minSize]
    omega
  · rw [hsum, hbytes]
    omega
  · rw [hnum, BlockFields.length_getCanonical_eq]
    rfl

/-- What the decoder takes for the block when the count of the addresses is 0. -/
def FinalBlock.emptied (n : Nat) : BlockFields :=
  { (wideBlock n).toBlockFields with summary := Summary.empty }

theorem FinalBlock.getCanonical_wideBlock {n : Nat} (hn : n ≤ 2 ^ 64) (hcount : u32 n = 0) :
    (wideBlock n).getCanonical = (emptied n).getCanonical ++
      (Summary.wide n).summary.entries.flatMap Summary.entryBytes := by
  have hwide : (wideBlock n).summary.getCanonical =
      leBytes 4 0 ++ (Summary.wide n).summary.entries.flatMap Summary.entryBytes := by
    rw [show (wideBlock n).summary = Summary.wide n from rfl, Summary.getCanonical_eq,
      Summary.size_wide hn, hcount]
  have hempty : (emptied n).summary.getCanonical = leBytes 4 0 := by
    rw [show (emptied n).summary = Summary.empty from rfl, Summary.getCanonical_eq]
    rfl
  have hvals : (wideBlock n).vals.getCanonical = [] := rfl
  have hvals' : (emptied n).vals.getCanonical = [] := rfl
  rw [BlockFields.getCanonical_nested, BlockFields.getCanonical_nested, hwide, hempty, hvals, hvals']
  simp only [List.append_nil, List.append_assoc]
  rfl

/-- The bytes of the entries are then left over. -/
theorem FinalBlock.create_wideBlock {n : Nat} (hpos : 0 < n) (hn : n ≤ 2 ^ 32) (hcount : u32 n = 0)
    (prior : ChainState) : ∃ g b,
      FinalBlock.create prior (ofBytes (wideBlock n).getCanonical) = .ok (g, b) ∧
      g.summary ≠ (wideBlock n).summary := by
  have hle : n ≤ 2 ^ 64 := by omega
  have htier2 := isTier2_wideBlock hn
  have hfits : (emptied n).HeaderFits :=
    ⟨htier2.version, htier2.numBytes, htier2.blockTime, htier2.txSize, htier2.sumSize, htier2.valCount⟩
  have hsum : Reads Summary.create (emptied n).summary.getCanonical (emptied n).summary :=
    Summary.reads_create Summary.byItems_empty (show Summary.empty.Fits by decide)
  have hlen : Addressable (wideBlock n).getCanonical ∧
      (emptied n).numBytes ≤ (wideBlock n).getCanonical.length := by
    rw [Addressable, ← htier2.numBytes_eq]
    exact ⟨htier2.numBytes, Nat.le_refl _⟩
  rw [getCanonical_wideBlock hle hcount] at hlen ⊢
  have hread := readsIn_create_of_summary hfits rfl (fun _ hc => (List.not_mem_nil hc).elim) hsum rfl
    (fun _ he => (List.not_mem_nil he).elim) prior []
    ((Summary.wide n).summary.entries.flatMap Summary.entryBytes)
  simp only [List.nil_append, List.length_nil, Nat.zero_add] at hread
  obtain ⟨g, hg, hsame⟩ := hread hlen
  refine ⟨g, _, hg, ?_⟩
  rw [hsame.summary]
  intro he
  have hsize := Summary.size_wide hle
  have hzero : (Summary.wide n).summary.size = 0 :=
    (congrArg (fun s : Summary => s.summary.size) he).symm
  omega

namespace Blockchain

theorem binaryDump_roundTrips_sampleTier2 :
    ∃ l, readBlocks ChainState.empty (binaryDump [.sampleTier2, .sampleTier2])
        (ofBytes (binaryDump [.sampleTier2, .sampleTier2])) =
        .ok (l, ⟨binaryDump [.sampleTier2, .sampleTier2],
          (binaryDump [.sampleTier2, .sampleTier2]).length⟩) ∧
      List.Forall₂ (fun f g : FinalBlock =>
          FinalBlock.SameEncoding f.toBlockFields g.toBlockFields)
        [.sampleTier2, .sampleTier2] l := by
  have hsizes : FinalBlock.sampleTier2.summary.summary.size < 2 ^ 32 ∧
      Addressable (binaryDump [.sampleTier2, .sampleTier2]) := by
    decide +kernel
  refine binaryDump_roundTrips ?_ ?_ hsizes.2 ChainState.empty
  · intro f hf
    simp only [List.mem_cons, List.not_mem_nil, or_false, or_self] at hf
    rw [hf]
    exact FinalBlock.isTier2_sampleTier2
  · intro f hf
    simp only [List.mem_cons, List.not_mem_nil, or_false, or_self] at hf
    rw [hf]
    exact hsizes.1

/-- The block with 2^32 addresses is a Tier-2 block and does not come back. -/
theorem wideBlock_lost : (FinalBlock.wideBlock (2 ^ 32)).IsTier2 ∧
    ∃ g b, FinalBlock.create ChainState.empty (ofBytes (binaryDump [.wideBlock (2 ^ 32)])) =
        .ok (g, b) ∧
      g.summary ≠ (FinalBlock.wideBlock (2 ^ 32)).summary := by
  rw [binaryDump, List.flatMap_singleton]
  exact ⟨FinalBlock.isTier2_wideBlock (Nat.le_refl _),
    FinalBlock.create_wideBlock (Nat.two_pow_pos 32) (Nat.le_refl _) (Nat.mod_self _)
      ChainState.empty⟩

end Blockchain
end Devcash
