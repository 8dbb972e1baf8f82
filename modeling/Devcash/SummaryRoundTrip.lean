import Devcash.Tier1Codec
import Devcash.WideSummary

/-! Summaries and the Tier-1 transactions made from them, written out and read back. -/
namespace Devcash
open Endian Reader InputBuffer

/-- A summary is read back wherever it stands in a buffer, and nothing behind it is touched. -/
theorem Summary.addFlows_decodes {l : List Flow} (hl : ∀ f ∈ l, f.Typed)
    (haddr : (empty.addFlows l).summary.size < 2 ^ 32) (pre post : Bytes)
    (hvector : (pre ++ (empty.addFlows l).getCanonical ++ post).length < 2 ^ 64) :
    ∃ s', create ⟨pre ++ (empty.addFlows l).getCanonical ++ post, pre.length⟩ =
        .ok (s', ⟨pre ++ (empty.addFlows l).getCanonical ++ post,
          pre.length + (empty.addFlows l).getByteSize⟩) ∧
      s'.summary = (empty.addFlows l).summary := by
  have hbytes : (empty.addFlows l).getByteSize < 2 ^ 64 := by
    rw [List.length_append, List.length_append] at hvector
    rw [getByteSize]
    omega
  exact ⟨_, reads_create (byItems_empty.addFlows hl) ⟨haddr, hbytes⟩ pre post, rfl⟩

/-- A wallet pays with a delay, and a node is paid at once. -/
def Summary.sampleFlows : List Flow :=
  [⟨Address.sample 1, 1, -5, 0⟩, ⟨Address.sample 2, 1, 3, 7⟩, ⟨Address.sampleNode 1, 2, 2, 0⟩]

theorem Summary.typed_sampleFlows : ∀ f ∈ sampleFlows, f.Typed := by
  decide

theorem Summary.addFlows_decodes_sampleFlows : ∃ s',
    create ⟨[7] ++ (empty.addFlows sampleFlows).getCanonical ++ [9], ([7] : Bytes).length⟩ =
      .ok (s', ⟨[7] ++ (empty.addFlows sampleFlows).getCanonical ++ [9],
        ([7] : Bytes).length + (empty.addFlows sampleFlows).getByteSize⟩) ∧
    s'.summary = (empty.addFlows sampleFlows).summary :=
  addFlows_decodes typed_sampleFlows (by decide) [7] [9] (by decide +kernel)

namespace Tier1Transaction
variable {o : Ossl} {keys : KeyRing o}

theorem getTransfers_of_count {s : Summary} {nodeAddr : Address} {sig : Signature}
    {tx : Tier1Transaction} (htx : tx.canonical = encode s nodeAddr sig)
    (h : u32 s.summary.size = 0) : tx.getTransfers = .ok [] := by
  have hread := Summary.create_of_count h (leBytes 8 s.getByteSize)
    (nodeAddr.canonical ++ sig.canonical)
  rw [← encode_eq, ← htx, length_leBytes] at hread
  rw [getTransfers, kUint64Size, hread]
  rfl

theorem ofSummary_encodes {s : Summary} {sig : Signature} {nodeAddr : Address}
    {tx : Tier1Transaction} (h : ofSummary keys s sig nodeAddr = .ok tx) :
    tx.canonical = encode s nodeAddr sig ∧ (unchecked s nodeAddr sig).isSound keys = .ok true := by
  obtain ⟨hsound, rfl⟩ := setIsSound_ok (ofSummary_ok h).2.2
  exact ⟨rfl, hsound⟩

/-- The decoder gives the transaction back, and its accessors give back what it was made
from. -/
theorem ofSummary_decodes {l : List Flow} (hl : ∀ f ∈ l, f.Typed)
    (haddr : (Summary.empty.addFlows l).summary.size < 2 ^ 32) {sig : Signature}
    (hsig : sig.IsNode) {nodeAddr : Address} (ha : nodeAddr.IsNode) {tx : Tier1Transaction}
    (h : ofSummary keys (Summary.empty.addFlows l) sig nodeAddr = .ok tx)
    (hvector : tx.getCanonical.length < 2 ^ 64) (calculateSoundness : Bool) (suffix : Bytes) :
    ∃ tx', create keys calculateSoundness (ofBytes (tx.getCanonical ++ suffix)) =
        .ok (tx', ⟨tx.getCanonical ++ suffix, (Transaction.tier1 tx).getByteSize⟩) ∧
      tx'.getCanonical = tx.getCanonical ∧
      tx'.getMessageDigest = .ok (Summary.empty.addFlows l).getCanonical ∧
      tx'.getNodeAddress = .ok nodeAddr ∧
      tx'.getSignature = .ok sig ∧
      tx'.getTransfers = .ok (Summary.empty.addFlows l).getTransfers := by
  obtain ⟨hcanonical, hsound⟩ := ofSummary_encodes h
  have hitems := Summary.byItems_empty.addFlows hl
  generalize Summary.empty.addFlows l = s at *
  rw [getCanonical, hcanonical] at hvector
  have henc := isEncoding_encode ha hsig hvector
  have hsize : s.getByteSize + kUint64Size + kNodeAddrBufSize < 2 ^ 64 := by
    rw [henc.length_eq] at hvector
    omega
  rw [Transaction.getByteSize, Transaction.getCanonical, getCanonical, hcanonical]
  exact ⟨_, create_of_encoding henc (fun _ => hsound) suffix, rfl,
    getMessageDigest_of_encode rfl rfl, getNodeAddress_of_encode rfl rfl hsize ha, getSignature_of_encode rfl rfl hsize ha hsig,
    getTransfers_of_encode rfl hitems ⟨haddr, by omega⟩⟩

theorem ofSummary_decodes_sampleFlows : ∃ tx tx',
    ofSummary KeyRing.toy (Summary.empty.addFlows Summary.sampleFlows)
      (sampleSignature (Summary.empty.addFlows Summary.sampleFlows)) (Address.sampleNode 1) = .ok tx ∧
    create KeyRing.toy true (ofBytes (tx.getCanonical ++ [9])) =
      .ok (tx', ⟨tx.getCanonical ++ [9], (Transaction.tier1 tx).getByteSize⟩) ∧
    tx'.getTransfers = .ok (Summary.empty.addFlows Summary.sampleFlows).getTransfers := by
  have hbuilt := ofSummary_sample (s := Summary.empty.addFlows Summary.sampleFlows)
    (by decide) (by decide +kernel)
  obtain ⟨tx', hcreate, -, -, -, -, hget⟩ := ofSummary_decodes Summary.typed_sampleFlows
    (by decide) (isNode_sampleSignature _) ⟨rfl, rfl⟩ hbuilt (by decide +kernel) true [9]
  exact ⟨_, tx', hbuilt, hcreate, hget⟩

theorem ofSummary_wide {n : Nat} (hpos : 0 < n) (hn : n ≤ 2 ^ 32) :
    ofSummary KeyRing.toy (Summary.wide n) (sampleSignature (Summary.wide n)) (Address.sampleNode 1) =
      .ok { unchecked (Summary.wide n) (Address.sampleNode 1) (sampleSignature (Summary.wide n)) with
        isSoundFlag := true } := by
  have hle : n ≤ 2 ^ 64 := by omega
  refine ofSummary_sample (Summary.isSane_wide hpos hle) ?_
  rw [Summary.length_wide hle]
  simp only [kUint64Size, kNodeAddrBufSize, kNodeAddrSize]
  omega

theorem wide_undecoded_of_count {n : Nat} (hpos : 0 < n) (hn : n ≤ 2 ^ 32) (hcount : u32 n = 0) :
    (Summary.wide n).isSane = true ∧
    ∃ tx tx' b', ofSummary KeyRing.toy (Summary.wide n) (sampleSignature (Summary.wide n))
        (Address.sampleNode 1) = .ok tx ∧
      create KeyRing.toy true (ofBytes tx.getCanonical) = .ok (tx', b') ∧
      tx'.getTransfers = .ok [] ∧ (Summary.wide n).getTransfers ≠ [] := by
  have hle : n ≤ 2 ^ 64 := by omega
  have hsize := Summary.size_wide hle
  have hbuilt := ofSummary_wide hpos hn
  have hsig := isNode_sampleSignature (Summary.wide n)
  have hnode : (Address.sampleNode 1).IsNode := ⟨rfl, rfl⟩
  have hvector : (encode (Summary.wide n) (Address.sampleNode 1)
      (sampleSignature (Summary.wide n))).length < 2 ^ 64 := by
    rw [encode_eq, List.length_append, List.length_append, List.length_append, length_leBytes,
      hnode.1, hsig.1, ← Summary.getByteSize, Summary.length_wide hle]
    simp only [kNodeAddrBufSize, kNodeAddrSize, kNodeSigBufSize, kNodeSigSize]
    omega
  have hsound : true = true → isSound KeyRing.toy (unchecked (Summary.wide n) (Address.sampleNode 1)
      (sampleSignature (Summary.wide n))) = .ok true := fun _ => (ofSummary_encodes hbuilt).2
  have hcreate := create_of_encoding (isEncoding_encode hnode hsig hvector) hsound []
  rw [List.append_nil] at hcreate
  refine ⟨Summary.isSane_wide hpos hle, _, _, _, hbuilt, hcreate, ?_, ?_⟩
  · exact getTransfers_of_count rfl (by rw [hsize, hcount])
  · intro hnone
    have hne : (Summary.wide n).summary.entries ≠ [] := by
      rw [← List.length_pos_iff]
      have hentries : (Summary.wide n).summary.entries.length = n := hsize
      omega
    obtain ⟨e, he⟩ := List.exists_mem_of_ne_nil _ hne
    rw [Summary.getTransfers, List.flatMap_eq_nil_iff] at hnone
    have hone := hnone e he
    rw [(Summary.wide_items n e he).1] at hone
    exact List.cons_ne_nil _ _ hone

/-- So with 2^32 addresses. -/
theorem wide_undecoded : (∀ f ∈ Summary.wideFlows (2 ^ 32), f.Typed) ∧
    (Summary.wide (2 ^ 32)).isSane = true ∧
    ∃ tx tx' b', ofSummary KeyRing.toy (Summary.wide (2 ^ 32))
        (sampleSignature (Summary.wide (2 ^ 32))) (Address.sampleNode 1) = .ok tx ∧
      create KeyRing.toy true (ofBytes tx.getCanonical) = .ok (tx', b') ∧
      tx'.getTransfers = .ok [] ∧ (Summary.wide (2 ^ 32)).getTransfers ≠ [] :=
  ⟨Summary.typed_wideFlows _,
    wide_undecoded_of_count (Nat.two_pow_pos 32) (Nat.le_refl _) (Nat.mod_self _)⟩

end Tier1Transaction
end Devcash
