import Devcash.ChainDump
import Devcash.Failures

/-! The blocks of the first tier: a proposal and the final block made from it are decoded
to blocks with the same bytes. -/
namespace Devcash
open Endian Reader InputBuffer

theorem throws_slice {P : Error → Prop} {bytes : Bytes} {start length : Nat}
    (h : start + length ≤ bytes.length) : (slice bytes start length).Throws P := by
  rw [slice, if_pos h]
  exact .ok _

namespace Tier1Transaction
variable {o : Ossl} (hload : o.LoadsPlainly) (keys : KeyRing o) {n : Nat} {c : Bytes}
include hload

/-- The soundness check of an encoding reads no byte outside it. -/
theorem caught_setIsSound (h : IsEncoding n c) :
    (Transaction.setIsSound keys (.tier1 ⟨c, false, n⟩)).Throws Caught := by
  have hlen := h.length_eq
  have hbytes := h.bytes
  simp only [kNodeSigBufSize, kNodeSigSize, kUint64Size, kNodeAddrBufSize, kNodeAddrSize] at hlen
  have haddr : u64 (n + kUint64Size) + kNodeAddrBufSize ≤ c.length := by
    rw [u64_of_lt (by simp only [kUint64Size]; omega)]
    simp only [kUint64Size, kNodeAddrBufSize, kNodeAddrSize]
    omega
  have hmsg : kUint64Size + n ≤ c.length := by
    simp only [kUint64Size]
    omega
  have hend : u64 (n + kUint64Size + kNodeAddrBufSize) + kNodeSigBufSize ≤ c.length := by
    rw [u64_of_lt (by simp only [kUint64Size, kNodeAddrBufSize, kNodeAddrSize]; omega)]
    simp only [kUint64Size, kNodeAddrBufSize, kNodeAddrSize, kNodeSigBufSize, kNodeSigSize]
    omega
  have hsound : (isSound keys ⟨c, false, n⟩).Throws Caught :=
    .ite (.ok _) (((throws_slice haddr).bind (fun _ _ => .ok _)).bind (fun a _ =>
      (keys.caught_getKey hload a).bind (fun _ _ => (throws_slice hmsg).bind (fun _ _ =>
        ((throws_slice hend).bind (fun _ _ => caught_signature _)).bind (fun _ _ => .ok _)))))
  exact (hsound.bind (fun _ _ => .ite (.ok _) (.error rfl))).bind (fun _ _ => .ok _)

/-- Whatever comes of it, a job leaves the bytes alone. -/
theorem pushJob_encoding (h : IsEncoding n c) :
    ∃ tx, pushJob keys (.tier1 ⟨c, false, n⟩) = .ok tx ∧ tx.getCanonical = c := by
  have hcaught := caught_setIsSound hload keys h
  rw [pushJob]
  split
  · rename_i tx' hok
    refine ⟨tx', rfl, ?_⟩
    obtain ⟨tx1, h1, hok⟩ := Result.bind_eq_ok hok
    cases hok
    rw [(setIsSound_ok h1).2]
    rfl
  · rename_i herr
    exact absurd (hcaught _ herr) (by decide)
  · rename_i herr
    exact absurd (hcaught _ herr) (by decide)
  · exact ⟨_, rfl, rfl⟩

theorem mapM_pushJob {raws : List Bytes} {vtx : List Transaction}
    (h : List.Forall₂ (fun c tx => ∃ n, tx = .tier1 ⟨c, false, n⟩ ∧ IsEncoding n c) raws vtx) :
    ∃ txs, vtx.mapM (pushJob keys) = .ok txs ∧ txs.map Transaction.getCanonical = raws := by
  induction h with
  | nil => exact ⟨[], rfl, rfl⟩
  | cons hc _ ih =>
    obtain ⟨n, rfl, henc⟩ := hc
    obtain ⟨tx, htx, hcan⟩ := pushJob_encoding hload keys henc
    obtain ⟨txs, htxs, hcans⟩ := ih
    refine ⟨tx :: txs, ?_, by rw [List.map_cons, hcan, hcans]⟩
    rw [List.mapM_cons, htx, Result.bind_ok, htxs]
    rfl

theorem createTransactions_encodings {raws : List Bytes} (h : ∀ c ∈ raws, ∃ n, IsEncoding n c)
    (pre post : Bytes) (hbuf : Addressable (pre ++ raws.flatten ++ post)) :
    ∃ txs, createTransactions keys .t1 pre.length raws.flatten.length
        ⟨pre ++ raws.flatten ++ post, pre.length⟩ =
        .ok (txs, ⟨pre ++ raws.flatten ++ post, pre.length + raws.flatten.length⟩) ∧
      txs.map Transaction.getCanonical = raws := by
  have hflat : raws.flatMap id = raws.flatten := List.flatMap_id
  have hne : ∀ c ∈ raws, id c ≠ [] := by
    intro c hc
    obtain ⟨n, hn⟩ := h c hc
    exact hn.ne_nil
  have hreads : ∀ c ∈ raws, ReadsIn Addressable (createTransaction keys .t1 false) (id c)
      (fun tx => ∃ n, tx = .tier1 ⟨c, false, n⟩ ∧ IsEncoding n c) := by
    intro c hc
    obtain ⟨n, hn⟩ := h c hc
    have hread : Reads (createTransaction keys .t1 false) c (.tier1 ⟨c, false, n⟩) :=
      (reads_ofBuffer hn).bind_done (Reads.pure _)
    exact hread.readsIn ⟨n, rfl, hn⟩
  have hlimit := hbuf.limit
  have hfuel := length_le_fuel hne pre post
  rw [← hflat] at hbuf hlimit ⊢
  obtain ⟨vtx, hvtx, hall⟩ := ReadsIn.whileBelow Error.diverges raws hreads hne hbuf hfuel
  obtain ⟨txs, htxs, hcans⟩ := mapM_pushJob hload keys hall
  refine ⟨txs, ?_, hcans⟩
  have hdecode : decodeTransactions keys .t1 pre.length (raws.flatMap id).length
      ⟨pre ++ raws.flatMap id ++ post, pre.length⟩ =
      .ok (vtx, ⟨pre ++ raws.flatMap id ++ post, pre.length + (raws.flatMap id).length⟩) := by
    simp only [decodeTransactions, hlimit]
    exact hvtx
  rw [createTransactions, bind_of_ok hdecode, htxs]
  rfl

end Tier1Transaction

section
variable {o : Ossl} (keys : KeyRing o)

/-- The reads behind the header that the two decoders share. -/
def readSections (mode : AppMode) (startSize txSize : Nat) :
    BufReader (List Transaction × Summary × Validation) := do
  let transactionVector ← createTransactions keys mode startSize txSize
  let summary ← Summary.create
  let vals ← Validation.create
  pure (transactionVector, summary, vals)

variable {keys}

theorem readSections_encodings (hload : o.LoadsPlainly) {raws : List Bytes} {s : Summary}
    {v : Validation} (h : ∀ c ∈ raws, ∃ n, Tier1Transaction.IsEncoding n c) (hs : s.ByItems)
    (hf : s.Fits) (hv : v.OfNodes) (pre : Bytes)
    (hbuf : Addressable (pre ++ (raws.flatten ++ (s.getCanonical ++ v.getCanonical)))) :
    ∃ txs b, readSections keys .t1 pre.length raws.flatten.length
        ⟨pre ++ (raws.flatten ++ (s.getCanonical ++ v.getCanonical)), pre.length⟩ =
        .ok ((txs, s, v), b) ∧
      txs.map Transaction.getCanonical = raws := by
  rw [← List.append_assoc] at hbuf ⊢
  obtain ⟨txs, htxs, hcans⟩ :=
    Tier1Transaction.createTransactions_encodings hload keys h pre _ hbuf
  have hvals := Validation.create_getCanonical hv (pre ++ raws.flatten ++ s.getCanonical)
  have hread : readSections keys .t1 pre.length raws.flatten.length
      ⟨pre ++ raws.flatten ++ (s.getCanonical ++ v.getCanonical), pre.length⟩ =
      .ok ((txs, s, v), ⟨pre ++ raws.flatten ++ s.getCanonical ++ v.getCanonical,
        (pre ++ raws.flatten ++ s.getCanonical).length + v.getCanonical.length⟩) := by
    rw [readSections, bind_of_ok htxs, ← List.length_append, (Summary.reads_create hs hf).run,
      bind_of_ok hvals]
    rfl
  exact ⟨txs, _, hread, hcans⟩

end

namespace ProposedBlock

/-- The words of the header are in range. -/
structure HeaderFits (p : ProposedBlock) : Prop where
  version : p.version = 0
  numBytes : p.numBytes < 2 ^ 64
  txSize : p.txSize < 2 ^ 64
  sumSize : p.sumSize < 2 ^ 64
  valCount : p.valCount < 2 ^ 32

/-- The transactions as they are encoded. -/
def rawTransactions (p : ProposedBlock) : List Bytes :=
  p.transactionVector.map Transaction.getCanonical

/-- The conditions on a Tier-1 proposal: the parts, and the fields that count them. -/
structure IsTier1 (p : ProposedBlock) : Prop extends HeaderFits p where
  numBytes_eq : p.numBytes = p.getCanonical.length
  txSize_eq : p.txSize = p.rawTransactions.flatten.length
  sumSize_eq : p.sumSize = p.summary.getByteSize
  valCount_eq : p.valCount = p.vals.sigs.size
  transactions : ∀ c ∈ p.rawTransactions, ∃ n, Tier1Transaction.IsEncoding n c
  summary : p.summary.ByItems
  vals : p.vals.OfNodes

/-- The bytes in front of the transactions. -/
def header (p : ProposedBlock) : Bytes :=
  [p.version] ++ leBytes 8 p.numBytes ++ p.prevHash.1 ++ leBytes 8 p.txSize ++
    leBytes 8 p.sumSize ++ leBytes 4 p.valCount

/-- The bytes behind the header. -/
def sections (p : ProposedBlock) : Bytes :=
  p.rawTransactions.flatten ++ (p.summary.getCanonical ++ p.vals.getCanonical)

theorem length_header (p : ProposedBlock) : p.header.length = minSize := by
  simp only [header, List.length_append, length_leBytes, List.length_singleton, p.prevHash.2,
    minSize]

theorem getCanonical_eq (p : ProposedBlock) : p.getCanonical = p.header ++ p.sections := by
  simp only [getCanonical, header, sections, rawTransactions, uint64ToBin_eq, uint32ToBin_eq,
    List.append_assoc, List.flatMap_def]

/-- The block with other sections read for it. -/
def withSections (p : ProposedBlock) (prior : ChainState)
    (r : List Transaction × Summary × Validation) : ProposedBlock :=
  { p with transactionVector := r.1, summary := r.2.1, vals := r.2.2, blockState := prior }

section
variable {o : Ossl} {keys : KeyRing o} {p : ProposedBlock}

theorem create_header (h : p.HeaderFits) (mode : AppMode) (prior : ChainState) {rest : Bytes}
    (hsize : p.numBytes = (p.header ++ rest).length) :
    create keys mode prior (ofBytes (p.header ++ rest)) =
      (readSections keys mode minSize p.txSize >>= fun r => pure (p.withSections prior r))
        ⟨p.header ++ rest, p.header.length⟩ := by
  have hmin : ¬ InputBuffer.size (ofBytes (p.header ++ rest)) < minSize := by
    rw [InputBuffer.size, ofBytes, List.length_append, length_header]
    omega
  have hnum : ¬ InputBuffer.size (ofBytes (p.header ++ rest)) ≠ p.numBytes := not_not.mpr hsize.symm
  have hcut : ofBytes (p.header ++ rest) = ⟨[] ++ ([p.version] ++ (leBytes 8 p.numBytes ++
      (p.prevHash.1 ++ (leBytes 8 p.txSize ++ (leBytes 8 p.sumSize ++
        (leBytes 4 p.valCount ++ rest)))))), ([] : Bytes).length⟩ := by
    simp only [ofBytes, header, List.append_assoc, List.nil_append, List.length_nil]
  rw [create, if_neg hmin]
  generalize hN : InputBuffer.size (ofBytes (p.header ++ rest)) = N at hnum ⊢
  rw [hcut, (reads_getNextByte p.version).run, if_neg (not_not.mpr h.version),
    (reads_getNextUint64 h.numBytes).run, if_neg hnum, (reads_copyHash p.prevHash).run,
    (reads_getNextUint64 h.txSize).run, (reads_getNextUint64 h.sumSize).run,
    (reads_getNextUint32 h.valCount).run]
  simp only [readSections, withSections, bind_assoc, pure_bind, List.nil_append, header]

theorem create_sameBytes (hload : o.LoadsPlainly) (h : p.IsTier1)
    (haddresses : p.summary.summary.size < 2 ^ 32) (prior : ChainState) :
    ∃ q b, create keys .t1 prior (ofBytes p.getCanonical) = .ok (q, b) ∧
      q.getCanonical = p.getCanonical := by
  have hfits : p.summary.Fits := ⟨haddresses, h.sumSize_eq ▸ h.sumSize⟩
  have hbuf : Addressable (p.header ++ p.sections) := by
    rw [Addressable, ← getCanonical_eq, ← h.numBytes_eq]
    exact h.numBytes
  obtain ⟨txs, b, hread, hcans⟩ :=
    readSections_encodings hload h.transactions h.summary hfits h.vals p.header hbuf
  rw [length_header, ← h.txSize_eq, ← length_header p] at hread
  have hsize : p.numBytes = (p.header ++ p.sections).length := by
    rw [← getCanonical_eq, h.numBytes_eq]
  have hcreate : create keys .t1 prior (ofBytes p.getCanonical) =
      .ok (p.withSections prior (txs, p.summary, p.vals), b) := by
    rw [getCanonical_eq, create_header h.toHeaderFits .t1 prior hsize, ← length_header p]
    exact bind_of_ok hread
  refine ⟨_, b, hcreate, ?_⟩
  -- The header does not depend on the sections, and the decoded ones have the same bytes.
  have hraw : (p.withSections prior (txs, p.summary, p.vals)).rawTransactions =
      p.rawTransactions := hcans
  rw [getCanonical_eq, getCanonical_eq, sections, hraw]
  rfl

end
end ProposedBlock

namespace BlockFields

/-- The bytes in front of the transactions. -/
def header (f : BlockFields) : Bytes :=
  [f.version] ++ leBytes 8 f.numBytes ++ leBytes 8 f.blockTime ++ f.prevHash.1 ++ f.merkleRoot.1 ++
    leBytes 8 f.txSize ++ leBytes 8 f.sumSize ++ leBytes 4 f.valCount

def sections (f : BlockFields) : Bytes :=
  f.rawTransactions.flatten ++ (f.summary.getCanonical ++ f.vals.getCanonical)

theorem length_header (f : BlockFields) : f.header.length = FinalBlock.minSize := by
  simp only [header, List.length_append, length_leBytes, List.length_singleton, f.prevHash.2,
    f.merkleRoot.2, FinalBlock.minSize]

theorem getCanonical_header (f : BlockFields) : f.getCanonical = f.header ++ f.sections := by
  rw [getCanonical_nested]
  simp only [header, sections, List.append_assoc]

theorem ofBytes_header (f : BlockFields) (rest : Bytes) :
    ofBytes (f.header ++ rest) = ⟨[] ++ ([f.version] ++ (leBytes 8 f.numBytes ++
      (leBytes 8 f.blockTime ++ (f.prevHash.1 ++ (f.merkleRoot.1 ++ (leBytes 8 f.txSize ++
        (leBytes 8 f.sumSize ++ (leBytes 4 f.valCount ++ rest)))))))), ([] : Bytes).length⟩ := by
  simp only [ofBytes, header, List.append_assoc, List.nil_append, List.length_nil]

/-- The block with other sections read for it. -/
def withSections (f : BlockFields) (r : List Transaction × Summary × Validation) : BlockFields :=
  { f with
    transactionVector := r.1
    rawTransactions := r.1.map Transaction.getCanonical
    summary := r.2.1
    vals := r.2.2 }

end BlockFields

namespace FinalBlock
variable {o : Ossl} {keys : KeyRing o} {f : BlockFields}

theorem readFields_header (h : f.HeaderFits) (mode : AppMode) {rest : Bytes}
    (hsize : f.numBytes = (f.header ++ rest).length) :
    readFields keys mode (ofBytes (f.header ++ rest)) =
      (readSections keys mode minSize f.txSize >>= fun r => pure (f.withSections r))
        ⟨f.header ++ rest, f.header.length⟩ := by
  have hmin : ¬ InputBuffer.size (ofBytes (f.header ++ rest)) < minSize := by
    rw [InputBuffer.size, ofBytes, List.length_append, BlockFields.length_header]
    omega
  have hnum : ¬ InputBuffer.size (ofBytes (f.header ++ rest)) ≠ f.numBytes := not_not.mpr hsize.symm
  rw [readFields, if_neg hmin]
  generalize InputBuffer.size (ofBytes (f.header ++ rest)) = N at hnum ⊢
  rw [f.ofBytes_header, (reads_getNextByte f.version).run, if_neg (not_not.mpr h.version),
    (reads_getNextUint64 h.numBytes).run, if_neg hnum, (reads_getNextUint64 h.blockTime).run,
    (reads_copyHash f.prevHash).run, (reads_copyHash f.merkleRoot).run,
    (reads_getNextUint64 h.txSize).run, (reads_getNextUint64 h.sumSize).run,
    (reads_getNextUint32 h.valCount).run]
  simp only [readSections, BlockFields.withSections, bind_assoc, pure_bind, List.nil_append,
    BlockFields.header]

theorem decode_sameBytes (hload : o.LoadsPlainly) (h : f.FieldsMatch)
    (htx : ∀ c ∈ f.rawTransactions, ∃ n, Tier1Transaction.IsEncoding n c)
    (hs : f.summary.ByItems) (haddresses : f.summary.summary.size < 2 ^ 32)
    (hv : f.vals.OfNodes) :
    ∃ g, decode keys .t1 f.getCanonical = .ok g ∧ g.getCanonical = f.getCanonical := by
  have hbuf : Addressable (f.header ++ f.sections) := by
    rw [Addressable, ← BlockFields.getCanonical_header, ← h.numBytes_eq]
    exact h.numBytes
  obtain ⟨txs, b, hread, hcans⟩ :=
    readSections_encodings hload htx hs (h.fits haddresses) hv f.header hbuf
  rw [BlockFields.length_header, ← h.txSize_eq, ← BlockFields.length_header f] at hread
  have hsize : f.numBytes = (f.header ++ f.sections).length := by
    rw [← BlockFields.getCanonical_header, h.numBytes_eq]
  have hfields : readFields keys .t1 (ofBytes f.getCanonical) =
      .ok (f.withSections (txs, f.summary, f.vals), b) := by
    rw [BlockFields.getCanonical_header, readFields_header h.toHeaderFits .t1 hsize,
      ← BlockFields.length_header f]
    exact bind_of_ok hread
  refine ⟨f.withSections (txs, f.summary, f.vals), ?_, ?_⟩
  · rw [decode, hfields]
    rfl
  · have hraw : (f.withSections (txs, f.summary, f.vals)).rawTransactions = f.rawTransactions := hcans
    rw [BlockFields.getCanonical_header, BlockFields.getCanonical_header, BlockFields.sections, hraw]
    rfl

theorem fieldsMatch_fieldsOf {p : ProposedBlock} (h : p.IsTier1) {now : Nat} (hnow : now < 2 ^ 64)
    (hbytes : Addressable (fieldsOf o now p).getCanonical) : (fieldsOf o now p).FieldsMatch := by
  have hlen : (fieldsOf o now p).getCanonical.length = p.numBytes + 40 := by
    rw [BlockFields.getCanonical_header, List.length_append, BlockFields.length_header,
      h.numBytes_eq, ProposedBlock.getCanonical_eq, List.length_append, ProposedBlock.length_header,
      minSize, ProposedBlock.minSize]
    have hsections : (fieldsOf o now p).sections = p.sections := rfl
    rw [hsections]
    omega
  have hnum : (fieldsOf o now p).numBytes = p.numBytes + 40 := by
    rw [Addressable, hlen] at hbytes
    exact u64_of_lt hbytes
  refine ⟨⟨rfl, ?_, hnow, h.txSize, h.sumSize, h.valCount⟩, ?_, h.txSize_eq, h.sumSize_eq,
    h.valCount_eq⟩
  · rw [hnum, ← hlen]
    exact hbytes
  · rw [hnum, hlen]

end FinalBlock

/-- Both codecs of the first tier, whatever the soundness checks make of the transactions:
the keys of the receiver are arbitrary. -/
theorem tier1Codecs_roundTrip {o : Ossl} (hload : o.LoadsPlainly) (keys : KeyRing o)
    {p : ProposedBlock} (h : p.IsTier1) (haddresses : p.summary.summary.size < 2 ^ 32)
    (prior : ChainState) {now : Nat} (hnow : now < 2 ^ 64)
    (hbytes : Addressable (FinalBlock.ofProposed o now p).getCanonical) :
    (∃ q b, ProposedBlock.create keys .t1 prior (ofBytes p.getCanonical) = .ok (q, b) ∧
      q.getCanonical = p.getCanonical) ∧
    ∃ g, FinalBlock.decode keys .t1 (FinalBlock.ofProposed o now p).getCanonical = .ok g ∧
      (FinalBlock.ofFields g prior).getCanonical =
        (FinalBlock.ofProposed o now p).getCanonical := by
  refine ⟨ProposedBlock.create_sameBytes hload h haddresses prior, ?_⟩
  exact FinalBlock.decode_sameBytes hload (FinalBlock.fieldsMatch_fieldsOf h hnow hbytes)
    h.transactions h.summary haddresses h.vals

/-- A proposal with one transaction and the vote of one node. -/
def ProposedBlock.sampleTier1 : ProposedBlock :=
  let summary := Summary.empty.addFlows
    [⟨Address.sample 1, 1, -5, 0⟩, ⟨Address.sample 2, 1, 5, 0⟩]
  let sig := Tier1Transaction.sampleSignature summary
  ofTransactions Hash.zero [.tier1 (Tier1Transaction.unchecked summary (Address.sampleNode 1) sig)]
    summary ⟨OrdMap.empty.insert (Address.sampleNode 1) sig⟩ ChainState.empty

theorem ProposedBlock.isTier1_sampleTier1 : sampleTier1.IsTier1 := by
  have hfields : sampleTier1.numBytes < 2 ^ 64 ∧ sampleTier1.txSize < 2 ^ 64 ∧
      sampleTier1.sumSize < 2 ^ 64 ∧ sampleTier1.numBytes = sampleTier1.getCanonical.length ∧
      sampleTier1.txSize = sampleTier1.rawTransactions.flatten.length ∧
      sampleTier1.vals.OfNodes := by
    decide +kernel
  obtain ⟨hnum, htx, hsum, hnumEq, htxEq, hvals⟩ := hfields
  refine ⟨⟨rfl, hnum, htx, hsum, by decide⟩, hnumEq, htxEq, rfl, by decide, ?_, ?_,
    hvals⟩
  · intro c hc
    rw [List.mem_singleton.mp hc]
    exact ⟨_, Tier1Transaction.isEncoding_encode ⟨rfl, rfl⟩
      (Tier1Transaction.isNode_sampleSignature _) (by decide +kernel)⟩
  · refine Summary.byItems_empty.addFlows (fun f hf => ?_)
    simp only [List.mem_cons, List.not_mem_nil, or_false] at hf
    obtain rfl | rfl := hf
    · exact ⟨by decide, by decide, by decide⟩
    · exact ⟨by decide, by decide, by decide⟩

theorem tier1Codecs_roundTrip_sampleTier1 :
    (∃ q b, ProposedBlock.create KeyRing.toy .t1 ChainState.empty
        (ofBytes ProposedBlock.sampleTier1.getCanonical) = .ok (q, b) ∧
      q.getCanonical = ProposedBlock.sampleTier1.getCanonical) ∧
    ∃ g, FinalBlock.decode KeyRing.toy .t1
        (FinalBlock.ofProposed Ossl.toy 7 ProposedBlock.sampleTier1).getCanonical = .ok g ∧
      (FinalBlock.ofFields g ChainState.empty).getCanonical =
        (FinalBlock.ofProposed Ossl.toy 7 ProposedBlock.sampleTier1).getCanonical :=
  tier1Codecs_roundTrip (fun _ => .ok _) KeyRing.toy ProposedBlock.isTier1_sampleTier1
    (by decide) ChainState.empty (by decide) (by decide +kernel)

theorem Summary.getCanonical_wide {n : Nat} (hpos : 0 < n) (hn : n ≤ 2 ^ 64) (hcount : u32 n = 0) :
    ∃ (a : Address) (rest : Bytes), a.IsWallet ∧
      (wide n).getCanonical = leBytes 4 0 ++ (a.canonical ++ ([0] ++ rest)) := by
  have hsize : (wide n).summary.entries.length = n := size_wide hn
  obtain ⟨e, l, hentries⟩ := List.exists_cons_of_length_pos (hsize.symm ▸ hpos)
  obtain ⟨hitems, i, -, haddr⟩ := wide_items n e (by rw [hentries]; exact List.mem_cons_self)
  have hzero : leBytes 8 e.2.1.size = [0] ++ leBytes 7 0 := by
    rw [hitems]
    decide
  rw [getCanonical_eq, size_wide hn, hcount, hentries, List.flatMap_cons, entryBytes, hzero]
  simp only [List.append_assoc]
  exact ⟨e.1, _, haddr ▸ Address.isWallet_numbered i, rfl⟩

theorem Validation.create_error {a : Address} (ha : a.IsWallet) (pre rest : Bytes)
    (hlen : pairSize ≤ (a.canonical ++ ([0] ++ rest)).length) :
    create ⟨pre ++ (a.canonical ++ ([0] ++ rest)), pre.length⟩ =
      .error (.runtime "Invalid Signature size: 0") := by
  have hpair : readPair ⟨pre ++ (a.canonical ++ ([0] ++ rest)), pre.length⟩ =
      .error (.runtime "Invalid Signature size: 0") := by
    have hnone : copy 0 ⟨(pre ++ a.canonical ++ [0]) ++ ([] ++ rest),
        (pre ++ a.canonical ++ [0]).length⟩ = .ok ([], ⟨(pre ++ a.canonical ++ [0]) ++ ([] ++ rest),
        (pre ++ a.canonical ++ [0]).length⟩) := by
      rw [← List.append_assoc]
      exact reads_copy [] _ rest
    rw [readPair, (reads_copyAddress (Or.inl ha)).run]
    refine bind_of_error ?_
    rw [copySignature, (reads_getNextByte 0).run]
    exact bind_of_ok hnone
  obtain ⟨k, hk⟩ : ∃ k, (InputBuffer.size ⟨pre ++ (a.canonical ++ ([0] ++ rest)), pre.length⟩ -
      pre.length) / pairSize = k + 1 := by
    have hpos : 0 < pairSize := by decide
    refine ⟨_, (Nat.succ_pred_eq_of_pos (Nat.div_pos ?_ hpos)).symm⟩
    rw [InputBuffer.size, List.length_append]
    omega
  simp only [create, hk, times]
  exact bind_of_error (bind_of_error hpair)

namespace ProposedBlock

/-- A proposal that sends nothing to each of `n` wallets. -/
def wideProposal (n : Nat) : ProposedBlock :=
  { ofPrior ChainState.empty with
    numBytes := minSize + (Summary.wide n).getByteSize
    sumSize := (Summary.wide n).getByteSize
    summary := Summary.wide n }

theorem sections_wideProposal (n : Nat) :
    (wideProposal n).sections = (Summary.wide n).getCanonical := by
  change [] ++ ((Summary.wide n).getCanonical ++ []) = _
  rw [List.append_nil, List.nil_append]

theorem numBytes_wideProposal (n : Nat) :
    (wideProposal n).numBytes = ((wideProposal n).header ++ (Summary.wide n).getCanonical).length := by
  rw [List.length_append, length_header]
  rfl

theorem isTier1_wideProposal {n : Nat} (hn : n ≤ 2 ^ 32) : (wideProposal n).IsTier1 := by
  have hbytes : (Summary.wide n).getByteSize = 4 + n * 66 := Summary.length_wide (by omega)
  have hnum : (wideProposal n).numBytes = minSize + (Summary.wide n).getByteSize := rfl
  have hsum : (wideProposal n).sumSize = (Summary.wide n).getByteSize := rfl
  refine ⟨⟨rfl, ?_, Nat.two_pow_pos 64, ?_, Nat.two_pow_pos 32⟩, ?_, rfl, rfl, rfl,
    fun c hc => (List.not_mem_nil hc).elim, Summary.byItems_wide n,
    fun e he => (List.not_mem_nil he).elim⟩
  · rw [hnum, hbytes, minSize]
    omega
  · rw [hsum, hbytes]
    omega
  · rw [getCanonical_eq, sections_wideProposal]
    exact numBytes_wideProposal n

/-- With a count of 0 the entries of the summary are taken for votes. -/
theorem create_wideProposal {n : Nat} (hpos : 2 < n) (hn : n ≤ 2 ^ 32) (hcount : u32 n = 0)
    {o : Ossl} (hload : o.LoadsPlainly) (keys : KeyRing o) (prior : ChainState) :
    create keys .t1 prior (ofBytes (wideProposal n).getCanonical) =
      .error (.runtime "Invalid Signature size: 0") := by
  have htier1 := isTier1_wideProposal hn
  have hle : n ≤ 2 ^ 64 := by omega
  obtain ⟨a, rest, ha, hrest⟩ := Summary.getCanonical_wide (by omega) hle hcount
  have hlen : Validation.pairSize ≤ (a.canonical ++ ([0] ++ rest)).length := by
    have hbytes : (Summary.wide n).getCanonical.length = 4 + n * 66 := Summary.length_wide hle
    rw [hrest, List.length_append, length_leBytes] at hbytes
    rw [Validation.pairSize, kNodeAddrBufSize, kNodeSigBufSize, kNodeAddrSize, kNodeSigSize]
    omega
  have hbuf : Addressable ((wideProposal n).header ++ ([] : List Bytes).flatten ++
      (Summary.wide n).getCanonical) := by
    rw [List.flatten_nil, List.append_nil, Addressable, ← numBytes_wideProposal]
    exact htier1.numBytes
  obtain ⟨txs, htxs, -⟩ := Tier1Transaction.createTransactions_encodings hload keys
    (fun c hc => (List.not_mem_nil hc).elim) (wideProposal n).header _ hbuf
  simp only [List.flatten_nil, List.append_nil, List.length_nil, Nat.add_zero] at htxs
  have hsum := Summary.create_of_count (s := Summary.wide n) (by rw [Summary.size_wide hle]; exact hcount)
    (wideProposal n).header []
  rw [List.append_nil] at hsum
  have hvals := Validation.create_error ha ((wideProposal n).header ++ leBytes 4 0) rest hlen
  rw [List.append_assoc, ← hrest, List.length_append, length_leBytes] at hvals
  rw [getCanonical_eq, sections_wideProposal,
    create_header htier1.toHeaderFits .t1 prior (numBytes_wideProposal n), ← length_header (wideProposal n)]
  refine bind_of_error ?_
  rw [readSections, show (wideProposal n).txSize = 0 from rfl, bind_of_ok htxs, bind_of_ok hsum]
  exact bind_of_error hvals

/-- The proposal with 2^32 addresses meets every condition and is not read. -/
theorem wideProposal_unreadable : (wideProposal (2 ^ 32)).IsTier1 ∧
    ProposedBlock.create KeyRing.toy .t1 ChainState.empty
        (ofBytes (wideProposal (2 ^ 32)).getCanonical) =
      .error (.runtime "Invalid Signature size: 0") :=
  ⟨isTier1_wideProposal (Nat.le_refl _), create_wideProposal (by decide) (Nat.le_refl _)
    (Nat.mod_self _) (fun _ => .ok _) KeyRing.toy ChainState.empty⟩

end ProposedBlock
end Devcash
