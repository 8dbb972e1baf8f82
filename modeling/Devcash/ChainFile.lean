import Devcash.BlockCodec
import Devcash.Lib.Progress

/-! A file of Tier-1 blocks and the constructor that reads it: every section of a block has its
own end, the validations that of the file. -/
namespace Devcash
open Endian Reader InputBuffer

namespace Validation

theorem took_readPair {b b' : InputBuffer} {e : Address × Signature}
    (h : readPair b = .ok (e, b')) : ∃ enc, enc ≠ [] ∧ Took b enc b' := by
  rw [readPair, copyAddress_eq, copySignature_eq] at h
  obtain ⟨a, b1, h1, h⟩ := bind_eq_ok h
  obtain ⟨s, b2, h2, h⟩ := bind_eq_ok h
  cases pure_eq_ok h
  obtain ⟨head, b3, hhead, h1⟩ := bind_eq_ok h1
  cases pure_eq_ok h1
  obtain ⟨head', b4, hhead', h2⟩ := bind_eq_ok h2
  obtain ⟨-, rfl⟩ := lift_eq_ok h2
  obtain ⟨⟨t, raw, rfl, -⟩, htook⟩ := codec_readHead.takes _ _ _ hhead
  obtain ⟨-, htook'⟩ := codec_readHead.takes _ _ _ hhead'
  exact ⟨_, List.cons_ne_nil t _, htook.append htook'⟩

theorem forward_readPair : Forward readPair := by
  intro b e b' h
  obtain ⟨enc, -, -, rfl⟩ := took_readPair h
  exact ⟨rfl, Nat.le_add_right _ _⟩

theorem movesAt_readPair (b : InputBuffer) : MovesAt readPair b := by
  intro e b' h
  obtain ⟨enc, hne, -, rfl⟩ := took_readPair h
  exact Nat.lt_add_of_pos_right (List.length_pos_iff.mpr hne)

theorem create_run {v : Validation} (h : v.OfNodes) (pre rest : Bytes) :
    create ⟨pre ++ (v.getCanonical ++ rest), pre.length⟩ = (do
      let l ← times readPair (rest.length / pairSize)
      pure (Validation.mk (OrdMap.empty.insertAll (v.sigs.entries ++ l))) : BufReader Validation)
      ⟨pre ++ (v.getCanonical ++ rest), pre.length + v.getCanonical.length⟩ := by
  have hcount : (InputBuffer.size ⟨pre ++ (v.getCanonical ++ rest), pre.length⟩ - pre.length) /
      pairSize = v.sigs.entries.length + rest.length / pairSize := by
    rw [InputBuffer.size, List.length_append, Nat.add_sub_cancel_left, List.length_append,
      length_getCanonical h, Nat.add_comm, Nat.mul_comm, Nat.add_mul_div_left _ _ (by decide),
      Nat.add_comm]
    rfl
  have hreads : Reads (times readPair v.sigs.entries.length) v.getCanonical v.sigs.entries :=
    Reads.times v.sigs.entries (fun e he => reads_readPair (h e he).1 (h e he).2)
  rw [create, hcount, times_add]
  simp only [bind_assoc, pure_bind]
  rw [hreads.run, List.append_assoc, List.length_append]

/-- No further pair has room: the validations end where they were written. -/
theorem create_of_lt {v : Validation} (h : v.OfNodes) (pre : Bytes) {rest : Bytes}
    (hroom : rest.length < pairSize) :
    create ⟨pre ++ (v.getCanonical ++ rest), pre.length⟩ =
      .ok (v, ⟨pre ++ (v.getCanonical ++ rest), pre.length + v.getCanonical.length⟩) := by
  rw [create_run h, Nat.div_eq_of_lt hroom]
  change Except.ok (Validation.mk (OrdMap.empty.insertAll (v.sigs.entries ++ [])), _) = _
  rw [List.append_nil, OrdMap.insertAll_entries]

/-- A further pair has room: what is read ends behind the validations. -/
theorem create_of_le {v v' : Validation} (h : v.OfNodes) {pre rest : Bytes} {b' : InputBuffer}
    (hroom : pairSize ≤ rest.length)
    (hv : create ⟨pre ++ (v.getCanonical ++ rest), pre.length⟩ = .ok (v', b')) :
    pre.length + v.getCanonical.length < b'.offset := by
  obtain ⟨k, hk⟩ : ∃ k, rest.length / pairSize = k + 1 :=
    Nat.exists_eq_add_of_lt (Nat.div_pos hroom (by decide)) |>.imp (fun k hk => by omega)
  rw [create_run h, hk] at hv
  obtain ⟨l, b, hl, hv⟩ := bind_eq_ok hv
  cases pure_eq_ok hv
  exact movesAt_times forward_readPair (movesAt_readPair _) k l _ hl

end Validation

/-- The conditions on a Tier-1 block: the parts, the fields that count them, and transactions
that are sound for the reader. -/
structure BlockFields.SoundTier1 {o : Ossl} (keys : KeyRing o) (f : BlockFields) : Prop
    extends FieldsMatch f where
  transactions : ∀ c ∈ f.rawTransactions, ∃ n, Tier1Transaction.IsEncoding n c ∧
    ∃ tx, Tier1Transaction.setIsSound keys ⟨c, false, n⟩ = .ok tx
  summary : f.summary.ByItems
  addresses : f.summary.summary.size < 2 ^ 32
  vals : f.vals.OfNodes

namespace FinalBlock
variable {o : Ossl} {keys : KeyRing o} {f : BlockFields}

theorem map_getCanonical {raws : List Bytes} {txs : List Transaction}
    (h : List.Forall₂ (fun c tx => tx.getCanonical = c) raws txs) :
    txs.map Transaction.getCanonical = raws := by
  induction h with
  | nil => rfl
  | cons hc _ ih => rw [List.map_cons, hc, ih]

theorem readsIn_transactionsInMode (h : f.SoundTier1 keys) :
    ReadsIn Addressable (transactionsInMode keys .t1 f.txSize) f.rawTransactions.flatten
      (fun txs => txs.map Transaction.getCanonical = f.rawTransactions) := by
  intro pre post hbuf
  have hflat : f.rawTransactions.flatMap id = f.rawTransactions.flatten := List.flatMap_id
  have hne : ∀ c ∈ f.rawTransactions, id c ≠ [] := by
    intro c hc
    obtain ⟨n, hn, -⟩ := h.transactions c hc
    exact hn.ne_nil
  have hreads : ∀ c ∈ f.rawTransactions, ReadsIn Addressable (nextInMode keys .t1) (id c)
      (fun tx => tx.getCanonical = c) := by
    intro c hc
    obtain ⟨n, hn, hs⟩ := h.transactions c hc
    refine (Tier1Transaction.readsIn_ofBuffer hn hs).bind_done (fun tx htx => ?_)
    exact (Reads.pure _).readsIn htx.1
  have hlimit := hbuf.limit
  have hfuel := length_le_fuel hne pre post
  rw [← hflat] at hbuf hlimit ⊢
  obtain ⟨txs, htxs, hall⟩ := ReadsIn.whileBelow Error.diverges _ hreads hne hbuf hfuel
  refine ⟨txs, ?_, map_getCanonical hall⟩
  rw [h.txSize_eq, ← hflat]
  simp only [transactionsInMode, hlimit]
  exact htxs

/-- The bytes of a block in front of its validations. -/
def front (f : BlockFields) : Bytes :=
  f.header ++ (f.rawTransactions.flatten ++ f.summary.getCanonical)

theorem front_append (f : BlockFields) (rest : Bytes) :
    f.getCanonical ++ rest = front f ++ (f.vals.getCanonical ++ rest) := by
  rw [BlockFields.getCanonical_header, BlockFields.sections, front]
  simp only [List.append_assoc]

theorem ofMode_header (h : f.HeaderFits) (mode : AppMode) (prior : ChainState) {rest : Bytes}
    (hsize : f.numBytes ≤ (f.header ++ rest).length) :
    ofMode keys mode prior (ofBytes (f.header ++ rest)) = (do
      let txs ← transactionsInMode keys mode f.txSize
      let summary ← Summary.create
      let vals ← Validation.create
      pure { f with
        transactionVector := txs
        rawTransactions := txs.map Transaction.getCanonical
        summary
        vals
        blockState := prior } : BufReader FinalBlock) ⟨f.header ++ rest, f.header.length⟩ := by
  have hmin : ¬ InputBuffer.size (ofBytes (f.header ++ rest)) < minSize := by
    rw [InputBuffer.size, ofBytes, List.length_append, BlockFields.length_header]
    omega
  have hnum : ¬ InputBuffer.size (ofBytes (f.header ++ rest)) < f.numBytes := Nat.not_lt.mpr hsize
  rw [ofMode, parse, if_neg hmin, parseSized]
  generalize InputBuffer.size (ofBytes (f.header ++ rest)) = N at hnum ⊢
  rw [f.ofBytes_header, (reads_getNextByte f.version).run, if_neg (not_not.mpr h.version),
    (reads_getNextUint64 h.numBytes).run, if_neg hnum, (reads_getNextUint64 h.blockTime).run,
    (reads_copyHash f.prevHash).run, (reads_copyHash f.merkleRoot).run,
    (reads_getNextUint64 h.txSize).run, (reads_getNextUint64 h.sumSize).run,
    (reads_getNextUint32 h.valCount).run]
  simp only [bind_assoc, pure_bind, List.nil_append, BlockFields.header, List.append_assoc]

theorem ofMode_front (h : f.SoundTier1 keys) (prior : ChainState) {rest : Bytes}
    (hbuf : Addressable (f.getCanonical ++ rest)) :
    ∃ txs, txs.map Transaction.getCanonical = f.rawTransactions ∧
      ofMode keys .t1 prior (ofBytes (f.getCanonical ++ rest)) = (do
        let vals ← Validation.create
        pure { f with
          transactionVector := txs
          rawTransactions := txs.map Transaction.getCanonical
          vals
          blockState := prior } : BufReader FinalBlock)
        ⟨front f ++ (f.vals.getCanonical ++ rest), (front f).length⟩ := by
  have hsize : f.numBytes ≤ (f.getCanonical ++ rest).length := by
    rw [h.numBytes_eq, List.length_append]
    exact Nat.le_add_right _ _
  have htx := readsIn_transactionsInMode h f.header
    (f.summary.getCanonical ++ (f.vals.getCanonical ++ rest))
  rw [Addressable] at hbuf
  rw [front_append, front] at hbuf hsize ⊢
  simp only [List.append_assoc] at htx hbuf hsize ⊢
  obtain ⟨txs, htxs, hraws⟩ := htx hbuf
  refine ⟨txs, hraws, ?_⟩
  have hsum := Summary.reads_create h.summary (h.fits h.addresses)
  rw [ofMode_header h.toHeaderFits .t1 prior hsize, bind_of_ok htxs, ← List.append_assoc f.header,
    ← List.length_append, hsum.run]
  simp only [List.append_assoc]

/-- The constructor with a mode stops at the end of a sound Tier-1 block exactly if what follows
is shorter than an address with a signature. -/
theorem ofMode_stops_iff (h : f.SoundTier1 keys) (next : BlockFields) (prior : ChainState)
    (hsize : (f.getCanonical ++ next.getCanonical).length < 2 ^ 64) :
    (∃ g, ofMode keys .t1 prior (ofBytes (f.getCanonical ++ next.getCanonical)) =
          .ok (g, ⟨f.getCanonical ++ next.getCanonical, f.numBytes⟩) ∧
        g.getCanonical = f.getCanonical) ↔
      next.getCanonical.length < Validation.pairSize := by
  obtain ⟨txs, hraws, hrun⟩ := ofMode_front h prior hsize
  have hend : (front f).length + f.vals.getCanonical.length = f.numBytes := by
    have hcan := congrArg List.length (front_append f [])
    rw [List.append_nil, List.append_nil, List.length_append] at hcan
    rw [h.numBytes_eq, hcan]
  rw [hrun]
  constructor
  · rintro ⟨g, hg, -⟩
    by_contra hroom
    obtain ⟨vals, b, hvals, hg⟩ := bind_eq_ok hg
    have hpast := Validation.create_of_le h.vals (Nat.not_lt.mp hroom) hvals
    have hb := congrArg (fun p : FinalBlock × InputBuffer => p.2.offset) (pure_eq_ok hg)
    simp only at hb
    omega
  · intro hroom
    rw [bind_of_ok (Validation.create_of_lt h.vals (front f) hroom), hend, ← front_append]
    refine ⟨_, rfl, ?_⟩
    rw [BlockFields.getCanonical_eq, BlockFields.getCanonical_eq]
    simp only [hraws]

/-- A block with one transaction and the vote of one node. -/
def sampleTier1 : FinalBlock := ofProposed Ossl.toy 7 ProposedBlock.sampleTier1

theorem soundTier1_sampleTier1 : sampleTier1.SoundTier1 KeyRing.toy := by
  have hproposal := ProposedBlock.isTier1_sampleTier1
  refine ⟨fieldsMatch_fieldsOf hproposal (by decide) (by decide +kernel), ?_, hproposal.summary,
    by decide, hproposal.vals⟩
  intro c hc
  rw [List.mem_singleton.mp hc]
  have hsummary := Tier1Transaction.ofSummary_sample (s := Summary.empty.addFlows
    [⟨Address.sample 1, 1, -5, 0⟩, ⟨Address.sample 2, 1, 5, 0⟩]) (by decide)
    (by decide +kernel)
  exact ⟨_, Tier1Transaction.isEncoding_encode ⟨rfl, rfl⟩
    (Tier1Transaction.isNode_sampleSignature _) (by decide +kernel), _,
    (Tier1Transaction.ofSummary_ok hsummary).2.2⟩

/-- A block without transactions, items and votes. -/
def noBlock : BlockFields := { BlockFields.default with numBytes := 105, sumSize := 4 }

theorem ofMode_stops_iff_sampleTier1 :
    ∃ g, ofMode KeyRing.toy .t1 ChainState.empty
          (ofBytes (sampleTier1.getCanonical ++ noBlock.getCanonical)) =
          .ok (g, ⟨sampleTier1.getCanonical ++ noBlock.getCanonical, sampleTier1.numBytes⟩) ∧
        g.getCanonical = sampleTier1.getCanonical :=
  (ofMode_stops_iff soundTier1_sampleTier1 noBlock ChainState.empty (by decide +kernel)).mpr
    (by decide)

/-- Behind the vote of the first block the header of the second is taken for another one: an
address of no bytes, and a signature of as many as the size of the block says in its lowest
byte. -/
theorem sampleTier1_twice_refused :
    ofMode KeyRing.toy .t1 ChainState.empty
        (ofBytes (sampleTier1.getCanonical ++ sampleTier1.getCanonical)) =
      .error (.runtime "Invalid Signature size: 181") := by
  decide +kernel

end FinalBlock
end Devcash
