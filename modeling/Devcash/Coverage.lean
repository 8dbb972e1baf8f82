import Devcash.RawSections
import Devcash.Tier2Codec

/-! The transfers of a decoded transaction and the bytes that its signature covers. The
signed range is delimited by stored sizes, the transfers by their own type bytes. -/
namespace Devcash
open Endian Reader InputBuffer

namespace Tier2Transaction
variable {o : Ossl} {keys : KeyRing o} {tx tx' : Tier2Transaction} {ts ts' : List Transfer}

/-- From one type byte to the next. -/
def stride (canonical : Bytes) (offset : Nat) : Option Nat :=
  canonical[kTransferOffset + offset]?.map Transfer.sizeOf

/-- The bytes that `getMessageDigest` copies. -/
def signedRange (tx : Tier2Transaction) : Bytes :=
  tx.canonical.take (u64 (kEnvelopeSize + tx.nonceSize + tx.xferSize))

/-- The sizes of the transfers. -/
def total (ts : List Transfer) : Nat := (ts.map Transfer.size).sum

theorem transfersFrom_congr (hc : tx.canonical = tx'.canonical) (hx : tx.xferSize = tx'.xferSize)
    (fuel offset : Nat) : transfersFrom tx fuel offset = transfersFrom tx' fuel offset := by
  induction fuel generalizing offset with
  | zero => rw [transfersFrom, transfersFrom, hx]
  | succ fuel ih => simp only [transfersFrom, hc, hx, ih]

theorem getTransfers_congr (hc : tx.canonical = tx'.canonical) (hx : tx.xferSize = tx'.xferSize) :
    tx.getTransfers = tx'.getTransfers := by
  rw [getTransfers, getTransfers, hc]
  exact transfersFrom_congr hc hx _ _

theorem transfersFrom_done {fuel offset : Nat} (h : transfersFrom tx fuel offset = .ok []) :
    tx.xferSize ≤ offset := by
  cases fuel with
  | zero =>
    rw [transfersFrom] at h
    split_ifs at h with hlt
    exact Nat.le_of_not_lt hlt
  | succ fuel =>
    rw [transfersFrom] at h
    split_ifs at h with hlt
    · obtain ⟨t, -, h⟩ := Result.bind_eq_ok h
      obtain ⟨ts, -, h⟩ := Result.bind_eq_ok h
      cases h
    · exact Nat.le_of_not_lt hlt

theorem transfersFrom_of_done {offset : Nat} (h : tx.xferSize ≤ offset) (fuel : Nat) :
    transfersFrom tx fuel offset = .ok [] := by
  cases fuel with
  | zero => rw [transfersFrom, if_neg (Nat.not_lt.mpr h)]
  | succ fuel => rw [transfersFrom, if_neg (Nat.not_lt.mpr h)]

theorem transfersFrom_turn {fuel offset : Nat} {t : Transfer}
    (h : transfersFrom tx fuel offset = .ok (t :: ts)) :
    offset < tx.xferSize ∧
      (∃ b, Transfer.ofBuffer ⟨tx.canonical, kTransferOffset + offset⟩ = .ok (t, b)) ∧
      ∃ fuel', transfersFrom tx fuel' (offset + t.size) = .ok ts := by
  cases fuel with
  | zero =>
    rw [transfersFrom] at h
    split_ifs at h
    cases h
  | succ fuel =>
    rw [transfersFrom] at h
    split_ifs at h with hlt
    · obtain ⟨⟨t', b⟩, ht, h⟩ := Result.bind_eq_ok h
      obtain ⟨ts', hts, h⟩ := Result.bind_eq_ok h
      cases h
      exact ⟨hlt, ⟨b, ht⟩, fuel, hts⟩
    · cases h

theorem total_cons (t : Transfer) (ts : List Transfer) : total (t :: ts) = t.size + total ts := by
  rw [total, List.map_cons, List.sum_cons, total]

theorem transfersFrom_hops {fuel offset : Nat} (h : transfersFrom tx fuel offset = .ok ts) :
    Hops (stride tx.canonical) tx.xferSize offset (offset + total ts) := by
  induction ts generalizing fuel offset with
  | nil => exact .stop (transfersFrom_done h)
  | cons t ts ih =>
    obtain ⟨hlt, ⟨b, ht⟩, fuel', hrest⟩ := transfersFrom_turn h
    obtain ⟨enc, typeByte, htook, -, hsize, -, -⟩ := Transfer.ofBuffer_ok ht
    have hstride : stride tx.canonical offset = some t.size := by
      obtain ⟨post, hpost⟩ := htook.1
      have hget := congrArg List.head? hpost
      rw [List.head?_drop] at hget
      rw [stride, ← hget, hsize]
      rfl
    refine .hop hlt hstride ?_
    rw [total_cons, ← Nat.add_assoc]
    exact ih hrest

theorem transfersFrom_inside {fuel offset : Nat} (h : transfersFrom tx fuel offset = .ok ts)
    (hne : ts ≠ []) : kTransferOffset + offset + total ts ≤ tx.canonical.length := by
  induction ts generalizing fuel offset with
  | nil => exact absurd rfl hne
  | cons t ts ih =>
    obtain ⟨-, ⟨b, ht⟩, fuel', hrest⟩ := transfersFrom_turn h
    have hinside : kTransferOffset + offset + t.size ≤ tx.canonical.length :=
      (Transfer.ofBuffer_bounds ht).2
    rw [total_cons]
    cases ts with
    | nil =>
      simp only [total, List.map_nil, List.sum_nil]
      omega
    | cons t' ts =>
      have hind := ih hrest (List.cons_ne_nil _ _)
      omega

theorem length_le_total {fuel offset : Nat} (h : transfersFrom tx fuel offset = .ok ts) :
    ts.length ≤ total ts := by
  induction ts generalizing fuel offset with
  | nil => exact Nat.zero_le _
  | cons t ts ih =>
    obtain ⟨-, ⟨b, ht⟩, fuel', hrest⟩ := transfersFrom_turn h
    have hpos := (Transfer.ofBuffer_bounds ht).1
    have hind := ih hrest
    rw [kTransferNonaddrDataSize, kUint64Size] at hpos
    rw [total_cons, List.length_cons]
    omega

theorem transfersFrom_take {fuel offset : Nat} (h : transfersFrom tx fuel offset = .ok ts)
    {fuel' n : Nat} (hfuel : ts.length ≤ fuel') (hn : kTransferOffset + offset + total ts < n) :
    transfersFrom { tx with canonical := tx.canonical.take n } fuel' offset = .ok ts := by
  induction ts generalizing fuel fuel' offset with
  | nil =>
    have hdone : tx.xferSize ≤ offset := transfersFrom_done h
    exact @transfersFrom_of_done { tx with canonical := tx.canonical.take n } offset hdone fuel'
  | cons t ts ih =>
    obtain ⟨hlt, ⟨b, ht⟩, fuel1, hrest⟩ := transfersFrom_turn h
    obtain ⟨enc, typeByte, htook, hreads, -, hle, -⟩ := Transfer.ofBuffer_ok ht
    rw [total_cons] at hn
    cases fuel' with
    | zero => cases hfuel
    | succ fuel' =>
      have hcut := htook.of_take (List.cons_ne_nil _ _) hreads (n := n)
        (by rw [List.length_cons]; simp only; omega)
      have hind := @ih fuel1 (offset + t.size) hrest fuel' (Nat.le_of_succ_le_succ hfuel) (by omega)
      rw [transfersFrom, if_pos hlt, hcut, Result.bind_ok, hind, Result.bind_ok]

/-- What one of the decoders returned. -/
def Decoded (keys : KeyRing o) (tx : Tier2Transaction) : Prop :=
  ∃ calculateSoundness b b', create keys calculateSoundness b = .ok (tx, b')

/-- The sizes are words, the first of them the first of the bytes, and the nonce is not
empty. -/
structure Worded (tx : Tier2Transaction) : Prop where
  xferSize : tx.xferSize < 2 ^ 64
  nonceSize : tx.nonceSize < 2 ^ 64
  nonce : kMinNonceSize ≤ tx.nonceSize
  first : kUint64Size ≤ tx.canonical.length → binToUint64 tx.canonical 0 = .ok tx.xferSize

theorem worded_quickFill {b b' : InputBuffer} (h : quickFill b = .ok (tx, b')) : tx.Worded := by
  obtain ⟨hx, hn, t, -, hcopy, -, -, hnonce, -⟩ := quickFill_ok h
  obtain ⟨-, hx⟩ := getWord_stay hx
  obtain ⟨-, hn⟩ := getWord_stay hn
  refine ⟨binToUint64_lt hx, binToUint64_lt hn, hnonce, fun hlen => ?_⟩
  obtain ⟨hcanonical, hsize, -⟩ := copy_ok hcopy
  obtain ⟨-, hvalue⟩ := binToUint64_ok hx
  rw [kUint64Size] at hlen
  rw [binToUint64_eq (by omega), List.drop_zero, hvalue, hcanonical, List.take_take,
    Nat.min_eq_left (by omega)]
  rfl

theorem Decoded.worded (h : tx.Decoded keys) : tx.Worded := by
  obtain ⟨calculateSoundness, b, b', h⟩ := h
  obtain ⟨tx', b1, htx, h⟩ := bind_eq_ok h
  have hworded := worded_quickFill htx
  split_ifs at h
  · obtain ⟨sound, b2, -, h⟩ := bind_eq_ok h
    cases pure_eq_ok h
    exact ⟨hworded.xferSize, hworded.nonceSize, hworded.nonce, hworded.first⟩
  · cases pure_eq_ok h
    exact hworded

/-- The transfers fill their part of the bytes and are read from signed bytes only. -/
structure Covered (tx : Tier2Transaction) (ts : List Transfer) : Prop where
  sizes : total ts = tx.xferSize
  signed : getTransfers { tx with canonical := tx.signedRange } = .ok ts

/-- From type byte to type byte one comes to the end of the transfers, and the size of the
signed bytes did not wrap around. -/
structure ExactSizes (tx : Tier2Transaction) : Prop where
  hops : Hops (stride tx.canonical) tx.xferSize 0 tx.xferSize
  range : tx.xferSize = 0 ∨ kEnvelopeSize + tx.nonceSize + tx.xferSize < 2 ^ 64

theorem covered_iff (hw : tx.Worded) (h : tx.getTransfers = .ok ts) :
    tx.Covered ts ↔ tx.ExactSizes := by
  have hhops := transfersFrom_hops h
  rw [Nat.zero_add] at hhops
  have hnonce := hw.nonce
  constructor
  · intro hc
    rw [hc.sizes] at hhops
    refine ⟨hhops, ?_⟩
    by_contra hno
    obtain ⟨hpos, hwrap⟩ := not_or.mp hno
    -- What wrapped around ends in front of the last transfer.
    have hne : ts ≠ [] := by
      rintro rfl
      exact hpos hc.sizes.symm
    have hinside := transfersFrom_inside hc.signed hne
    have hlen : tx.signedRange.length ≤ u64 (kEnvelopeSize + tx.nonceSize + tx.xferSize) := by
      rw [signedRange, List.length_take]
      exact Nat.min_le_left _ _
    have hx := hw.xferSize
    have hn := hw.nonceSize
    have htotal := hc.sizes
    change kTransferOffset + 0 + total ts ≤ tx.signedRange.length at hinside
    simp only [u64, kEnvelopeSize, kTransferOffset] at hlen hinside hwrap
    omega
  · intro he
    have htotal : total ts = tx.xferSize := hhops.unique he.hops
    have hcount := length_le_total h
    refine ⟨htotal, ?_⟩
    by_cases hne : ts = []
    · subst hne
      have hzero : tx.xferSize ≤ 0 := Nat.le_of_eq htotal.symm
      exact @transfersFrom_of_done { tx with canonical := tx.signedRange } 0 hzero _
    · have hinside := transfersFrom_inside h hne
      have hrange : kEnvelopeSize + tx.nonceSize + tx.xferSize < 2 ^ 64 := by
        obtain hzero | hlt := he.range
        · rw [htotal, hzero] at hcount
          exact absurd (List.eq_nil_of_length_eq_zero (Nat.le_zero.mp hcount)) hne
        · exact hlt
      have hfuel : ts.length ≤
          (tx.canonical.take (kEnvelopeSize + tx.nonceSize + tx.xferSize)).length + 1 := by
        rw [List.length_take]
        omega
      rw [signedRange, u64_of_lt hrange]
      refine transfersFrom_take h hfuel ?_
      simp only [kEnvelopeSize, kTransferOffset, kMinNonceSize] at hnonce ⊢
      omega

/-- The signed bytes hold the size of the transfers, unless they wrapped around. -/
theorem xferSize_of_digest (hw : tx.Worded)
    (hrange : tx.xferSize = 0 ∨ kEnvelopeSize + tx.nonceSize + tx.xferSize < 2 ^ 64) {digest : Bytes}
    (hd : tx.getMessageDigest = .ok digest) :
    digest = tx.signedRange ∧
      tx.xferSize = if digest.length < kUint64Size then 0 else leValue (digest.take kUint64Size) := by
  obtain ⟨hle, hdigest, hlen⟩ := slice_ok hd
  rw [List.drop_zero] at hdigest
  refine ⟨hdigest, ?_⟩
  split_ifs with hshort
  · obtain hzero | hlt := hrange
    · exact hzero
    · rw [hlen, u64_of_lt hlt, kEnvelopeSize, kUint64Size] at hshort
      omega
  · have hfirst := hw.first (by omega)
    obtain ⟨-, hvalue⟩ := binToUint64_ok hfirst
    rw [hvalue, List.drop_zero, hdigest, List.take_take]
    rw [hlen, kUint64Size] at hshort
    rw [kUint64Size, Nat.min_eq_left (by omega)]

theorem ExactSizes.transfers_eq (hw : tx.Worded) (hw' : tx'.Worded) (he : tx.ExactSizes)
    (he' : tx'.ExactSizes) (h : tx.getTransfers = .ok ts) (h' : tx'.getTransfers = .ok ts')
    {digest : Bytes} (hd : tx.getMessageDigest = .ok digest)
    (hd' : tx'.getMessageDigest = .ok digest) : ts = ts' := by
  obtain ⟨hdigest, hx⟩ := xferSize_of_digest hw he.range hd
  obtain ⟨hdigest', hx'⟩ := xferSize_of_digest hw' he'.range hd'
  have hread := ((covered_iff hw h).mpr he).signed
  have hread' := ((covered_iff hw' h').mpr he').signed
  have hsame := @getTransfers_congr { tx with canonical := tx.signedRange }
    { tx' with canonical := tx'.signedRange } (hdigest.symm.trans hdigest') (hx.trans hx'.symm)
  rw [hread, hread'] at hsame
  exact Except.ok.inj hsame

end Tier2Transaction

namespace Tier1Transaction
variable {tx tx' : Tier1Transaction} {ts ts' : List Transfer}

/-- The summary fills its part of the bytes and is read from signed bytes only. -/
structure Covered (tx : Tier1Transaction) (ts : List Transfer) : Prop where
  sizes : ∃ s, Summary.create ⟨tx.canonical, kUint64Size⟩ =
    .ok (s, ⟨tx.canonical, kUint64Size + tx.sumSize⟩)
  signed : getTransfers { tx with canonical := tx.canonical.take (kUint64Size + tx.sumSize) } = .ok ts

/-- The signed bytes are the entries of a summary and nothing else. -/
def ExactSizes (tx : Tier1Transaction) : Prop :=
  ∃ rs, Summary.RawValid rs ∧ tx.getMessageDigest = .ok (Summary.rawBytes rs)

theorem getTransfers_ok (h : tx.getTransfers = .ok ts) :
    ∃ rs b, Summary.RawValid rs ∧ ts = (Summary.ofRaw rs).getTransfers ∧
      Summary.create ⟨tx.canonical, kUint64Size⟩ = .ok (Summary.ofRaw rs, b) ∧
      Took ⟨tx.canonical, kUint64Size⟩ (Summary.rawBytes rs) b := by
  obtain ⟨⟨s, b⟩, hs, h⟩ := Result.bind_eq_ok h
  cases h
  obtain ⟨rs, hvalid, htook, rfl⟩ := Summary.create_ok hs
  exact ⟨rs, b, hvalid, rfl, hs, htook⟩

theorem rawBytes_unique {rs rs' : List RawEntry} (h : Summary.RawValid rs)
    (h' : Summary.RawValid rs') {b : InputBuffer}
    (htook : Took ⟨tx.canonical, kUint64Size⟩ (Summary.rawBytes rs) b)
    (hd : tx.getMessageDigest = .ok (Summary.rawBytes rs')) : rs = rs' := by
  obtain ⟨post, hpost⟩ := htook.1
  obtain ⟨-, hdigest, -⟩ := slice_ok hd
  have hsplit := List.take_append_drop tx.sumSize (tx.canonical.drop kUint64Size)
  rw [← hdigest] at hsplit
  exact (Summary.codec_readRaw.unique h h' (hpost.trans hsplit.symm)).1

theorem covered_iff (h : tx.getTransfers = .ok ts) : tx.Covered ts ↔ tx.ExactSizes := by
  obtain ⟨rs, b, hvalid, hts, hcreate, htook⟩ := getTransfers_ok h
  have hne : Summary.rawBytes rs ≠ [] := by
    rw [Summary.rawBytes, leBytes]
    exact List.cons_ne_nil _ _
  constructor
  · intro hc
    obtain ⟨s, hs⟩ := hc.sizes
    rw [hcreate] at hs
    have hb : b = ⟨tx.canonical, kUint64Size + tx.sumSize⟩ := (Prod.mk.inj (Except.ok.inj hs)).2
    have hlen : (Summary.rawBytes rs).length = tx.sumSize :=
      Nat.add_left_cancel (congrArg Cursor.offset (htook.2.symm.trans hb))
    have hinside : kUint64Size + (Summary.rawBytes rs).length ≤ tx.canonical.length :=
      htook.inside hne
    refine ⟨rs, hvalid, ?_⟩
    rw [getMessageDigest, slice, ← hlen, if_pos hinside, ← List.prefix_iff_eq_take.mp htook.1]
  · rintro ⟨rs', hvalid', hdigest⟩
    obtain rfl := rawBytes_unique hvalid hvalid' htook hdigest
    have hlen := (slice_ok hdigest).2.2
    refine ⟨⟨Summary.ofRaw rs, ?_⟩, ?_⟩
    · rw [hcreate, htook.2, hlen]
    · have hcut := htook.of_take hne (Summary.reads_create_raw hvalid) (Nat.le_refl _)
      rw [getTransfers, hts, ← hlen]
      exact congrArg (· >>= fun s : Summary × InputBuffer => Except.ok s.1.getTransfers) hcut

theorem ExactSizes.transfers_eq (he : tx.ExactSizes) (h : tx.getTransfers = .ok ts)
    (h' : tx'.getTransfers = .ok ts') (hd : tx.getMessageDigest = tx'.getMessageDigest) : ts = ts' := by
  obtain ⟨rs, b, hvalid, hts, -, htook⟩ := getTransfers_ok h
  obtain ⟨rs', b', hvalid', hts', -, htook'⟩ := getTransfers_ok h'
  obtain ⟨es, hes, hdigest⟩ := he
  have heq := rawBytes_unique hvalid hes htook hdigest
  have heq' := rawBytes_unique hvalid' hes htook' (hd.symm.trans hdigest)
  rw [hts, hts', heq, heq']

/-- What one of the decoders returned. -/
def Decoded {o : Ossl} (keys : KeyRing o) (tx : Tier1Transaction) : Prop :=
  ∃ calculateSoundness b b', ofBuffer keys calculateSoundness b = .ok (tx, b') ∨
    create keys calculateSoundness b = .ok (tx, b')

end Tier1Transaction

namespace Transaction
variable {o : Ossl} {keys : KeyRing o}

def getMessageDigest : Transaction → Result Bytes
  | .tier1 tx => tx.getMessageDigest
  | .tier2 tx => tx.getMessageDigest

/-- The mode of the nodes that decode it. -/
def mode : Transaction → AppMode
  | .tier1 _ => .t1
  | .tier2 _ => .t2

def Decoded (keys : KeyRing o) : Transaction → Prop
  | .tier1 tx => tx.Decoded keys
  | .tier2 tx => tx.Decoded keys

def Covered : Transaction → List Transfer → Prop
  | .tier1 tx => tx.Covered
  | .tier2 tx => tx.Covered

def ExactSizes : Transaction → Prop
  | .tier1 tx => tx.ExactSizes
  | .tier2 tx => tx.ExactSizes

/-- The transfers of a decoded transaction are covered by its signature exactly if the
stored sizes are those of what they delimit; of two such transactions with the same digest
the transfers are the same. -/
theorem getTransfers_covered_iff {tx : Transaction} {ts : List Transfer} (hd : tx.Decoded keys)
    (h : tx.getTransfers = .ok ts) :
    (tx.Covered ts ↔ tx.ExactSizes) ∧
    ∀ (tx' : Transaction) ts' digest, tx'.Decoded keys → tx'.mode = tx.mode → tx'.getTransfers = .ok ts' →
      tx.ExactSizes → tx'.ExactSizes → tx.getMessageDigest = .ok digest →
      tx'.getMessageDigest = .ok digest → ts' = ts := by
  cases tx with
  | tier1 tx =>
    refine ⟨Tier1Transaction.covered_iff h, fun tx' ts' digest hd' hmode h' he he' hm hm' => ?_⟩
    cases tx' with
    | tier1 tx' => exact he'.transfers_eq h' h (hm'.trans hm.symm)
    | tier2 tx' => cases hmode
  | tier2 tx =>
    refine ⟨Tier2Transaction.covered_iff hd.worded h,
      fun tx' ts' digest hd' hmode h' he he' hm hm' => ?_⟩
    cases tx' with
    | tier1 tx' => cases hmode
    | tier2 tx' => exact he'.transfers_eq hd'.worded hd.worded he h' h hm' hm

/-- A summary signed by a node, its size 16 bytes too small: the coin and the amount of its
one item are read from the address of the node. -/
def sampleShared (node : Byte) : Tier1Transaction :=
  let digest := leBytes 4 1 ++ (Address.sample 1).canonical ++ leBytes 8 0 ++ leBytes 8 1
  let nodeAddr := Address.sampleNode node
  ⟨leBytes 8 digest.length ++ digest ++ nodeAddr.canonical ++
    (Ossl.toySignature nodeAddr (Ossl.toyHash digest)).canonical, true, digest.length⟩

/-- A payment with 20 bytes for its transfers: the signed bytes end inside the address of
the first one. -/
def sampleStraddling (amount : Nat) : Tier2Transaction :=
  ⟨leBytes 8 20 ++ leBytes 8 8 ++ [2, 33] ++ List.replicate 27 0 ++ [73] ++ List.replicate 5 0 ++
    leBytes 8 1 ++ leBytes 8 amount ++ leBytes 8 0 ++ List.replicate 43 0, false, 20, 8⟩

/-- Both of two sound Tier-1 transactions, and both of two Tier-2 transactions, have the
same digest but other transfers. -/
theorem sameDigest_otherTransfers :
    ((Tier1Transaction.create KeyRing.toy true (ofBytes (sampleShared 1).canonical)).map Prod.fst =
        .ok (sampleShared 1) ∧
      (Tier1Transaction.create KeyRing.toy true (ofBytes (sampleShared 2).canonical)).map Prod.fst =
        .ok (sampleShared 2) ∧
      (sampleShared 1).getMessageDigest = (sampleShared 2).getMessageDigest ∧
      (do
        let ts ← (sampleShared 1).getTransfers
        ts.mapM Transfer.getCoin) = .ok [0x0101010101010131] ∧
      (do
        let ts ← (sampleShared 2).getTransfers
        ts.mapM Transfer.getCoin) = .ok [0x0202020202020231]) ∧
    (Tier2Transaction.create KeyRing.toy false (ofBytes (sampleStraddling 5).canonical)).map Prod.fst =
        .ok (sampleStraddling 5) ∧
      (Tier2Transaction.create KeyRing.toy false (ofBytes (sampleStraddling 7).canonical)).map Prod.fst =
        .ok (sampleStraddling 7) ∧
      (sampleStraddling 5).getMessageDigest = (sampleStraddling 7).getMessageDigest ∧
      (do
        let ts ← (sampleStraddling 5).getTransfers
        ts.mapM Transfer.getAmount) = .ok [5] ∧
      (do
        let ts ← (sampleStraddling 7).getTransfers
        ts.mapM Transfer.getAmount) = .ok [7] := by
  decide +kernel

/-- The summary of a sample move is signed as a whole. -/
theorem getTransfers_covered_iff_sampleMove :
    (Transaction.tier1 (.sampleMove 1 2 5)).Decoded KeyRing.toy ∧
    ∃ ts, (Transaction.tier1 (.sampleMove 1 2 5)).getTransfers = .ok ts ∧ ts.length = 2 ∧
      (Transaction.tier1 (.sampleMove 1 2 5)).Covered ts ∧
      (Transaction.tier1 (.sampleMove 1 2 5)).ExactSizes := by
  let s := Summary.empty.addFlows [⟨Address.sample 1, 1, -5, 0⟩, ⟨Address.sample 2, 1, 5, 0⟩]
  have hread : Tier1Transaction.create KeyRing.toy false
      (ofBytes (Tier1Transaction.sampleMove 1 2 5).canonical) =
      .ok (.sampleMove 1 2 5, ⟨(Tier1Transaction.sampleMove 1 2 5).canonical,
        (Tier1Transaction.sampleMove 1 2 5).canonical.length⟩) := by decide +kernel
  have hd : (Transaction.tier1 (.sampleMove 1 2 5)).Decoded KeyRing.toy :=
    ⟨false, _, _, Or.inr hread⟩
  have hts : (Transaction.tier1 (.sampleMove 1 2 5)).getTransfers = .ok s.getTransfers := by
    decide +kernel
  have hcovered : (Transaction.tier1 (.sampleMove 1 2 5)).Covered s.getTransfers :=
    ⟨⟨s, by decide +kernel⟩, by decide +kernel⟩
  exact ⟨hd, s.getTransfers, hts, rfl, hcovered,
    (getTransfers_covered_iff hd hts).1.mp hcovered⟩

end Transaction
end Devcash
