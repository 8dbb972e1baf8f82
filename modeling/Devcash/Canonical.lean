import Devcash.BlockCodec

/-! Which bytes of a block survive decoding. The transactions always do; the summary and the
validations go through maps, so only sorted entries without repetition come out again. -/
namespace Devcash
open Endian Reader InputBuffer

/-- What is kept of the bytes `head` is shorter, or it is all of them and of a known type. -/
structure KeptOf (Known : Prop) (kept head : Bytes) : Prop where
  le : kept.length ≤ head.length
  whole : kept.length = head.length → kept = head ∧ Known

theorem KeptOf.of_known {Known : Prop} {head : Bytes} (h : Known) : KeptOf Known head head :=
  ⟨Nat.le_refl _, fun _ => ⟨rfl, h⟩⟩

theorem KeptOf.tail (Known : Prop) (t : Byte) (raw : Bytes) : KeptOf Known raw (t :: raw) :=
  ⟨Nat.le_succ _, fun he => absurd he (Nat.ne_of_lt (Nat.lt_succ_self _))⟩

theorem Address.ofBytes_head {head : Bytes} (h : IsHead head) :
    KeptOf ((Address.ofBytes head.tail).IsWallet ∨ (Address.ofBytes head.tail).IsNode)
      (Address.ofBytes head.tail).canonical head := by
  obtain ⟨t, raw, rfl, hlen⟩ := h
  have ht : UInt8.ofNat raw.length = t := by rw [hlen, UInt8.ofNat_toNat]
  rw [List.tail_cons, Address.ofBytes]
  split_ifs with h1 h2 h3 h4
  · rw [← h1, ht]
    exact .of_known (Or.inl ⟨by simp [h1, kWalletAddrBufSize], by simp [← h1, ht]⟩)
  · exact .tail _ t raw
  · rw [← h3, ht]
    exact .of_known (Or.inr ⟨by simp [h3, kNodeAddrBufSize], by simp [← h3, ht]⟩)
  · exact .tail _ t raw
  · exact .tail _ t raw

theorem Signature.ofBytes_head {head : Bytes} (h : IsHead head) {s : Signature}
    (hs : Signature.ofBytes head.tail = .ok s) :
    KeptOf (s.IsWallet ∨ s.IsNode) s.canonical head := by
  obtain ⟨t, raw, rfl, hlen⟩ := h
  have ht : UInt8.ofNat raw.length = t := by rw [hlen, UInt8.ofNat_toNat]
  rw [List.tail_cons, Signature.ofBytes] at hs
  split_ifs at hs with h1 h2 h3 h4 h5 h6
  · cases hs
    rw [← h1, ht]
    exact .of_known (Or.inl ⟨by simp [h1, kWalletSigBufSize], by simp [← h1, ht]⟩)
  · cases hs
    exact .tail _ t raw
  · cases hs
    rw [← h4, ht]
    exact .of_known (Or.inr ⟨by simp [h4, kNodeSigBufSize], by simp [← h4, ht]⟩)
  · cases hs
    exact .tail _ t raw

theorem Address.node_of_size {a : Address} (h : a.IsWallet ∨ a.IsNode) :
    a.size ≤ 50 ∧ (50 ≤ a.size → a.IsNode) := by
  obtain hw | hn := h
  · have h34 : a.size = 34 := hw.1
    exact ⟨by omega, fun h50 => by omega⟩
  · exact ⟨Nat.le_of_eq hn.1, fun _ => hn⟩

theorem Signature.node_of_size {s : Signature} (h : s.IsWallet ∨ s.IsNode) :
    s.size ≤ 106 ∧ (106 ≤ s.size → s.IsNode) := by
  obtain hw | hn := h
  · have h74 : s.size = 74 := hw.1
    exact ⟨by omega, fun h106 => by omega⟩
  · exact ⟨Nat.le_of_eq hn.1, fun _ => hn⟩

namespace RawEntry
open Summary

/-- The entry is what a map would write: an address of a wallet or a node and the coins of
its items in strictly increasing order. -/
structure Sorted (e : RawEntry) : Prop where
  address : e.head.length = kWalletAddrBufSize ∨ e.head.length = kNodeAddrBufSize
  delayed : e.delayed.Pairwise (fun a b => a.1 < b.1)
  coins : e.coins.Pairwise (fun a b => a.1 < b.1)

theorem length_bytes (e : RawEntry) :
    e.bytes.length = e.head.length + 16 + e.delayed.length * 24 + e.coins.length * 16 := by
  have hd : (e.delayed.flatMap delayedBytes).length = e.delayed.length * 24 :=
    length_flatMap_const (fun d _ => by simp [delayedBytes])
  have hc : (e.coins.flatMap coinBytes).length = e.coins.length * 16 :=
    length_flatMap_const (fun c _ => by simp [coinBytes])
  simp only [bytes, List.length_append, length_leBytes, hd, hc]
  omega

variable {e : RawEntry}

theorem length_entry (e : RawEntry) : (entryBytes e.entry).length =
    (Address.ofBytes e.head.tail).size + 16 + (OrdMap.empty.insertAll e.delayed).size * 24 +
      (OrdMap.empty.insertAll e.coins).size * 16 := length_entryBytes e.entry

theorem length_entry_le (h : e.Valid) : (entryBytes e.entry).length ≤ e.bytes.length := by
  have ha : (Address.ofBytes e.head.tail).size ≤ e.head.length := (Address.ofBytes_head h.head).le
  have hd := OrdMap.size_insertAll_le e.delayed
  have hc := OrdMap.size_insertAll_le e.coins
  rw [length_entry, length_bytes]
  omega

theorem canonical_of_length (h : e.Valid) (hlen : (entryBytes e.entry).length = e.bytes.length) :
    e.entry.1.canonical = e.head ∧ (e.entry.1.IsWallet ∨ e.entry.1.IsNode) := by
  have ha : (Address.ofBytes e.head.tail).size ≤ e.head.length := (Address.ofBytes_head h.head).le
  have hd := OrdMap.size_insertAll_le e.delayed
  have hc := OrdMap.size_insertAll_le e.coins
  rw [length_entry, length_bytes] at hlen
  have hsize : (Address.ofBytes e.head.tail).size = e.head.length := by omega
  exact (Address.ofBytes_head h.head).whole hsize

theorem canonical_of_known (h : e.Valid)
    (hknown : e.head.length = kWalletAddrBufSize ∨ e.head.length = kNodeAddrBufSize) :
    e.entry.1.canonical = e.head ∧ (e.entry.1.IsWallet ∨ e.entry.1.IsNode) := by
  refine (Address.ofBytes_head h.head).whole ?_
  obtain ⟨t, raw, he, -⟩ := h.head
  rw [he] at hknown ⊢
  simp only [List.length_cons, kWalletAddrBufSize, kNodeAddrBufSize, Nat.add_right_cancel_iff] at hknown
  rw [List.tail_cons, Address.ofBytes]
  obtain h1 | h2 := hknown
  · rw [if_pos h1]
    rfl
  · rw [if_neg (by simp [h2, kNodeAddrSize, kWalletAddrSize]),
      if_neg (by simp [h2, kNodeAddrSize, kWalletAddrBufSize, kWalletAddrSize]), if_pos h2]
    rfl

theorem Sorted.canonical (hs : e.Sorted) (h : e.Valid) :
    e.entry.1.canonical = e.head ∧ (e.entry.1.IsWallet ∨ e.entry.1.IsNode) :=
  canonical_of_known h hs.address

/-- A map keeps all of the entry: the address of a wallet or a node, and no coin twice. -/
structure Distinct (e : RawEntry) : Prop where
  address : e.head.length = kWalletAddrBufSize ∨ e.head.length = kNodeAddrBufSize
  delayed : (e.delayed.map Prod.fst).Nodup
  coins : (e.coins.map Prod.fst).Nodup

theorem length_entry_eq_iff (h : e.Valid) :
    (entryBytes e.entry).length = e.bytes.length ↔ e.Distinct := by
  have ha : (Address.ofBytes e.head.tail).size ≤ e.head.length := (Address.ofBytes_head h.head).le
  have hd := OrdMap.size_insertAll_le e.delayed
  have hc := OrdMap.size_insertAll_le e.coins
  constructor
  · intro hlen
    obtain ⟨hcanonical, hkind⟩ := canonical_of_length h hlen
    rw [length_entry, length_bytes] at hlen
    refine ⟨?_, (OrdMap.size_insertAll_eq_iff _).mp (by omega),
      (OrdMap.size_insertAll_eq_iff _).mp (by omega)⟩
    rw [← hcanonical]
    exact hkind.imp And.left And.left
  · intro hdistinct
    have hsize : (Address.ofBytes e.head.tail).size = e.head.length :=
      congrArg List.length (canonical_of_known h hdistinct.address).1
    rw [length_entry, length_bytes, hsize, (OrdMap.size_insertAll_eq_iff _).mpr hdistinct.delayed,
      (OrdMap.size_insertAll_eq_iff _).mpr hdistinct.coins]

theorem Sorted.mk_entry (hs : e.Sorted) (h : e.Valid) :
    RawEntry.mk e.entry.1.canonical e.entry.2.1.entries e.entry.2.2.entries = e := by
  rw [(hs.canonical h).1, entry, OrdMap.entries_insertAll_of_sorted hs.delayed,
    OrdMap.entries_insertAll_of_sorted hs.coins]

end RawEntry

namespace Summary
variable {rs : List RawEntry}

/-- Sorted entries with their addresses in strictly increasing order. -/
structure RawSorted (rs : List RawEntry) : Prop where
  entries : ∀ e ∈ rs, e.Sorted
  addresses : rs.Pairwise (fun a b => Address.mk a.head < Address.mk b.head)

theorem size_ofRaw_le (rs : List RawEntry) : (ofRaw rs).summary.size ≤ rs.length := by
  have h := OrdMap.size_insertAll_le (rs.map RawEntry.entry)
  rwa [List.length_map] at h

theorem length_entries_ofRaw_le (rs : List RawEntry) :
    ((ofRaw rs).summary.entries.flatMap entryBytes).length ≤
      (rs.map (fun e => (entryBytes e.entry).length)).sum := by
  have h := OrdMap.length_flatMap_insertAll_le entryBytes (rs.map RawEntry.entry)
  rwa [List.flatMap_map, List.length_flatMap (l := rs)] at h

theorem length_ofRaw_le (h : RawValid rs) :
    (ofRaw rs).getCanonical.length ≤ (rawBytes rs).length := by
  have hmap := length_entries_ofRaw_le rs
  have hentries := List.sum_le_sum (fun e he => RawEntry.length_entry_le (h.entries e he))
  rw [getCanonical_eq, rawBytes, List.length_append, List.length_append, length_leBytes,
    length_leBytes, List.length_flatMap (l := rs)]
  omega

/-- Entries that a map keeps, under addresses of which none comes twice. -/
structure RawDistinct (rs : List RawEntry) : Prop where
  entries : ∀ e ∈ rs, e.Distinct
  addresses : (rs.map RawEntry.head).Nodup

theorem nodup_entry_iff (htyped : ∀ e ∈ rs, e.entry.1.canonical = e.head) :
    ((rs.map RawEntry.entry).map Prod.fst).Nodup ↔ (rs.map RawEntry.head).Nodup := by
  have hheads : rs.map RawEntry.head =
      ((rs.map RawEntry.entry).map Prod.fst).map Address.canonical := by
    rw [List.map_map, List.map_map]
    exact List.map_congr_left (fun e he => (htyped e he).symm)
  have hinj : Function.Injective Address.canonical := fun a b h => by
    cases a
    cases b
    exact congrArg Address.mk h
  rw [hheads, List.nodup_map_iff hinj]

/-- A summary is as long as the entries it was read from exactly if nothing comes twice in them. -/
theorem length_ofRaw_eq_iff (h : RawValid rs) :
    (ofRaw rs).getCanonical.length = (rawBytes rs).length ↔ RawDistinct rs := by
  have hne : ∀ x ∈ rs.map RawEntry.entry, entryBytes x ≠ [] := by
    intro x _ hnil
    have hlen := length_entryBytes x
    rw [hnil, List.length_nil] at hlen
    omega
  have hmap := length_entries_ofRaw_le rs
  have hkeys := OrdMap.length_flatMap_insertAll_eq_iff hne
  rw [List.flatMap_map, List.length_flatMap (l := rs)] at hkeys
  have hsum := List.sum_le_sum (fun e he => RawEntry.length_entry_le (h.entries e he))
  rw [getCanonical_eq, rawBytes, List.length_append, List.length_append, length_leBytes,
    length_leBytes, List.length_flatMap (l := rs)]
  constructor
  · intro hlen
    have hentries : ∀ e ∈ rs, e.Distinct := by
      intro e hmem
      rw [← RawEntry.length_entry_eq_iff (h.entries e hmem)]
      by_contra hne
      have hlt := List.sum_lt_sum (fun e => (entryBytes e.entry).length) (fun e => e.bytes.length)
        (fun e he => RawEntry.length_entry_le (h.entries e he))
        ⟨e, hmem, Nat.lt_of_le_of_ne (RawEntry.length_entry_le (h.entries e hmem)) hne⟩
      omega
    refine ⟨hentries, (nodup_entry_iff fun e he =>
      (RawEntry.canonical_of_known (h.entries e he) (hentries e he).address).1).mp (hkeys.mp ?_)⟩
    change ((ofRaw rs).summary.entries.flatMap entryBytes).length = _
    omega
  · intro hdistinct
    have hnodup := (nodup_entry_iff fun e he => (RawEntry.canonical_of_known (h.entries e he)
      (hdistinct.entries e he).address).1).mpr hdistinct.addresses
    have hkept : ((ofRaw rs).summary.entries.flatMap entryBytes).length = _ := hkeys.mpr hnodup
    rw [hkept, List.map_congr_left (fun e he =>
      (RawEntry.length_entry_eq_iff (h.entries e he)).mpr (hdistinct.entries e he))]

/-- Sorted entries are written again as they were. -/
theorem getCanonical_ofRaw (h : RawValid rs) (hs : RawSorted rs) :
    (ofRaw rs).getCanonical = rawBytes rs := by
  have hsorted : (rs.map RawEntry.entry).Pairwise (fun a b => a.1 < b.1) := by
    rw [List.pairwise_map]
    refine hs.addresses.imp_of_mem (fun {a b} ha hb hlt => ?_)
    have ha' : a.entry.1 = ⟨a.head⟩ :=
      congrArg Address.mk ((hs.entries a ha).canonical (h.entries a ha)).1
    have hb' : b.entry.1 = ⟨b.head⟩ :=
      congrArg Address.mk ((hs.entries b hb).canonical (h.entries b hb)).1
    rw [ha', hb']
    exact hlt
  have hraw : (ofRaw rs).toRaw = rs := by
    rw [toRaw, ofRaw, OrdMap.entries_insertAll_of_sorted hsorted, List.map_map]
    exact (List.map_congr_left (fun e he => (hs.entries e he).mk_entry (h.entries e he))).trans
      (List.map_id _)
  rw [getCanonical_toRaw (Nat.lt_of_le_of_lt (size_ofRaw_le rs) h.count), hraw]

/-- Whatever else is in the buffer, the summary it is read to has an encoding of its own. -/
theorem rawValid_of_typed (h : RawValid rs)
    (htyped : ∀ e ∈ rs, e.entry.1.canonical = e.head) : RawValid (ofRaw rs).toRaw := by
  refine ⟨?_, fun r hr => ?_⟩
  · rw [toRaw, List.length_map]
    exact Nat.lt_of_le_of_lt (size_ofRaw_le rs) h.count
  · obtain ⟨x, hx, rfl⟩ := List.mem_map.mp hr
    obtain ⟨e, he, rfl⟩ := List.mem_map.mp ((OrdMap.subperm_insertAll _).subset hx)
    have hvalid := h.entries e he
    have hd := OrdMap.subperm_insertAll e.delayed
    have hc := OrdMap.subperm_insertAll e.coins
    refine ⟨?_, Nat.lt_of_le_of_lt hd.length_le hvalid.delayedCount,
      Nat.lt_of_le_of_lt hc.length_le hvalid.coinCount,
      fun d hmem => hvalid.delayed d (hd.subset hmem), fun c hmem => hvalid.coins c (hc.subset hmem)⟩
    change IsHead e.entry.1.canonical
    rw [htyped e he]
    exact hvalid.head

theorem rawSorted_of_getCanonical (h : RawValid rs) (he : (ofRaw rs).getCanonical = rawBytes rs) :
    RawSorted rs := by
  have hsize : (ofRaw rs).summary.size < 2 ^ 32 := Nat.lt_of_le_of_lt (size_ofRaw_le rs) h.count
  -- No entry lost a byte.
  have hlen : ∀ e ∈ rs, (entryBytes e.entry).length = e.bytes.length := by
    intro e hmem
    by_contra hne
    have hlt := List.sum_lt_sum (fun e => (entryBytes e.entry).length) (fun e => e.bytes.length)
      (fun e he => RawEntry.length_entry_le (h.entries e he))
      ⟨e, hmem, Nat.lt_of_le_of_ne (RawEntry.length_entry_le (h.entries e hmem)) hne⟩
    have hmap := length_entries_ofRaw_le rs
    have hall := congrArg List.length he
    rw [getCanonical_eq, rawBytes, List.length_append, List.length_append, length_leBytes,
      length_leBytes, List.length_flatMap (l := rs)] at hall
    omega
  have htyped := fun e hmem => RawEntry.canonical_of_length (h.entries e hmem) (hlen e hmem)
  -- So the summary has an encoding, and the entries are the ones of the map.
  have hvalid := rawValid_of_typed h (fun e hmem => (htyped e hmem).1)
  rw [getCanonical_toRaw hsize] at he
  have hraw : (ofRaw rs).toRaw = rs := by
    have happ : rawBytes (ofRaw rs).toRaw ++ [] = rawBytes rs ++ [] := by rw [he]
    exact (codec_readRaw.unique hvalid h happ).1
  refine ⟨fun e hmem => ?_, ?_⟩
  · have haddr : e.head.length = kWalletAddrBufSize ∨ e.head.length = kNodeAddrBufSize := by
      obtain ⟨hc, hw⟩ := htyped e hmem
      rw [← hc]
      exact hw.imp And.left And.left
    rw [← hraw] at hmem
    obtain ⟨x, -, rfl⟩ := List.mem_map.mp hmem
    exact ⟨haddr, x.2.1.sorted, x.2.2.sorted⟩
  · rw [← hraw, toRaw, List.pairwise_map]
    exact (ofRaw rs).summary.sorted

end Summary

namespace Validation

def pairBytes (e : Address × Signature) : Bytes := e.1.getCanonical ++ e.2.getCanonical

/-- Both parts are of a known type, so a pair takes no more than a node's. -/
theorem shrinks_readPair : Shrinks readPair pairBytes
    (fun e => (pairBytes e).length ≤ pairSize ∧
      ((pairBytes e).length = pairSize → e.1.IsNode ∧ e.2.IsNode)) := by
  intro b e b' h
  rw [readPair, copyAddress_eq, copySignature_eq] at h
  simp only [bind_assoc, pure_bind] at h
  obtain ⟨head, b1, h1, h⟩ := bind_eq_ok h
  obtain ⟨head', b2, h2, h⟩ := bind_eq_ok h
  obtain ⟨sig, b3, h3, h⟩ := bind_eq_ok h
  cases pure_eq_ok h
  obtain ⟨hsig, hb⟩ := lift_eq_ok h3
  simp only at hsig hb
  subst hb
  obtain ⟨hhead, htook⟩ := codec_readHead.takes b head b1 h1
  obtain ⟨hhead', htook'⟩ := codec_readHead.takes b1 head' b' h2
  have ha := Address.ofBytes_head hhead
  have hs := Signature.ofBytes_head hhead' hsig
  have hsize : (Address.ofBytes head.tail).size ≤ head.length := ha.le
  have hsize' : sig.size ≤ head'.length := hs.le
  have hlen : (pairBytes (Address.ofBytes head.tail, sig)).length =
      (Address.ofBytes head.tail).size + sig.size := List.length_append
  refine ⟨head ++ head', htook.append htook', ?_, fun hfull => ?_⟩
  · rw [hlen, List.length_append]
    omega
  · rw [hlen, List.length_append] at hfull
    have hfull1 : (Address.ofBytes head.tail).size = head.length := by omega
    have hfull2 : sig.size = head'.length := by omega
    obtain ⟨hhead1, hkind⟩ := ha.whole hfull1
    obtain ⟨hhead2, hkind'⟩ := hs.whole hfull2
    have ha' := Address.node_of_size hkind
    have hs' := Signature.node_of_size hkind'
    have hpair : pairSize = 156 := rfl
    refine ⟨congrArg₂ (· ++ ·) hhead1 hhead2, ?_⟩
    beta_reduce
    rw [hlen, hpair]
    exact ⟨by omega, fun h156 => ⟨ha'.2 (by omega), hs'.2 (by omega)⟩⟩

/-- The bytes are pairs of nodes. -/
structure OfPairs (bytes : Bytes) (ps : List (Address × Signature)) : Prop where
  nodes : ∀ p ∈ ps, p.1.IsNode ∧ p.2.IsNode
  bytes_eq : bytes = ps.flatMap pairBytes

theorem OfPairs.length {bytes : Bytes} {ps : List (Address × Signature)} (h : OfPairs bytes ps) :
    bytes.length = ps.length * pairSize := by
  rw [h.bytes_eq]
  refine length_flatMap_const (fun p hp => ?_)
  rw [pairBytes, List.length_append]
  exact congrArg₂ (· + ·) (h.nodes p hp).1.1 (h.nodes p hp).2.1

theorem OfPairs.create {tail : Bytes} {ps : List (Address × Signature)} (h : OfPairs tail ps)
    (pre : Bytes) : create ⟨pre ++ tail, pre.length⟩ =
      .ok (⟨OrdMap.empty.insertAll ps⟩, ⟨pre ++ tail, pre.length + tail.length⟩) := by
  have hcount : (InputBuffer.size ⟨pre ++ tail, pre.length⟩ - pre.length) / pairSize = ps.length := by
    rw [InputBuffer.size, List.length_append, Nat.add_sub_cancel_left, h.length]
    exact Nat.mul_div_cancel _ (by decide)
  have hreads : Reads (createCount ps.length) tail ⟨OrdMap.empty.insertAll ps⟩ := by
    rw [h.bytes_eq]
    exact (Reads.times ps (fun p hp => reads_readPair (h.nodes p hp).1 (h.nodes p hp).2)).bind_done
      (Reads.pure _)
  have hrun := hreads pre []
  rw [List.append_nil] at hrun
  rw [Validation.create, hcount]
  exact hrun

theorem length_insertAll_eq_iff {ps : List (Address × Signature)}
    (h : ∀ p ∈ ps, p.1.IsNode ∧ p.2.IsNode) :
    (getCanonical ⟨OrdMap.empty.insertAll ps⟩).length = (ps.flatMap pairBytes).length ↔
      (ps.map Prod.fst).Nodup := by
  refine OrdMap.length_flatMap_insertAll_eq_iff (f := pairBytes) (fun p hp hnil => ?_)
  have hfirst : p.1.canonical = [] := (List.append_eq_nil_iff.mp hnil).1
  have hnode : p.1.canonical.length = kNodeAddrBufSize := (h p hp).1.1
  rw [hfirst] at hnode
  cases hnode

/-- The votes are no longer than the bytes they were read from, and as long only if these are
pairs of nodes, each of them once. -/
theorem create_ok {pre tail : Bytes} {v : Validation} {b : InputBuffer}
    (h : create ⟨pre ++ tail, pre.length⟩ = .ok (v, b)) :
    v.getCanonical.length ≤ tail.length ∧ (v.getCanonical.length = tail.length →
      ∃ ps, OfPairs tail ps ∧ (ps.map Prod.fst).Nodup ∧ v = ⟨OrdMap.empty.insertAll ps⟩) := by
  have hcount : (InputBuffer.size ⟨pre ++ tail, pre.length⟩ - pre.length) / pairSize =
      tail.length / pairSize := by
    rw [InputBuffer.size, List.length_append, Nat.add_sub_cancel_left]
  rw [create, hcount] at h
  obtain ⟨l, b1, hl, h⟩ := bind_eq_ok h
  cases pure_eq_ok h
  obtain ⟨took, htook, hle, hfull⟩ := shrinks_readPair.times _ _ l b hl
  obtain ⟨post, htail, -⟩ := htook.split
  have hmap : (getCanonical ⟨OrdMap.empty.insertAll l⟩).length ≤ (l.flatMap pairBytes).length :=
    OrdMap.length_flatMap_insertAll_le pairBytes l
  have hlen : tail.length = took.length + post.length := by rw [htail, List.length_append]
  beta_reduce at hle hfull
  refine ⟨by omega, fun heq => ?_⟩
  obtain ⟨hbytes, hpairs⟩ := hfull (by omega)
  -- As many pairs as node pairs fit: were one of them shorter, bytes would be left over.
  have hsize : l.length * pairSize ≤ (l.flatMap pairBytes).length := by
    have hmul := Nat.div_mul_le_self tail.length pairSize
    rw [length_times hl]
    omega
  have hnodes : ∀ p ∈ l, p.1.IsNode ∧ p.2.IsNode := by
    intro e hmem
    refine (hpairs e hmem).2 ?_
    by_contra hne
    have hlt := List.sum_lt_sum (fun e => (pairBytes e).length) (fun _ => pairSize)
      (fun e he => (hpairs e he).1) ⟨e, hmem, Nat.lt_of_le_of_ne (hpairs e hmem).1 hne⟩
    rw [← List.length_flatMap, List.map_const', List.sum_replicate_nat] at hlt
    omega
  have hpost : post = [] := List.length_eq_zero_iff.mp (by omega)
  refine ⟨l, ⟨hnodes, ?_⟩, (length_insertAll_eq_iff hnodes).mp (by omega), rfl⟩
  rw [htail, hpost, List.append_nil, hbytes]

theorem ofNodes_insertAll {ps : List (Address × Signature)}
    (h : ∀ p ∈ ps, p.1.IsNode ∧ p.2.IsNode) : OfNodes ⟨OrdMap.empty.insertAll ps⟩ :=
  fun p hp => h p ((OrdMap.subperm_insertAll ps).subset hp)

end Validation

/-- The two sections behind the transactions are written as they were read exactly if both
are in order and nothing follows them. -/
theorem sections_eq_iff {rs : List RawEntry} (h : Summary.RawValid rs) {pre tail : Bytes}
    {v : Validation} {b : InputBuffer}
    (hv : Validation.create ⟨pre ++ tail, pre.length⟩ = .ok (v, b)) :
    (Summary.ofRaw rs).getCanonical ++ v.getCanonical = Summary.rawBytes rs ++ tail ↔
      Summary.RawSorted rs ∧ ∃ ps : List (Address × Signature), (∀ p ∈ ps, p.1.IsNode ∧ p.2.IsNode) ∧
        ps.Pairwise (fun a b => a.1 < b.1) ∧ tail = ps.flatMap Validation.pairBytes := by
  obtain ⟨hle, hfull⟩ := Validation.create_ok hv
  constructor
  · intro heq
    have hsum := Summary.length_ofRaw_le h
    have hlen := congrArg List.length heq
    rw [List.length_append, List.length_append] at hlen
    obtain ⟨hs, htail⟩ := List.append_inj heq (by omega)
    obtain ⟨ps, hpairs, -, rfl⟩ := hfull (by omega)
    exact ⟨Summary.rawSorted_of_getCanonical h hs, _, Validation.ofNodes_insertAll hpairs.nodes,
      (OrdMap.empty.insertAll ps).sorted, htail.symm⟩
  · rintro ⟨hs, ps, hps, hsorted, rfl⟩
    -- The votes of nodes are read back.
    have hread := @Validation.create_getCanonical ⟨⟨ps, hsorted⟩⟩ hps pre
    have hcanonical : Validation.getCanonical ⟨⟨ps, hsorted⟩⟩ = ps.flatMap Validation.pairBytes := rfl
    rw [hcanonical, hv] at hread
    rw [Summary.getCanonical_ofRaw h hs, (Prod.mk.inj (Except.ok.inj hread)).1, hcanonical]

section
variable {o : Ossl} {keys : KeyRing o}

/-- How far a Tier-1 transaction reaches, by the size in front of it. -/
def Tier1Transaction.stride (data : Bytes) (p : Nat) : Option Nat :=
  (binToUint64 data p).toOption.map wholeSize

/-- How far a Tier-2 transaction reaches, by its two sizes and the type byte of its signature. -/
def Tier2Transaction.reach (data : Bytes) (p : Nat) : Option Nat := do
  let xferSize ← (binToUint64 data p).toOption
  let nonceSize ← (binToUint64 data (p + 8)).toOption
  let typeByte ← (byteAt data (u64 (u64 (kTransferOffset + xferSize + nonceSize) + p))).toOption
  some (u64 (typeByte.toNat + kTransferOffset + xferSize + nonceSize))

def Transaction.stride (mode : AppMode) (data : Bytes) (p : Nat) : Option Nat :=
  match mode with
  | .t1 => Tier1Transaction.stride data p
  | .t2 => Tier2Transaction.reach data p
  | .scan => none

theorem takes_copyHash : Takes copyHash (fun h : Hash => h.1) (fun _ => True) := by
  intro b h b' hread
  rw [copyHash] at hread
  split_ifs at hread with hle
  cases hread
  refine ⟨trivial, List.take_prefix 32 _, ?_⟩
  rw [List.length_take, List.length_drop, Nat.min_eq_left (by omega)]

/-- Whatever comes of the checks, the bytes are copied. -/
theorem Tier1Transaction.ofBuffer_took {calculateSoundness : Bool} {b b' : InputBuffer}
    {tx : Tier1Transaction} (h : ofBuffer keys calculateSoundness b = .ok (tx, b')) :
    binToUint64 b.buffer b.offset = .ok tx.sumSize ∧ tx.canonical.length = wholeSize tx.sumSize ∧
      Took b tx.canonical b' := by
  obtain ⟨n, b1, hpeek, hrest⟩ := bind_eq_ok h
  obtain ⟨hb1, hn⟩ := getWord_stay hpeek
  obtain ⟨c, b2, hcopy, hchecks⟩ := bind_eq_ok hrest
  obtain ⟨hlen, htook⟩ := takes_copy _ b1 c b2 hcopy
  have hbase : tx.canonical = c ∧ tx.sumSize = n ∧ b' = b2 := by
    split_ifs at hchecks
    · cases hchecks
      exact ⟨rfl, rfl, rfl⟩
    · obtain ⟨hsound, hb⟩ := lift_eq_ok hchecks
      have htx : tx = { canonical := c, isSoundFlag := true, sumSize := n } := (setIsSound_ok hsound).2
      rw [htx]
      exact ⟨rfl, rfl, hb⟩
    · cases hchecks
      exact ⟨rfl, rfl, rfl⟩
  obtain ⟨hc, hsize, hb'⟩ := hbase
  rw [hc, hsize, hb', ← hb1]
  rw [← hb1] at hn
  exact ⟨hn, hlen, htook⟩

theorem Tier2Transaction.quickFill_took {b b' : InputBuffer} {tx : Tier2Transaction}
    (h : quickFill b = .ok (tx, b')) : Took b tx.canonical b' ∧
      ∃ n, reach b.buffer b.offset = some n ∧ b'.offset = b.offset + n := by
  obtain ⟨hxfer, hnonce, t, ht, hcopy, -⟩ := quickFill_ok h
  obtain ⟨-, htook⟩ := takes_copy _ _ _ _ hcopy
  refine ⟨htook, _, ?_, congrArg Cursor.offset (copy_ok hcopy).2.2⟩
  have hx : binToUint64 b.buffer b.offset = .ok tx.xferSize := (getWord_stay hxfer).2
  rw [reach, hx, (getWord_stay hnonce).2, Option.bind_eq_bind]
  change (byteAt _ _).toOption.bind _ = _
  rw [(offsetAt_ok ht).2]
  rfl

theorem createTransaction_ok {mode : AppMode} {b b' : InputBuffer} {tx : Transaction}
    (h : createTransaction keys mode false b = .ok (tx, b')) :
    Took b tx.getCanonical b' ∧
      ∃ n, Transaction.stride mode b.buffer b.offset = some n ∧ b'.offset = b.offset + n := by
  cases mode with
  | t1 =>
    obtain ⟨tx1, b1, htx, h⟩ := bind_eq_ok h
    cases pure_eq_ok h
    obtain ⟨hn, hlen, htook⟩ := Tier1Transaction.ofBuffer_took htx
    refine ⟨htook, Tier1Transaction.wholeSize tx1.sumSize, ?_, ?_⟩
    · rw [Transaction.stride, Tier1Transaction.stride, hn]
      rfl
    · rw [htook.2, ← hlen]
  | t2 =>
    obtain ⟨tx2, b1, htx, h⟩ := bind_eq_ok h
    cases pure_eq_ok h
    obtain ⟨tx', b2, hfill, htx⟩ := bind_eq_ok htx
    cases pure_eq_ok htx
    exact Tier2Transaction.quickFill_took hfill
  | scan => cases h

theorem Transaction.setIsSound_canonical {tx tx' : Transaction} (h : tx.setIsSound keys = .ok tx') :
    tx'.getCanonical = tx.getCanonical := by
  cases tx with
  | tier1 tx =>
    obtain ⟨tx1, h1, h⟩ := Result.bind_eq_ok h
    cases h
    rw [(Tier1Transaction.setIsSound_ok h1).2]
    rfl
  | tier2 tx =>
    obtain ⟨tx1, h1, h⟩ := Result.bind_eq_ok h
    cases h
    obtain ⟨sound, -, h1⟩ := Result.bind_eq_ok h1
    cases h1
    rfl

theorem pushJob_canonical {tx tx' : Transaction} (h : pushJob keys tx = .ok tx') :
    tx'.getCanonical = tx.getCanonical := by
  rw [pushJob] at h
  split at h
  · rename_i hok
    cases h
    exact Transaction.setIsSound_canonical hok
  · cases h
  · cases h
  · cases h
    rfl

theorem mapM_pushJob_canonical {vtx txs : List Transaction} (h : vtx.mapM (pushJob keys) = .ok txs) :
    txs.flatMap Transaction.getCanonical = vtx.flatMap Transaction.getCanonical := by
  induction vtx generalizing txs with
  | nil =>
    cases h
    rfl
  | cons tx vtx ih =>
    rw [List.mapM_cons] at h
    obtain ⟨tx', htx, h⟩ := Result.bind_eq_ok h
    obtain ⟨txs', htxs, h⟩ := Result.bind_eq_ok h
    cases h
    rw [List.flatMap_cons, List.flatMap_cons, pushJob_canonical htx, ih htxs]

theorem createTransactions_ok {mode : AppMode} {startSize txSize : Nat} {b b' : InputBuffer}
    {txs : List Transaction} (h : createTransactions keys mode startSize txSize b = .ok (txs, b')) :
    Took b (txs.flatMap Transaction.getCanonical) b' ∧
      Hops (Transaction.stride mode b.buffer) (u64 (startSize + txSize)) b.offset b'.offset := by
  obtain ⟨vtx, b1, hdecode, h⟩ := bind_eq_ok h
  obtain ⟨hjobs, rfl⟩ := lift_eq_ok h
  have htakes : Takes (createTransaction keys mode false) Transaction.getCanonical (fun _ => True) :=
    fun b tx b' h => ⟨trivial, (createTransaction_ok h).1⟩
  rw [mapM_pushJob_canonical hjobs]
  refine ⟨(htakes.whileBelow _ _ _ _ _ _ hdecode).2, whileBelow_hops (fun b tx b' h => ?_) hdecode⟩
  obtain ⟨htook, hstride⟩ := createTransaction_ok h
  exact ⟨by rw [htook.2], hstride⟩

theorem readSections_ok {mode : AppMode} {startSize txSize : Nat} {pre rest : Bytes}
    {txs : List Transaction} {s : Summary} {v : Validation} {b : InputBuffer}
    (h : readSections keys mode startSize txSize ⟨pre ++ rest, pre.length⟩ = .ok ((txs, s, v), b)) :
    ∃ rs tail, rest = txs.flatMap Transaction.getCanonical ++ (Summary.rawBytes rs ++ tail) ∧
      Summary.RawValid rs ∧ s = Summary.ofRaw rs ∧
      Hops (Transaction.stride mode (pre ++ rest)) (u64 (startSize + txSize)) pre.length
        (pre ++ txs.flatMap Transaction.getCanonical).length ∧
      ∃ before : Bytes, Validation.create ⟨before ++ tail, before.length⟩ = .ok (v, b) := by
  obtain ⟨txs', b1, h1, h⟩ := bind_eq_ok h
  obtain ⟨s', b2, h2, h⟩ := bind_eq_ok h
  obtain ⟨v', b3, h3, h⟩ := bind_eq_ok h
  cases pure_eq_ok h
  obtain ⟨htook, hhops⟩ := createTransactions_ok h1
  obtain ⟨rest1, hrest, hb1⟩ := htook.split
  rw [hb1] at h2 hhops
  obtain ⟨rs, hvalid, htook2, hs⟩ := Summary.create_ok h2
  obtain ⟨tail, hrest1, hb2⟩ := htook2.split
  rw [hb2] at h3
  rw [hrest1] at hrest
  exact ⟨rs, tail, hrest, hvalid, hs, hhops, _, h3⟩

end

namespace FinalBlock
variable {o : Ossl} {keys : KeyRing o} {data : Bytes} {f : BlockFields}

/-- Behind the checks the header is taken as it is. -/
theorem readFields_ok {mode : AppMode} {b : InputBuffer} (hdata : ¬ Malformed data)
    (h : readFields keys mode (ofBytes data) = .ok (f, b)) :
    f.rawTransactions = f.transactionVector.map Transaction.getCanonical ∧ f.txSize < 2 ^ 64 ∧
      ∃ rest, data = f.header ++ rest ∧
        readSections keys mode minSize f.txSize ⟨f.header ++ rest, f.header.length⟩ =
          .ok ((f.transactionVector, f.summary, f.vals), b) := by
  rw [Malformed, not_or, not_or, not_not, not_not] at hdata
  obtain ⟨hmin, hversion, hnum⟩ := hdata
  rw [readFields, InputBuffer.size, ofBytes, if_neg hmin] at h
  obtain ⟨version, b1, h1, h⟩ := bind_eq_ok h
  have hzero : version = 0 := by
    rw [getNextByte, hversion] at h1
    cases h1
    rfl
  rw [if_neg (not_not.mpr hzero)] at h
  obtain ⟨numBytes, b2, h2, h⟩ := bind_eq_ok h
  obtain ⟨-, t1⟩ := takes_getNextByte _ _ _ h1
  have hb1 : b1 = ⟨data, 1⟩ := t1.2
  have hbytes : numBytes = data.length := by
    rw [hb1, getNextUint64, getWord, hnum] at h2
    cases h2
    rfl
  rw [if_neg (not_not.mpr hbytes.symm)] at h
  obtain ⟨blockTime, b3, h3, h⟩ := bind_eq_ok h
  obtain ⟨prevHash, b4, h4, h⟩ := bind_eq_ok h
  obtain ⟨merkleRoot, b5, h5, h⟩ := bind_eq_ok h
  obtain ⟨txSize, b6, h6, h⟩ := bind_eq_ok h
  obtain ⟨sumSize, b7, h7, h⟩ := bind_eq_ok h
  obtain ⟨valCount, b8, h8, h⟩ := bind_eq_ok h
  obtain ⟨txs, b9, h9, h⟩ := bind_eq_ok h
  obtain ⟨summary, b10, h10, h⟩ := bind_eq_ok h
  obtain ⟨vals, b11, h11, h⟩ := bind_eq_ok h
  cases pure_eq_ok h
  obtain ⟨-, t2⟩ := takes_getNextUint64 _ _ _ h2
  obtain ⟨-, t3⟩ := takes_getNextUint64 _ _ _ h3
  obtain ⟨-, t4⟩ := takes_copyHash _ _ _ h4
  obtain ⟨-, t5⟩ := takes_copyHash _ _ _ h5
  obtain ⟨hlt, t6⟩ := takes_getNextUint64 _ _ _ h6
  obtain ⟨-, t7⟩ := takes_getNextUint64 _ _ _ h7
  obtain ⟨-, t8⟩ := takes_getNextUint32 _ _ _ h8
  have htook := ((((((t1.append t2).append t3).append t4).append t5).append t6).append t7).append t8
  obtain ⟨rest, hdata, hb8⟩ := @Took.split _ [] data _ _ htook
  rw [List.nil_append] at hb8
  refine ⟨rfl, hlt, rest, hdata, ?_⟩
  have hsections : readSections keys mode minSize txSize b8 = .ok ((txs, summary, vals), b) := by
    rw [readSections, bind_of_ok h9, bind_of_ok h10, bind_of_ok h11]
    rfl
  rw [hb8] at hsections
  exact hsections

/-- Behind the transactions stand the sections as the encoders write them: a sorted summary,
then pairs of nodes in strictly increasing order, and nothing else. -/
structure SortedSections (data : Bytes) (rs : List RawEntry) (ps : List (Address × Signature)) :
    Prop where
  valid : Summary.RawValid rs
  sorted : Summary.RawSorted rs
  nodes : ∀ p ∈ ps, p.1.IsNode ∧ p.2.IsNode
  increasing : ps.Pairwise (fun a b => a.1 < b.1)
  behind : ∃ txSize q, binToUint64 data 81 = .ok txSize ∧
    Hops (Tier1Transaction.stride data) (u64 (minSize + txSize)) minSize q ∧
    data.drop q = Summary.rawBytes rs ++ ps.flatMap Validation.pairBytes

theorem binToUint64_header (hlt : f.txSize < 2 ^ 64) (rest : Bytes) :
    binToUint64 (f.header ++ rest) 81 = .ok f.txSize := by
  have h := binToUint64_append ([f.version] ++ leBytes 8 f.numBytes ++ leBytes 8 f.blockTime ++
    f.prevHash.1 ++ f.merkleRoot.1) (leBytes 8 f.sumSize ++ leBytes 4 f.valCount ++ rest) f.txSize hlt
  simp only [List.length_append, length_leBytes, List.length_singleton, f.prevHash.2, f.merkleRoot.2,
    List.append_assoc] at h
  simp only [BlockFields.header, List.append_assoc]
  exact h

/-- A block that a Tier-1 node decodes is encoded to the same bytes exactly if its sections
are in order. -/
theorem decode_canonical_iff (hdata : ¬ Malformed data) (h : decode keys .t1 data = .ok f) :
    f.getCanonical = data ↔ ∃ rs ps, SortedSections data rs ps := by
  obtain ⟨⟨fields, b⟩, hread, hf⟩ := Result.bind_eq_ok h
  cases hf
  obtain ⟨hraw, hlt, rest, hrest, hsections⟩ := readFields_ok hdata hread
  obtain ⟨rs, tail, hsplit, hvalid, hs, hhops, before, hv⟩ := readSections_ok hsections
  have hflat : f.rawTransactions.flatten = f.transactionVector.flatMap Transaction.getCanonical := by
    rw [hraw, List.flatMap_def]
  have hcanonical : f.getCanonical = data ↔
      (Summary.ofRaw rs).getCanonical ++ f.vals.getCanonical = Summary.rawBytes rs ++ tail := by
    rw [BlockFields.getCanonical_header, BlockFields.sections, hflat, hs, hrest, hsplit,
      List.append_cancel_left_eq, List.append_cancel_left_eq]
  have hword : binToUint64 data 81 = .ok f.txSize := by
    rw [hrest]
    exact binToUint64_header hlt rest
  have hdrop : data.drop (f.header ++ f.transactionVector.flatMap Transaction.getCanonical).length =
      Summary.rawBytes rs ++ tail := by
    rw [hrest, hsplit, ← List.append_assoc, List.drop_left]
  rw [← hrest, BlockFields.length_header] at hhops
  rw [hcanonical, sections_eq_iff hvalid hv]
  constructor
  · rintro ⟨hsorted, ps, hnodes, hincreasing, htail⟩
    rw [htail] at hdrop
    exact ⟨rs, ps, hvalid, hsorted, hnodes, hincreasing, _, _, hword, hhops, hdrop⟩
  · rintro ⟨rs', ps, hvalid', hsorted, hnodes, hincreasing, txSize, q, hword', hhops', hdrop'⟩
    -- The transactions end in one place, and the entries there can be read in one way.
    cases hword.symm.trans hword'
    cases hhops.unique hhops'
    obtain ⟨rfl, htail⟩ := Summary.codec_readRaw.unique hvalid hvalid' (hdrop.symm.trans hdrop')
    exact ⟨hsorted, ps, hnodes, hincreasing, htail⟩

/-- A block without transactions and votes, for the entries of its summary. -/
def sampleBlock (rs : List RawEntry) : Bytes :=
  [0] ++ leBytes 8 (minSize + (Summary.rawBytes rs).length) ++ List.replicate 92 0 ++
    Summary.rawBytes rs

/-- Coins of type 1 for a sample wallet. -/
def sampleEntry (wallet : Byte) : RawEntry := ⟨(Address.sample wallet).canonical, [], [(1, 5)]⟩

/-- A receiver sorts the entries of a summary, so it hashes other bytes than it received. -/
theorem unsortedBlock_resorted :
    ¬ Malformed (sampleBlock [sampleEntry 2, sampleEntry 1]) ∧
    (decode KeyRing.toy .t1 (sampleBlock [sampleEntry 2, sampleEntry 1])).map
      BlockFields.getCanonical = .ok (sampleBlock [sampleEntry 1, sampleEntry 2]) ∧
    sampleBlock [sampleEntry 1, sampleEntry 2] ≠ sampleBlock [sampleEntry 2, sampleEntry 1] := by
  decide +kernel

/-- Sorted, the same entries are written again as they were. -/
theorem decode_canonical_iff_sampleBlock :
    ¬ Malformed (sampleBlock [sampleEntry 1, sampleEntry 2]) ∧
    ∃ f, decode KeyRing.toy .t1 (sampleBlock [sampleEntry 1, sampleEntry 2]) = .ok f ∧
      f.getCanonical = sampleBlock [sampleEntry 1, sampleEntry 2] ∧
      ∃ rs ps, SortedSections (sampleBlock [sampleEntry 1, sampleEntry 2]) rs ps := by
  have hdata : ¬ Malformed (sampleBlock [sampleEntry 1, sampleEntry 2]) := by decide +kernel
  have hmap : (decode KeyRing.toy .t1 (sampleBlock [sampleEntry 1, sampleEntry 2])).map
      BlockFields.getCanonical = .ok (sampleBlock [sampleEntry 1, sampleEntry 2]) := by decide +kernel
  cases hf : decode KeyRing.toy .t1 (sampleBlock [sampleEntry 1, sampleEntry 2]) with
  | error e =>
    rw [hf] at hmap
    cases hmap
  | ok f =>
    rw [hf] at hmap
    have hcanonical : f.getCanonical = sampleBlock [sampleEntry 1, sampleEntry 2] :=
      Except.ok.inj hmap
    exact ⟨hdata, f, rfl, hcanonical, (decode_canonical_iff hdata hf).mp hcanonical⟩

end FinalBlock
end Devcash
