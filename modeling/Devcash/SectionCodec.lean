import Devcash.RawSections

/-! The two sections behind the transactions of a block. The decoders give back the
validations of nodes and every summary of at most 2^32 - 1 addresses. -/
namespace Devcash
open Endian Reader InputBuffer

namespace Validation

/-- Every entry is the address of a node with a signature of a node's size. -/
def OfNodes (v : Validation) : Prop := ∀ e ∈ v.sigs.entries, e.1.IsNode ∧ e.2.IsNode

instance (v : Validation) : Decidable v.OfNodes :=
  inferInstanceAs (Decidable (∀ e ∈ v.sigs.entries, _))

theorem reads_readPair {e : Address × Signature} (ha : e.1.IsNode) (hs : e.2.IsNode) :
    Reads readPair (e.1.getCanonical ++ e.2.getCanonical) e := by
  refine (reads_copyAddress (Or.inr ha)).bind ?_
  exact (reads_copySignature (Or.inr hs)).bind_done (Reads.pure _)

variable {v : Validation}

theorem length_getCanonical (h : v.OfNodes) : v.getCanonical.length = v.sigs.size * pairSize := by
  refine length_flatMap_const (fun e he => ?_)
  rw [List.length_append]
  exact congrArg₂ (· + ·) (h e he).1.1 (h e he).2.1

theorem reads_createCount (h : v.OfNodes) : Reads (createCount v.sigs.size) v.getCanonical v := by
  refine (Reads.times v.sigs.entries (fun e he => reads_readPair (h e he).1 (h e he).2)).bind_done ?_
  rw [OrdMap.insertAll_entries]
  exact Reads.pure v

theorem create_getCanonical (h : v.OfNodes) (pre : Bytes) :
    create ⟨pre ++ v.getCanonical, pre.length⟩ =
      .ok (v, ⟨pre ++ v.getCanonical, pre.length + v.getCanonical.length⟩) := by
  have hcount : (InputBuffer.size ⟨pre ++ v.getCanonical, pre.length⟩ - pre.length) / pairSize =
      v.sigs.size := by
    rw [InputBuffer.size, List.length_append, Nat.add_sub_cancel_left, length_getCanonical h]
    exact Nat.mul_div_cancel _ (by decide)
  have hreads := reads_createCount h pre []
  rw [List.append_nil] at hreads
  rw [create, hcount]
  exact hreads

end Validation

namespace Summary

/-- The bytes of an address with its items. -/
def entryBytes (e : Address × SummaryPair) : Bytes :=
  e.1.canonical ++ (leBytes 8 e.2.1.size ++ (leBytes 8 e.2.2.size ++
    (e.2.1.entries.flatMap delayedBytes ++ e.2.2.entries.flatMap coinBytes)))

theorem foldl_append_flatMap {α : Type} (f : α → Bytes) (l : List α) (out : Bytes) :
    l.foldl (fun out x => out ++ f x) out = out ++ l.flatMap f := by
  induction l generalizing out with
  | nil => simp
  | cons x l ih => simp [ih]

theorem pairCanonical_eq (e : Address × SummaryPair) (out : Bytes) :
    pairCanonical e.2 (out ++ e.1.getCanonical) = out ++ entryBytes e := by
  have hd : (fun (out : Bytes) (d : Nat × DelayedItem) =>
      int64ToBin (i64 d.2.delta) (uint64ToBin d.2.delay (uint64ToBin d.1 out))) =
      fun out d => out ++ delayedBytes d := by
    funext out d
    simp only [uint64ToBin_eq, int64ToBin_eq, delayedBytes, List.append_assoc]
  have hc : (fun (out : Bytes) (c : Nat × Int) => int64ToBin c.2 (uint64ToBin c.1 out)) =
      fun out c => out ++ coinBytes c := by
    funext out c
    simp only [uint64ToBin_eq, int64ToBin_eq, coinBytes, List.append_assoc]
  rw [pairCanonical, hd, hc]
  simp only [foldl_append_flatMap, uint64ToBin_eq, entryBytes, Address.getCanonical,
    List.append_assoc]

theorem getCanonical_eq (s : Summary) : s.getCanonical =
    leBytes 4 (u32 s.summary.size) ++ s.summary.entries.flatMap entryBytes := by
  have he : (fun (out : Bytes) (e : Address × SummaryPair) =>
      pairCanonical e.2 (out ++ e.1.getCanonical)) = fun out e => out ++ entryBytes e := by
    funext out e
    exact pairCanonical_eq e out
  rw [getCanonical, he, foldl_append_flatMap, uint32ToBin_eq, List.nil_append]

/-- The items of an address are what `addItem` can store: coins and delays of 64 bits, the
delayed items with a delay. -/
structure ItemsFit (p : SummaryPair) : Prop where
  delayed : ∀ d ∈ p.1.entries, d.1 < 2 ^ 64 ∧ 0 < d.2.delay ∧ d.2.delay < 2 ^ 64 ∧ d.2.delta < 2 ^ 64
  coins : ∀ c ∈ p.2.entries, c.1 < 2 ^ 64 ∧ i64 c.2 = c.2

/-- What `addItem` makes of transfers on wallet and node addresses. -/
def ByItems (s : Summary) : Prop :=
  ∀ e ∈ s.summary.entries, (e.1.IsWallet ∨ e.1.IsNode) ∧ ItemsFit e.2

/-- The counts of the encoding hold the summary: the addresses are counted in 32 bits,
the items and the bytes in 64. -/
structure Fits (s : Summary) : Prop where
  addresses : s.summary.size < 2 ^ 32
  bytes : s.getByteSize < 2 ^ 64

instance (s : Summary) : Decidable s.Fits :=
  decidable_of_iff (s.summary.size < 2 ^ 32 ∧ s.getByteSize < 2 ^ 64)
    ⟨fun h => ⟨h.1, h.2⟩, fun h => ⟨h.addresses, h.bytes⟩⟩

theorem length_entryBytes (e : Address × SummaryPair) :
    (entryBytes e).length = e.1.size + 16 + e.2.1.size * 24 + e.2.2.size * 16 := by
  have hd : (e.2.1.entries.flatMap delayedBytes).length = e.2.1.size * 24 :=
    length_flatMap_const (fun d _ => by simp [delayedBytes])
  have hc : (e.2.2.entries.flatMap coinBytes).length = e.2.2.size * 16 :=
    length_flatMap_const (fun c _ => by simp [coinBytes])
  simp only [entryBytes, List.length_append, length_leBytes, hd, hc, Address.size]
  omega

theorem length_entryBytes_le {s : Summary} {e : Address × SummaryPair}
    (h : e ∈ s.summary.entries) : (entryBytes e).length ≤ s.getByteSize := by
  rw [getByteSize, getCanonical_eq, List.length_append, List.length_flatMap]
  have := List.le_sum_of_mem (List.mem_map_of_mem (f := fun e => (entryBytes e).length) h)
  omega

theorem minSize_le (s : Summary) : minSize ≤ s.getCanonical.length := by
  rw [getCanonical_eq, List.length_append, length_leBytes]
  exact Nat.le_add_right _ _

/-- The entries in the order of the map. -/
def toRaw (s : Summary) : List RawEntry :=
  s.summary.entries.map (fun e => ⟨e.1.canonical, e.2.1.entries, e.2.2.entries⟩)

theorem getCanonical_toRaw {s : Summary} (h : s.summary.size < 2 ^ 32) :
    s.getCanonical = rawBytes s.toRaw := by
  have hcount : u32 s.summary.size = s.summary.size := Nat.mod_eq_of_lt h
  rw [getCanonical_eq, hcount, rawBytes, toRaw, List.length_map, List.flatMap_map]
  rfl

theorem ofRaw_toRaw {s : Summary} (h : s.ByItems) : ofRaw s.toRaw = s := by
  have hentry : ∀ e ∈ s.summary.entries,
      (RawEntry.mk e.1.canonical e.2.1.entries e.2.2.entries).entry = e := by
    intro e he
    obtain ⟨t, raw, hc, -, ha⟩ := Address.ofBytes_tail (h e he).1
    rw [RawEntry.entry, OrdMap.insertAll_entries, OrdMap.insertAll_entries, hc, List.tail_cons, ha]
  have hentries : s.toRaw.map RawEntry.entry = s.summary.entries := by
    rw [toRaw, List.map_map]
    exact (List.map_congr_left hentry).trans (List.map_id _)
  rw [ofRaw, hentries, OrdMap.insertAll_entries]

theorem rawValid_toRaw {s : Summary} (h : s.ByItems) (hf : s.Fits) : RawValid s.toRaw := by
  refine ⟨by rw [toRaw, List.length_map]; exact hf.addresses, fun r hr => ?_⟩
  obtain ⟨e, he, rfl⟩ := List.mem_map.mp hr
  obtain ⟨haddr, hitems⟩ := h e he
  obtain ⟨t, raw, hc, hlen, -⟩ := Address.ofBytes_tail haddr
  have hsize := length_entryBytes_le he
  have hbytes := hf.bytes
  rw [length_entryBytes] at hsize
  have hdelayed : e.2.1.size < 2 ^ 64 := by omega
  have hcoins : e.2.2.size < 2 ^ 64 := by omega
  refine ⟨⟨t, raw, hc, hlen⟩, hdelayed, hcoins, fun d hd => ?_, hitems.coins⟩
  obtain ⟨h1, -, h2, h3⟩ := hitems.delayed d hd
  exact ⟨h1, h2, h3⟩

theorem reads_create {s : Summary} (h : s.ByItems) (hf : s.Fits) :
    Reads create s.getCanonical s := by
  have hreads := reads_create_raw (rawValid_toRaw h hf)
  rwa [ofRaw_toRaw h, ← getCanonical_toRaw hf.addresses] at hreads

end Summary

/-- The fields of a transfer on a wallet or node address, each in its type. -/
structure Flow.Typed (f : Flow) : Prop where
  address : f.addr.IsWallet ∨ f.addr.IsNode
  coin : f.coin < 2 ^ 64
  delay : f.delay < 2 ^ 64

instance (f : Flow) : Decidable f.Typed :=
  decidable_of_iff ((f.addr.IsWallet ∨ f.addr.IsNode) ∧ f.coin < 2 ^ 64 ∧ f.delay < 2 ^ 64)
    ⟨fun h => ⟨h.1, h.2.1, h.2.2⟩, fun h => ⟨h.address, h.coin, h.delay⟩⟩

/-- `Transfer(addr, coin, amount, delay)` on the fields of a flow. -/
def Transfer.ofFlow (f : Flow) : Transfer := Transfer.make f.addr f.coin f.amount f.delay

namespace Transfer

section
variable {f : Flow}

theorem ofFlow_canonical (f : Flow) : (ofFlow f).canonical = f.addr.canonical ++
    (leBytes 8 f.coin ++ leBytes 8 (toUint64 f.amount) ++ leBytes 8 f.delay) :=
  make_canonical f.addr f.coin f.amount f.delay

theorem onAccount_ofFlow (h : f.Typed) : (ofFlow f).OnAccount := by
  have hlen : (ofFlow f).canonical.length = f.addr.canonical.length + kTransferNonaddrDataSize := by
    simp only [ofFlow_canonical, List.length_append, length_leBytes]
    rfl
  rw [OnAccount, hlen, ofFlow_canonical, List.head?_append]
  exact h.address.imp (fun hw => ⟨by rw [hw.1], by rw [hw.2]; rfl⟩)
    (fun hn => ⟨by rw [hn.1], by rw [hn.2]; rfl⟩)

theorem addrBufSize_ofFlow (h : f.Typed) (err : String) :
    (ofFlow f).addrBufSize err = .ok f.addr.canonical.length :=
  addrBufSize_append h.address (ofFlow_canonical f) err

theorem getAddress_ofFlow (h : f.Typed) : (ofFlow f).getAddress = .ok f.addr :=
  getAddress_append h.address (ofFlow_canonical f)

theorem getCoin_ofFlow (h : f.Typed) : (ofFlow f).getCoin = .ok f.coin := by
  have hw := binToUint64_append f.addr.canonical (leBytes 8 (toUint64 f.amount) ++ leBytes 8 f.delay)
    f.coin h.coin
  rw [List.append_assoc, ← List.append_assoc (leBytes 8 f.coin), ← ofFlow_canonical] at hw
  rw [getCoin, addrBufSize_ofFlow h, Result.bind_ok, hw]

theorem getAmount_ofFlow (h : f.Typed) (hx : i64 f.amount = f.amount) :
    (ofFlow f).getAmount = .ok f.amount := by
  have hw := binToInt64_append (f.addr.canonical ++ leBytes 8 f.coin) (leBytes 8 f.delay) f.amount
  rw [List.length_append, length_leBytes, List.append_assoc, List.append_assoc,
    ← List.append_assoc (leBytes 8 f.coin), ← ofFlow_canonical, hx] at hw
  rw [getAmount, addrBufSize_ofFlow h, Result.bind_ok]
  exact hw

theorem getDelay_ofFlow (h : f.Typed) : (ofFlow f).getDelay = .ok f.delay := by
  have hw := binToUint64_append
    (f.addr.canonical ++ (leBytes 8 f.coin ++ leBytes 8 (toUint64 f.amount))) [] f.delay h.delay
  rw [List.append_nil, List.append_assoc, ← ofFlow_canonical, List.length_append, List.length_append,
    length_leBytes, length_leBytes] at hw
  rw [getDelay, addrBufSize_ofFlow h, Result.bind_ok]
  exact hw

theorem flow_ofFlow (h : f.Typed) (hx : i64 f.amount = f.amount) : (ofFlow f).flow = .ok f := by
  rw [flow_ok_iff, amountCoinAddr, getAmount_ofFlow h hx, getCoin_ofFlow h, getAddress_ofFlow h,
    getDelay_ofFlow h]
  exact ⟨rfl, rfl⟩

end

theorem mapM_flow_ofFlow {l : List Flow}
    (h : ∀ f ∈ l, f.Typed ∧ i64 f.amount = f.amount) :
    (l.map Transfer.ofFlow).mapM Transfer.flow = .ok l := by
  have hone : ∀ f ∈ l, (Transfer.flow ∘ Transfer.ofFlow) f = .ok (id f) :=
    fun f hf => flow_ofFlow (h f hf).1 (h f hf).2
  rw [List.mapM_map, Result.mapM_ok hone, List.map_id]

end Transfer

namespace Summary

theorem itemsFit_empty : ItemsFit (OrdMap.empty, OrdMap.empty) :=
  ⟨fun _ h => (List.not_mem_nil h).elim, fun _ h => (List.not_mem_nil h).elim⟩

theorem ItemsFit.addToDelayedMap {p : SummaryPair} (h : ItemsFit p) {coin delay : Nat}
    (hc : coin < 2 ^ 64) (hpos : 0 < delay) (hd : delay < 2 ^ 64) (amount : Int) :
    ItemsFit (Devcash.addToDelayedMap coin (DelayedItem.make delay amount) p.1, p.2) := by
  refine ⟨fun d hd' => ?_, h.coins⟩
  have hfind := OrdMap.find?_eq_some.mpr (show (d.1, d.2) ∈ _ from hd')
  rw [find?_addToDelayedMap] at hfind
  split_ifs at hfind with hcoin
  · have hitem := (Option.some.inj hfind).symm
    cases hold : p.1.find? d.1 with
    | none =>
      rw [hold] at hitem
      rw [hitem, hcoin]
      exact ⟨hc, hpos, hd, toUint64_lt amount⟩
    | some item =>
      have hbound : 0 < item.delay ∧ item.delay < 2 ^ 64 :=
        have hfit := h.delayed _ (OrdMap.find?_eq_some.mp hold)
        ⟨hfit.2.1, hfit.2.2.1⟩
      rw [hold] at hitem
      rw [hitem, hcoin]
      exact ⟨hc, by simp only [mergeDelayed]; omega, by simp only [mergeDelayed]; omega,
        u64_lt _⟩
  · exact h.delayed d (OrdMap.find?_eq_some.mp hfind)

theorem ItemsFit.addToCoinMap {p : SummaryPair} (h : ItemsFit p) {coin : Nat}
    (hc : coin < 2 ^ 64) (item : DelayedItem) :
    ItemsFit (p.1, Devcash.addToCoinMap coin item p.2) := by
  refine ⟨h.delayed, fun c hc' => ?_⟩
  have hfind := OrdMap.find?_eq_some.mpr (show (c.1, c.2) ∈ _ from hc')
  rw [find?_addToCoinMap] at hfind
  split_ifs at hfind with hcoin
  · rw [← Option.some.inj hfind, i64_i64, hcoin]
    exact ⟨hc, rfl⟩
  · exact h.coins c (OrdMap.find?_eq_some.mp hfind)

theorem byItems_empty : ByItems empty := fun _ h => (List.not_mem_nil h).elim

theorem ByItems.addFlow {s : Summary} (h : s.ByItems) {f : Flow} (hf : f.Typed) :
    (s.addFlow f).ByItems := by
  intro e he
  have hfind := OrdMap.find?_eq_some.mpr (show (e.1, e.2) ∈ _ from he)
  have hold : ItemsFit ((s.summary.find? e.1).getD (OrdMap.empty, OrdMap.empty)) := by
    cases hp : s.summary.find? e.1 with
    | none => exact itemsFit_empty
    | some p => exact (h _ (OrdMap.find?_eq_some.mp hp)).2
  rw [find?_addFlow] at hfind
  split_ifs at hfind with ha hd
  · rw [← Option.some.inj hfind]
    exact ⟨ha ▸ hf.address, hold.addToDelayedMap hf.coin hd hf.delay f.amount⟩
  · rw [← Option.some.inj hfind]
    exact ⟨ha ▸ hf.address, hold.addToCoinMap hf.coin _⟩
  · exact h e (OrdMap.find?_eq_some.mp hfind)

theorem ByItems.addFlows {s : Summary} (h : s.ByItems) {l : List Flow} (hl : ∀ f ∈ l, f.Typed) :
    (s.addFlows l).ByItems := by
  induction l generalizing s with
  | nil => exact h
  | cons f l ih =>
    exact ih (h.addFlow (hl f List.mem_cons_self)) (fun g hg => hl g (List.mem_cons_of_mem f hg))

end Summary
end Devcash
