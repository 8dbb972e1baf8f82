import Devcash.Repeater

/-! The search of the repeater for an address: every transfer on it counts. -/
namespace Devcash
open Reader InputBuffer

namespace Repeater

/-- The bytes of a transaction with these transfers. -/
def Encodes (c : Bytes) (xfers : List Transfer) : Prop :=
  ∃ (oper : Byte) (nonce : Bytes) (sig : Signature), oper.toNat < OpType.numOperations ∧
    kMinNonceSize ≤ nonce.length ∧ (sig.IsWallet ∨ sig.IsNode) ∧ (∀ t ∈ xfers, t.OnAccount) ∧
      c = Tier2Transaction.layout oper xfers nonce ++ sig.canonical

/-- A transfer is on the address. -/
def isOn (addr : Address) (t : Transfer) : Bool := t.getAddress.toOption = some addr

theorem isOn_iff {addr : Address} {t : Transfer} : isOn addr t ↔ t.getAddress = .ok addr := by
  rw [isOn, decide_eq_true_eq]
  cases t.getAddress with
  | error e => simp [Except.toOption]
  | ok a => simp [Except.toOption]

/-- The transaction has a transfer on the address. -/
def Touches (addr : Address) (c : Bytes) : Prop :=
  ∃ xfers, Encodes c xfers ∧ ∃ t ∈ xfers, t.getAddress = .ok addr

open Classical in
/-- The transactions of the blocks that have a transfer on the address. -/
noncomputable def onAddress (addr : Address) (blocks : List FinalBlock) : List Bytes :=
  blocks.flatMap (fun f => f.rawTransactions.filter (Touches addr))

theorem mapM_getAddress {xfers : List Transfer} (h : ∀ t ∈ xfers, t.OnAccount) (addr : Address) :
    ∃ addrs, xfers.mapM Transfer.getAddress = .ok addrs ∧
      (addrs.filter (· = addr)).length = xfers.countP (isOn addr) := by
  induction xfers with
  | nil => exact ⟨[], rfl, rfl⟩
  | cons t xfers ih =>
    obtain ⟨ht, hxfers⟩ := List.forall_mem_cons.mp h
    obtain ⟨a, rest, ha, -, hcan⟩ := ht.split
    have hget := Transfer.getAddress_append ha hcan
    obtain ⟨addrs, haddrs, hcount⟩ := ih hxfers
    refine ⟨a :: addrs, ?_, ?_⟩
    · rw [List.mapM_cons, hget, Result.bind_ok, haddrs]
      rfl
    · have hon : isOn addr t = decide (a = addr) := by
        rw [isOn, hget]
        simp [Except.toOption]
      rw [List.countP_cons, ← hcount, hon, List.filter_cons]
      by_cases heq : a = addr <;> simp [heq]

/-- `QuickCreate` loses a byte of the signature and keeps the transfers. -/
theorem Encodes.getTransfers {c : Bytes} {xfers : List Transfer} (h : Encodes c xfers)
    (hlen : c.length < 2 ^ 64) : ∃ tx b, Tier2Transaction.quickCreate (ofBytes c) = .ok (tx, b) ∧
      tx.getTransfers = .ok xfers := by
  obtain ⟨oper, nonce, sig, ho, hn, hsig, haccount, hc⟩ := h
  have hfill := Tier2Transaction.quickFill_layout ho hn hsig hc [] hlen
  rw [List.append_nil] at hfill
  refine ⟨_, _, hfill, ?_⟩
  have hlayout : (Tier2Transaction.layout oper xfers nonce).length < 2 ^ 64 := by
    rw [hc, List.length_append] at hlen
    omega
  have hframes := Tier2Transaction.frames_unsigned hlayout
  have hne : sig.canonical ≠ [] := by
    obtain ⟨t, raw, hs, -, -⟩ := Tier2Transaction.typeByte_of_signature hsig
    rw [hs]
    exact List.cons_ne_nil _ _
  have hcut : Tier2Transaction.Frames
      ⟨c.dropLast, false, (xfers.flatMap Transfer.getCanonical).length, nonce.length⟩ oper
      (xfers.flatMap Transfer.getCanonical) nonce sig.canonical.dropLast := by
    refine ⟨?_, rfl, rfl, hframes.fits⟩
    have hbytes : Tier2Transaction.layout oper xfers nonce =
        Tier2Transaction.head oper (xfers.flatMap Transfer.getCanonical) nonce ++ [] := hframes.bytes
    rw [hc, hbytes, List.append_nil, List.dropLast_append_of_ne_nil hne]
  exact hcut.getTransfers haccount

theorem Encodes.unique {c : Bytes} {xfers xfers' : List Transfer} (h : Encodes c xfers)
    (h' : Encodes c xfers') (hlen : c.length < 2 ^ 64) : xfers = xfers' := by
  obtain ⟨tx, b, hcreate, hget⟩ := h.getTransfers hlen
  obtain ⟨tx', b', hcreate', hget'⟩ := h'.getTransfers hlen
  rw [hcreate] at hcreate'
  cases hcreate'
  rw [hget] at hget'
  exact Except.ok.inj hget'

theorem Encodes.matchTransfers {c : Bytes} {xfers : List Transfer} (h : Encodes c xfers)
    (hlen : c.length < 2 ^ 64) (addr : Address) :
    matchTransfers addr c = .ok (List.replicate (xfers.countP (isOn addr)) c) := by
  obtain ⟨tx, b, hcreate, hget⟩ := h.getTransfers hlen
  obtain ⟨-, -, -, -, -, -, haccount, -⟩ := h
  obtain ⟨addrs, haddrs, hcount⟩ := mapM_getAddress haccount addr
  rw [Repeater.matchTransfers, hcreate, Result.bind_ok, hget, Result.bind_ok, haddrs,
    Result.bind_ok, List.map_const', hcount]

theorem Encodes.touches_iff {c : Bytes} {xfers : List Transfer} (h : Encodes c xfers)
    (hlen : c.length < 2 ^ 64) (addr : Address) :
    Touches addr c ↔ 0 < xfers.countP (isOn addr) := by
  simp only [List.countP_pos_iff, isOn_iff]
  constructor
  · rintro ⟨xfers', h', ht⟩
    rwa [h.unique h' hlen]
  · exact fun ht => ⟨xfers, h, ht⟩

section
variable {α : Type} {n : α → Nat} {p : α → Prop} [DecidablePred p] {l : List α}

theorem length_filter_le_sum (hp : ∀ c ∈ l, p c ↔ 0 < n c) :
    (l.filter p).length ≤ (l.map n).sum := by
  induction l with
  | nil => exact Nat.le_refl 0
  | cons c l ih =>
    obtain ⟨hc, hrest⟩ := List.forall_mem_cons.mp hp
    have hle := ih hrest
    rw [List.filter_cons, List.map_cons, List.sum_cons]
    split_ifs with hpc
    · have hpos := hc.mp (of_decide_eq_true hpc)
      rw [List.length_cons]
      omega
    · omega

/-- Entries written `n` times each, once for each of their hits, are listed once each only if
no entry is hit twice. -/
theorem flatMap_replicate_eq_filter_iff (hp : ∀ c ∈ l, p c ↔ 0 < n c) :
    l.flatMap (fun c => List.replicate (n c) c) = l.filter p ↔ ∀ c ∈ l, n c ≤ 1 := by
  induction l with
  | nil => simp
  | cons c l ih =>
    obtain ⟨hc, hrest⟩ := List.forall_mem_cons.mp hp
    have hle := length_filter_le_sum hrest
    rw [List.flatMap_cons, List.filter_cons, List.forall_mem_cons, ← ih hrest]
    by_cases hzero : n c = 0
    · have hnot : ¬ p c := by
        rw [hc]
        omega
      simp [hzero, hnot]
    · have hpc : p c := hc.mpr (by omega)
      rw [if_pos (decide_eq_true hpc)]
      constructor
      · intro h
        have hlen := congrArg List.length h
        rw [List.length_append, List.length_replicate, List.length_flatMap] at hlen
        simp only [List.length_replicate, List.length_cons] at hlen
        change n c + (l.map n).sum = _ at hlen
        have hone : n c = 1 := by omega
        rw [hone] at h
        exact ⟨by omega, List.cons_injective h⟩
      · rintro ⟨hmost, h⟩
        have hone : n c = 1 := by omega
        rw [h, hone]
        rfl

end

/-- The copies of a transaction in the result. -/
def copies (addr : Address) (c : Bytes) : List Bytes := (matchTransfers addr c).toOption.getD []

theorem Encodes.copies {c : Bytes} {xfers : List Transfer} (h : Encodes c xfers)
    (hlen : c.length < 2 ^ 64) (addr : Address) :
    copies addr c = List.replicate (xfers.countP (isOn addr)) c := by
  rw [Repeater.copies, h.matchTransfers hlen]
  rfl

/-- Every transaction of the block is the bytes of some transfers on accounts. -/
def Typed (f : FinalBlock) : Prop := ∀ c ∈ f.rawTransactions, ∃ xfers, Encodes c xfers

theorem Stored.length_lt {f : FinalBlock} (h : Stored f) {c : Bytes} (hc : c ∈ f.rawTransactions) :
    c.length < 2 ^ 64 := by
  have hsub := List.Sublist.length_le (List.sublist_flatten_of_mem hc)
  have htx := h.tier2.txSize
  have heq := h.tier2.txSize_eq
  omega

theorem visitAddress_copies {f g : FinalBlock} (hstored : Stored f) (htyped : Typed f)
    (hraw : g.rawTransactions = f.rawTransactions) (addr : Address) (i : Nat) (txs : List Bytes) :
    visitAddress addr i g txs = .ok (.inr (txs ++ f.rawTransactions.flatMap (copies addr))) := by
  have hall : ∀ c ∈ f.rawTransactions, matchTransfers addr c = .ok (copies addr c) := by
    intro c hc
    obtain ⟨xfers, hxfers⟩ := htyped c hc
    have hlen := hstored.length_lt hc
    rw [hxfers.matchTransfers hlen, hxfers.copies hlen]
  rw [visitAddress, hraw, Result.mapM_ok hall]
  rfl

theorem foldl_append_flatMap {α β : Type} (F : α → List β) (l : List α) (init : List β) :
    l.foldl (fun acc a => acc ++ F a) init = init ++ l.flatMap F := by
  induction l generalizing init with
  | nil => simp
  | cons a l ih => rw [List.foldl_cons, ih, List.flatMap_cons, List.append_assoc]

section
variable {dir : ShardDir} {blocks : List FinalBlock} (h : Holds dir blocks)
  (hstored : ∀ f ∈ blocks, Stored f) (htyped : ∀ f ∈ blocks, Typed f) {startBlock : Nat}
  (hstart : startBlock < blocks.length) {addr : Address} (hkind : addr.IsWallet ∨ addr.IsNode)
include hstored htyped

omit hstored htyped in
include hkind in
theorem getAddressRaw_ok : addr.getAddressRaw = .ok addr.canonical.tail := by
  rw [Address.getAddressRaw, Address.isNull_of_kind hkind, if_neg Bool.false_ne_true]

include h hstart hkind in
/-- The result of a search that does not wrap. -/
theorem searchForAddress_copies (hlt : blocks.length < 2 ^ 32) {fuel : Nat}
    (hfuel : blocks.length ≤ fuel) : searchForAddress fuel dir startBlock addr =
      .ok (((blocks.drop startBlock).flatMap (·.rawTransactions)).flatMap (copies addr)) := by
  have hne : blocks ≠ [] := List.ne_nil_of_length_pos (by omega)
  have hloop : forBlocks (visitAddress addr) dir (blocks.length - 1) fuel startBlock [] =
      .ok (.inr ((blocks.drop startBlock).foldl
        (fun txs f => txs ++ f.rawTransactions.flatMap (copies addr)) [])) :=
    forBlocks_visits h hstored hlt
      (fun i g txs f hf _ hraw => visitAddress_copies (hstored f hf) (htyped f hf) hraw addr i txs)
      fuel (Nat.le_of_lt hstart) (by omega) (by omega) []
  rw [searchForAddress, h.getHighestBlock hne (by omega), Result.bind_ok, if_neg (by omega),
    getAddressRaw_ok hkind, Result.bind_ok, hloop, foldl_append_flatMap, List.nil_append,
    List.flatMap_assoc]
  rfl

theorem flatMap_copies_eq_iff : (blocks.flatMap (·.rawTransactions)).flatMap (copies addr) =
      onAddress addr blocks ↔
    ∀ f ∈ blocks, ∀ c ∈ f.rawTransactions, ∀ xfers, Encodes c xfers →
      xfers.countP (isOn addr) ≤ 1 := by
  classical
  have hall : ∀ c ∈ blocks.flatMap (·.rawTransactions), c.length < 2 ^ 64 ∧
      ∃ xfers, Encodes c xfers := by
    intro c hc
    obtain ⟨f, hf, hcf⟩ := List.mem_flatMap.mp hc
    exact ⟨(hstored f hf).length_lt hcf, htyped f hf c hcf⟩
  have hcopies : ∀ c ∈ blocks.flatMap (·.rawTransactions),
      copies addr c = List.replicate (copies addr c).length c := by
    intro c hc
    obtain ⟨hlen, xfers, hxfers⟩ := hall c hc
    rw [hxfers.copies hlen, List.length_replicate]
  have htouches : ∀ c ∈ blocks.flatMap (·.rawTransactions),
      Touches addr c ↔ 0 < (copies addr c).length := by
    intro c hc
    obtain ⟨hlen, xfers, hxfers⟩ := hall c hc
    rw [hxfers.touches_iff hlen, hxfers.copies hlen, List.length_replicate]
  have hfilter : onAddress addr blocks =
      (blocks.flatMap (·.rawTransactions)).filter (Touches addr) := by
    rw [onAddress, List.filter_flatMap]
  rw [hfilter, List.flatMap_congr hcopies, flatMap_replicate_eq_filter_iff htouches]
  constructor
  · intro hone f hf c hc xfers hxfers
    have hle := hone c (List.mem_flatMap.mpr ⟨f, hf, hc⟩)
    rwa [hxfers.copies ((hstored f hf).length_lt hc), List.length_replicate] at hle
  · intro hone c hc
    obtain ⟨hlen, xfers, hxfers⟩ := hall c hc
    obtain ⟨f, hf, hcf⟩ := List.mem_flatMap.mp hc
    rw [hxfers.copies hlen, List.length_replicate]
    exact hone f hf c hcf xfers hxfers

include h hstart hkind in
/-- The search for an address is right exactly if no transaction has two transfers on it, for
fewer blocks than the index can count. -/
theorem searchForAddress_iff (hrange : startBlock ≤ kUint32Max) :
    (∃ fuel, searchForAddress fuel dir startBlock addr =
      .ok (onAddress addr (blocks.drop startBlock))) ↔
    blocks.length < 2 ^ 32 ∧ ∀ f ∈ blocks.drop startBlock, ∀ c ∈ f.rawTransactions,
      ∀ xfers, Encodes c xfers → xfers.countP (isOn addr) ≤ 1 := by
  have hcopies := @flatMap_copies_eq_iff (blocks.drop startBlock)
    (fun f hf => hstored f (List.mem_of_mem_drop hf))
    (fun f hf => htyped f (List.mem_of_mem_drop hf)) addr
  constructor
  · rintro ⟨fuel, hsearch⟩
    obtain ⟨highest, hget, hloop⟩ := Result.bind_eq_ok hsearch
    rw [if_neg (not_highest_lt h hstart hrange hget)] at hloop
    obtain ⟨target, htarget, hloop⟩ := Result.bind_eq_ok hloop
    obtain ⟨x, hloop, hx⟩ := Result.bind_eq_ok hloop
    have hvisit : ∀ i g s r, readFinalBlock dir i = .ok g →
        visitAddress addr i g s ≠ .ok (.inl r) := by
      intro i g s r
      exact r.elim
    have hlt := length_lt_of_search h hrange hvisit hget hloop
    refine ⟨hlt, hcopies.mp ?_⟩
    have hmore : searchForAddress (fuel + blocks.length) dir startBlock addr =
        .ok (onAddress addr (blocks.drop startBlock)) := by
      rw [searchForAddress, hget, Result.bind_ok, if_neg (not_highest_lt h hstart hrange hget),
        htarget, Result.bind_ok, forBlocks_mono blocks.length hloop]
      exact hx
    rw [searchForAddress_copies h hstored htyped hstart hkind hlt (Nat.le_add_left _ _)] at hmore
    exact Except.ok.inj hmore
  · rintro ⟨hlt, hone⟩
    refine ⟨blocks.length, ?_⟩
    rw [searchForAddress_copies h hstored htyped hstart hkind hlt (Nat.le_refl _),
      hcopies.mpr hone]

end

theorem encodes_samplePayment : Encodes Tier2Transaction.samplePayment.canonical
    [Transfer.make (Address.sample 1) 1 (-5) 0, Transfer.make (Address.sample 2) 1 5 0] :=
  ⟨_, _, _, by decide, by decide, .inl (Ossl.isWallet_toySignature rfl _), by decide, rfl⟩

theorem searchForAddress_iff_sampleDir : ∃ fuel, searchForAddress fuel sampleDir 0
    (Address.sample 2) = .ok (onAddress (Address.sample 2) [FinalBlock.sampleTier2]) := by
  have htyped : ∀ f ∈ [FinalBlock.sampleTier2], Typed f := by
    rw [List.forall_mem_singleton]
    intro c hc
    rw [List.mem_singleton.mp hc]
    exact ⟨_, encodes_samplePayment⟩
  have hlen : Tier2Transaction.samplePayment.canonical.length < 2 ^ 64 :=
    (stored_sampleTier2 _ (List.mem_singleton_self _)).length_lt (List.mem_singleton_self _)
  refine (searchForAddress_iff (holds_single _) stored_sampleTier2 htyped Nat.one_pos
    (.inl (by decide)) (Nat.zero_le _)).mpr ⟨by decide, ?_⟩
  intro f hf c hc xfers hxfers
  rw [List.mem_singleton.mp hf] at hc
  rw [List.mem_singleton.mp hc] at hxfers
  rw [hxfers.unique encodes_samplePayment hlen]
  decide

/-- A payment of 5 with 5 of change to the sender. -/
def sampleChange : Tier2Transaction :=
  let xfers := [Transfer.make (Address.sample 1) 1 (-10) 0, Transfer.make (Address.sample 2) 1 5 0,
    Transfer.make (Address.sample 1) 1 5 0]
  let nonce : Bytes := [0, 1, 2, 3, 4, 5, 6, 7]
  .ofSignature OpType.exchange.toByte xfers nonce (Ossl.toySignature (Address.sample 1)
    (Ossl.toyHash (Tier2Transaction.layout OpType.exchange.toByte xfers nonce)))

/-- The block of that payment: the summary is the one of the sample payment. -/
def sampleChangeBlock : FinalBlock :=
  { FinalBlock.sampleTier2 with
    numBytes := FinalBlock.sampleTier2.numBytes + 58
    txSize := sampleChange.canonical.length
    rawTransactions := [sampleChange.canonical] }

theorem encodes_sampleChange : Encodes sampleChange.canonical
    [Transfer.make (Address.sample 1) 1 (-10) 0, Transfer.make (Address.sample 2) 1 5 0,
      Transfer.make (Address.sample 1) 1 5 0] :=
  ⟨_, _, _, by decide, by decide, .inl (Ossl.isWallet_toySignature rfl _), by decide, rfl⟩

theorem stored_sampleChangeBlock : ∀ f ∈ [sampleChangeBlock], Stored f := by
  have hfields : sampleChangeBlock.numBytes < 2 ^ 64 ∧ sampleChangeBlock.txSize < 2 ^ 64 ∧
      sampleChangeBlock.numBytes = sampleChangeBlock.getCanonical.length ∧
      sampleChangeBlock.summary.summary.size < 2 ^ 32 := by
    decide +kernel
  have hpaid := FinalBlock.isTier2_sampleTier2
  rw [List.forall_mem_singleton]
  refine ⟨⟨⟨⟨rfl, hfields.1, Nat.two_pow_pos 64, hfields.2.1, hpaid.sumSize, hpaid.valCount⟩,
    hfields.2.2.1, ?_, rfl, rfl⟩, ?_, hpaid.summary, hpaid.vals⟩, hfields.2.2.2⟩
  · exact congrArg List.length (List.append_nil _).symm
  · intro c hc
    rw [List.mem_singleton.mp hc]
    obtain ⟨oper, nonce, sig, ho, hn, hsig, -, hbytes⟩ := encodes_sampleChange
    exact ⟨oper, _, nonce, sig, ho, hn, hsig, hbytes⟩

/-- The payment with change is one transaction on the sender and is listed twice. -/
theorem searchForAddress_twice :
    Holds [⟨toText 0, kBlockExtension, sampleChangeBlock.getCanonical⟩] [sampleChangeBlock] ∧
    (∀ f ∈ [sampleChangeBlock], Stored f) ∧
    onAddress (Address.sample 1) [sampleChangeBlock] = [sampleChange.canonical] ∧
    searchForAddress 1 [⟨toText 0, kBlockExtension, sampleChangeBlock.getCanonical⟩] 0
      (Address.sample 1) = .ok [sampleChange.canonical, sampleChange.canonical] := by
  have hlen : sampleChange.canonical.length < 2 ^ 64 :=
    (stored_sampleChangeBlock _ (List.mem_singleton_self _)).length_lt (List.mem_singleton_self _)
  have htyped : ∀ f ∈ [sampleChangeBlock], Typed f := by
    rw [List.forall_mem_singleton]
    intro c hc
    rw [List.mem_singleton.mp hc]
    exact ⟨_, encodes_sampleChange⟩
  refine ⟨holds_single _, stored_sampleChangeBlock, ?_, ?_⟩
  · have htouches : Touches (Address.sample 1) sampleChange.canonical :=
      (encodes_sampleChange.touches_iff hlen _).mpr (by decide)
    simp [onAddress, sampleChangeBlock, htouches]
  · rw [searchForAddress_copies (holds_single _) stored_sampleChangeBlock htyped Nat.one_pos
      (.inl (by decide)) (by decide) (Nat.le_refl 1)]
    have hcopies : copies (Address.sample 1) sampleChange.canonical =
        List.replicate 2 sampleChange.canonical := encodes_sampleChange.copies hlen _
    simp [sampleChangeBlock, hcopies]

end Repeater
end Devcash
