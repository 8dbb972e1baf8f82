import Devcash.Conservation
import Devcash.Endorsement
import Devcash.Summarisation

/-! What the soundness of a decoded Tier-1 transaction says about the summary inside it.
Only the signature is checked, so the summary is sane if the nodes sign only sane ones. -/
namespace Devcash
open Endian Reader InputBuffer

theorem sum_map_modEq {α : Type} {f g : α → Int} (h : ∀ a, f a ≡ g a [ZMOD 2 ^ 64]) (l : List α) :
    (l.map f).sum ≡ (l.map g).sum [ZMOD 2 ^ 64] := by
  induction l with
  | nil => exact Int.ModEq.refl _
  | cons a l ih => exact (h a).add ih

theorem Summary.sum_flows (s : Summary) :
    (s.flows.map Flow.amount).sum ≡ s.deltaSum [ZMOD 2 ^ 64] := by
  rw [flows, deltaSum, OrdMap.total]
  induction s.summary.entries with
  | nil => exact Int.ModEq.refl _
  | cons e l ih =>
    have hdelayed : ((e.2.1.entries.map (delayedFlow e.1)).map Flow.amount).sum ≡
        e.2.1.total (fun d => (d.delta : Int)) [ZMOD 2 ^ 64] := by
      rw [List.map_map, OrdMap.total]
      refine sum_map_modEq (fun d => ?_) _
      rw [Function.comp, delayedFlow_amount, DelayedItem.amount]
      exact i64_modEq _
    have hcoins : ((e.2.2.entries.map (coinFlow e.1)).map Flow.amount).sum = e.2.2.total id := by
      rw [List.map_map]
      rfl
    rw [List.flatMap_cons, List.map_append, List.sum_append, List.map_cons, List.sum_cons,
      List.map_append, List.sum_append, hcoins, pairTotal]
    exact (hdelayed.add_right _).add ih

namespace Tier1Transaction
variable {o : Ossl} {keys : KeyRing o}

/-- The summary that the transfers are read from. -/
def embeddedSummary (tx : Tier1Transaction) : Result Summary := do
  let s ← Summary.create ⟨tx.canonical, kUint64Size⟩
  .ok s.1

/-- What the constructor from a summary demands. -/
def HasSaneSummary (tx : Tier1Transaction) : Prop :=
  ∃ s, tx.embeddedSummary = .ok s ∧ s.isSane = true

/-- Accepted, the transaction leaves the sum of all balances as it was. -/
def KeepsSupply (keys : KeyRing o) (tx : Tier1Transaction) : Prop :=
  ∀ b : Books, (tx.isValid keys b).1 = .ok true →
    (tx.isValid keys b).2.state.supply ≡ b.state.supply [ZMOD 2 ^ 64]

/-- The amounts that are read back from the transaction add up to 0. -/
def Balanced (tx : Tier1Transaction) : Prop :=
  ((Transaction.tier1 tx).flows.map Flow.amount).sum ≡ 0 [ZMOD 2 ^ 64]

theorem isValid_supply {tx : Tier1Transaction} {b : Books} (h : (tx.isValid keys b).1 = .ok true) :
    (tx.isValid keys b).2.state.supply ≡
      b.state.supply + ((Transaction.tier1 tx).flows.map Flow.amount).sum [ZMOD 2 ^ 64] := by
  have hafter := @Transaction.validate_after _ keys (.tier1 tx) b h
  have hstate : (tx.isValid keys b).2.state =
      b.state.addCoins ((Transaction.tier1 tx).flows.map Flow.smartCoin) := hafter.1
  rw [hstate]
  exact b.state.supply_addFlows _

theorem keepsSupply_iff {tx : Tier1Transaction} (h : tx.isSound keys = .ok true) :
    tx.KeepsSupply keys ↔ tx.Balanced := by
  constructor
  · intro hkeep
    cases hread : (Transaction.tier1 tx).readFlows with
    | error e =>
      have hnone : (Transaction.tier1 tx).flows = [] := by
        rw [Transaction.readFlows] at hread
        rw [Transaction.flows, flowsOf, hread]
      rw [Balanced, hnone]
      rfl
    | ok fs =>
      have hreadable : (Transaction.tier1 tx).Readable := by
        rw [Transaction.Readable, Transaction.flows_of_readFlows hread]
        exact ⟨⟨none, rfl⟩, hread⟩
      have hvalid : (tx.isValid keys Books.empty).1 = .ok true := by
        refine (@Transaction.isValid_true_iff _ keys (.tier1 tx) Books.empty).mpr ⟨h, hreadable, ?_⟩
        intro hnone
        cases hnone
      have hsum := (isValid_supply hvalid).symm.trans (hkeep _ hvalid)
      have hzero : Books.empty.state.supply = 0 := rfl
      rwa [hzero, Int.zero_add] at hsum
  · intro hbalanced b hvalid
    have hsum := (isValid_supply hvalid).trans (hbalanced.add_left _)
    rwa [Int.add_zero] at hsum

/-- A message with the address and the signature of a node behind it. -/
def ofSigned (msg addr sig : Bytes) : Tier1Transaction :=
  ⟨leBytes 8 msg.length ++ (msg ++ (addr ++ sig)), false, msg.length⟩

/-- The key of the address verifies the signature of the message. -/
structure Signed (keys : KeyRing o) (msg addr sig : Bytes) : Prop where
  size : msg.length + kNodeSigBufSize + kUint64Size + kNodeAddrBufSize < 2 ^ 64
  addrSize : addr.length = kNodeAddrBufSize
  sigSize : sig.length = kNodeSigBufSize
  verifies : ∃ eckey s, keys.getKey (Address.ofBytes addr) = .ok eckey ∧
    Signature.ofBytes sig = .ok s ∧ o.verifyByteSig eckey (o.devcashHash msg) s = true

/-- The nodes of the directory have signed nothing but sane and balanced summaries. -/
def SignsOnlySane (keys : KeyRing o) : Prop :=
  ∀ msg addr sig, Signed keys msg addr sig →
    (ofSigned msg addr sig).HasSaneSummary ∧ (ofSigned msg addr sig).Balanced

theorem frames_ofSigned (msg addr sig : Bytes) : (ofSigned msg addr sig).Frames msg addr sig :=
  ⟨rfl, rfl⟩

theorem Signed.isSound {msg addr sig : Bytes} (h : Signed keys msg addr sig) :
    (ofSigned msg addr sig).isSound keys = .ok true := by
  obtain ⟨eckey, s, hkey, hs, hverify⟩ := h.verifies
  have hsize := h.size
  rw [(frames_ofSigned msg addr sig).isSound (by omega) h.addrSize h.sigSize rfl, hkey, hs]
  exact congrArg Except.ok hverify

theorem signed_of_isSound {c : Bytes} {n : Nat} (hlt : n < 2 ^ 64) (hlen : c.length = wholeSize n)
    (hfirst : kUint64Size ≤ c.length → binToUint64 c 0 = .ok n)
    (h : Tier1Transaction.isSound keys ⟨c, false, n⟩ = .ok true) :
    ∃ msg addr sig, Signed keys msg addr sig ∧ ⟨c, false, n⟩ = ofSigned msg addr sig := by
  have hmsg : kUint64Size + n ≤ c.length := by
    obtain ⟨addr, -, h⟩ := Result.bind_eq_ok h
    obtain ⟨eckey, -, h⟩ := Result.bind_eq_ok h
    obtain ⟨msg, hmsg, -⟩ := Result.bind_eq_ok h
    exact (slice_ok hmsg).1
  -- The message would not fit into a size that wrapped around.
  have hsize : n + kNodeSigBufSize + kUint64Size + kNodeAddrBufSize < 2 ^ 64 := by
    rw [hlen, wholeSize, u64] at hmsg
    simp only [kNodeSigBufSize, kNodeSigSize, kUint64Size, kNodeAddrBufSize, kNodeAddrSize] at hmsg ⊢
    omega
  rw [wholeSize, u64_of_lt hsize] at hlen
  obtain ⟨-, hvalue⟩ := binToUint64_ok (hfirst (by omega))
  have hword : leBytes 8 n = c.take 8 := by
    have henc := leBytes_leValue (c.take 8)
    have h8 : (c.take 8).length = 8 := by
      rw [List.length_take, hlen, kUint64Size]
      omega
    rw [hvalue, List.drop_zero]
    rwa [h8] at henc
  have hcut : c = leBytes 8 n ++ ((c.drop 8).take n ++ (((c.drop 8).drop n).take kNodeAddrBufSize ++
      ((c.drop 8).drop n).drop kNodeAddrBufSize)) := by
    rw [List.take_append_drop, List.take_append_drop, hword, List.take_append_drop]
  have hn : ((c.drop 8).take n).length = n := by
    rw [List.length_take, List.length_drop, hlen, kUint64Size]
    omega
  have ha : (((c.drop 8).drop n).take kNodeAddrBufSize).length = kNodeAddrBufSize := by
    rw [List.length_take, List.length_drop, List.length_drop, hlen, kUint64Size]
    omega
  have hs : (((c.drop 8).drop n).drop kNodeAddrBufSize).length = kNodeSigBufSize := by
    rw [List.length_drop, List.length_drop, List.length_drop, hlen, kUint64Size]
    omega
  generalize (c.drop 8).take n = msg at hcut hn
  generalize ((c.drop 8).drop n).take kNodeAddrBufSize = addr at hcut ha
  generalize ((c.drop 8).drop n).drop kNodeAddrBufSize = sig at hcut hs
  subst hn
  have htx : (⟨c, false, msg.length⟩ : Tier1Transaction) = ofSigned msg addr sig := by
    rw [hcut, ofSigned]
  rw [htx, (frames_ofSigned msg addr sig).isSound (by omega) ha hs rfl] at h
  obtain ⟨eckey, hkey, h⟩ := Result.bind_eq_ok h
  obtain ⟨s, hsig, h⟩ := Result.bind_eq_ok h
  exact ⟨msg, addr, sig, ⟨hsize, ha, hs, eckey, s, hkey, hsig, Except.ok.inj h⟩, htx⟩

theorem Signed.isEncoding {msg addr sig : Bytes} (h : Signed keys msg addr sig) :
    IsEncoding msg.length (ofSigned msg addr sig).canonical := by
  have hsize := h.size
  refine ⟨⟨msg ++ (addr ++ sig), rfl, ?_⟩, ?_⟩
  · rw [List.length_append, List.length_append, h.addrSize, h.sigSize, Nat.add_assoc]
  · rw [ofSigned]
    simp only [List.length_append, length_leBytes, h.addrSize, h.sigSize]
    rw [kUint64Size] at hsize
    omega

theorem Signed.create {msg addr sig : Bytes} (h : Signed keys msg addr sig) :
    ∃ b b', create keys true b =
      .ok (⟨(ofSigned msg addr sig).canonical, true, msg.length⟩, b') := by
  exact ⟨_, _, create_of_encoding h.isEncoding (fun _ => h.isSound) []⟩

theorem signed_of_create {b b' : InputBuffer} {tx : Tier1Transaction}
    (h : Tier1Transaction.create keys true b = .ok (tx, b')) (hs : tx.isSound keys = .ok true) :
    ∃ msg addr sig, Signed keys msg addr sig ∧
      tx.canonical = (ofSigned msg addr sig).canonical := by
  obtain ⟨n, b1, hpeek, hrest⟩ := bind_eq_ok h
  obtain ⟨hb1, hn⟩ := getWord_stay hpeek
  by_cases hsmall : InputBuffer.size b < u64 (b.offset + wholeSize n)
  · -- Without bytes there is no address to read.
    rw [if_pos hsmall] at hrest
    cases pure_eq_ok hrest
    obtain ⟨addr, haddr, -⟩ := Result.bind_eq_ok hs
    obtain ⟨raw, hraw, -⟩ := Result.bind_eq_ok haddr
    exact absurd (slice_ok hraw).1 (by simp [kNodeAddrBufSize])
  · rw [if_neg hsmall] at hrest
    obtain ⟨c, b2, hcopy, hrest⟩ := bind_eq_ok hrest
    rw [if_pos rfl] at hrest
    obtain ⟨sound, b3, hsound, hrest⟩ := bind_eq_ok hrest
    cases pure_eq_ok hrest
    obtain ⟨hsound, -⟩ := lift_eq_ok hsound
    obtain ⟨hc, hlen, -⟩ := copy_ok hcopy
    have hfirst : kUint64Size ≤ c.length → binToUint64 c 0 = .ok n := by
      intro h8
      obtain ⟨-, hvalue⟩ := binToUint64_ok hn
      rw [kUint64Size] at h8
      rw [binToUint64_eq (by omega), List.drop_zero, hvalue, hc, hb1, List.take_take,
        Nat.min_eq_left (by omega)]
      rfl
    have htrue : Tier1Transaction.isSound keys ⟨c, false, n⟩ = .ok true := by
      cases sound with
      | true => exact hsound
      | false => exact hs
    obtain ⟨msg, addr, sig, hsigned, htx⟩ := signed_of_isSound (binToUint64_lt hn) hlen hfirst htrue
    have hcanonical : c = (ofSigned msg addr sig).canonical := congrArg Tier1Transaction.canonical htx
    exact ⟨msg, addr, sig, hsigned, hcanonical⟩

theorem hasSaneSummary_congr {tx tx' : Tier1Transaction} (h : tx.canonical = tx'.canonical) :
    tx.HasSaneSummary ↔ tx'.HasSaneSummary := by
  rw [HasSaneSummary, HasSaneSummary, embeddedSummary, embeddedSummary, h]

theorem balanced_congr {tx tx' : Tier1Transaction} (h : tx.canonical = tx'.canonical) :
    tx.Balanced ↔ tx'.Balanced := by
  have hts : (Transaction.tier1 tx).getTransfers = (Transaction.tier1 tx').getTransfers := by
    change tx.getTransfers = tx'.getTransfers
    rw [getTransfers, getTransfers, h]
  rw [Balanced, Balanced, Transaction.flows, Transaction.flows, hts]

/-- Decoded and sound transactions are sane and keep the supply exactly if the nodes of the
directory sign only such summaries: the decoder does not check. -/
theorem create_sane_iff (keys : KeyRing o) :
    (∀ b tx b', create keys true b = .ok (tx, b') → tx.isSound keys = .ok true →
      tx.HasSaneSummary ∧ tx.KeepsSupply keys) ↔ SignsOnlySane keys := by
  constructor
  · intro hall msg addr sig hsigned
    obtain ⟨b, b', hcreate⟩ := hsigned.create
    have hsound : Tier1Transaction.isSound keys ⟨(ofSigned msg addr sig).canonical, true, msg.length⟩ =
        .ok true := rfl
    obtain ⟨hsane, hsupply⟩ := hall b _ b' hcreate hsound
    exact ⟨(hasSaneSummary_congr rfl).mp hsane,
      (balanced_congr rfl).mp ((keepsSupply_iff hsound).mp hsupply)⟩
  · intro hsigns b tx b' hcreate hsound
    obtain ⟨msg, addr, sig, hsigned, hcanonical⟩ := signed_of_create hcreate hsound
    obtain ⟨hsane, hbalanced⟩ := hsigns msg addr sig hsigned
    exact ⟨(hasSaneSummary_congr hcanonical).mpr hsane,
      (keepsSupply_iff hsound).mpr ((balanced_congr hcanonical).mpr hbalanced)⟩

theorem ofSummary_sane {s : Summary} {sig : Signature} {nodeAddr : Address} {tx : Tier1Transaction}
    (h : ofSummary keys s sig nodeAddr = .ok tx) (hitems : s.ByItems) (hf : s.Fits) :
    tx.HasSaneSummary ∧ tx.Balanced := by
  have htx := (ofSummary_encodes h).1
  have hreads := Summary.reads_create hitems hf (leBytes 8 s.getByteSize)
    (nodeAddr.canonical ++ sig.canonical)
  rw [← encode_eq, ← htx, length_leBytes] at hreads
  have hembedded : tx.embeddedSummary = .ok s := by
    rw [embeddedSummary, kUint64Size, hreads]
    rfl
  have hflows : (Transaction.tier1 tx).flows = s.flows := by
    have hget : (Transaction.tier1 tx).getTransfers = .ok s.getTransfers :=
      getTransfers_of_encode htx hitems hf
    rw [Transaction.flows, flowsOf, hget, Result.bind_ok, Summary.mapM_flow_getTransfers hitems]
  have hsane := (ofSummary_ok h).1
  refine ⟨⟨s, hembedded, hsane⟩, ?_⟩
  rw [Balanced, hflows]
  exact s.sum_flows.trans (s.isSane_iff.mp hsane).2

/-- A node signs 5 coins for a wallet that nobody pays. -/
def sampleMint : Tier1Transaction :=
  let s := Summary.empty.addFlows [⟨Address.sample 1, 1, 5, 0⟩]
  ⟨encode s (Address.sampleNode 1) (sampleSignature s), true, s.getByteSize⟩

/-- They are decoded, sound and accepted, and there are 5 coins more. -/
theorem sampleMint_raisesSupply :
    (create KeyRing.toy true (ofBytes sampleMint.canonical)).map Prod.fst = .ok sampleMint ∧
    sampleMint.isSound KeyRing.toy = .ok true ∧
    sampleMint.embeddedSummary.map Summary.isSane = .ok false ∧
    (sampleMint.isValid KeyRing.toy Books.empty).1 = .ok true ∧
    (sampleMint.isValid KeyRing.toy Books.empty).2.state.supply = 5 := by
  decide +kernel

end Tier1Transaction
end Devcash
