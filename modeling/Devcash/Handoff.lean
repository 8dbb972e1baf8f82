import Devcash.ChainDump
import Mathlib.Data.List.Forall2

/-! The handoff between the tiers: a request for the blocks since a height is answered
with one Tier-1 transaction for each block, which the other tier parses back. -/
namespace Devcash
open Endian Reader InputBuffer

namespace Blockchain

/-- The blocks from a height on, without the top one. -/
def since (chain : Blockchain) (start : Nat) : List FinalBlock := chain.dropLast.drop start

def partialBinaryDump (chain : Blockchain) (start : Nat) : Bytes :=
  (chain.since start).flatMap (fun item => item.getCanonical)

end Blockchain

/-- The types of the two answers. -/
inductive AnswerType where
  | transactionAnnouncement | blocksSince
  deriving DecidableEq, Repr

/-- A message to the node with an index. -/
structure Answer where
  node : Nat
  messageType : AnswerType
  data : Bytes
  deriving DecidableEq, Repr

section
variable {o : Ossl} (keys : KeyRing o)

/-- The Tier-1 transaction of a block: its summary with its first validation. -/
def tier1Canonical (block : FinalBlock) : Result Bytes := do
  let pair ← block.vals.getFirstValidation
  let tx ← Tier1Transaction.ofSummary keys block.summary pair.2 pair.1
  .ok tx.getCanonical

/-- The loop over the blocks of a dump. -/
def tier1Data (raw : Bytes) : Result Bytes := do
  let r ← whileBelow Error.diverges
    (do
      let oneBlock ← FinalBlock.create ChainState.empty
      lift (tier1Canonical keys oneBlock))
    raw.length (raw.length + 1) (ofBytes raw)
  .ok r.1.flatten

/-- `HandleBlocksSinceRequest`: the message it sends, if it sends one. -/
def handleBlocksSinceRequest (context : DevcashContext) (finalChain : Blockchain) (data : Bytes) :
    Result (Option Answer) :=
  if data.length < 16 then .ok none
  else do
    let height ← binToUint32 data 0
    let node ← binToUint32 data 8
    let raw := finalChain.partialBinaryDump height
    match context.appMode with
    | .t2 => do
      let data ← tier1Data keys raw
      .ok (some ⟨node, .transactionAnnouncement, data⟩)
    | .t1 =>
      let coveredHeight := toUint64 ((finalChain.length : Int) - 1)
      .ok (some ⟨node, .blocksSince, uint64ToBin coveredHeight [] ++ raw⟩)
    | .scan => .ok none

end

/-- Signatures that verify with one key directory verify with the other. -/
def KeyRing.VerifiesAs {o : Ossl} (keys' keys : KeyRing o) : Prop :=
  ∀ a eckey, keys.getKey a = .ok eckey →
    ∃ eckey', keys'.getKey a = .ok eckey' ∧
      ∀ h sig, o.verifyByteSig eckey' h sig = o.verifyByteSig eckey h sig

/-- A transaction tells what a block decided and who signed it first. -/
structure Tier1Transaction.Carries (block : FinalBlock) (tx : Tier1Transaction) : Prop where
  digest : tx.getMessageDigest = .ok block.summary.getCanonical
  signer : ∃ pair, block.vals.getFirstValidation = .ok pair ∧
    tx.getNodeAddress = .ok pair.1 ∧ tx.getSignature = .ok pair.2
  transfers : tx.getTransfers = .ok block.summary.getTransfers

namespace FinalBlock

/-- The first validation of a block that has one. -/
def firstPair (f : FinalBlock) : Address × Signature :=
  (f.vals.sigs.entries.head?).getD (Address.null, Signature.null)

/-- The transaction that stands for the block. -/
def handoff (f : FinalBlock) : Tier1Transaction :=
  Tier1Transaction.unchecked f.summary f.firstPair.1 f.firstPair.2

variable {o : Ossl} {keys keys' : KeyRing o} {f : FinalBlock}

theorem tier1Canonical_ok {c : Bytes} (h : tier1Canonical keys f = .ok c) :
    f.vals.getFirstValidation = .ok f.firstPair ∧ f.firstPair ∈ f.vals.sigs.entries ∧
      f.handoff.isSound keys = .ok true ∧ c = f.handoff.canonical := by
  obtain ⟨pair, hpair, h⟩ := Result.bind_eq_ok h
  obtain ⟨tx, htx, h⟩ := Result.bind_eq_ok h
  cases h
  have hfirst : f.firstPair = pair ∧ pair ∈ f.vals.sigs.entries := by
    rw [Validation.getFirstValidation] at hpair
    rw [firstPair]
    split at hpair
    · cases hpair
    · rename_i p l he
      cases hpair
      rw [he]
      exact ⟨rfl, List.mem_cons_self⟩
  obtain ⟨hsound, rfl⟩ := Tier1Transaction.setIsSound_ok (Tier1Transaction.ofSummary_ok htx).2.2
  rw [handoff, hfirst.1]
  exact ⟨hpair, hfirst.2, hsound, rfl⟩

section
variable (h : f.IsTier2) (hmem : f.firstPair ∈ f.vals.sigs.entries)
include h hmem

theorem length_handoff_lt : f.handoff.canonical.length < f.getCanonical.length := by
  have hpair := h.vals f.firstPair hmem
  have hcount : 1 ≤ f.vals.sigs.size := List.length_pos_of_mem hmem
  have hlen := BlockFields.length_getCanonical_eq f.toBlockFields
  have henc : f.handoff.canonical.length = 8 + f.summary.getByteSize + kNodeAddrBufSize +
      kNodeSigBufSize := by
    rw [handoff, Tier1Transaction.unchecked, Tier1Transaction.encode_eq]
    simp only [List.length_append, length_leBytes, hpair.1.1, hpair.2.1, Summary.getByteSize]
    omega
  rw [Validation.length_getCanonical h.vals] at hlen
  simp only [Validation.pairSize, minSize, kNodeAddrBufSize, kNodeAddrSize, kNodeSigBufSize,
    kNodeSigSize] at hlen henc
  omega

theorem isEncoding_handoff :
    Tier1Transaction.IsEncoding f.summary.getByteSize f.handoff.canonical := by
  have hpair := h.vals f.firstPair hmem
  refine Tier1Transaction.isEncoding_encode hpair.1 hpair.2 ?_
  have hlt := length_handoff_lt h hmem
  have hbytes := h.numBytes
  rw [h.numBytes_eq] at hbytes
  exact Nat.lt_trans hlt hbytes

theorem handoff_bytes : f.summary.getByteSize + kUint64Size + kNodeAddrBufSize < 2 ^ 64 := by
  have henc := isEncoding_handoff h hmem
  have hlen := henc.length_eq
  have hbytes := henc.bytes
  omega

theorem setIsSound_handoff (hkeys : keys'.VerifiesAs keys)
    (hsound : f.handoff.isSound keys = .ok true) :
    ∃ tx, f.handoff.setIsSound keys' = .ok tx := by
  have hpair := h.vals f.firstPair hmem
  have hbytes := handoff_bytes h hmem
  rw [handoff, Tier1Transaction.isSound_unchecked hbytes hpair.1 hpair.2] at hsound
  obtain ⟨eckey, hkey, hverify⟩ := Result.bind_eq_ok hsound
  obtain ⟨eckey', hkey', hsame⟩ := hkeys _ _ hkey
  have hsound' : f.handoff.isSound keys' = .ok true := by
    rw [handoff, Tier1Transaction.isSound_unchecked hbytes hpair.1 hpair.2, hkey', Result.bind_ok,
      hsame]
    exact hverify
  rw [Tier1Transaction.setIsSound, hsound', Result.bind_ok, if_pos rfl]
  exact ⟨_, rfl⟩

theorem carries_handoff (haddresses : f.summary.summary.size < 2 ^ 32)
    (hfirst : f.vals.getFirstValidation = .ok f.firstPair) {tx : Tier1Transaction}
    (hcan : tx.canonical = f.handoff.canonical) (hsize : tx.sumSize = f.summary.getByteSize) :
    tx.Carries f := by
  have hpair := h.vals f.firstPair hmem
  have hbytes := handoff_bytes h hmem
  exact ⟨Tier1Transaction.getMessageDigest_of_encode hcan hsize,
    ⟨f.firstPair, hfirst, Tier1Transaction.getNodeAddress_of_encode hcan hsize hbytes hpair.1,
      Tier1Transaction.getSignature_of_encode hcan hsize hbytes hpair.1 hpair.2⟩,
    Tier1Transaction.getTransfers_of_encode hcan h.summary (h.fits haddresses)⟩

end
end FinalBlock

section
variable {o : Ossl} {keys keys' : KeyRing o}

theorem tier1Canonicals_ok {blocks : List FinalBlock} {out : List Bytes}
    (h : List.Forall₂ (fun f c => tier1Canonical keys f = .ok c) blocks out) :
    out = blocks.map (fun f => f.handoff.canonical) ∧
      ∀ f ∈ blocks, f.vals.getFirstValidation = .ok f.firstPair ∧
        f.firstPair ∈ f.vals.sigs.entries ∧ f.handoff.isSound keys = .ok true := by
  induction h with
  | nil => exact ⟨rfl, fun f hf => (List.not_mem_nil hf).elim⟩
  | cons hf _ ih =>
    obtain ⟨hfirst, hmem, hsound, hc⟩ := FinalBlock.tier1Canonical_ok hf
    refine ⟨by rw [hc, ih.1, List.map_cons], fun g hg => ?_⟩
    cases List.mem_cons.mp hg with
    | inl hg => exact hg ▸ ⟨hfirst, hmem, hsound⟩
    | inr hg => exact ih.2 g hg

theorem tier1Data_ok {blocks : List FinalBlock} (h : ∀ f ∈ blocks, f.IsTier2)
    (haddresses : ∀ f ∈ blocks, f.summary.summary.size < 2 ^ 32)
    (hraw : Addressable (blocks.flatMap (fun item => item.getCanonical))) {payload : Bytes}
    (hpay : tier1Data keys (blocks.flatMap (fun item => item.getCanonical)) = .ok payload) :
    payload = blocks.flatMap (fun f => f.handoff.canonical) ∧
      ∀ f ∈ blocks, f.vals.getFirstValidation = .ok f.firstPair ∧
        f.firstPair ∈ f.vals.sigs.entries ∧ f.handoff.isSound keys = .ok true := by
  obtain ⟨r, hr, hpay⟩ := Result.bind_eq_ok hpay
  cases hpay
  have hloop := ReadsIn.whileBelow_lift_whole
    (fun f hf => FinalBlock.readsIn_create (h f hf) (haddresses f hf) ChainState.empty)
    (fun f _ => f.getCanonical_ne_nil) hraw hr
  have hall : List.Forall₂ (fun f c => tier1Canonical keys f = .ok c) blocks r.1 := by
    refine hloop.imp ?_
    rintro f c ⟨g, hsame, hc⟩
    rw [tier1Canonical, hsame.vals, hsame.summary] at hc
    exact hc
  obtain ⟨hout, hblocks⟩ := tier1Canonicals_ok hall
  exact ⟨by rw [hout, List.flatMap_def], hblocks⟩

theorem exists_map_of_forall₂ {α β γ : Type} {R : α → γ → Prop} {g : γ → β} {l : List α} {m : List β}
    (h : List.Forall₂ (fun a b => ∃ c, b = g c ∧ R a c) l m) :
    ∃ n, m = n.map g ∧ List.Forall₂ R l n := by
  induction h with
  | nil => exact ⟨[], rfl, .nil⟩
  | cons hab _ ih =>
    obtain ⟨c, rfl, hc⟩ := hab
    obtain ⟨n, rfl, hn⟩ := ih
    exact ⟨c :: n, rfl, .cons hc hn⟩

theorem decodeAnnouncement_handoff {blocks : List FinalBlock} (h : ∀ f ∈ blocks, f.IsTier2)
    (hmem : ∀ f ∈ blocks, f.firstPair ∈ f.vals.sigs.entries)
    (hsound : ∀ f ∈ blocks, ∃ tx, f.handoff.setIsSound keys' = .ok tx) :
    ∃ txs : List Tier1Transaction,
      UnrecordedTransactionPool.decodeAnnouncement keys' .t1
        (blocks.flatMap (fun f => f.handoff.canonical)) = .ok (txs.map Transaction.tier1) ∧
      List.Forall₂ (fun f tx => tx.canonical = f.handoff.canonical ∧
        tx.sumSize = f.summary.getByteSize) blocks txs := by
  have henc := fun f hf => FinalBlock.isEncoding_handoff (h f hf) (hmem f hf)
  have hreads : ∀ f ∈ blocks, ReadsIn (fun _ => True) (createTransaction keys' .t1 true)
      f.handoff.canonical (fun tx => ∃ tx1, tx = .tier1 tx1 ∧ tx1.canonical = f.handoff.canonical ∧
        tx1.sumSize = f.summary.getByteSize) := by
    intro f hf
    refine (Tier1Transaction.readsIn_ofBuffer (henc f hf) (hsound f hf)).bind_done ?_
    intro tx1 htx1
    exact (Reads.pure _).readsIn ⟨tx1, rfl, htx1⟩
  have hne : ∀ f ∈ blocks, f.handoff.canonical ≠ [] := fun f hf => (henc f hf).ne_nil
  obtain ⟨txs, htxs, hall⟩ := ReadsIn.whileBelow_whole Error.diverges hreads hne trivial
    (Nat.le_succ_of_le (length_le_flatMap hne))
  obtain ⟨txs1, rfl, hall1⟩ := exists_map_of_forall₂ hall
  refine ⟨txs1, ?_, hall1⟩
  rw [UnrecordedTransactionPool.decodeAnnouncement, ofBytes, htxs]
  rfl

/-- An answered request hands one transaction for each block over, in order, which carries
what the block decided. The count of the addresses in front of a summary is a field of the block's
encoding as the others are, so `haddresses` belongs to the fields that match the contents: with
2^32 addresses it says 0. -/
theorem handleBlocksSinceRequest_handsOver {context : DevcashContext} {finalChain : Blockchain}
    {data : Bytes} {height : Nat} {answer : Answer} (hmode : context.appMode = .t2)
    (hheight : binToUint32 data 0 = .ok height) (h : ∀ f ∈ finalChain, f.IsTier2)
    (haddresses : ∀ f ∈ finalChain, f.summary.summary.size < 2 ^ 32)
    (hdump : Addressable (finalChain.partialBinaryDump height)) (hkeys : keys'.VerifiesAs keys)
    (hsent : handleBlocksSinceRequest keys context finalChain data = .ok (some answer)) :
    answer.messageType = .transactionAnnouncement ∧
    ∃ txs : List Tier1Transaction,
      UnrecordedTransactionPool.decodeAnnouncement keys' .t1 answer.data =
        .ok (txs.map Transaction.tier1) ∧
      List.Forall₂ (fun f tx => tx.Carries f) (finalChain.since height) txs := by
  have hsince : ∀ f ∈ finalChain.since height, f ∈ finalChain := fun f hf =>
    (List.dropLast_sublist _).subset (List.mem_of_mem_drop hf)
  rw [handleBlocksSinceRequest] at hsent
  split_ifs at hsent
  · cases hsent
  rw [hheight, Result.bind_ok] at hsent
  obtain ⟨node, -, hsent⟩ := Result.bind_eq_ok hsent
  simp only [hmode] at hsent
  obtain ⟨payload, hpay, hsent⟩ := Result.bind_eq_ok hsent
  cases hsent
  refine ⟨rfl, ?_⟩
  obtain ⟨rfl, hfirst⟩ := tier1Data_ok (fun f hf => h f (hsince f hf))
    (fun f hf => haddresses f (hsince f hf)) hdump hpay
  obtain ⟨txs, htxs, hall⟩ := decodeAnnouncement_handoff (fun f hf => h f (hsince f hf))
    (fun f hf => (hfirst f hf).2.1)
    (fun f hf => FinalBlock.setIsSound_handoff (h f (hsince f hf)) (hfirst f hf).2.1 hkeys
      (hfirst f hf).2.2)
  refine ⟨txs, htxs, ?_⟩
  refine ((List.forall₂_and_left _ _).mpr ⟨fun f hf => hf, hall⟩).imp ?_
  rintro f tx ⟨hf, hcan, hsize⟩
  exact FinalBlock.carries_handoff (h f (hsince f hf)) (hfirst f hf).2.1
    (haddresses f (hsince f hf)) (hfirst f hf).1 hcan hsize

end

theorem KeyRing.verifiesAs_refl {o : Ossl} (keys : KeyRing o) : keys.VerifiesAs keys :=
  fun _ eckey h => ⟨eckey, h, fun _ _ => rfl⟩

/-- A request of node 1 for the blocks from the first one on. -/
def sampleRequest : Bytes := uint64ToBin 1 (uint64ToBin 0 [])

theorem handleBlocksSinceRequest_handsOver_sample :
    handleBlocksSinceRequest KeyRing.toy ⟨0, 0, 3, .t2⟩ [.sampleTier2, .sampleTier2] sampleRequest =
        .ok (some ⟨1, .transactionAnnouncement, FinalBlock.sampleTier2.handoff.canonical⟩) ∧
      ∃ txs : List Tier1Transaction,
        UnrecordedTransactionPool.decodeAnnouncement KeyRing.toy .t1
          FinalBlock.sampleTier2.handoff.canonical = .ok (txs.map Transaction.tier1) ∧
        List.Forall₂ (fun f tx => tx.Carries f) [FinalBlock.sampleTier2] txs := by
  have hrun : handleBlocksSinceRequest KeyRing.toy ⟨0, 0, 3, .t2⟩ [.sampleTier2, .sampleTier2]
        sampleRequest =
        .ok (some ⟨1, .transactionAnnouncement, FinalBlock.sampleTier2.handoff.canonical⟩) ∧
      binToUint32 sampleRequest 0 = .ok 0 ∧
      FinalBlock.sampleTier2.summary.summary.size < 2 ^ 32 ∧
      Addressable (Blockchain.partialBinaryDump [.sampleTier2, .sampleTier2] 0) := by
    decide +kernel
  obtain ⟨hsent, hheight, haddresses, hdump⟩ := hrun
  have hall : ∀ f ∈ [FinalBlock.sampleTier2, FinalBlock.sampleTier2], f = FinalBlock.sampleTier2 := by
    simp
  refine ⟨hsent, ?_⟩
  exact (handleBlocksSinceRequest_handsOver rfl hheight
    (fun f hf => hall f hf ▸ FinalBlock.isTier2_sampleTier2) (fun f hf => hall f hf ▸ haddresses)
    hdump (KeyRing.verifiesAs_refl KeyRing.toy) hsent).2

end Devcash
