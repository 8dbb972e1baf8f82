import Devcash.Proposal
import Devcash.SummaryRoundTrip
import Mathlib.Data.List.Nodup

/-! From blocks to the summary of their summaries: the transfers a summary gives stand
for the ones it was made from, wherever they are added. -/
namespace Devcash
open Endian Reader InputBuffer Postings

/-- The delta as the amount of a transfer. -/
def DelayedItem.amount (d : DelayedItem) : Int := i64 d.delta

namespace Summary

def delayedFlow (a : Address) (d : Nat × DelayedItem) : Flow := ⟨a, d.1, d.2.amount, d.2.delay⟩

def coinFlow (a : Address) (c : Nat × Int) : Flow := ⟨a, c.1, c.2, 0⟩

@[simp] theorem delayedFlow_amount (a : Address) (d : Nat × DelayedItem) :
    (delayedFlow a d).amount = d.2.amount := by rw [delayedFlow]

@[simp] theorem delayedFlow_delay (a : Address) (d : Nat × DelayedItem) :
    (delayedFlow a d).delay = d.2.delay := rfl

@[simp] theorem coinFlow_delay (a : Address) (c : Nat × Int) : (coinFlow a c).delay = 0 := rfl

/-- The fields of the transfers that `getTransfers` makes. -/
def flows (s : Summary) : List Flow :=
  s.summary.entries.flatMap fun e =>
    e.2.1.entries.map (delayedFlow e.1) ++ e.2.2.entries.map (coinFlow e.1)

theorem getTransfers_eq (s : Summary) : s.getTransfers = s.flows.map Transfer.ofFlow := by
  rw [getTransfers, flows, List.map_flatMap]
  refine List.flatMap_congr (fun e _ => ?_)
  have hd : (fun d : Nat × DelayedItem => Transfer.make e.1 d.1 (i64 d.2.delta) d.2.delay) =
      Transfer.ofFlow ∘ delayedFlow e.1 := by
    funext d
    simp only [Function.comp, Transfer.ofFlow, delayedFlow, DelayedItem.amount]
  rw [List.map_append, List.map_map, List.map_map, hd]
  rfl

variable {s : Summary}

theorem typed_flows (h : s.ByItems) : ∀ f ∈ s.flows, f.Typed ∧ i64 f.amount = f.amount := by
  intro f hf
  obtain ⟨e, he, hf⟩ := List.mem_flatMap.mp hf
  cases List.mem_append.mp hf with
  | inl hf =>
    obtain ⟨d, hd, rfl⟩ := List.mem_map.mp hf
    have hfit := (h e he).2.delayed d hd
    refine ⟨⟨(h e he).1, hfit.1, hfit.2.2.1⟩, ?_⟩
    rw [delayedFlow_amount, DelayedItem.amount, i64_i64]
  | inr hf =>
    obtain ⟨c, hc, rfl⟩ := List.mem_map.mp hf
    have hfit := (h e he).2.coins c hc
    exact ⟨⟨(h e he).1, hfit.1, Nat.two_pow_pos 64⟩, hfit.2⟩

theorem mapM_flow_getTransfers (h : s.ByItems) :
    s.getTransfers.mapM Transfer.flow = .ok s.flows := by
  rw [getTransfers_eq]
  exact Transfer.mapM_flow_ofFlow (typed_flows h)

theorem nodup_accounts (s : Summary) {g : SummaryPair → List Nat} (hg : ∀ p, (g p).Nodup) :
    (s.summary.entries.flatMap fun e => (g e.2).map (Prod.mk e.1)).Nodup := by
  refine List.nodup_flatMap.mpr ⟨fun e _ => ?_, ?_⟩
  · exact (hg e.2).map (Prod.mk_right_injective e.1)
  · refine s.summary.sorted.imp (fun {e e'} hlt => ?_)
    intro k hk hk'
    obtain ⟨c, -, rfl⟩ := List.mem_map.mp hk
    obtain ⟨c', -, he⟩ := List.mem_map.mp hk'
    exact absurd (congrArg Prod.fst he) (ne_of_gt hlt)

theorem undelayed_flows (h : s.ByItems) : undelayed s.flows =
    s.summary.entries.flatMap fun e => e.2.2.entries.map (coinFlow e.1) := by
  rw [undelayed, flows, List.filter_flatMap]
  refine List.flatMap_congr (fun e he => ?_)
  have hd : (e.2.1.entries.map (delayedFlow e.1)).filter
      (fun f => f.delay = 0) = [] := by
    rw [List.filter_eq_nil_iff]
    intro f hf
    obtain ⟨d, hd, rfl⟩ := List.mem_map.mp hf
    have hpos : 0 < (delayedFlow e.1 d).delay := ((h e he).2.delayed d hd).2.1
    exact fun hzero => absurd (of_decide_eq_true hzero) hpos.ne'
  have hc : (e.2.2.entries.map (coinFlow e.1)).filter
      (fun f => f.delay = 0) = e.2.2.entries.map (coinFlow e.1) := by
    rw [List.filter_eq_self]
    intro f hf
    obtain ⟨c, -, rfl⟩ := List.mem_map.mp hf
    rfl
  rw [List.filter_append, hd, hc, List.nil_append]

theorem delayed_flows (h : s.ByItems) : delayed s.flows =
    s.summary.entries.flatMap fun e =>
      e.2.1.entries.map (delayedFlow e.1) := by
  rw [delayed, flows, List.filter_flatMap]
  refine List.flatMap_congr (fun e he => ?_)
  have hd : (e.2.1.entries.map (delayedFlow e.1)).filter
      (fun f => 0 < f.delay) =
      e.2.1.entries.map (delayedFlow e.1) := by
    rw [List.filter_eq_self]
    intro f hf
    obtain ⟨d, hd, rfl⟩ := List.mem_map.mp hf
    exact decide_eq_true ((h e he).2.delayed d hd).2.1
  have hc : (e.2.2.entries.map (coinFlow e.1)).filter
      (fun f => 0 < f.delay) = [] := by
    rw [List.filter_eq_nil_iff]
    intro f hf
    obtain ⟨c, -, rfl⟩ := List.mem_map.mp hf
    simp
  rw [List.filter_append, hd, hc, List.append_nil]

theorem nodup_undelayed (h : s.ByItems) : ((undelayed s.flows).map Flow.slot).Nodup := by
  have hmap : (undelayed s.flows).map Flow.slot =
      s.summary.entries.flatMap fun e => (e.2.2.keys).map (Prod.mk e.1) := by
    rw [undelayed_flows h, List.map_flatMap]
    refine List.flatMap_congr (fun e _ => ?_)
    rw [List.map_map, OrdMap.keys, List.map_map]
    rfl
  rw [hmap]
  exact s.nodup_accounts (fun p => p.2.nodup_keys)

theorem nodup_delayed (h : s.ByItems) : ((delayed s.flows).map Flow.slot).Nodup := by
  have hmap : (delayed s.flows).map Flow.slot =
      s.summary.entries.flatMap fun e => (e.2.1.keys).map (Prod.mk e.1) := by
    rw [delayed_flows h, List.map_flatMap]
    refine List.flatMap_congr (fun e _ => ?_)
    rw [List.map_map, OrdMap.keys, List.map_map]
    rfl
  rw [hmap]
  exact s.nodup_accounts (fun p => p.1.nodup_keys)

theorem mem_undelayed_flows (h : s.ByItems) {f : Flow} :
    f ∈ undelayed s.flows ↔ s.coinEntry f.addr f.coin = some f.amount ∧ f.delay = 0 := by
  rw [undelayed_flows h, coinEntry, Option.bind_eq_some_iff]
  constructor
  · intro hf
    obtain ⟨e, he, hf⟩ := List.mem_flatMap.mp hf
    obtain ⟨c, hc, rfl⟩ := List.mem_map.mp hf
    exact ⟨⟨e.2, OrdMap.find?_eq_some.mpr he, OrdMap.find?_eq_some.mpr hc⟩, rfl⟩
  · rintro ⟨⟨p, hp, hc⟩, hd⟩
    refine List.mem_flatMap.mpr ⟨(f.addr, p), OrdMap.find?_eq_some.mp hp, ?_⟩
    refine List.mem_map.mpr ⟨(f.coin, f.amount), OrdMap.find?_eq_some.mp hc, ?_⟩
    rw [coinFlow, ← hd]

theorem mem_delayed_flows (h : s.ByItems) {f : Flow} :
    f ∈ delayed s.flows ↔ ∃ item, s.delayedEntry f.addr f.coin = some item ∧
      f.amount = item.amount ∧ f.delay = item.delay := by
  simp only [delayed_flows h, delayedEntry, Option.bind_eq_some_iff]
  constructor
  · intro hf
    obtain ⟨e, he, hf⟩ := List.mem_flatMap.mp hf
    obtain ⟨d, hd, rfl⟩ := List.mem_map.mp hf
    exact ⟨d.2, ⟨e.2, OrdMap.find?_eq_some.mpr he, OrdMap.find?_eq_some.mpr hd⟩,
      delayedFlow_amount e.1 d, delayedFlow_delay e.1 d⟩
  · rintro ⟨item, ⟨p, hp, hd⟩, hx, hdelay⟩
    refine List.mem_flatMap.mpr ⟨(f.addr, p), OrdMap.find?_eq_some.mp hp, ?_⟩
    refine List.mem_map.mpr ⟨(f.coin, item), OrdMap.find?_eq_some.mp hd, ?_⟩
    rw [delayedFlow, ← hx, ← hdelay]

theorem coinEntry_flows (h : s.ByItems) (a : Address) (c : Nat) :
    (empty.addFlows s.flows).coinEntry a c = s.coinEntry a c := by
  rw [(sums_addFlows s.flows).undelayed]
  cases hx : s.coinEntry a c with
  | none =>
    rw [if_neg]
    rintro ⟨f, hf, hk⟩
    obtain ⟨rfl, rfl⟩ := Prod.mk.inj hk
    rw [((mem_undelayed_flows h).mp hf).1] at hx
    cases hx
  | some x =>
    have hf : (⟨a, c, x, 0⟩ : Flow) ∈ undelayed s.flows := (mem_undelayed_flows h).mpr ⟨hx, rfl⟩
    have hnet : net Flow.slot Flow.amount (undelayed s.flows) (a, c) = x :=
      net_of_nodup Flow.slot Flow.amount (nodup_undelayed h) hf
    rw [if_pos ⟨_, hf, rfl⟩, hnet]
    exact congrArg some (typed_flows h _ (List.mem_filter.mp hf).1).2

theorem delayedEntry_flows (h : s.ByItems) (a : Address) (c : Nat) :
    (empty.addFlows s.flows).delayedEntry a c = s.delayedEntry a c := by
  rw [(sums_addFlows s.flows).delayed]
  cases hx : s.delayedEntry a c with
  | none =>
    rw [if_neg]
    rintro ⟨f, hf, hk⟩
    obtain ⟨rfl, rfl⟩ := Prod.mk.inj hk
    obtain ⟨item, hitem, -⟩ := (mem_delayed_flows h).mp hf
    rw [hitem] at hx
    cases hx
  | some item =>
    have hf : delayedFlow a (c, item) ∈ delayed s.flows :=
      (mem_delayed_flows h).mpr
        ⟨item, hx, delayedFlow_amount a (c, item), delayedFlow_delay a (c, item)⟩
    have hnet : net Flow.slot Flow.amount (delayed s.flows) (a, c) = item.amount :=
      (net_of_nodup Flow.slot Flow.amount (nodup_delayed h) hf).trans
        (delayedFlow_amount a (c, item))
    have hlong : longest (delayed s.flows) (a, c) = item.delay := by
      have hfilter := filter_of_nodup Flow.slot (nodup_delayed h) hf
      change (List.filter _ _).foldr _ 0 = _
      rw [show (a, c) = (delayedFlow a (c, item)).slot from rfl, hfilter]
      exact Nat.max_zero _
    have hdelta : item.delta < 2 ^ 64 := by
      obtain ⟨p, hp, hd⟩ := Option.bind_eq_some_iff.mp hx
      exact ((h _ (OrdMap.find?_eq_some.mp hp)).2.delayed _ (OrdMap.find?_eq_some.mp hd)).2.2.2
    rw [if_pos ⟨_, hf, rfl⟩, hnet, hlong, DelayedItem.amount, toUint64_i64 hdelta]

theorem addFlows_flows (h : s.ByItems) (hn : s.NoEmpty) : empty.addFlows s.flows = s :=
  ext_entry (noEmpty_addFlows noEmpty_empty _) hn (coinEntry_flows h) (delayedEntry_flows h)

theorem addFlows_congr {l m : List Flow} (h : empty.addFlows l = empty.addFlows m)
    (hs : s.NoEmpty) : s.addFlows l = s.addFlows m := by
  have hl := sums_addFlows l
  have hm := sums_addFlows m
  apply ext_entry (noEmpty_addFlows hs l) (noEmpty_addFlows hs m)
  · intro a c
    have he : (empty.addFlows l).coinEntry a c = (empty.addFlows m).coinEntry a c := by rw [h]
    rw [hl.undelayed, hm.undelayed] at he
    rw [coinEntry_addFlows, coinEntry_addFlows]
    split_ifs at he ⊢
    · rw [← add_i64, Option.some.inj he, add_i64]
    · rfl
  · intro a c
    have he : (empty.addFlows l).delayedEntry a c = (empty.addFlows m).delayedEntry a c := by rw [h]
    rw [hl.delayed, hm.delayed] at he
    rw [delayedEntry_addFlows, delayedEntry_addFlows]
    split_ifs at he ⊢
    · obtain ⟨hlong, hnet⟩ := DelayedItem.mk.inj (Option.some.inj he)
      rw [hlong]
      cases s.delayedEntry a c <;> simp only [mergeDelayed, hnet]
    · rfl

end Summary

namespace Tier1Transaction
variable {o : Ossl} {keys : KeyRing o}

/-- A transaction made from the summary of a block's transfers, by any node. -/
def Summarises (keys : KeyRing o) (block : List Flow) (tx : Tier1Transaction) : Prop :=
  ∃ sig nodeAddr, ofSummary keys (Summary.empty.addFlows block) sig nodeAddr = .ok tx

theorem Summarises.readFlows {block : List Flow} {tx : Tier1Transaction}
    (h : Summarises keys block tx) (hb : ∀ f ∈ block, f.Typed)
    (hf : (Summary.empty.addFlows block).Fits) :
    (Transaction.tier1 tx).readFlows = .ok (Summary.empty.addFlows block).flows := by
  obtain ⟨sig, nodeAddr, h⟩ := h
  have hitems := Summary.byItems_empty.addFlows hb
  have hget := getTransfers_of_encode (ofSummary_encodes h).1 hitems hf
  rw [Transaction.readFlows, Transaction.getTransfers, hget, Result.bind_ok,
    Summary.mapM_flow_getTransfers hitems]

/-- Adding up the transfers of the transactions that summarise the blocks is adding up the
transfers of the blocks, in every summary. -/
theorem summaries_faithful {blocks : List (List Flow)} {txs : List Tier1Transaction}
    (hblocks : ∀ block ∈ blocks, ∀ f ∈ block, f.Typed)
    (hfits : ∀ block ∈ blocks, (Summary.empty.addFlows block).Fits)
    (htxs : List.Forall₂ (Summarises keys) blocks txs) :
    ∃ fs, blockFlows (txs.map Transaction.tier1) = .ok fs ∧
      Summary.empty.addFlows fs = Summary.empty.addFlows blocks.flatten := by
  have key : ∃ fs, blockFlows (txs.map Transaction.tier1) = .ok fs ∧
      ∀ s : Summary, s.NoEmpty → s.addFlows fs = s.addFlows blocks.flatten := by
    induction htxs with
    | nil => exact ⟨[], rfl, fun _ _ => rfl⟩
    | @cons block tx blocks txs h _ ih =>
      have hb := hblocks block List.mem_cons_self
      obtain ⟨fs, hfs, hadd⟩ := ih (fun b hb => hblocks b (List.mem_cons_of_mem block hb))
        (fun b hb => hfits b (List.mem_cons_of_mem block hb))
      refine ⟨_, blockFlows_cons (h.readFlows hb (hfits block List.mem_cons_self)) hfs, ?_⟩
      intro s hs
      have hitems := Summary.byItems_empty.addFlows hb
      have hreplay := Summary.addFlows_flows hitems (Summary.noEmpty_addFlows Summary.noEmpty_empty block)
      rw [List.flatten_cons, Summary.addFlows_append, Summary.addFlows_append,
        Summary.addFlows_congr hreplay hs, hadd _ (Summary.noEmpty_addFlows hs block)]
  obtain ⟨fs, hfs, hadd⟩ := key
  exact ⟨fs, hfs, hadd _ Summary.noEmpty_empty⟩

/-- Two blocks: coins move on with a delay, and a part comes back. -/
def sampleBlocks : List (List Flow) :=
  [[⟨Address.sample 1, 1, -5, 0⟩, ⟨Address.sample 2, 1, 5, 7⟩],
    [⟨Address.sample 2, 1, -3, 0⟩, ⟨Address.sample 1, 1, 3, 0⟩]]

theorem summaries_faithful_sampleBlocks : ∃ txs fs,
    List.Forall₂ (Summarises KeyRing.toy) sampleBlocks txs ∧
      blockFlows (txs.map Transaction.tier1) = .ok fs ∧
      Summary.empty.addFlows fs = Summary.empty.addFlows sampleBlocks.flatten := by
  have hblocks : ∀ block ∈ sampleBlocks, (∀ f ∈ block, f.Typed) ∧
      (Summary.empty.addFlows block).Fits ∧
      (Summary.empty.addFlows block).isSane = true ∧
      (Summary.empty.addFlows block).getByteSize + kUint64Size + kNodeAddrBufSize < 2 ^ 64 := by
    decide +kernel
  have htxs : ∃ txs, List.Forall₂ (Summarises KeyRing.toy) sampleBlocks txs := by
    have h1 := (hblocks _ List.mem_cons_self).2.2
    have h2 := (hblocks _ (List.mem_cons_of_mem _ List.mem_cons_self)).2.2
    exact ⟨_, .cons ⟨_, _, ofSummary_sample h1.1 h1.2⟩
      (.cons ⟨_, _, ofSummary_sample h2.1 h2.2⟩ .nil)⟩
  obtain ⟨txs, htxs⟩ := htxs
  obtain ⟨fs, hfs⟩ := summaries_faithful (fun block hb => (hblocks block hb).1)
    (fun block hb => (hblocks block hb).2.1) htxs
  exact ⟨txs, fs, htxs, hfs⟩

/-- When the count of the addresses is a multiple of 2^32, no transfer reaches the other
tier. -/
theorem wideFlows_lost_of_count {n : Nat} (hpos : 0 < n) (hn : n ≤ 2 ^ 32) (hcount : u32 n = 0) :
    ∃ tx, Summarises KeyRing.toy (Summary.wideFlows n) tx ∧
      blockFlows [Transaction.tier1 tx] = .ok [] ∧
      Summary.empty.addFlows [] ≠ Summary.empty.addFlows (Summary.wideFlows n) := by
  have hsize := Summary.size_wide (show n ≤ 2 ^ 64 by omega)
  refine ⟨_, ⟨_, _, ofSummary_wide hpos hn⟩, ?_, ?_⟩
  · change _ = Except.ok ([] ++ [])
    refine blockFlows_cons ?_ rfl
    have hcount' : u32 (Summary.wide n).summary.size = 0 := by rw [hsize, hcount]
    rw [Transaction.readFlows, Transaction.getTransfers, getTransfers_of_count rfl hcount']
    rfl
  · intro he
    have hzero : (Summary.wide n).summary.size = 0 := by
      rw [Summary.wide, ← he]
      rfl
    omega

/-- So with 2^32 addresses. -/
theorem wideFlows_lost : (∀ f ∈ Summary.wideFlows (2 ^ 32), f.Typed) ∧
    ∃ tx, Summarises KeyRing.toy (Summary.wideFlows (2 ^ 32)) tx ∧
      blockFlows [Transaction.tier1 tx] = .ok [] ∧
      Summary.empty.addFlows [] ≠ Summary.empty.addFlows (Summary.wideFlows (2 ^ 32)) :=
  ⟨Summary.typed_wideFlows _,
    wideFlows_lost_of_count (Nat.two_pow_pos 32) (Nat.le_refl _) (Nat.mod_self _)⟩

end Tier1Transaction
end Devcash
