import Devcash.Overspend

/-! Sums over all addresses: what an accepted transaction does to the amount of each coin
in the chain state. -/
namespace Devcash
open Postings

namespace ChainState

/-- The sum of the balances of a coin over all addresses. -/
def coinSum (s : ChainState) (c : Nat) : Int :=
  s.stateMap.total (fun inner => (inner.find? c).getD 0)

theorem addCoin_stateMap (s : ChainState) (k : SmartCoin) :
    (s.addCoin k).stateMap = s.stateMap.put k.addr
      (((s.stateMap.find? k.addr).getD OrdMap.empty).put k.coin
        (i64 (s.balance k.addr k.coin + k.amount))) :=
  OrdMap.eq_put (s.find?_addCoin k)

theorem getD_find? (s : ChainState) (a : Address) (c : Nat) :
    (((s.stateMap.find? a).getD OrdMap.empty).find? c).getD 0 = s.balance a c := by
  rw [balance, entry]
  cases s.stateMap.find? a with
  | none => rfl
  | some inner => rfl

theorem coinSum_addCoin (s : ChainState) (k : SmartCoin) (c : Nat) :
    (s.addCoin k).coinSum c ≡ s.coinSum c + (if k.coin = c then k.amount else 0) [ZMOD 2 ^ 64] := by
  have hold : ((s.stateMap.find? k.addr).map (fun inner => (inner.find? c).getD 0)).getD 0 =
      s.balance k.addr c := by
    rw [← getD_find?]
    cases s.stateMap.find? k.addr with
    | none => rfl
    | some inner => rfl
  rw [coinSum, addCoin_stateMap]
  refine OrdMap.total_put_modEq ?_
  rw [hold, OrdMap.find?_put]
  by_cases hc : c = k.coin
  · subst hc
    rw [if_pos rfl, if_pos rfl, Option.getD_some]
    exact i64_modEq _
  · rw [if_neg hc, if_neg (Ne.symm hc), getD_find?, Int.add_zero]

theorem coinSum_addCoins (s : ChainState) (l : List SmartCoin) (c : Nat) :
    (s.addCoins l).coinSum c ≡
      s.coinSum c + net SmartCoin.coin SmartCoin.amount l c [ZMOD 2 ^ 64] := by
  induction l generalizing s with
  | nil =>
    rw [net_nil, Int.add_zero]
    exact Int.ModEq.refl _
  | cons k l ih =>
    rw [addCoins_cons, net_cons, ← Int.add_assoc]
    exact (ih _).trans ((coinSum_addCoin s k c).add_right _)

/-- The same for the amounts of a series of transfers. -/
theorem coinSum_addFlows (s : ChainState) {l : List Flow} (h : ∀ f ∈ l, i64 f.amount = f.amount)
    (c : Nat) : (s.addCoins (l.map Flow.smartCoin)).coinSum c ≡
      s.coinSum c + net Flow.coin Flow.amount l c [ZMOD 2 ^ 64] := by
  have hnet : net SmartCoin.coin SmartCoin.amount (l.map Flow.smartCoin) c =
      net Flow.coin Flow.amount l c := by
    rw [net_map]
    exact net_congr _ h c
  rw [← hnet]
  exact s.coinSum_addCoins _ c

/-- The sum of all balances of all coins. -/
def supply (s : ChainState) : Int := s.stateMap.total (fun inner => inner.total id)

theorem supply_addCoin (s : ChainState) (k : SmartCoin) :
    (s.addCoin k).supply ≡ s.supply + k.amount [ZMOD 2 ^ 64] := by
  have hinner : ((s.stateMap.find? k.addr).map (fun inner => inner.total id)).getD 0 =
      ((s.stateMap.find? k.addr).getD OrdMap.empty).total id := by
    cases s.stateMap.find? k.addr with
    | none => rfl
    | some inner => rfl
  rw [supply, addCoin_stateMap]
  refine OrdMap.total_put_modEq ?_
  rw [hinner]
  refine OrdMap.total_put_modEq ?_
  rw [Option.map_id, id, id, getD_find?]
  exact i64_modEq _

theorem supply_addFlows (s : ChainState) (l : List Flow) :
    (s.addCoins (l.map Flow.smartCoin)).supply ≡
      s.supply + (l.map Flow.amount).sum [ZMOD 2 ^ 64] := by
  induction l generalizing s with
  | nil =>
    rw [List.map_nil, List.map_nil, List.sum_nil, Int.add_zero]
    exact Int.ModEq.refl _
  | cons f l ih =>
    rw [List.map_cons, addCoins_cons, List.map_cons, List.sum_cons, ← Int.add_assoc]
    refine (ih _).trans ((supply_addCoin s f.smartCoin).trans ?_ |>.add_right _)
    exact (i64_modEq f.amount).add_left _

end ChainState

namespace Summary

/-- The deltas of an address, and of all addresses. -/
def pairTotal (p : SummaryPair) : Int := p.1.total (fun d => (d.delta : Int)) + p.2.total id

def deltaSum (s : Summary) : Int := s.summary.total pairTotal

theorem foldl_modEq {α : Type} (step : Nat → α → Nat) (weight : α → Int)
    (h : ∀ n a, ((step n a : Nat) : Int) ≡ n + weight a [ZMOD 2 ^ 64]) (l : List α) (n : Nat) :
    ((l.foldl step n : Nat) : Int) ≡ n + (l.map weight).sum [ZMOD 2 ^ 64] := by
  induction l generalizing n with
  | nil => rw [List.foldl_nil, List.map_nil, List.sum_nil, Int.add_zero]
  | cons a l ih =>
    rw [List.foldl_cons, List.map_cons, List.sum_cons, ← Int.add_assoc]
    exact (ih _).trans ((h n a).add_right _)

theorem coinTotal_modEq (s : Summary) : (s.coinTotal : Int) ≡ s.deltaSum [ZMOD 2 ^ 64] := by
  have h := foldl_modEq (fun total (e : Address × SummaryPair) =>
    e.2.2.entries.foldl (fun total c => u64 (total + toUint64 c.2))
      (e.2.1.entries.foldl (fun total d => u64 (total + d.2.delta)) total))
    (fun e => pairTotal e.2) (fun n e => ?_) s.summary.entries 0
  · rwa [Nat.cast_zero, Int.zero_add] at h
  · rw [pairTotal, ← Int.add_assoc]
    refine (foldl_modEq _ (fun c => id c.2) (fun n c => ?_) e.2.2.entries _).trans
      (Int.ModEq.add_right _ (foldl_modEq _ (fun d => (d.2.delta : Int)) (fun n d => ?_) e.2.1.entries n))
    · refine (u64_modEq _).trans ?_
      rw [Nat.cast_add]
      exact (toUint64_modEq c.2).add_left _
    · refine (u64_modEq _).trans ?_
      rw [Nat.cast_add]

theorem foldl_lt {α : Type} {step : Nat → α → Nat} (h : ∀ n a, n < 2 ^ 64 → step n a < 2 ^ 64)
    (l : List α) {n : Nat} (hn : n < 2 ^ 64) : l.foldl step n < 2 ^ 64 := by
  induction l generalizing n with
  | nil => exact hn
  | cons a l ih => exact ih (h n a hn)

theorem coinTotal_lt (s : Summary) : s.coinTotal < 2 ^ 64 :=
  foldl_lt (fun _ _ hn => foldl_lt (fun _ _ _ => u64_lt _) _ (foldl_lt (fun _ _ _ => u64_lt _) _ hn))
    _ (Nat.two_pow_pos 64)

theorem isSane_iff (s : Summary) :
    s.isSane = true ↔ s.summary.entries ≠ [] ∧ s.deltaSum ≡ 0 [ZMOD 2 ^ 64] := by
  have hmod := s.coinTotal_modEq
  have hlt := s.coinTotal_lt
  have hzero : s.coinTotal = 0 ↔ s.deltaSum ≡ 0 [ZMOD 2 ^ 64] := by
    rw [Int.ModEq] at hmod ⊢
    omega
  rw [← hzero, isSane, Bool.and_eq_true, beq_iff_eq, Bool.not_eq_true', List.isEmpty_eq_false_iff]

theorem total_addToCoinMap (coin : Nat) (item : DelayedItem) (m : CoinMap) :
    (addToCoinMap coin item m).total id ≡ m.total id + item.delta [ZMOD 2 ^ 64] := by
  rw [OrdMap.eq_put (find?_addToCoinMap coin item m)]
  refine OrdMap.total_put_modEq ?_
  rw [Option.map_id]
  exact i64_modEq _

theorem total_addToDelayedMap (coin delay : Nat) (amount : Int) (m : DelayedMap) :
    (addToDelayedMap coin (DelayedItem.make delay amount) m).total (fun d => (d.delta : Int)) ≡
      m.total (fun d => (d.delta : Int)) + amount [ZMOD 2 ^ 64] := by
  rw [OrdMap.eq_put (find?_addToDelayedMap coin delay amount m)]
  exact OrdMap.total_put_modEq (mergeDelayed_modEq (m.find? coin) delay amount)

theorem deltaSum_addFlow (s : Summary) (f : Flow) :
    (s.addFlow f).deltaSum ≡ s.deltaSum + f.amount [ZMOD 2 ^ 64] := by
  let old := (s.summary.find? f.addr).getD (OrdMap.empty, OrdMap.empty)
  let new : SummaryPair := if f.delay > 0 then
      (addToDelayedMap f.coin (DelayedItem.make f.delay f.amount) old.1, old.2)
    else (old.1, addToCoinMap f.coin (DelayedItem.make f.delay f.amount) old.2)
  have hput : (s.addFlow f).summary = s.summary.put f.addr new := OrdMap.eq_put (s.find?_addFlow f)
  have hold : ((s.summary.find? f.addr).map pairTotal).getD 0 = pairTotal old := by
    change _ = pairTotal ((s.summary.find? f.addr).getD (OrdMap.empty, OrdMap.empty))
    cases s.summary.find? f.addr with
    | none => rfl
    | some p => rfl
  have hnew : pairTotal new ≡ pairTotal old + f.amount [ZMOD 2 ^ 64] := by
    by_cases hd : f.delay > 0
    · have hpair : new = (addToDelayedMap f.coin (DelayedItem.make f.delay f.amount) old.1, old.2) :=
        if_pos hd
      rw [hpair, pairTotal, pairTotal, Int.add_right_comm]
      exact (total_addToDelayedMap f.coin f.delay f.amount old.1).add_right _
    · have hpair : new = (old.1, addToCoinMap f.coin (DelayedItem.make f.delay f.amount) old.2) :=
        if_neg hd
      rw [hpair, pairTotal, pairTotal, Int.add_assoc]
      refine Int.ModEq.add_left _ ((total_addToCoinMap _ _ _).trans (Int.ModEq.add_left _ ?_))
      exact toUint64_modEq f.amount
  rw [deltaSum, hput]
  refine OrdMap.total_put_modEq ?_
  rw [hold]
  exact hnew

theorem deltaSum_addFlows (s : Summary) (l : List Flow) :
    (s.addFlows l).deltaSum ≡ s.deltaSum + (l.map Flow.amount).sum [ZMOD 2 ^ 64] := by
  induction l generalizing s with
  | nil =>
    rw [List.map_nil, List.sum_nil, Int.add_zero]
    exact Int.ModEq.refl _
  | cons f l ih =>
    rw [addFlows_cons, List.map_cons, List.sum_cons, ← Int.add_assoc]
    exact (ih _).trans ((deltaSum_addFlow s f).add_right _)

end Summary

namespace Tier2Transaction
variable {o : Ossl} {keys : KeyRing o}

/-- The amounts of each coin add up to 0. -/
def Balanced (tx : Tier2Transaction) : Prop :=
  ∀ c, net Flow.coin Flow.amount tx.flows c ≡ 0 [ZMOD 2 ^ 64]

theorem isValid_coinSum {tx : Tier2Transaction} {b : Books} (h : (tx.isValid keys b).1 = .ok true)
    (c : Nat) : (tx.isValid keys b).2.state.coinSum c ≡
      b.state.coinSum c + net Flow.coin Flow.amount tx.flows c [ZMOD 2 ^ 64] := by
  have hstate : (tx.isValid keys b).2.state = _ := state_validate h
  rw [hstate]
  exact b.state.coinSum_addFlows (fun f hf => flowsOf_range hf) c

theorem Balanced.coinSum_isValid {tx : Tier2Transaction} {b : Books} (hb : tx.Balanced)
    (h : (tx.isValid keys b).1 = .ok true) (c : Nat) :
    (tx.isValid keys b).2.state.coinSum c ≡ b.state.coinSum c [ZMOD 2 ^ 64] := by
  have hc := (isValid_coinSum h c).trans ((hb c).add_left _)
  rw [Int.add_zero] at hc
  exact hc

/-- Soundness compares one total over all coins with 0; the sums of the coins are kept
exactly when each coin balances by itself. -/
theorem isValid_conserves_iff {tx : Tier2Transaction} {b : Books}
    (h : (tx.isValid keys b).1 = .ok true) :
    (∀ c, (tx.isValid keys b).2.state.coinSum c ≡ b.state.coinSum c [ZMOD 2 ^ 64]) ↔
      tx.Balanced := by
  constructor
  · intro hsum c
    have hc := (isValid_coinSum h c).symm.trans (hsum c)
    have hz : b.state.coinSum c + net Flow.coin Flow.amount tx.flows c ≡
        b.state.coinSum c + 0 [ZMOD 2 ^ 64] := by
      rw [Int.add_zero]
      exact hc
    exact Int.ModEq.add_left_cancel' _ hz
  · intro hb c
    exact hb.coinSum_isValid h c

theorem samplePayment_balanced : samplePayment.Balanced := by
  intro c
  have hflows : samplePayment.flows.map (fun f => (f.coin, f.amount)) = [(1, -5), (1, 5)] := by
    decide +kernel
  have hnet : net Flow.coin Flow.amount samplePayment.flows c =
      net Prod.fst Prod.snd [(1, -5), (1, 5)] c := by
    rw [← hflows, net_map]
  rw [hnet, net_cons, net_cons, net_nil]
  by_cases hc : 1 = c
  · rw [if_pos hc, if_pos hc]
    exact Int.ModEq.refl _
  · rw [if_neg hc, if_neg hc]
    exact Int.ModEq.refl _

theorem isValid_conserves_iff_samplePayment :
    (samplePayment.isValid KeyRing.toy Books.empty).1 = .ok true ∧
      (samplePayment.isValid KeyRing.toy Books.empty).2.state.coinSum 1 ≡
        Books.empty.state.coinSum 1 [ZMOD 2 ^ 64] :=
  ⟨samplePayment_valid, (isValid_conserves_iff samplePayment_valid).mpr samplePayment_balanced 1⟩

/-- Along a run of accepted transactions the sum of every coin stays what it was, when each
of them balances coin by coin. -/
theorem coinSum_always {l : List Tier2Transaction} {b : Books}
    (hl : Run.Each (validate keys) (fun b tx => (tx.isValid keys b).1 = .ok true ∧ tx.Balanced) b l)
    (c : Nat) :
    Run.Always (validate keys) (fun b' => b'.state.coinSum c ≡ b.state.coinSum c [ZMOD 2 ^ 64]) b l := by
  refine Run.always_of_each ?_ (Int.ModEq.refl _) hl
  intro b' tx hb' htx
  exact (htx.2.coinSum_isValid htx.1 c).trans hb'

/-- A wallet without coins sends 5 coins of type 1, and the same wallet receives 5 of type 2. -/
def sampleConversion : Tier2Transaction :=
  let xfers := [Transfer.make (Address.sample 1) 1 (-5) 0, Transfer.make (Address.sample 1) 2 5 0]
  let nonce : Bytes := [0, 1, 2, 3, 4, 5, 6, 7]
  ofSignature OpType.exchange.toByte xfers nonce
    (Ossl.toySignature (Address.sample 1)
      (Ossl.toyHash (layout OpType.exchange.toByte xfers nonce)))

theorem sampleConversion_converts :
    sampleConversion.getOperation = .ok OpType.exchange.toByte ∧
      (sampleConversion.isValid KeyRing.toy Books.empty).1 = .ok true ∧
      (sampleConversion.isValid KeyRing.toy Books.empty).2.state.coinSum 1 = -5 ∧
      (sampleConversion.isValid KeyRing.toy Books.empty).2.state.coinSum 2 = 5 := by
  decide +kernel

end Tier2Transaction
end Devcash
