import Mathlib.Data.List.Count
import Mathlib.Data.List.Forall2
import Devcash.Generator

/-! What the generated transactions do to the wallets when they are validated one after the other. -/
namespace Devcash
open Postings

namespace Payment

/-- What a payment changes for the `k`th wallet. -/
def delta (n txAmount k : Nat) : Payment → Int
  | peer i j => (if j = k then (txAmount : Int) else 0) - if i = k then (txAmount : Int) else 0
  | back i => if i = k then -((n - 1) * txAmount : Nat) else 0

def paidBy (k : Nat) : Payment → Bool
  | peer i _ => i == k
  | back _ => false

def paidTo (k : Nat) : Payment → Bool
  | peer _ j => j == k
  | back _ => false

theorem sender_lt {n : Nat} (p : Payment) (h : p.Within n) : p.sender < n := by
  cases p with
  | peer i j => exact h.1
  | back i => exact h

end Payment

/-- The coins of the `k`th wallet after its share and the payments. -/
def holding (n txAmount k : Nat) (l : List Payment) : Int :=
  ((n - 1) * txAmount : Nat) + (l.map (Payment.delta n txAmount k)).sum

theorem holding_append (n txAmount k : Nat) (l m : List Payment) :
    holding n txAmount k (l ++ m) =
      holding n txAmount k l + (m.map (Payment.delta n txAmount k)).sum := by
  rw [holding, holding, List.map_append, List.sum_append, Int.add_assoc]

section
variable (n txAmount k : Nat) (rel : Nat → Nat → Bool)

/-- The payments between wallets of one round, where `rel` says who pays whom. -/
def peers : List Payment :=
  (List.range n).flatMap (fun i => ((List.range n).filter (rel i)).map (Payment.peer i))

def backs : List Payment := (List.range n).map Payment.back

theorem sum_delta {l : List Payment} (hl : ∀ p ∈ l, ∃ i j, p = .peer i j) :
    (l.map (Payment.delta n txAmount k)).sum =
      (l.countP (Payment.paidTo k) : Int) * txAmount - l.countP (Payment.paidBy k) * txAmount := by
  induction l with
  | nil => simp
  | cons p l ih =>
    obtain ⟨⟨i, j, rfl⟩, hrest⟩ := List.forall_mem_cons.mp hl
    rw [List.map_cons, List.sum_cons, ih hrest, List.countP_cons, List.countP_cons]
    simp only [Payment.delta, Payment.paidTo, Payment.paidBy, beq_iff_eq]
    split_ifs <;> push_cast <;> ring

theorem peers_peer {p : Payment} (hp : p ∈ peers n rel) : ∃ i j, p = .peer i j ∧ i < n ∧ j < n := by
  obtain ⟨i, hi, hp⟩ := List.mem_flatMap.mp hp
  obtain ⟨j, hj, rfl⟩ := List.mem_map.mp hp
  exact ⟨i, j, rfl, List.mem_range.mp hi, List.mem_range.mp (List.mem_of_mem_filter hj)⟩

theorem sum_range_ite (c : Nat → Nat) :
    ((List.range n).map (fun i => if i = k then c i else 0)).sum = if k < n then c k else 0 := by
  induction n with
  | zero => rfl
  | succ n ih =>
    rw [List.range_succ, List.map_append, List.sum_append, ih, List.map_singleton, List.sum_singleton]
    by_cases hn : n = k
    · subst hn
      rw [if_neg (Nat.lt_irrefl n), if_pos rfl, if_pos (Nat.lt_succ_self n), Nat.zero_add]
    · rw [if_neg hn, Nat.add_zero]
      exact if_congr (by omega) rfl rfl

theorem sum_ite_one (p : Nat → Bool) (l : List Nat) :
    (l.map (fun i => if p i then 1 else 0)).sum = l.countP p := by
  induction l with
  | nil => rfl
  | cons i l ih => rw [List.map_cons, List.sum_cons, ih, List.countP_cons, Nat.add_comm]

variable {k} in
theorem countP_paidBy (hk : k < n) :
    (peers n rel).countP (Payment.paidBy k) = (List.range n).countP (rel k) := by
  have hrow : (List.countP (Payment.paidBy k) ∘ fun i =>
      ((List.range n).filter (rel i)).map (Payment.peer i)) =
      fun i => if i = k then (List.range n).countP (rel i) else 0 := by
    funext i
    rw [Function.comp_apply, List.countP_map]
    by_cases hi : i = k
    · have hall : ((List.range n).filter (rel i)).countP (Payment.paidBy k ∘ Payment.peer i) =
          ((List.range n).filter (rel i)).length :=
        List.countP_eq_length.mpr (fun j _ => by simp [Payment.paidBy, hi])
      rw [if_pos hi, hall, List.countP_eq_length_filter]
    · rw [if_neg hi, List.countP_eq_zero]
      intro j _
      simp [Payment.paidBy, hi]
  rw [peers, List.countP_flatMap, hrow, sum_range_ite, if_pos hk]

variable {k} in
theorem countP_paidTo (hk : k < n) :
    (peers n rel).countP (Payment.paidTo k) = (List.range n).countP (fun i => rel i k) := by
  have hrow : (List.countP (Payment.paidTo k) ∘ fun i =>
      ((List.range n).filter (rel i)).map (Payment.peer i)) =
      fun i => if rel i k then 1 else 0 := by
    funext i
    have hone : (List.range n).count k = 1 :=
      List.count_eq_one_of_mem List.nodup_range (List.mem_range.mpr hk)
    rw [Function.comp_apply, List.countP_map]
    change ((List.range n).filter (rel i)).countP (· == k) = _
    by_cases hrel : rel i k = true
    · rw [if_pos hrel, ← List.count_eq_countP, List.count_filter hrel, hone]
    · rw [if_neg hrel, ← List.count_eq_countP, List.count_eq_zero]
      intro hmem
      exact hrel (List.mem_filter.mp hmem).2
  rw [peers, List.countP_flatMap, hrow, sum_ite_one]

variable {k} in
theorem countP_others (hk : k < n) : (List.range n).countP (fun i => i != k) = n - 1 := by
  have hone : (List.range n).count k = 1 :=
    List.count_eq_one_of_mem List.nodup_range (List.mem_range.mpr hk)
  have hsplit := List.length_eq_countP_add_countP (fun i => i == k) (l := List.range n)
  rw [List.length_range, ← List.count_eq_countP, hone] at hsplit
  have hsame : (List.range n).countP (fun i => i != k) =
      (List.range n).countP (fun i => decide ¬(i == k) = true) :=
    List.countP_congr (fun i _ => by simp)
  omega

variable {k} in
theorem countP_le_others {r : Nat → Bool} (hr : r k = false) (hk : k < n) :
    (List.range n).countP r ≤ n - 1 := by
  rw [← countP_others n hk]
  refine List.countP_mono_left (fun i _ hi => ?_)
  rw [bne_iff_ne]
  rintro rfl
  rw [hr] at hi
  cases hi

/-- Along the payments every wallet can pay, and none has more than twice its share. -/
def Solvent (l : List Payment) : Prop :=
  ∀ q, q <+: l → ∀ k < n, 0 ≤ holding n txAmount k q ∧
    holding n txAmount k q ≤ 2 * ((n - 1) * txAmount : Nat)

variable {rel} in
theorem solvent_peers (hrel : ∀ i, rel i i = false) : Solvent n txAmount (peers n rel) := by
  intro q hq k hk
  have hpeer : ∀ p ∈ q, ∃ i j, p = .peer i j := fun p hp => by
    obtain ⟨i, j, hp, -⟩ := peers_peer n rel (hq.subset hp)
    exact ⟨i, j, hp⟩
  have hby : q.countP (Payment.paidBy k) ≤ n - 1 := by
    refine (hq.sublist.countP_le).trans ?_
    rw [countP_paidBy n rel hk]
    exact countP_le_others n (hrel k) hk
  have hto : q.countP (Payment.paidTo k) ≤ n - 1 := by
    refine (hq.sublist.countP_le).trans ?_
    rw [countP_paidTo n rel hk]
    exact countP_le_others n (hrel k) hk
  have hby' := Nat.mul_le_mul_right txAmount hby
  have hto' := Nat.mul_le_mul_right txAmount hto
  rw [holding, sum_delta n txAmount k hpeer]
  constructor <;> push_cast at hby' hto' ⊢ <;> omega

/-- In a circuit each wallet pays all the others. -/
abbrev everyOther (i j : Nat) : Bool := decide (i ≠ j)

variable {k} in
theorem countP_everyOther (hk : k < n) : (List.range n).countP (everyOther k) = n - 1 := by
  rw [← countP_others n hk]
  refine List.countP_congr (fun i _ => ?_)
  rw [decide_eq_true_eq, bne_iff_ne]
  exact ne_comm

variable {k} in
theorem sum_delta_everyOther (hk : k < n) :
    ((peers n everyOther).map (Payment.delta n txAmount k)).sum = 0 := by
  have hto : (List.range n).countP (fun i => everyOther i k) = n - 1 := by
    rw [← countP_others n hk]
    exact List.countP_congr (fun i _ => by simp)
  rw [sum_delta n txAmount k (fun p hp => ?_), countP_paidBy n _ hk, countP_paidTo n _ hk,
    countP_everyOther n hk, hto, Int.sub_self]
  obtain ⟨i, j, hp, -⟩ := peers_peer n _ hp
  exact ⟨i, j, hp⟩

theorem length_everyOther : (peers n everyOther).length = n * (n - 1) := by
  have hrow : ∀ i ∈ List.range n,
      (((List.range n).filter (everyOther i)).map (Payment.peer i)).length = n - 1 := by
    intro i hi
    rw [List.length_map, ← List.countP_eq_length_filter, countP_everyOther n (List.mem_range.mp hi)]
  rw [peers, List.length_flatMap, List.map_congr_left hrow, List.map_const', List.sum_replicate_nat,
    List.length_range]

theorem solvent_rounds (m : Nat) :
    Solvent n txAmount (List.replicate m (peers n everyOther)).flatten := by
  intro l hl k hk
  obtain ⟨rounds, q, rfl, hq⟩ := Quota.prefix_rounds hl
  have hrounds : ∀ m, ((List.replicate m (peers n everyOther)).flatten.map
      (Payment.delta n txAmount k)).sum = 0 := by
    intro m
    induction m with
    | zero => rfl
    | succ m ih =>
      rw [List.replicate_succ, List.flatten_cons, List.map_append, List.sum_append, ih,
        sum_delta_everyOther n txAmount hk, Int.add_zero]
  have hsame : holding n txAmount k ((List.replicate rounds (peers n everyOther)).flatten ++ q) =
      holding n txAmount k q := by
    rw [holding, List.map_append, List.sum_append, hrounds, Int.zero_add, holding]
  rw [hsame]
  exact solvent_peers n txAmount (fun i => by simp [everyOther]) q hq k hk

theorem sum_delta_backs (l : List Nat) : ((l.map Payment.back).map (Payment.delta n txAmount k)).sum =
    -(l.count k * ((n - 1) * txAmount : Nat)) := by
  induction l with
  | nil => simp
  | cons i l ih =>
    rw [List.map_cons, List.map_cons, List.sum_cons, ih, List.count_cons]
    simp only [Payment.delta, beq_iff_eq]
    split_ifs <;> push_cast <;> ring

theorem solvent_closed : Solvent n txAmount (peers n everyOther ++ backs n) := by
  intro q hq k hk
  obtain hshort | ⟨t, rfl⟩ := List.prefix_or_prefix_of_prefix hq (List.prefix_append _ (backs n))
  · exact solvent_peers n txAmount (fun i => by simp [everyOther]) q hshort k hk
  · have ht := (List.prefix_append_right_inj (peers n everyOther)).mp hq
    obtain ⟨m, rfl⟩ : ∃ m, t = ((List.range n).take m).map Payment.back :=
      ⟨t.length, by rw [List.map_take]; exact List.prefix_iff_eq_take.mp ht⟩
    have hcount : ((List.range n).take m).count k ≤ 1 :=
      List.nodup_iff_count_le_one.mp (List.nodup_range.sublist (List.take_sublist m _)) k
    rw [holding_append, holding, sum_delta_everyOther n txAmount hk, sum_delta_backs]
    obtain hzero | hone : ((List.range n).take m).count k = 0 ∨ ((List.range n).take m).count k = 1 := by
      omega
    · rw [hzero]
      constructor <;> omega
    · rw [hone]
      constructor <;> omega

theorem holding_closed (hk : k < n) :
    holding n txAmount k (peers n everyOther ++ backs n) = 0 := by
  have hone : (List.range n).count k = 1 :=
    List.count_eq_one_of_mem List.nodup_range (List.mem_range.mpr hk)
  rw [holding_append, holding, sum_delta_everyOther n txAmount hk, backs, sum_delta_backs, hone]
  push_cast
  omega

/-- In a laminar flow each wallet pays those behind it. -/
abbrev behind (i j : Nat) : Bool := decide (i < j)

theorem holding_behind (hn : 0 < n) : holding n txAmount 0 (peers n behind) = 0 := by
  have hby : (List.range n).countP (behind 0) = n - 1 := by
    rw [← countP_others n hn]
    exact List.countP_congr (fun i _ => by simp [Nat.pos_iff_ne_zero])
  have hto : (List.range n).countP (fun i => behind i 0) = 0 := by
    rw [List.countP_eq_zero]
    intro i _
    simp
  rw [holding, sum_delta n txAmount 0 (fun p hp => ?_), countP_paidBy n _ hn, countP_paidTo n _ hn, hby,
    hto]
  · push_cast
    omega
  · obtain ⟨i, j, hp, -⟩ := peers_peer n _ hp
    exact ⟨i, j, hp⟩

end

theorem ChainState.getAmount_of_entry {s : ChainState} {a : Address} {c : Nat} {x : Int}
    (h : s.entry a c = some x) : s.getAmount c a = .ok x := by
  have hsome : ¬ (s.knows a = true ∧ s.entry a c = none) := by
    rintro ⟨-, hnone⟩
    rw [h] at hnone
    cases hnone
  rw [getAmount_eq, if_neg hsome, balance, h]
  rfl

namespace Generator
variable {o : Ossl} {keys : KeyDirectory o} {options : GeneratorOptions} {l : List Payment}

/-- The flows of the INN's transaction and of the payments. -/
def ledger (keys : KeyDirectory o) (options : GeneratorOptions) (l : List Payment) : List Flow :=
  grant keys options :: shares keys options ++
    l.flatMap (fun p => [p.outflow keys (addrCount keys options) options.txAmount,
      p.inflow keys (addrCount keys options) options.txAmount])

theorem ledger_concat (l : List Payment) (p : Payment) : ledger keys options (l ++ [p]) =
    ledger keys options l ++ [p.outflow keys (addrCount keys options) options.txAmount,
      p.inflow keys (addrCount keys options) options.txAmount] := by
  rw [ledger, ledger, List.flatMap_append, List.flatMap_singleton, List.append_assoc]

theorem mem_shares {k : Nat} (hk : k < addrCount keys options) :
    (⟨keys.walletList.getD k Address.null, 0,
      ((addrCount keys options - 1) * options.txAmount : Nat), 0⟩ : Flow) ∈ shares keys options := by
  have hget : (keys.walletList.take (addrCount keys options))[k]? =
      some (keys.walletList.getD k Address.null) := by
    rw [List.getElem?_take_of_lt hk, List.getD_eq_getElem?_getD,
      List.getElem?_eq_getElem (Nat.lt_of_lt_of_le hk addrCount_le)]
    rfl
  exact List.mem_map.mpr ⟨_, List.mem_of_getElem? hget, rfl⟩

section
variable (h : Ready keys options) (hnodup : keys.walletList.Nodup)
include h

theorem ledger_range (hl : ∀ p ∈ l, p.Within (addrCount keys options)) :
    ∀ f ∈ ledger keys options l, i64 f.amount = f.amount := by
  intro f hf
  obtain hf | hf := List.mem_append.mp hf
  · exact (h.moves_fund.typed f hf).2
  · obtain ⟨p, hp, hf⟩ := List.mem_flatMap.mp hf
    exact ((h.moves_pay (hl p hp)).typed f hf).2

theorem wallet_ne_inn {k : Nat} (hk : k < addrCount keys options) :
    keys.walletList.getD k Address.null ≠ keys.innAddr := by
  intro heq
  have hwallet := h.equipped.wallets _ (getWalletAddr_eq (Nat.lt_of_lt_of_le hk addrCount_le)).2
  rw [heq] at hwallet
  exact hwallet.not_isNode h.equipped.inn

include hnodup

omit h in
theorem wallet_inj {i k : Nat} (hi : i < addrCount keys options) (hk : k < addrCount keys options) :
    keys.walletList.getD i Address.null = keys.walletList.getD k Address.null ↔ i = k := by
  have hle : addrCount keys options ≤ keys.walletList.length := addrCount_le
  rw [List.getD_eq_getElem _ _ (Nat.lt_of_lt_of_le hi hle),
    List.getD_eq_getElem _ _ (Nat.lt_of_lt_of_le hk hle)]
  exact hnodup.getElem_inj_iff

theorem net_fund {k : Nat} (hk : k < addrCount keys options) :
    net Flow.slot Flow.amount (grant keys options :: shares keys options)
      (keys.walletList.getD k Address.null, 0) =
        ((addrCount keys options - 1) * options.txAmount : Nat) := by
  have hslots : ((shares keys options).map Flow.slot).Nodup := by
    rw [shares, List.map_map]
    refine List.Nodup.map (fun a b hab => ?_) (hnodup.sublist (List.take_sublist _ _))
    exact congrArg Prod.fst hab
  have hinn : (grant keys options).slot ≠ (keys.walletList.getD k Address.null, 0) :=
    fun heq => wallet_ne_inn h hk (congrArg Prod.fst heq).symm
  rw [net_cons, if_neg hinn, Int.zero_add]
  exact net_of_nodup Flow.slot Flow.amount hslots (mem_shares hk)

theorem net_pay {k : Nat} (hk : k < addrCount keys options) {p : Payment}
    (hp : p.Within (addrCount keys options)) :
    net Flow.slot Flow.amount [p.outflow keys (addrCount keys options) options.txAmount,
      p.inflow keys (addrCount keys options) options.txAmount]
      (keys.walletList.getD k Address.null, 0) =
        p.delta (addrCount keys options) options.txAmount k := by
  have hinn : ¬ (keys.innAddr = keys.walletList.getD k Address.null) := (wallet_ne_inn h hk).symm
  rw [net_cons, net_cons, net_nil, Int.add_zero]
  cases p with
  | peer i j =>
    simp only [Payment.outflow, Payment.inflow, Payment.sender, Payment.receiver, Payment.amount,
      Payment.delta, Flow.slot, Prod.mk.injEq, and_true, wallet_inj hnodup hp.1 hk,
      wallet_inj hnodup hp.2 hk]
    split_ifs <;> omega
  | back i =>
    simp only [Payment.outflow, Payment.inflow, Payment.sender, Payment.receiver, Payment.amount,
      Payment.delta, Flow.slot, Prod.mk.injEq, and_true, wallet_inj hnodup hp hk, hinn, if_false,
      Int.add_zero]

theorem net_ledger {k : Nat} (hk : k < addrCount keys options)
    (hl : ∀ p ∈ l, p.Within (addrCount keys options)) :
    net Flow.slot Flow.amount (ledger keys options l) (keys.walletList.getD k Address.null, 0) =
      holding (addrCount keys options) options.txAmount k l := by
  rw [ledger, net_append, net_fund h hnodup hk, holding]
  congr 1
  induction l with
  | nil => rfl
  | cons p l ih =>
    obtain ⟨hp, hrest⟩ := List.forall_mem_cons.mp hl
    rw [List.flatMap_cons, net_append, net_pay h hnodup hk hp, ih hrest, List.map_cons, List.sum_cons]

theorem entry_ledger {k : Nat} (hk : k < addrCount keys options)
    (hl : ∀ p ∈ l, p.Within (addrCount keys options)) :
    (ChainState.empty.addCoins ((ledger keys options l).map Flow.smartCoin)).entry
      (keys.walletList.getD k Address.null) 0 =
        some (i64 (holding (addrCount keys options) options.txAmount k l)) := by
  have htouches : Touches Flow.slot (ledger keys options l) (keys.walletList.getD k Address.null, 0) :=
    ⟨_, List.mem_append_left _ (List.mem_cons_of_mem _ (mem_shares hk)), rfl⟩
  rw [ChainState.entry_addCoins, if_pos ((ChainState.touches_smartCoin _ _).mpr htouches),
    ChainState.net_smartCoin (ledger_range h hl), net_ledger h hnodup hk hl]
  congr 2
  exact Int.zero_add _

omit h hnodup in
theorem ledger_addr (hl : ∀ p ∈ l, p.Within (addrCount keys options)) {f : Flow}
    (hf : f ∈ ledger keys options l) : f.addr = keys.innAddr ∨
      ∃ k < addrCount keys options, f.addr = keys.walletList.getD k Address.null := by
  obtain hf | hf := List.mem_append.mp hf
  · obtain rfl | hf := List.mem_cons.mp hf
    · exact Or.inl rfl
    · obtain ⟨w, hw, rfl⟩ := List.mem_map.mp hf
      obtain ⟨k, hk, rfl⟩ := List.mem_take_iff_getElem.mp hw
      have hk' : k < addrCount keys options ∧ k < keys.walletList.length := by omega
      exact Or.inr ⟨k, hk'.1, (List.getD_eq_getElem _ _ hk'.2).symm⟩
  · obtain ⟨p, hp, hf⟩ := List.mem_flatMap.mp hf
    have hwithin := hl p hp
    obtain rfl | hf := List.mem_cons.mp hf
    · cases p with
      | peer i j => exact Or.inr ⟨i, hwithin.1, rfl⟩
      | back i => exact Or.inr ⟨i, hwithin, rfl⟩
    · obtain rfl := List.mem_singleton.mp hf
      cases p with
      | peer i j => exact Or.inr ⟨j, hwithin.2, rfl⟩
      | back i => exact Or.inl rfl

theorem balance_nonneg (hl : ∀ p ∈ l, p.Within (addrCount keys options))
    (hsolvent : ∀ k < addrCount keys options,
      0 ≤ holding (addrCount keys options) options.txAmount k l ∧
        holding (addrCount keys options) options.txAmount k l < 2 ^ 63)
    {w : Address} (hw : w ∈ keys.walletList) :
    0 ≤ (ChainState.empty.addCoins ((ledger keys options l).map Flow.smartCoin)).balance w 0 := by
  by_cases hpays : ∃ k < addrCount keys options, w = keys.walletList.getD k Address.null
  · obtain ⟨k, hk, rfl⟩ := hpays
    obtain ⟨hpos, hfit⟩ := hsolvent k hk
    rw [ChainState.balance, entry_ledger h hnodup hk hl, i64_of_bounds (by omega) hfit]
    exact hpos
  · have hnot : ¬ Touches Flow.slot (ledger keys options l) (w, 0) := by
      rintro ⟨f, hf, hslot⟩
      have haddr : f.addr = w := congrArg Prod.fst hslot
      obtain hinn | ⟨k, hk, hwallet⟩ := ledger_addr hl hf
      · have hnode := h.equipped.inn
        rw [← hinn, haddr] at hnode
        exact (h.equipped.wallets w hw).not_isNode hnode
      · exact hpays ⟨k, hk, haddr.symm.trans hwallet⟩
    rw [ChainState.balance_addCoins, if_neg (fun ht => hnot ((ChainState.touches_smartCoin _ _).mp ht))]
    exact Int.le_refl 0

/-- One payment after the others: it is accepted if its sender can pay. -/
theorem validate_pay {b : Books} {tx : Tier2Transaction} {p : Payment}
    (hb : b.state = ChainState.empty.addCoins ((ledger keys options l).map Flow.smartCoin))
    (hl : ∀ p ∈ l, p.Within (addrCount keys options)) (hp : p.Within (addrCount keys options))
    (htx : tx.Settled OpType.exchange.toByte
      [p.outflow keys (addrCount keys options) options.txAmount,
        p.inflow keys (addrCount keys options) options.txAmount])
    (hsolvent : 0 ≤ holding (addrCount keys options) options.txAmount p.sender l ∧
      holding (addrCount keys options) options.txAmount p.sender l < 2 ^ 63) :
    (Tier2Transaction.validate keys.toKeyRing b tx).state =
      ChainState.empty.addCoins ((ledger keys options (l ++ [p])).map Flow.smartCoin) := by
  have hsender := p.sender_lt hp
  have hentry := entry_ledger h hnodup hsender hl
  rw [i64_of_bounds (by omega) hsolvent.2, ← hb] at hentry
  have hspend : ∃ available, b.state.getAmount 0 (keys.walletList.getD p.sender Address.null) =
      .ok available ∧ -(p.amount (addrCount keys options) options.txAmount : Int) ≤ available :=
    ⟨_, ChainState.getAmount_of_entry hentry, by omega⟩
  rw [(htx.validate (h.moves_pay hp) (fun _ => hspend)).2, hb, ← ChainState.addCoins_append,
    ← List.map_append, ledger_concat]

omit hnodup in
theorem bounds_of_solvent (hs : Solvent (addrCount keys options) options.txAmount l) {k : Nat}
    (hk : k < addrCount keys options) {q : List Payment} (hq : q <+: l) :
    0 ≤ holding (addrCount keys options) options.txAmount k q ∧
      holding (addrCount keys options) options.txAmount k q < 2 ^ 63 := by
  obtain ⟨hlow, hhigh⟩ := hs q hq k hk
  have hfits := h.fits
  have htwo : 2 * ((addrCount keys options - 1) * options.txAmount) ≤
      addrCount keys options * ((addrCount keys options - 1) * options.txAmount) :=
    Nat.mul_le_mul_right _ h.wallets
  rw [Nat.mul_assoc] at hfits
  exact ⟨hlow, by omega⟩

theorem replay {b : Books} {txs : List Tier2Transaction} {q : List Payment}
    (hb : b.state = ChainState.empty.addCoins ((ledger keys options q).map Flow.smartCoin))
    (hall : List.Forall₂ (fun tx p => tx.Settled OpType.exchange.toByte
      [Payment.outflow keys (addrCount keys options) options.txAmount p,
        Payment.inflow keys (addrCount keys options) options.txAmount p]) txs l)
    (hl : ∀ p ∈ q ++ l, p.Within (addrCount keys options))
    (hs : Solvent (addrCount keys options) options.txAmount (q ++ l)) :
    (Run.after (Tier2Transaction.validate keys.toKeyRing) b txs).state =
      ChainState.empty.addCoins ((ledger keys options (q ++ l)).map Flow.smartCoin) := by
  induction hall generalizing b q with
  | nil => rw [List.append_nil]; exact hb
  | @cons tx p txs l htx hall ih =>
    have hp := hl p (List.mem_append_right q List.mem_cons_self)
    have hnext := validate_pay h hnodup hb (fun p hp => hl p (List.mem_append_left _ hp)) hp htx
      (bounds_of_solvent h hs (p.sender_lt hp) (List.prefix_append q _))
    rw [List.append_cons] at hl hs ⊢
    exact ih hnext hl hs

omit hnodup in
theorem validate_fund {tx : Tier2Transaction}
    (htx : tx.Settled OpType.create.toByte (grant keys options :: shares keys options)) :
    (Tier2Transaction.validate keys.toKeyRing Books.empty tx).state =
      ChainState.empty.addCoins ((ledger keys options []).map Flow.smartCoin) := by
  rw [(htx.validate h.moves_fund (fun hoper => absurd hoper (by decide))).2, ledger, List.flatMap_nil,
    List.append_nil]
  rfl

end

/-- No wallet has a negative balance. -/
def NoneOverdrawn (keys : KeyDirectory o) (b : Books) : Prop :=
  ∀ w ∈ keys.walletList, 0 ≤ b.state.balance w 0

section
variable (h : Ready keys options) (hnodup : keys.walletList.Nodup) {tx : Tier2Transaction}
  {txs : List Tier2Transaction}
  (htx : tx.Settled OpType.create.toByte (grant keys options :: shares keys options))
  (hall : List.Forall₂ (fun tx p => tx.Settled OpType.exchange.toByte
    [Payment.outflow keys (addrCount keys options) options.txAmount p,
      Payment.inflow keys (addrCount keys options) options.txAmount p]) txs l)
  (hl : ∀ p ∈ l, p.Within (addrCount keys options))
include h hnodup htx hall hl

theorem replay_take (m : Nat) (hs : Solvent (addrCount keys options) options.txAmount (l.take m)) :
    (Run.after (Tier2Transaction.validate keys.toKeyRing) Books.empty (tx :: txs.take m)).state =
      ChainState.empty.addCoins ((ledger keys options (l.take m)).map Flow.smartCoin) := by
  rw [Run.after_cons]
  exact replay h hnodup (validate_fund h htx) (List.forall₂_take m hall)
    (fun p hp => hl p (List.mem_of_mem_take hp)) hs

theorem noneOverdrawn_of_solvent (hs : Solvent (addrCount keys options) options.txAmount l) :
    Run.Always (Tier2Transaction.validate keys.toKeyRing) (NoneOverdrawn keys) Books.empty
      (tx :: txs) := by
  intro l1 hl1 w hw
  cases l1 with
  | nil => exact Int.le_refl 0
  | cons tx' t =>
    obtain ⟨rfl, ht⟩ := List.cons_prefix_cons.mp hl1
    rw [List.prefix_iff_eq_take.mp ht]
    have htake : l.take t.length <+: l := List.take_prefix _ _
    rw [replay_take h hnodup htx hall hl t.length (fun q hq => hs q (hq.trans htake))]
    exact balance_nonneg h hnodup (fun p hp => hl p (htake.subset hp))
      (fun k hk => bounds_of_solvent h hs hk htake) hw

theorem overdrawn {q : List Payment} {p : Payment} (hq : q ++ [p] <+: l)
    (hs : Solvent (addrCount keys options) options.txAmount q)
    (hneg : holding (addrCount keys options) options.txAmount p.sender (q ++ [p]) < 0)
    (hfit : -2 ^ 63 ≤ holding (addrCount keys options) options.txAmount p.sender (q ++ [p])) :
    ¬ Run.Always (Tier2Transaction.validate keys.toKeyRing) (NoneOverdrawn keys) Books.empty
      (tx :: txs) := by
  intro halways
  have hbegun : q <+: l := (List.prefix_append q [p]).trans hq
  have hwithin : ∀ p' ∈ q ++ [p], p'.Within (addrCount keys options) := fun p' hp' => hl p' (hq.subset hp')
  have hp := hwithin p (List.mem_append_right q (List.mem_singleton_self p))
  have hsender := p.sender_lt hp
  have hplace : l[q.length]? = some p := by
    obtain ⟨rest, rfl⟩ := hq
    rw [List.append_assoc, List.getElem?_append_right (Nat.le_refl _), Nat.sub_self]
    rfl
  obtain ⟨hlt, hget⟩ := List.getElem?_eq_some_iff.mp hplace
  obtain ⟨hlength, hrelated⟩ := List.forall₂_iff_get.mp hall
  have hlt' : q.length < txs.length := hlength ▸ hlt
  have hsettled := hrelated q.length hlt' hlt
  rw [List.get_eq_getElem, List.get_eq_getElem, hget] at hsettled
  have hstate := replay_take h hnodup htx hall hl q.length (by
    rw [← List.prefix_iff_eq_take.mp hbegun]
    exact hs)
  rw [← List.prefix_iff_eq_take.mp hbegun] at hstate
  have hnext := validate_pay h hnodup hstate (fun p' hp' => hl p' (hbegun.subset hp')) hp hsettled
    (bounds_of_solvent h hs hsender (List.prefix_refl q))
  have htake : tx :: txs.take q.length ++ [txs[q.length]] <+: tx :: txs := by
    rw [List.cons_append, List.cons_prefix_cons, ← List.take_succ_eq_append_getElem]
    exact ⟨rfl, List.take_prefix _ _⟩
  have hw := (getWalletAddr_eq (Nat.lt_of_lt_of_le hsender addrCount_le)).2
  have hbalance := halways _ htake _ hw
  rw [Run.after_append, Run.after_cons, Run.after_nil, hnext, ChainState.balance,
    entry_ledger h hnodup hsender hwithin, i64_of_bounds hfit (by omega)] at hbalance
  exact absurd hbalance (Int.not_le.mpr hneg)

end

theorem holding_pay_first {n txAmount : Nat} {q : List Payment} (hq : holding n txAmount 0 q = 0) :
    holding n txAmount 0 (q ++ [.peer 0 1]) = -txAmount := by
  rw [holding_append, hq]
  simp [Payment.delta]

theorem peers_eq_cons {n : Nat} (hn : 2 ≤ n) (rel : Nat → Nat → Bool) (hself : rel 0 0 = false)
    (hrel : rel 0 1 = true) : ∃ rest, peers n rel = .peer 0 1 :: rest := by
  obtain ⟨n, rfl⟩ : ∃ m, n = m + 2 := ⟨n - 2, by omega⟩
  have hrange : List.range (n + 2) = 0 :: 1 :: (List.range n).map (· + 2) := by
    rw [List.range_succ_eq_map, List.range_succ_eq_map]
    simp [Function.comp_def]
  rw [peers, hrange, List.flatMap_cons, List.filter_cons_of_neg (by rw [hself]; decide),
    List.filter_cons_of_pos hrel]
  exact ⟨_, rfl⟩

theorem prefix_next_round {n : Nat} (hn : 2 ≤ n) {round rest : List Payment} {p : Payment}
    (hround : round = p :: rest) : round ++ [p] <+: (List.replicate n round).flatten := by
  obtain ⟨n, rfl⟩ : ∃ m, n = m + 2 := ⟨n - 2, by omega⟩
  rw [List.replicate_succ, List.flatten_cons, List.prefix_append_right_inj, List.replicate_succ,
    List.flatten_cons]
  refine List.IsPrefix.trans ?_ (List.prefix_append _ _)
  rw [hround]
  exact ⟨rest, rfl⟩

/-- The payments for which there are transactions. -/
def paid (keys : KeyDirectory o) (options : GeneratorOptions) (rel : Nat → Nat → Bool)
    (closing : Bool) : List Payment :=
  (List.replicate options.generateCount (peers (addrCount keys options) rel ++
    if closing then backs (addrCount keys options) else [])).flatten.take (options.generateCount - 1)

section
variable (h : Ready keys options) (rel : Nat → Nat → Bool) (hself : ∀ i, rel i i = false)
  (hrel : rel 0 1 = true) (closing : Bool)

theorem round_within {p : Payment} (hp : p ∈ peers (addrCount keys options) rel ++
    if closing then backs (addrCount keys options) else []) :
    p.Within (addrCount keys options) := by
  obtain hp | hp := List.mem_append.mp hp
  · obtain ⟨i, j, rfl, hi, hj⟩ := peers_peer _ _ hp
    exact ⟨hi, hj⟩
  · cases closing with
    | false => cases hp
    | true =>
      obtain ⟨i, hi, rfl⟩ := List.mem_map.mp hp
      exact List.mem_range.mp hi

theorem paid_within {p : Payment} (hp : p ∈ paid keys options rel closing) :
    p.Within (addrCount keys options) := by
  obtain ⟨round, hround, hp⟩ := List.mem_flatten.mp (List.mem_of_mem_take hp)
  rw [List.eq_of_mem_replicate hround] at hp
  exact round_within rel closing hp

include h hself hrel

theorem generate_paid (millis : Nat → Nat) (recheck : Bool) :
    ∃ s tx txs, generate keys options millis
        (fun i => (List.range (addrCount keys options)).filter (rel i)) closing recheck = .ok s ∧
      s.out = tx :: txs ∧ s.out.length = options.generateCount ∧
      tx.Settled OpType.create.toByte (grant keys options :: shares keys options) ∧
      List.Forall₂ (fun tx p => tx.Settled OpType.exchange.toByte
        [Payment.outflow keys (addrCount keys options) options.txAmount p,
          Payment.inflow keys (addrCount keys options) options.txAmount p]) txs
        (paid keys options rel closing) := by
  obtain ⟨rest, hcons⟩ := peers_eq_cons h.wallets rel (hself 0) hrel
  have hround : payments (addrCount keys options)
      (fun i => (List.range (addrCount keys options)).filter (rel i)) closing ≠ [] := by
    change peers (addrCount keys options) rel ++ _ ≠ []
    rw [hcons]
    exact List.cons_ne_nil _ _
  obtain ⟨s, tx, txs, hgen, hout, hfund, hall⟩ := h.generate_makes millis recheck
    (fun p hp => round_within rel closing hp) hround
  have hpaid : List.Forall₂ _ txs (paid keys options rel closing) := hall
  refine ⟨s, tx, txs, hgen, hout, ?_, hfund, hpaid⟩
  have hlength : 1 ≤ (peers (addrCount keys options) rel ++
      if closing then backs (addrCount keys options) else []).length :=
    List.length_pos_iff.mpr hround
  have hcount := addrCount_sq_lt h.wallets
  have hmany := Nat.mul_le_mul_left options.generateCount hlength
  rw [hout, List.length_cons, hpaid.length_eq, paid, List.length_take, List.length_flatten,
    List.map_replicate, List.sum_replicate_nat]
  omega

end

theorem circuit_size {n : Nat} (hn : 2 ≤ n) : (peers n everyOther ++ backs n).length = n * n := by
  obtain ⟨n, rfl⟩ : ∃ m, n = m + 1 := ⟨n - 1, by omega⟩
  rw [List.length_append, length_everyOther, backs, List.length_map, List.length_range]
  exact (Nat.mul_succ _ _).symm

theorem length_peers_le (n : Nat) (rel : Nat → Nat → Bool) (hself : ∀ i, rel i i = false) :
    (peers n rel).length ≤ n * (n - 1) := by
  have hrow : ∀ x ∈ (List.range n).map (fun i =>
      (((List.range n).filter (rel i)).map (Payment.peer i)).length), x ≤ n - 1 := by
    intro x hx
    obtain ⟨i, hi, rfl⟩ := List.mem_map.mp hx
    rw [List.length_map, ← List.countP_eq_length_filter]
    exact countP_le_others n (hself i) (List.mem_range.mp hi)
  rw [peers, List.length_flatMap]
  refine (List.sum_le_card_nsmul _ _ hrow).trans ?_
  rw [List.length_map, List.length_range]
  exact Nat.le_refl _

theorem solvent_paid_open :
    Solvent (addrCount keys options) options.txAmount (paid keys options everyOther false) := by
  intro q hq
  refine solvent_rounds _ _ options.generateCount q (hq.trans ?_)
  rw [paid, if_neg Bool.false_ne_true, List.append_nil]
  exact List.take_prefix _ _

theorem solvent_paid_once (hn : 2 ≤ addrCount keys options)
    (hone : options.generateCount = addrCount keys options * addrCount keys options + 1) :
    Solvent (addrCount keys options) options.txAmount (paid keys options everyOther true) := by
  have htake : options.generateCount - 1 =
      (peers (addrCount keys options) everyOther ++ backs (addrCount keys options)).length := by
    rw [circuit_size hn]
    omega
  have hpaid : paid keys options everyOther true =
      peers (addrCount keys options) everyOther ++ backs (addrCount keys options) := by
    obtain ⟨m, hm⟩ : ∃ m, options.generateCount = m + 1 := ⟨options.generateCount - 1, by omega⟩
    rw [paid, if_pos rfl, htake, hm, List.replicate_succ, List.flatten_cons, List.take_left]
  rw [hpaid]
  exact solvent_closed _ _

theorem overdrawn_next_round (h : Ready keys options) (hnodup : keys.walletList.Nodup)
    {tx : Tier2Transaction} {txs : List Tier2Transaction} {rel : Nat → Nat → Bool} {closing : Bool}
    {rest : List Payment}
    (htx : tx.Settled OpType.create.toByte (grant keys options :: shares keys options))
    (hall : List.Forall₂ (fun tx p => tx.Settled OpType.exchange.toByte
      [Payment.outflow keys (addrCount keys options) options.txAmount p,
        Payment.inflow keys (addrCount keys options) options.txAmount p]) txs
      (paid keys options rel closing))
    (hround : (peers (addrCount keys options) rel ++
      if closing then backs (addrCount keys options) else []) = .peer 0 1 :: rest)
    (hs : Solvent (addrCount keys options) options.txAmount (.peer 0 1 :: rest))
    (hzero : holding (addrCount keys options) options.txAmount 0 (.peer 0 1 :: rest) = 0)
    (hsize : (Payment.peer 0 1 :: rest).length + 1 < options.generateCount) :
    ¬ Run.Always (Tier2Transaction.validate keys.toKeyRing) (NoneOverdrawn keys) Books.empty
      (tx :: txs) := by
  have hpos := h.amount
  have hfit := (h.amount_bounds (.peer 0 1)).2
  rw [Payment.amount] at hfit
  have hlast := holding_pay_first hzero
  refine overdrawn h hnodup htx hall (fun p hp => paid_within rel closing hp)
    (q := .peer 0 1 :: rest) (p := .peer 0 1) ?_ hs ?_ ?_
  · rw [paid, hround, List.prefix_take_iff]
    refine ⟨prefix_next_round (by omega) rfl, ?_⟩
    rw [List.length_append, List.length_singleton]
    omega
  · rw [Payment.sender, hlast]
    omega
  · rw [Payment.sender, hlast]
    omega

/-- `circuit` makes as many transactions as it was asked for. Validated in their order they overdraw
no wallet, unless the wallets pay back and too few of them are there for one circuit to be all. -/
theorem circuit_overdraws_iff (h : Ready keys options) (hnodup : keys.walletList.Nodup)
    (millis : Nat → Nat) : ∃ s, circuit keys options millis = .ok s ∧
      s.out.length = options.generateCount ∧
      (Run.Always (Tier2Transaction.validate keys.toKeyRing) (NoneOverdrawn keys) Books.empty s.out ↔
        (options.clearState = true →
          options.generateCount = addrCount keys options * addrCount keys options + 1)) := by
  obtain ⟨s, tx, txs, hgen, hout, hlength, hfund, hall⟩ := generate_paid h everyOther
    (fun i => by simp) (by simp) options.clearState millis false
  refine ⟨s, hgen, hlength, ?_⟩
  rw [hout]
  cases hclear : options.clearState with
  | false =>
    rw [hclear] at hall
    exact iff_of_true (noneOverdrawn_of_solvent h hnodup hfund hall
      (fun p hp => paid_within everyOther false hp) solvent_paid_open) (fun hno => nomatch hno)
  | true =>
    rw [hclear] at hall
    by_cases hone : options.generateCount = addrCount keys options * addrCount keys options + 1
    · exact iff_of_true (noneOverdrawn_of_solvent h hnodup hfund hall
        (fun p hp => paid_within everyOther true hp) (solvent_paid_once h.wallets hone)) (fun _ => hone)
    · obtain ⟨rest, hcons⟩ := peers_eq_cons h.wallets everyOther (by simp) (by simp)
      have hround : peers (addrCount keys options) everyOther ++ backs (addrCount keys options) =
          .peer 0 1 :: (rest ++ backs (addrCount keys options)) := by
        rw [hcons, List.cons_append]
      have hmore := addrCount_sq_lt h.wallets
      refine iff_of_false (overdrawn_next_round h hnodup hfund hall hround ?_ ?_ ?_)
        (fun hno => hone (hno rfl))
      · rw [← hround]
        exact solvent_closed _ _
      · rw [← hround]
        exact holding_closed _ _ 0 (by have := h.wallets; omega)
      · rw [← hround, circuit_size h.wallets]
        omega

def sampleMap : OrdMap Address Address :=
  ((OrdMap.empty.insert (Address.sampleNode 1) (Address.sampleNode 1)).insert
    (Address.sample 1) (Address.sample 1)).insert (Address.sample 2) (Address.sample 2)

/-- Two wallets and an INN, each with its own key. -/
def sampleKeys : KeyDirectory Ossl.toy where
  keyMap := sampleMap
  nodeList := []
  walletList := [Address.sample 1, Address.sample 2]
  innAddr := Address.sampleNode 1

theorem equipped_sampleKeys : sampleKeys.Equipped where
  inn := by decide
  wallets := by decide
  signs := by
    have hnode : ∀ h, (Ossl.toySignature (Address.sampleNode 1) h).IsNode := by
      intro h
      rw [Ossl.toySignature, if_neg (by decide)]
      refine ⟨?_, rfl⟩
      simp only [List.length_cons, List.length_take, List.length_append, List.length_replicate, h.2,
        kNodeSigBufSize, kNodeSigSize]
      omega
    have hwallet : ∀ n h, (Ossl.toySignature (Address.sample n) h).IsWallet :=
      fun n h => Ossl.isWallet_toySignature rfl h
    have hfind : ∀ a ∈ [Address.sampleNode 1, Address.sample 1, Address.sample 2],
        sampleMap.find? a = some a := by decide +kernel
    intro a ha
    simp only [sampleKeys, List.mem_cons, List.not_mem_nil, or_false] at ha
    have hkey := hfind a (by simpa using ha)
    obtain rfl | rfl | rfl := ha
    · exact ⟨_, hkey, fun h =>
        ⟨_, rfl, ⟨fun hw => absurd hw (by decide), fun _ => hnode h⟩, decide_eq_true rfl⟩⟩
    · exact ⟨_, hkey, fun h =>
        ⟨_, rfl, ⟨fun _ => hwallet 1 h, fun hn => absurd hn (by decide)⟩, decide_eq_true rfl⟩⟩
    · exact ⟨_, hkey, fun h =>
        ⟨_, rfl, ⟨fun _ => hwallet 2 h, fun hn => absurd hn (by decide)⟩, decide_eq_true rfl⟩⟩

section
variable {options : GeneratorOptions} (hcount : options.generateCount = 5)
include hcount

theorem addrCount_sampleKeys : addrCount sampleKeys options = 2 := by
  rw [addrCount, hcount, show (5 - 1 : Nat) = 2 * 2 from rfl, Nat.sqrt_eq]
  rfl

theorem ready_sampleKeys (hamount : options.txAmount = 3) : Ready sampleKeys options where
  equipped := equipped_sampleKeys
  wallets := (addrCount_sampleKeys hcount).ge
  amount := by omega
  fits := by
    rw [addrCount_sampleKeys hcount, hamount]
    decide
  count := by omega

end

/-- A circuit of five transactions, after which the wallets have nothing. -/
theorem circuit_overdraws_iff_sampleKeys : ∃ s, circuit sampleKeys ⟨0, 5, 3, true⟩ id = .ok s ∧
    s.out.length = 5 ∧
    Run.Always (Tier2Transaction.validate sampleKeys.toKeyRing) (NoneOverdrawn sampleKeys) Books.empty
      s.out := by
  have hready : Ready sampleKeys ⟨0, 5, 3, true⟩ := ready_sampleKeys rfl rfl
  obtain ⟨s, hrun, hlength, hiff⟩ := circuit_overdraws_iff hready (by decide) id
  refine ⟨s, hrun, hlength, hiff.mpr (fun _ => ?_)⟩
  rw [addrCount_sampleKeys rfl]

/-- `laminar` makes as many transactions as it was asked for, and they overdraw a wallet. -/
theorem laminar_overdraws (h : Ready keys options) (hnodup : keys.walletList.Nodup)
    (millis : Nat → Nat) : ∃ s, laminar keys options millis = .ok s ∧
      s.out.length = options.generateCount ∧
      ¬ Run.Always (Tier2Transaction.validate keys.toKeyRing) (NoneOverdrawn keys) Books.empty
        s.out := by
  have hself : ∀ i, behind i i = false := by simp
  obtain ⟨s, tx, txs, hgen, hout, hlength, hfund, hall⟩ := generate_paid h behind hself (by simp) false
    millis true
  obtain ⟨rest, hround⟩ := peers_eq_cons h.wallets behind (by simp) (by simp)
  have hn := h.wallets
  refine ⟨s, hgen, hlength, ?_⟩
  rw [hout]
  refine overdrawn_next_round h hnodup hfund hall ((List.append_nil _).trans hround) ?_ ?_ ?_
  · rw [← hround]
    exact solvent_peers _ _ hself
  · rw [← hround]
    exact holding_behind _ _ (by omega)
  · rw [← hround]
    have hsize := length_peers_le (addrCount keys options) behind hself
    have hmore := addrCount_sq_lt h.wallets
    have hsq := circuit_size h.wallets
    rw [List.length_append, length_everyOther, backs, List.length_map, List.length_range] at hsq
    omega

theorem laminar_overdraws_sampleKeys : ∃ s, laminar sampleKeys ⟨0, 5, 3, false⟩ id = .ok s ∧
    s.out.length = 5 ∧
    ¬ Run.Always (Tier2Transaction.validate sampleKeys.toKeyRing) (NoneOverdrawn sampleKeys)
      Books.empty s.out :=
  laminar_overdraws (ready_sampleKeys rfl rfl) (by decide) id

end Generator
end Devcash
