import Devcash.KeyRing
import Devcash.Summary

/-! The two ledgers that validation keeps, as functions of what was posted to them. A
chain state remembers the net of every account, but a lookup throws where an address has
other coins only; a summary does not depend on the order of its items. -/
namespace Devcash
open Postings

namespace ChainState

theorem getAmount_addCoins (l : List SmartCoin) (c : Nat) (a : Address) :
    (empty.addCoins l).getAmount c a =
      if (∃ k ∈ l, k.addr = a) ∧ ¬ Touches SmartCoin.slot l (a, c) then .error .outOfRange
      else .ok (i64 (net SmartCoin.slot SmartCoin.amount l (a, c))) := by
  have hknows : (empty.addCoins l).knows a = true ↔ ∃ k ∈ l, k.addr = a := by
    rw [knows_addCoins]
    exact or_iff_right Bool.false_ne_true
  have hentry : (empty.addCoins l).entry a c = none ↔ ¬ Touches SmartCoin.slot l (a, c) := by
    rw [entry_addCoins]
    by_cases ht : Touches SmartCoin.slot l (a, c)
    · rw [if_pos ht]
      exact iff_of_false (Option.some_ne_none _) (not_not.mpr ht)
    · rw [if_neg ht]
      exact iff_of_true rfl ht
  have hbalance : (empty.addCoins l).balance a c =
      i64 (net SmartCoin.slot SmartCoin.amount l (a, c)) := by
    have hzero : empty.balance a c = 0 := rfl
    rw [balance_addCoins, hzero, Int.zero_add]
    split_ifs with ht
    · rfl
    · rw [net_of_not_touches _ _ ht]
      rfl
  simp only [getAmount_eq, hknows, hentry, hbalance]

/-- A balance is the sum of the amounts that were added for it, as a 64-bit value, exactly
when the address has had the coin or has had none at all. -/
theorem getAmount_faithful_iff (l : List SmartCoin) (c : Nat) (a : Address) :
    (empty.addCoins l).getAmount c a =
        .ok (i64 (net SmartCoin.slot SmartCoin.amount l (a, c))) ↔
      ((∃ k ∈ l, k.addr = a) → Touches SmartCoin.slot l (a, c)) := by
  rw [getAmount_addCoins]
  by_cases h : (∃ k ∈ l, k.addr = a) ∧ ¬ Touches SmartCoin.slot l (a, c)
  · rw [if_pos h]
    exact iff_of_false (by simp) (fun himp => h.2 (himp h.1))
  · rw [if_neg h]
    exact iff_of_true rfl (fun hk => not_not.mp (fun ht => h ⟨hk, ht⟩))

/-- A wallet that has received 5 coins of type 1 is asked for its coins of type 2. -/
theorem otherCoin_throws :
    (empty.addCoins [SmartCoin.make (Address.sample 1) 1 5]).getAmount 2 (Address.sample 1) =
        .error .outOfRange ∧
      net SmartCoin.slot SmartCoin.amount [SmartCoin.make (Address.sample 1) 1 5]
        (Address.sample 1, 2) = 0 := by
  decide

end ChainState

namespace Summary

/-- The items of a block may be added in any order. -/
theorem summaryMap_perm {l m : List Flow} (h : l.Perm m) :
    (empty.addFlows l).summary = (empty.addFlows m).summary ∧
      (empty.addFlows l).getCanonical = (empty.addFlows m).getCanonical := by
  have hsame := addFlows_perm noEmpty_empty h
  rw [hsame]
  exact ⟨rfl, rfl⟩

/-- A wallet is posted one coin with a delay, without one and with a longer one; the two
delayed amounts wrap. -/
def sampleItems : List Flow :=
  [⟨Address.sample 1, 1, 2 ^ 63 - 1, 3⟩, ⟨Address.sample 1, 1, -5, 0⟩,
    ⟨Address.sample 1, 1, 2 ^ 63 - 1, 7⟩, ⟨Address.sample 2, 1, 7, 0⟩]

theorem summaryMap_perm_sampleItems :
    (empty.addFlows sampleItems).summary = (empty.addFlows sampleItems.reverse).summary ∧
      (empty.addFlows sampleItems).getCanonical =
        (empty.addFlows sampleItems.reverse).getCanonical :=
  summaryMap_perm (List.reverse_perm sampleItems).symm

example : (empty.addFlows sampleItems).delayedEntry (Address.sample 1) 1 =
    some ⟨7, 2 ^ 64 - 2⟩ := by
  decide

end Summary
end Devcash
