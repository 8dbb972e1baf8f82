import Devcash.Address
import Devcash.Lib.OrdMap
import Devcash.Lib.Postings

/-! `SmartCoin` and `ChainState`: the balances of each address by coin type. -/
namespace Devcash
open Postings

/-- A coin amount; `amount` is an `int64_t`. -/
structure SmartCoin where
  addr : Address
  coin : Nat
  amount : Int
  inRange : i64 amount = amount

/-- `SmartCoin(addr, coin, amount)`: the argument is converted to `int64_t`. -/
def SmartCoin.make (addr : Address) (coin : Nat) (amount : Int) : SmartCoin :=
  ⟨addr, coin, i64 amount, i64_i64 amount⟩

/-- The account a coin amount is posted to. -/
def SmartCoin.slot (k : SmartCoin) : Address × Nat := (k.addr, k.coin)

abbrev CoinMap := OrdMap Nat Int

structure ChainState where
  stateMap : OrdMap Address CoinMap
  deriving DecidableEq

namespace ChainState

def empty : ChainState := ⟨OrdMap.empty⟩

def addCoin (s : ChainState) (coin : SmartCoin) : ChainState :=
  match s.stateMap.find? coin.addr with
  | some inner =>
    ⟨s.stateMap.put coin.addr
      (inner.put coin.coin (i64 ((inner.find? coin.coin).getD 0 + coin.amount)))⟩
  | none => ⟨s.stateMap.insert coin.addr (OrdMap.empty.insert coin.coin coin.amount)⟩

/-- An address without an entry has 0 of every coin; a known address without the
coin makes `at` throw. -/
def getAmount (s : ChainState) (type : Nat) (addr : Address) : Result Int :=
  match s.stateMap.find? addr with
  | some inner =>
    match inner.find? type with
    | some amount => .ok amount
    | none => .error .outOfRange
  | none => .ok 0

/-- Whether the address has an entry, with or without coins. -/
def knows (s : ChainState) (a : Address) : Bool := (s.stateMap.find? a).isSome

def entry (s : ChainState) (a : Address) (c : Nat) : Option Int :=
  (s.stateMap.find? a).bind (fun inner => inner.find? c)

/-- The balance, absent entries counting as 0. -/
def balance (s : ChainState) (a : Address) (c : Nat) : Int := (s.entry a c).getD 0

def NonNeg (s : ChainState) : Prop := ∀ a c, 0 ≤ s.balance a c

theorem find?_addCoin (s : ChainState) (k : SmartCoin) (a : Address) :
    (s.addCoin k).stateMap.find? a =
      if a = k.addr then
        some (((s.stateMap.find? a).getD OrdMap.empty).put k.coin
          (i64 (s.balance a k.coin + k.amount)))
      else s.stateMap.find? a := by
  rw [addCoin]
  cases h : s.stateMap.find? k.addr with
  | some inner =>
    by_cases ha : a = k.addr
    · subst ha
      simp [h, balance, entry]
    · simp [ha]
  | none =>
    by_cases ha : a = k.addr
    · subst ha
      simp [h, balance, entry, OrdMap.insert, k.inRange]
    · simp [OrdMap.find?_insert, ha]

theorem entry_addCoin (s : ChainState) (k : SmartCoin) (a : Address) (c : Nat) :
    (s.addCoin k).entry a c =
      if a = k.addr ∧ c = k.coin then some (i64 (s.balance a c + k.amount))
      else s.entry a c := by
  unfold entry
  rw [find?_addCoin]
  by_cases ha : a = k.addr
  · subst ha
    by_cases hc : c = k.coin
    · subst hc
      simp
    · cases h : s.stateMap.find? k.addr <;> simp [hc]
  · simp [ha]

theorem balance_addCoin (s : ChainState) (k : SmartCoin) (a : Address) (c : Nat) :
    (s.addCoin k).balance a c =
      if a = k.addr ∧ c = k.coin then i64 (s.balance a c + k.amount) else s.balance a c := by
  rw [balance]
  rw [entry_addCoin]
  split_ifs with h
  · simp [balance]
  · rfl

theorem knows_addCoin (s : ChainState) (k : SmartCoin) (a : Address) :
    (s.addCoin k).knows a = (decide (a = k.addr) || s.knows a) := by
  unfold knows
  rw [find?_addCoin]
  by_cases ha : a = k.addr <;> simp [ha]

theorem getAmount_eq (s : ChainState) (c : Nat) (a : Address) :
    s.getAmount c a = if s.knows a = true ∧ s.entry a c = none then .error .outOfRange
      else .ok (s.balance a c) := by
  rw [getAmount, knows, balance, entry]
  cases h : s.stateMap.find? a with
  | none => simp
  | some inner =>
    cases hc : inner.find? c with
    | none => simp [hc]
    | some x => simp [hc]

theorem ext_entry {s s' : ChainState} (hk : ∀ a, s.knows a = s'.knows a)
    (he : ∀ a c, s.entry a c = s'.entry a c) : s = s' := by
  have hm : s.stateMap = s'.stateMap := by
    apply OrdMap.ext_find?
    intro a
    have hka := hk a
    have hea := he a
    unfold knows at hka
    unfold entry at hea
    cases h : s.stateMap.find? a with
    | none =>
      cases h' : s'.stateMap.find? a with
      | none => rfl
      | some m' => simp [h, h'] at hka
    | some m =>
      cases h' : s'.stateMap.find? a with
      | none => simp [h, h'] at hka
      | some m' =>
        have hmm : m = m' := by
          apply OrdMap.ext_find?
          intro c
          simpa [h, h'] using hea c
        rw [hmm]
  cases s; cases s'
  simpa using hm

def addCoins (s : ChainState) (l : List SmartCoin) : ChainState := l.foldl addCoin s

theorem addCoins_cons (s : ChainState) (k : SmartCoin) (l : List SmartCoin) :
    s.addCoins (k :: l) = (s.addCoin k).addCoins l := rfl

theorem addCoins_append (s : ChainState) (l m : List SmartCoin) :
    s.addCoins (l ++ m) = (s.addCoins l).addCoins m := List.foldl_append

theorem entry_addCoins (s : ChainState) (l : List SmartCoin) (a : Address) (c : Nat) :
    (s.addCoins l).entry a c =
      if Touches SmartCoin.slot l (a, c) then
        some (i64 (s.balance a c + net SmartCoin.slot SmartCoin.amount l (a, c)))
      else s.entry a c := by
  induction l generalizing s with
  | nil => rw [if_neg (touches_nil _ _)]; rfl
  | cons k l ih =>
    rw [addCoins_cons, ih, balance_addCoin, entry_addCoin, net_cons]
    by_cases hk : k.slot = (a, c)
    · have h : a = k.addr ∧ c = k.coin := by
        rw [SmartCoin.slot, Prod.mk.injEq] at hk
        exact ⟨hk.1.symm, hk.2.symm⟩
      rw [if_pos h, if_pos h, if_pos hk, if_pos ((touches_cons _ _ _ _).mpr (Or.inl hk)),
        i64_add_i64, Int.add_assoc]
      split_ifs with ht
      · rfl
      · rw [net_of_not_touches _ _ ht, Int.add_zero]
    · have h : ¬ (a = k.addr ∧ c = k.coin) := fun h => hk (by rw [h.1, h.2]; rfl)
      rw [if_neg h, if_neg h, if_neg hk, Int.zero_add]
      simp only [touches_cons, hk, false_or]

theorem balance_addCoins (s : ChainState) (l : List SmartCoin) (a : Address) (c : Nat) :
    (s.addCoins l).balance a c =
      if Touches SmartCoin.slot l (a, c) then
        i64 (s.balance a c + net SmartCoin.slot SmartCoin.amount l (a, c))
      else s.balance a c := by
  rw [balance, entry_addCoins]
  split_ifs
  · rfl
  · rfl

theorem knows_addCoins (s : ChainState) (l : List SmartCoin) (a : Address) :
    (s.addCoins l).knows a = true ↔ s.knows a = true ∨ ∃ k ∈ l, k.addr = a := by
  induction l generalizing s with
  | nil => simp [addCoins]
  | cons k l ih =>
    rw [addCoins_cons, ih, knows_addCoin]
    by_cases ha : a = k.addr
    · simp [ha]
    · simp [ha, Ne.symm ha]

theorem entry_eq_none_of_not_knows {s : ChainState} {a : Address} (h : s.knows a ≠ true)
    (c : Nat) : s.entry a c = none := by
  rw [knows] at h
  rw [entry]
  rw [Option.not_isSome_iff_eq_none.mp h]
  rfl

theorem addCoins_perm (s : ChainState) {l m : List SmartCoin} (h : l.Perm m) :
    s.addCoins l = s.addCoins m := by
  apply ext_entry
  · intro a
    rw [Bool.eq_iff_iff, knows_addCoins, knows_addCoins]
    simp [h.mem_iff]
  · intro a c
    rw [entry_addCoins, entry_addCoins, net_perm _ _ h]
    simp only [touches_perm _ h]

/-- Further coins leave no trace: they cancel out in every slot they touch, and no
slot is new. -/
def Invisible (s : ChainState) (l m : List SmartCoin) : Prop :=
  ∀ a c, Touches SmartCoin.slot m (a, c) →
    i64 (net SmartCoin.slot SmartCoin.amount m (a, c)) = 0 ∧
      (Touches SmartCoin.slot l (a, c) ∨ ∃ x, s.entry a c = some x ∧ i64 x = x)

instance (s : ChainState) (l m : List SmartCoin) : Decidable (s.Invisible l m) :=
  decidable_of_iff (∀ k ∈ m, i64 (net SmartCoin.slot SmartCoin.amount m k.slot) = 0 ∧
      ((∃ j ∈ l, j.slot = k.slot) ∨ (s.entry k.addr k.coin).any (fun x => i64 x = x) = true)) (by
    constructor
    · rintro h a c ⟨k, hk, hslot⟩
      obtain ⟨h1, h2⟩ := h k hk
      rw [hslot] at h1 h2
      rw [SmartCoin.slot, Prod.mk.injEq] at hslot
      rw [← hslot.1, ← hslot.2] at h1 h2 ⊢
      exact ⟨h1, h2.imp id (by simp [Option.any_eq_true])⟩
    · intro h k hk
      obtain ⟨h1, h2⟩ := h k.addr k.coin ⟨k, hk, rfl⟩
      exact ⟨h1, h2.imp id (by simp [Option.any_eq_true])⟩)

theorem entry_append_eq_iff (s : ChainState) (l m : List SmartCoin) (a : Address) (c : Nat) :
    (s.addCoins (l ++ m)).entry a c = (s.addCoins l).entry a c ↔
      (Touches SmartCoin.slot m (a, c) →
        i64 (net SmartCoin.slot SmartCoin.amount m (a, c)) = 0 ∧
          (Touches SmartCoin.slot l (a, c) ∨ ∃ x, s.entry a c = some x ∧ i64 x = x)) := by
  rw [entry_addCoins, entry_addCoins]
  simp only [touches_append, net_append]
  by_cases hm : Touches SmartCoin.slot m (a, c)
  · by_cases hl : Touches SmartCoin.slot l (a, c)
    · simp only [hm, hl, or_true, if_true, Option.some.injEq, ← Int.add_assoc, i64_add_eq_iff,
        true_or, and_true, true_imp_iff]
    · rw [net_of_not_touches _ _ hl]
      cases he : s.entry a c with
      | none => simp [hm, hl]
      | some x =>
        have hb : s.balance a c = x := by rw [balance, he, Option.getD_some]
        simp only [hm, hl, or_true, if_true, if_false, false_or, Option.some.injEq, hb,
          Int.zero_add, true_imp_iff, exists_eq_left']
        constructor
        · intro h
          have hx : i64 x = x := by rw [← h, i64_i64]
          exact ⟨(i64_add_eq_iff x _).mp (h.trans hx.symm), hx⟩
        · intro h
          rw [(i64_add_eq_iff x _).mpr h.1, h.2]
  · simp only [hm, or_false, false_imp_iff, iff_true]
    rw [net_of_not_touches _ _ hm, Int.add_zero]

theorem addCoins_append_eq_iff (s : ChainState) (l m : List SmartCoin) :
    s.addCoins (l ++ m) = s.addCoins l ↔ s.Invisible l m := by
  constructor
  · intro h a c
    rw [← entry_append_eq_iff, h]
  · intro h
    apply ext_entry
    · intro a
      rw [Bool.eq_iff_iff, knows_addCoins, knows_addCoins]
      constructor
      · rintro (hs | ⟨k, hk, rfl⟩)
        · exact Or.inl hs
        · cases List.mem_append.mp hk with
          | inl hk => exact Or.inr ⟨k, hk, rfl⟩
          | inr hk =>
            obtain ⟨-, ⟨k', hk', hs⟩ | ⟨x, hx, -⟩⟩ := h k.addr k.coin ⟨k, hk, rfl⟩
            · exact Or.inr ⟨k', hk', congrArg Prod.fst hs⟩
            · left
              by_contra hn
              rw [entry_eq_none_of_not_knows hn] at hx
              cases hx
      · rintro (hs | ⟨k, hk, rfl⟩)
        · exact Or.inl hs
        · exact Or.inr ⟨k, List.mem_append_left _ hk, rfl⟩
    · intro a c
      exact (entry_append_eq_iff s l m a c).mpr (h a c)

/-- Two states that the same postings make equal: the balances agree where they post, the
entries and the known addresses elsewhere. -/
structure Agree (l : List SmartCoin) (s s' : ChainState) : Prop where
  posted : ∀ a c, Touches SmartCoin.slot l (a, c) → i64 (s.balance a c) = i64 (s'.balance a c)
  elsewhere : ∀ a c, ¬ Touches SmartCoin.slot l (a, c) → s.entry a c = s'.entry a c
  addresses : ∀ a, (∀ k ∈ l, k.addr ≠ a) → s.knows a = s'.knows a

theorem addCoins_eq_iff (l : List SmartCoin) (s s' : ChainState) :
    s.addCoins l = s'.addCoins l ↔ Agree l s s' := by
  constructor
  · intro h
    refine ⟨fun a c ht => ?_, fun a c ht => ?_, fun a hno => ?_⟩
    · have he : (s.addCoins l).entry a c = (s'.addCoins l).entry a c := by rw [h]
      rw [entry_addCoins, entry_addCoins, if_pos ht, if_pos ht] at he
      exact i64_add_right_cancel (Option.some.inj he)
    · have he : (s.addCoins l).entry a c = (s'.addCoins l).entry a c := by rw [h]
      rwa [entry_addCoins, entry_addCoins, if_neg ht, if_neg ht] at he
    · have hnone : ¬ ∃ k ∈ l, k.addr = a := fun hk => by
        obtain ⟨k, hk, ha⟩ := hk
        exact hno k hk ha
      have hk : (s.addCoins l).knows a = true ↔ (s'.addCoins l).knows a = true := by rw [h]
      rw [knows_addCoins, knows_addCoins, or_iff_left hnone, or_iff_left hnone] at hk
      exact Bool.eq_iff_iff.mpr hk
  · intro h
    apply ext_entry
    · intro a
      rw [Bool.eq_iff_iff, knows_addCoins, knows_addCoins]
      by_cases hk : ∃ k ∈ l, k.addr = a
      · exact iff_of_true (Or.inr hk) (Or.inr hk)
      · rw [or_iff_left hk, or_iff_left hk, h.addresses a fun k hkl ha => hk ⟨k, hkl, ha⟩]
    · intro a c
      rw [entry_addCoins, entry_addCoins]
      split_ifs with ht
      · rw [← i64_add_i64, h.posted a c ht, i64_add_i64]
      · exact h.elsewhere a c ht

end ChainState
end Devcash
