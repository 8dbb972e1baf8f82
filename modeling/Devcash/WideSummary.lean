import Devcash.SectionCodec
import Mathlib.Data.List.Nodup
import Mathlib.Data.List.Perm.Basic

/-! A summary of more addresses than the 32-bit count of its encoding can hold. -/
namespace Devcash
open Endian Reader InputBuffer

/-- The wallet with a given number. -/
def Address.numbered (i : Nat) : Address := ⟨33 :: leBytes 33 i⟩

theorem Address.isWallet_numbered (i : Nat) : (Address.numbered i).IsWallet :=
  ⟨by simp [numbered, kWalletAddrBufSize, kWalletAddrSize], rfl⟩

theorem Address.numbered_inj {i j : Nat} (hi : i < 2 ^ 64) (hj : j < 2 ^ 64)
    (h : Address.numbered i = Address.numbered j) : i = j := by
  have hbytes : leBytes 33 i = leBytes 33 j := (List.cons.inj (Address.mk.inj h)).2
  have hvalue := congrArg leValue hbytes
  rw [leValue_leBytes, leValue_leBytes, Nat.mod_eq_of_lt (by omega), Nat.mod_eq_of_lt (by omega)]
    at hvalue
  exact hvalue

namespace Summary

/-- Each of `n` wallets receives nothing. -/
def wideFlows (n : Nat) : List Flow :=
  (List.range n).map (fun i => ⟨Address.numbered i, 0, 0, 0⟩)

def wide (n : Nat) : Summary := empty.addFlows (wideFlows n)

theorem typed_wideFlows (n : Nat) : ∀ f ∈ wideFlows n, f.Typed := by
  intro f hf
  obtain ⟨i, -, rfl⟩ := List.mem_map.mp hf
  exact ⟨Or.inl (Address.isWallet_numbered i), Nat.two_pow_pos 64, Nat.two_pow_pos 64⟩

theorem byItems_wide (n : Nat) : (wide n).ByItems := byItems_empty.addFlows (typed_wideFlows n)

theorem wide_succ (n : Nat) :
    wide (n + 1) = (wide n).addFlow ⟨Address.numbered n, 0, 0, 0⟩ := by
  rw [wide, wideFlows, List.range_succ, List.map_append, addFlows_append]
  rfl

/-- The items of each of the wallets. -/
def nothing : SummaryPair := (OrdMap.empty, OrdMap.empty.insert 0 0)

theorem addToCoinMap_nothing :
    (OrdMap.empty, addToCoinMap 0 (DelayedItem.make 0 0) OrdMap.empty) = nothing ∧
      (nothing.1, addToCoinMap 0 (DelayedItem.make 0 0) nothing.2) = nothing := by
  decide

theorem wide_items (n : Nat) : ∀ e ∈ (wide n).summary.entries,
    e.2 = nothing ∧ ∃ i < n, e.1 = Address.numbered i := by
  induction n with
  | zero => exact fun e he => (List.not_mem_nil he).elim
  | succ n ih =>
    intro e he
    have hfind := OrdMap.find?_eq_some.mpr (show (e.1, e.2) ∈ _ from he)
    rw [wide_succ, find?_addFlow] at hfind
    split_ifs at hfind with ha hd
    · exact absurd hd (Nat.lt_irrefl 0)
    · refine ⟨?_, n, Nat.lt_succ_self n, ha⟩
      -- a wallet that is there already keeps its entry of nothing
      cases hp : (wide n).summary.find? e.1 with
      | none =>
        rw [hp] at hfind
        rw [← Option.some.inj hfind]
        exact addToCoinMap_nothing.1
      | some p =>
        have hold := (ih _ (OrdMap.find?_eq_some.mp hp)).1
        rw [hp, Option.getD_some, show p = nothing from hold] at hfind
        rw [← Option.some.inj hfind]
        exact addToCoinMap_nothing.2
    · obtain ⟨hitems, i, hi, hnum⟩ := ih e (OrdMap.find?_eq_some.mp hfind)
      exact ⟨hitems, i, Nat.lt_succ_of_lt hi, hnum⟩

theorem mem_keys_wide (n : Nat) {a : Address} :
    a ∈ (wide n).summary.keys ↔ ∃ i < n, a = Address.numbered i := by
  induction n with
  | zero =>
    constructor
    · exact fun h => (List.not_mem_nil h).elim
    · rintro ⟨i, hi, -⟩
      omega
  | succ n ih =>
    rw [OrdMap.mem_keys, wide_succ, find?_addFlow]
    by_cases ha : a = Address.numbered n
    · rw [if_pos ha]
      exact ⟨fun _ => ⟨n, Nat.lt_succ_self n, ha⟩, fun _ => rfl⟩
    · rw [if_neg ha, ← OrdMap.mem_keys, ih]
      constructor
      · rintro ⟨i, hi, hnum⟩
        exact ⟨i, Nat.lt_succ_of_lt hi, hnum⟩
      · rintro ⟨i, hi, hnum⟩
        have hne : i ≠ n := fun he => ha (he ▸ hnum)
        exact ⟨i, by omega, hnum⟩

theorem size_wide {n : Nat} (h : n ≤ 2 ^ 64) : (wide n).summary.size = n := by
  have hnodup : ((List.range n).map Address.numbered).Nodup := by
    refine List.Nodup.map_on (fun i hi j hj he => ?_) List.nodup_range
    exact Address.numbered_inj (Nat.lt_of_lt_of_le (List.mem_range.mp hi) h)
      (Nat.lt_of_lt_of_le (List.mem_range.mp hj) h) he
  have hperm : (wide n).summary.keys.Perm ((List.range n).map Address.numbered) := by
    refine (List.perm_ext_iff_of_nodup (OrdMap.nodup_keys _) hnodup).mpr (fun a => ?_)
    rw [mem_keys_wide, List.mem_map]
    constructor
    · rintro ⟨i, hi, rfl⟩
      exact ⟨i, List.mem_range.mpr hi, rfl⟩
    · rintro ⟨i, hi, rfl⟩
      exact ⟨i, List.mem_range.mp hi, rfl⟩
  rw [← OrdMap.length_keys, hperm.length_eq, List.length_map, List.length_range]

theorem length_wide {n : Nat} (h : n ≤ 2 ^ 64) : (wide n).getByteSize = 4 + n * 66 := by
  have hentries : ((wide n).summary.entries.flatMap entryBytes).length =
      (wide n).summary.entries.length * 66 := by
    refine length_flatMap_const (fun e he => ?_)
    obtain ⟨hitems, i, -, hnum⟩ := wide_items n e he
    have haddr : e.1.size = 34 := by
      rw [hnum]
      exact (Address.isWallet_numbered i).1
    rw [length_entryBytes, haddr, hitems]
    rfl
  have hsize : (wide n).summary.entries.length = n := size_wide h
  rw [getByteSize, getCanonical_eq, List.length_append, length_leBytes, hentries, hsize]

theorem coinTotal_wide (n : Nat) : (wide n).coinTotal = 0 := by
  have key : ∀ l : List (Address × SummaryPair), (∀ e ∈ l, e.2 = nothing) →
      l.foldl (fun total e => e.2.2.entries.foldl (fun total c => u64 (total + toUint64 c.2))
        (e.2.1.entries.foldl (fun total d => u64 (total + d.2.delta)) total)) 0 = 0 := by
    intro l hl
    induction l with
    | nil => rfl
    | cons e l ih =>
      rw [List.foldl_cons, hl e List.mem_cons_self]
      exact ih (fun e' he' => hl e' (List.mem_cons_of_mem e he'))
  exact key _ (fun e he => (wide_items n e he).1)

theorem isSane_wide {n : Nat} (hpos : 0 < n) (h : n ≤ 2 ^ 64) : (wide n).isSane = true := by
  have hne : (wide n).summary.entries.isEmpty = false := by
    rw [List.isEmpty_eq_false_iff, ← List.length_pos_iff]
    have hsize : (wide n).summary.entries.length = n := size_wide h
    omega
  rw [isSane, hne, coinTotal_wide]
  rfl

theorem create_of_count {s : Summary} (h : u32 s.summary.size = 0) (pre post : Bytes) :
    create ⟨pre ++ s.getCanonical ++ post, pre.length⟩ =
      .ok (empty, ⟨pre ++ s.getCanonical ++ post, pre.length + 4⟩) := by
  have hsize : ¬ InputBuffer.size ⟨pre ++ s.getCanonical ++ post, pre.length⟩ <
      minSize + pre.length := by
    have := s.minSize_le
    simp only [InputBuffer.size, List.length_append]
    omega
  have hcount := reads_getNextUint32 (v := 0) (Nat.two_pow_pos 32) pre
    (s.summary.entries.flatMap entryBytes ++ post)
  rw [length_leBytes, List.append_assoc, ← List.append_assoc (leBytes 4 0), ← h,
    ← getCanonical_eq, ← List.append_assoc] at hcount
  simp only [create, if_neg hsize]
  rw [bind_of_ok hcount, h]
  rfl

end Summary
end Devcash
