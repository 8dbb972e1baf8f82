import Mathlib.Data.List.Basic
import Mathlib.Data.Nat.ModEq
import Mathlib.Tactic.Common

/-! A circular buffer: a list laid out over slots from a start place on, around the end. -/
namespace Ring
variable {α : Type*}

/-- From `start` on, around the end, the slots hold the entries of `l`; the others are empty. -/
structure Holds (slots : List (Option α)) (start : Nat) (l : List α) : Prop where
  start_lt : start < slots.length
  length_le : l.length ≤ slots.length
  slot : ∀ i < slots.length, slots[(start + i) % slots.length]? = some l[i]?

theorem place_inj {n start i j : Nat} (hi : i < n) (hj : j < n) :
    (start + i) % n = (start + j) % n ↔ i = j := by
  constructor
  · intro h
    have hmod : i ≡ j [MOD n] := Nat.ModEq.add_left_cancel' start h
    exact hmod.eq_of_lt_of_lt hi hj
  · intro h
    rw [h]

/-- Going around from a place, one is back at it after all the slots. -/
theorem place_eq_start {n start k : Nat} (h : start < n) (hpos : 0 < k) (hk : k ≤ n) :
    (start + k) % n = start ↔ k = n := by
  constructor
  · intro heq
    by_contra hne
    have h0 : (start + k) % n = (start + 0) % n := by
      rw [heq, Nat.add_zero, Nat.mod_eq_of_lt h]
    rw [place_inj (by omega) (by omega)] at h0
    omega
  · intro heq
    rw [heq, Nat.add_mod_right, Nat.mod_eq_of_lt h]

theorem holds_replicate {n start : Nat} (h : start < n) :
    Holds (List.replicate n (none : Option α)) start [] where
  start_lt := by simpa using h
  length_le := Nat.zero_le _
  slot := by
    intro i hi
    have hlt : (start + i) % n < n := Nat.mod_lt _ (by omega)
    simp [hlt]

variable {slots : List (Option α)} {start : Nat} {l : List α}

/-- The slot behind the last entry takes the next one. -/
theorem Holds.push (h : Holds slots start l) (hroom : l.length < slots.length) (x : α) :
    Holds (slots.set ((start + l.length) % slots.length) (some x)) start (l ++ [x]) where
  start_lt := by simpa using h.start_lt
  length_le := by
    rw [List.length_append, List.length_set]
    exact hroom
  slot := by
    intro i hi
    rw [List.length_set] at hi ⊢
    have hlt : (start + l.length) % slots.length < slots.length := Nat.mod_lt _ (by omega)
    by_cases heq : i = l.length
    · subst heq
      simp [hlt]
    · have hne : (start + l.length) % slots.length ≠ (start + i) % slots.length := by
        rw [Ne, place_inj hroom hi]
        exact Ne.symm heq
      rw [List.getElem?_set_ne hne, h.slot i hi]
      by_cases hin : i < l.length
      · rw [List.getElem?_append_left hin]
      · rw [List.getElem?_eq_none (by omega), List.getElem?_eq_none (by simp; omega)]

theorem Holds.first {x : α} (h : Holds slots start (x :: l)) : slots[start]? = some (some x) := by
  have h0 := h.slot 0 (Nat.zero_lt_of_lt h.start_lt)
  rwa [Nat.add_zero, Nat.mod_eq_of_lt h.start_lt] at h0

/-- The first slot is emptied, and the places are counted from the next one on. -/
theorem Holds.pop {x : α} (h : Holds slots start (x :: l)) :
    Holds (slots.set start none) ((start + 1) % slots.length) l where
  start_lt := by
    rw [List.length_set]
    exact Nat.mod_lt _ (Nat.zero_lt_of_lt h.start_lt)
  length_le := by
    have hle := h.length_le
    rw [List.length_cons] at hle
    rw [List.length_set]
    omega
  slot := by
    intro i hi
    rw [List.length_set] at hi ⊢
    have hle := h.length_le
    rw [List.length_cons] at hle
    have hplace : ((start + 1) % slots.length + i) % slots.length =
        (start + (i + 1)) % slots.length := by
      rw [Nat.mod_add_mod, Nat.add_assoc, Nat.add_comm 1 i]
    rw [hplace]
    by_cases hlast : i + 1 = slots.length
    · -- The place before the new start is the slot that was emptied.
      rw [hlast, Nat.add_mod_right, Nat.mod_eq_of_lt h.start_lt,
        List.getElem?_eq_none (show l.length ≤ i by omega)]
      simp [h.start_lt]
    · have hne : start ≠ (start + (i + 1)) % slots.length := by
        intro heq
        have h0 : (start + 0) % slots.length = (start + (i + 1)) % slots.length := by
          rwa [Nat.add_zero, Nat.mod_eq_of_lt h.start_lt]
        rw [place_inj (by omega) (by omega)] at h0
        omega
      rw [List.getElem?_set_ne hne, h.slot (i + 1) (by omega), List.getElem?_cons_succ]

end Ring
