import Mathlib.Data.List.Basic
import Mathlib.Logic.Function.Basic
import Mathlib.Tactic.Common

/-! Logs of `n` parties in which entry `k` comes from party `k % n`: each party writes
its own entries and copies the others' from their logs. -/
namespace RoundRobin
variable {n : Nat} {β : Type*}

/-- What any party has at `k` is in the log of the party whose turn `k` is. -/
def Sourced (logs : Fin n → List β) : Prop :=
  ∀ (i j : Fin n) (k : Nat) (x : β), k % n = i → (logs j)[k]? = some x → (logs i)[k]? = some x

theorem sourced_empty : Sourced (fun _ : Fin n => ([] : List β)) := by
  intro i j k x _ h
  simp at h

theorem getElem?_update_append {logs : Fin n → List β} {i : Fin n} (j : Fin n) (x : β) {k : Nat}
    {y : β} (h : (logs i)[k]? = some y) :
    (Function.update logs j (logs j ++ [x]) i)[k]? = some y := by
  by_cases hij : i = j
  · subst hij
    rw [Function.update_self, List.getElem?_append_left (List.getElem?_eq_some_iff.mp h).1, h]
  · rw [Function.update_of_ne hij, h]

/-- A party appends an entry: its own when it is its turn, or else one that the party
whose turn it is has at this place. -/
theorem Sourced.append {logs : Fin n → List β} (h : Sourced logs) {j : Fin n} {x : β}
    (hx : ∀ i : Fin n, (logs j).length % n = i → i = j ∨ (logs i)[(logs j).length]? = some x) :
    Sourced (Function.update logs j (logs j ++ [x])) := by
  intro i j' k y hk hy
  by_cases hj : j' = j
  · subst hj
    rw [Function.update_self, List.getElem?_append] at hy
    split_ifs at hy with hlt
    · exact getElem?_update_append j' x (h i j' k y hk hy)
    · -- The new entry is the only one that is not in the old log.
      obtain ⟨hlen, rfl⟩ := List.getElem?_eq_some_iff.mp hy
      have hkl : k = (logs j').length := by
        rw [List.length_singleton] at hlen
        omega
      subst hkl
      cases hx i hk with
      | inl hi =>
        subst hi
        simp
      | inr hi =>
        simpa using getElem?_update_append j' x hi
  · rw [Function.update_of_ne hj] at hy
    exact getElem?_update_append j x (h i j' k y hk hy)

/-- Of two logs the shorter one is a prefix of the longer one. -/
theorem Sourced.comparable {logs : Fin n → List β} (h : Sourced logs) (i j : Fin n) :
    logs i <+: logs j ∨ logs j <+: logs i := by
  have hshorter : ∀ i j : Fin n, (logs i).length ≤ (logs j).length → logs i <+: logs j := by
    intro i j hle
    rw [List.prefix_iff_getElem?]
    intro k hk
    have hn : k % n < n := Nat.mod_lt k (Nat.lt_of_le_of_lt (Nat.zero_le i) i.isLt)
    have hi := h ⟨k % n, hn⟩ i k _ rfl (List.getElem?_eq_getElem hk)
    have hj := h ⟨k % n, hn⟩ j k _ rfl (List.getElem?_eq_getElem (Nat.lt_of_lt_of_le hk hle))
    rw [List.getElem?_eq_getElem (Nat.lt_of_lt_of_le hk hle)]
    exact hj.symm.trans hi
  cases Nat.le_total (logs i).length (logs j).length with
  | inl hle => exact Or.inl (hshorter i j hle)
  | inr hle => exact Or.inr (hshorter j i hle)

end RoundRobin
