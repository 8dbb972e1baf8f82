import Mathlib.Data.List.Nodup

/-! Places in a list from which some members have been left out. -/
namespace List
variable {α : Type*} {p : α → Bool}

/-- What stands at a place was at that place or behind it. -/
theorem exists_le_of_getElem?_filter {l : List α} {k : Nat} {y : α}
    (h : (l.filter p)[k]? = some y) : ∃ m, k ≤ m ∧ l[m]? = some y := by
  induction l generalizing k with
  | nil => simp at h
  | cons x l ih =>
    by_cases hx : p x = true
    · rw [filter_cons_of_pos hx] at h
      cases k with
      | zero => exact ⟨0, Nat.le_refl 0, h⟩
      | succ k =>
        obtain ⟨m, hm, hy⟩ := ih h
        exact ⟨m + 1, Nat.succ_le_succ hm, hy⟩
    · rw [filter_cons_of_neg hx] at h
      obtain ⟨m, hm, hy⟩ := ih h
      exact ⟨m + 1, Nat.le_succ_of_le hm, hy⟩

/-- A member keeps its place exactly if neither it nor one before it is left out. -/
theorem getElem?_filter_eq_iff {l : List α} (hl : l.Nodup) {i : Nat} {x : α}
    (hx : l[i]? = some x) :
    (l.filter p)[i]? = some x ↔ ∀ j ≤ i, ∀ y, l[j]? = some y → p y = true := by
  induction l generalizing i with
  | nil => simp at hx
  | cons z l ih =>
    obtain ⟨hz, hl⟩ := nodup_cons.mp hl
    by_cases hpz : p z = true
    · rw [filter_cons_of_pos hpz]
      cases i with
      | zero =>
        refine iff_of_true hx (fun j hj y hy => ?_)
        obtain rfl := Nat.le_zero.mp hj
        cases hy
        exact hpz
      | succ i =>
        rw [getElem?_cons_succ, ih hl hx]
        constructor
        · intro h j hj y hy
          cases j with
          | zero =>
            cases hy
            exact hpz
          | succ j => exact h j (Nat.le_of_succ_le_succ hj) y hy
        · intro h j hj y hy
          exact h (j + 1) (Nat.succ_le_succ hj) y hy
    · rw [filter_cons_of_neg hpz]
      refine iff_of_false (fun h => ?_) (fun h => hpz (h 0 (Nat.zero_le i) z rfl))
      -- Everything that is left stands behind the place.
      obtain ⟨m, hm, hy⟩ := exists_le_of_getElem?_filter h
      cases i with
      | zero =>
        cases hx
        exact hz (mem_of_getElem? hy)
      | succ i =>
        have hi := (getElem?_eq_some_iff.mp hx).1
        have hsame : i = m :=
          (getElem?_inj (Nat.lt_of_succ_lt_succ hi) hl).mp (Eq.trans hx hy.symm)
        omega

end List
