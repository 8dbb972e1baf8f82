import Mathlib.Algebra.Order.BigOperators.Group.List
import Mathlib.Data.List.Basic
import Mathlib.Tactic.Ring

/-! Signed postings to accounts: net change and debits of a list of postings, and
the bound that makes every order of the postings safe. -/
namespace Postings
variable {α κ : Type*} (key : α → κ) (amount : α → Int)

/-- Some posting is to the account. -/
def Touches (l : List α) (k : κ) : Prop := ∃ x ∈ l, key x = k

@[simp] theorem touches_nil (k : κ) : ¬ Touches key [] k := by
  simp [Touches]

theorem touches_cons (x : α) (l : List α) (k : κ) :
    Touches key (x :: l) k ↔ key x = k ∨ Touches key l k := by
  simp [Touches]

theorem touches_append (l m : List α) (k : κ) :
    Touches key (l ++ m) k ↔ Touches key l k ∨ Touches key m k := by
  simp [Touches, or_and_right, exists_or]

theorem touches_perm {l m : List α} (h : l.Perm m) (k : κ) :
    Touches key l k ↔ Touches key m k := by
  simp [Touches, h.mem_iff]

variable [DecidableEq κ]

instance (l : List α) (k : κ) : Decidable (Touches key l k) :=
  inferInstanceAs (Decidable (∃ x ∈ l, key x = k))

/-- The sum of the amounts posted to an account. -/
def net (l : List α) (k : κ) : Int := ((l.filter (fun x => key x = k)).map amount).sum

/-- The sum of the negative amounts posted to an account. -/
def debits (l : List α) (k : κ) : Int :=
  ((l.filter (fun x => key x = k ∧ amount x < 0)).map amount).sum

@[simp] theorem net_nil (k : κ) : net key amount [] k = 0 := rfl

theorem net_cons (x : α) (l : List α) (k : κ) :
    net key amount (x :: l) k = (if key x = k then amount x else 0) + net key amount l k := by
  by_cases h : key x = k <;> simp [net, h]

theorem net_append (l m : List α) (k : κ) :
    net key amount (l ++ m) k = net key amount l k + net key amount m k := by
  simp [net]

theorem net_perm {l m : List α} (h : l.Perm m) (k : κ) :
    net key amount l k = net key amount m k :=
  ((h.filter _).map amount).sum_eq

theorem net_map {β : Type*} (g : β → α) (l : List β) (k : κ) :
    net key amount (l.map g) k = net (fun x => key (g x)) (fun x => amount (g x)) l k := by
  induction l with
  | nil => rfl
  | cons x l ih => rw [List.map_cons, net_cons, net_cons, ih]

variable {amount} in
theorem net_congr {amount' : α → Int} {l : List α} (h : ∀ x ∈ l, amount x = amount' x) (k : κ) :
    net key amount l k = net key amount' l k := by
  induction l with
  | nil => rfl
  | cons x l ih =>
    rw [net_cons, net_cons, ih (fun y hy => h y (List.mem_cons_of_mem x hy)), h x List.mem_cons_self]

theorem net_of_not_touches {l : List α} {k : κ} (h : ¬ Touches key l k) :
    net key amount l k = 0 := by
  induction l with
  | nil => rfl
  | cons x l ih =>
    rw [touches_cons, not_or] at h
    rw [net_cons, if_neg h.1, ih h.2, Int.add_zero]

theorem net_nonneg {l : List α} {k : κ} (h : ∀ x ∈ l, key x = k → 0 ≤ amount x) :
    0 ≤ net key amount l k := by
  induction l with
  | nil => exact Int.le_refl 0
  | cons x l ih =>
    rw [net_cons]
    have hl := ih (fun y hy => h y (List.mem_cons_of_mem x hy))
    split_ifs with hx
    · have := h x List.mem_cons_self hx
      omega
    · omega

/-- With one posting to an account at most, it is the only one its account selects. -/
theorem filter_of_nodup {l : List α} (h : (l.map key).Nodup) {x : α} (hx : x ∈ l) :
    l.filter (fun y => key y = key x) = [x] := by
  induction l with
  | nil => cases hx
  | cons y l ih =>
    rw [List.map_cons, List.nodup_cons] at h
    cases List.mem_cons.mp hx with
    | inl hy =>
      subst hy
      have hnone : l.filter (fun y => key y = key x) = [] := by
        rw [List.filter_eq_nil_iff]
        intro z hz hk
        exact h.1 (of_decide_eq_true hk ▸ List.mem_map_of_mem hz)
      rw [List.filter_cons_of_pos (by simp), hnone]
    | inr hl =>
      have hne : key y ≠ key x := fun hk => h.1 (hk ▸ List.mem_map_of_mem hl)
      rw [List.filter_cons_of_neg (by simpa using hne), ih h.2 hl]

theorem net_of_nodup {l : List α} (h : (l.map key).Nodup) {x : α} (hx : x ∈ l) :
    net key amount l (key x) = amount x := by
  rw [net, filter_of_nodup key h hx, List.map_singleton, List.sum_singleton]

/-- The sum of the sizes of the amounts, over all accounts. -/
def volume (l : List α) : Nat := (l.map (fun x => (amount x).natAbs)).sum

omit [DecidableEq κ] in
theorem volume_cons (x : α) (l : List α) :
    volume amount (x :: l) = (amount x).natAbs + volume amount l := by
  simp [volume]

omit [DecidableEq κ] in
theorem volume_append (l m : List α) :
    volume amount (l ++ m) = volume amount l + volume amount m := by
  simp [volume]

omit [DecidableEq κ] in
theorem volume_perm {l m : List α} (h : l.Perm m) : volume amount l = volume amount m :=
  (h.map _).sum_eq

theorem net_bounds (l : List α) (k : κ) :
    -(volume amount l : Int) ≤ net key amount l k ∧ net key amount l k ≤ volume amount l := by
  induction l with
  | nil => exact ⟨Int.le_refl 0, Int.le_refl 0⟩
  | cons x l ih =>
    rw [net_cons, volume_cons]
    split_ifs
    · omega
    · omega

@[simp] theorem debits_nil (k : κ) : debits key amount [] k = 0 := rfl

theorem debits_cons (x : α) (l : List α) (k : κ) :
    debits key amount (x :: l) k =
      (if key x = k ∧ amount x < 0 then amount x else 0) + debits key amount l k := by
  by_cases h : key x = k ∧ amount x < 0
  · simp [debits, h]
  · rw [if_neg h, Int.zero_add, debits, List.filter_cons_of_neg (by simpa using h)]
    rfl

theorem debits_append (l m : List α) (k : κ) :
    debits key amount (l ++ m) k = debits key amount l k + debits key amount m k := by
  simp [debits]

theorem debits_perm {l m : List α} (h : l.Perm m) (k : κ) :
    debits key amount l k = debits key amount m k :=
  ((h.filter _).map amount).sum_eq

theorem debits_nonpos (l : List α) (k : κ) : debits key amount l k ≤ 0 := by
  induction l with
  | nil => exact Int.le_refl 0
  | cons x l ih =>
    rw [debits_cons]
    split_ifs with h
    · have := h.2
      omega
    · omega

theorem debits_le_of_mem {l : List α} {x : α} (h : x ∈ l) (hx : amount x < 0) :
    debits key amount l (key x) ≤ amount x := by
  obtain ⟨l1, l2, rfl⟩ := List.append_of_mem h
  rw [debits_append, debits_cons, if_pos ⟨rfl, hx⟩]
  have h1 := debits_nonpos key amount l1 (key x)
  have h2 := debits_nonpos key amount l2 (key x)
  omega

theorem debits_eq_zero {l : List α} {k : κ} (h : ∀ x ∈ l, key x = k → 0 ≤ amount x) :
    debits key amount l k = 0 := by
  induction l with
  | nil => rfl
  | cons x l ih =>
    have hx : ¬ (key x = k ∧ amount x < 0) := by
      intro hk
      have := h x List.mem_cons_self hk.1
      omega
    rw [debits_cons, if_neg hx, ih (fun y hy => h y (List.mem_cons_of_mem x hy)), Int.add_zero]

theorem debits_le_net (l : List α) (k : κ) : debits key amount l k ≤ net key amount l k := by
  induction l with
  | nil => exact Int.le_refl 0
  | cons x l ih =>
    rw [debits_cons, net_cons]
    split_ifs with h h' h'
    · omega
    · exact absurd h.1 h'
    · have : ¬ amount x < 0 := fun hx => h ⟨h', hx⟩
      omega
    · omega

/-- An account that can pay all its debits first can pay them in every order. -/
theorem any_order {l l' p : List α} {k : κ} {base : Int} (h : 0 ≤ base + debits key amount l k)
    (hl : l'.Perm l) (hp : p <+: l') : 0 ≤ base + net key amount p k := by
  obtain ⟨q, rfl⟩ := hp
  have h1 := debits_perm key amount hl k
  rw [debits_append] at h1
  have h2 := debits_nonpos key amount q k
  have h3 := debits_le_net key amount p k
  omega

end Postings
