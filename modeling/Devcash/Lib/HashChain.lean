import Mathlib.Data.List.Basic
import Mathlib.Data.List.Induction
import Mathlib.Tactic.Common

/-! Lists of blocks in which each block names the hash of the one before it. -/
namespace HashChain
variable {α η κ : Type*} (prev hash : α → η) (genesis : η)

/-- What the next block has to name. -/
def tip (l : List α) : η :=
  match l.getLast? with
  | none => genesis
  | some a => hash a

def Linked (l : List α) : Prop := ∀ l1 a l2, l = l1 ++ a :: l2 → prev a = tip hash genesis l1

variable {prev hash genesis}

@[simp] theorem tip_nil : tip hash genesis [] = genesis := rfl

@[simp] theorem tip_concat (l : List α) (a : α) : tip hash genesis (l ++ [a]) = hash a := by
  rw [tip, List.getLast?_concat]

theorem linked_nil : Linked prev hash genesis [] := by
  intro l1 a l2 h
  simp at h

theorem Linked.of_append {l m : List α} (h : Linked prev hash genesis (l ++ m)) :
    Linked prev hash genesis l := by
  intro l1 a l2 hl
  exact h l1 a (l2 ++ m) (by rw [hl, List.append_assoc, List.cons_append])

theorem linked_concat (l : List α) (a : α) :
    Linked prev hash genesis (l ++ [a]) ↔
      Linked prev hash genesis l ∧ prev a = tip hash genesis l := by
  constructor
  · intro h
    exact ⟨h.of_append, h l a [] rfl⟩
  · intro h l1 b l2 hl
    cases List.eq_nil_or_concat' l2 with
    | inl hn =>
      rw [hn] at hl
      obtain ⟨rfl, hb⟩ := List.append_inj' hl rfl
      cases hb
      exact h.2
    | inr hc =>
      obtain ⟨l3, c, rfl⟩ := hc
      refine h.1 l1 b l3 ?_
      have hl' : l ++ [a] = (l1 ++ b :: l3) ++ [c] := by rw [hl]; simp
      exact (List.append_inj' hl' rfl).1

/-- Two linked lists with one tip hold the same blocks, if the hash tells their blocks
apart and none has the first hash. -/
theorem map_eq_of_tip_eq {canon : α → κ} {l m : List α}
    (hprev : ∀ a ∈ l, ∀ b ∈ m, canon a = canon b → prev a = prev b)
    (hinj : ∀ a ∈ l, ∀ b ∈ m, hash a = hash b → canon a = canon b)
    (hl0 : ∀ a ∈ l, hash a ≠ genesis) (hm0 : ∀ b ∈ m, hash b ≠ genesis)
    (hl : Linked prev hash genesis l) (hm : Linked prev hash genesis m)
    (h : tip hash genesis l = tip hash genesis m) : l.map canon = m.map canon := by
  induction l using List.reverseRecOn generalizing m with
  | nil =>
    cases List.eq_nil_or_concat' m with
    | inl hn => rw [hn]
    | inr hc =>
      obtain ⟨m', b, rfl⟩ := hc
      rw [tip_nil, tip_concat] at h
      exact absurd h.symm (hm0 b (by simp))
  | append_singleton l a ih =>
    cases List.eq_nil_or_concat' m with
    | inl hn =>
      rw [hn, tip_nil, tip_concat] at h
      exact absurd h (hl0 a (by simp))
    | inr hc =>
      obtain ⟨m', b, rfl⟩ := hc
      rw [tip_concat, tip_concat] at h
      rw [linked_concat] at hl hm
      have hab : canon a = canon b := hinj a (by simp) b (by simp) h
      have hp : prev a = prev b := hprev a (by simp) b (by simp) hab
      have hrest : l.map canon = m'.map canon := by
        apply ih
        · exact fun x hx y hy => hprev x (by simp [hx]) y (by simp [hy])
        · exact fun x hx y hy => hinj x (by simp [hx]) y (by simp [hy])
        · exact fun x hx => hl0 x (by simp [hx])
        · exact fun y hy => hm0 y (by simp [hy])
        · exact hl.1
        · exact hm.1
        · rw [← hl.2, ← hm.2, hp]
      rw [List.map_append, List.map_append, hrest, List.map_singleton, List.map_singleton, hab]

end HashChain
