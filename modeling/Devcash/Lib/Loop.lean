import Mathlib.Data.List.Basic

/-! Loops that an exception can leave: the rule for a counting loop whose state is known before
every turn, the simulation of one loop by another, and the rule for an invariant. -/
namespace Loop
variable {ε σ τ α : Type}

/-- A loop that takes the `i`th state to the next one in turn `i` ends in the last state. -/
theorem foldlM_range {step : σ → Nat → Except ε σ} {state : Nat → σ} {n : Nat}
    (h : ∀ i < n, step (state i) i = .ok (state (i + 1))) :
    (List.range n).foldlM step (state 0) = .ok (state n) := by
  induction n with
  | zero => rfl
  | succ n ih =>
    have hbefore := ih (fun i hi => h i (Nat.lt_succ_of_lt hi))
    have hlast : [n].foldlM step (state n) = .ok (state (n + 1)) := by
      rw [List.foldlM_cons, h n (Nat.lt_succ_self n)]
      rfl
    rw [List.range_succ, List.foldlM_append, hbefore]
    exact hlast

/-- Two loops that keep step with each other, one on the images of the other's states. -/
theorem map_foldlM {f : σ → α → Except ε σ} {g : τ → α → Except ε τ} {view : σ → τ} {l : List α}
    (h : ∀ s, ∀ a ∈ l, (f s a).map view = g (view s) a) (s : σ) :
    (l.foldlM f s).map view = l.foldlM g (view s) := by
  induction l generalizing s with
  | nil => rfl
  | cons a l ih =>
    obtain ⟨hfirst, hrest⟩ := List.forall_mem_cons.mp (fun a ha s => h s a ha)
    rw [List.foldlM_cons, List.foldlM_cons, ← hfirst s]
    cases f s a with
    | error e => rfl
    | ok s' => exact ih (fun s a ha => hrest a ha s) s'

/-- A loop whose turns return and keep a property returns and keeps it. -/
theorem foldlM_keeps {f : σ → α → Except ε σ} (Inv : σ → Prop) {l : List α}
    (h : ∀ s, ∀ a ∈ l, Inv s → ∃ s', f s a = .ok s' ∧ Inv s') {s : σ} (hs : Inv s) :
    ∃ s', l.foldlM f s = .ok s' ∧ Inv s' := by
  induction l generalizing s with
  | nil => exact ⟨s, rfl, hs⟩
  | cons a l ih =>
    obtain ⟨hfirst, hrest⟩ := List.forall_mem_cons.mp (fun a ha s => h s a ha)
    obtain ⟨s1, hs1, hinv⟩ := hfirst s hs
    obtain ⟨s2, hs2, hinv⟩ := ih (fun s a ha => hrest a ha s) hinv
    refine ⟨s2, ?_, hinv⟩
    rw [List.foldlM_cons, hs1]
    exact hs2

end Loop
