import Devcash.Lib.Run

/-! Refinement of one step function by another: each step of the concrete system is matched by
a run of the abstract one that keeps the states related. -/
namespace Run
variable {σ τ α β : Type*} {step : σ → α → σ} {step' : τ → β → τ} {R : σ → τ → Prop}
  {C : σ → α → Prop}

/-- Matching steps, provided each concrete step meets the condition, give matching runs. -/
theorem simulates {s : σ} {t : τ} {l : List α}
    (hstep : ∀ s t x, R s t → C s x → ∃ m, R (step s x) (after step' t m)) (hR : R s t)
    (hl : Each step C s l) : ∃ m, R (after step s l) (after step' t m) := by
  induction l generalizing s t with
  | nil => exact ⟨[], hR⟩
  | cons x l ih =>
    rw [each_cons] at hl
    obtain ⟨m, hm⟩ := hstep s t x hR hl.1
    obtain ⟨m', hm'⟩ := ih hm hl.2
    refine ⟨m ++ m', ?_⟩
    rw [after_append]
    exact hm'

/-- The steps of a part of a run meet the condition too. -/
theorem Each.part {s : σ} {l l1 : List α} (hl : Each step C s l) (h : l1 <+: l) :
    Each step C s l1 := by
  obtain ⟨l2, rfl⟩ := h
  intro m x m' heq
  exact hl m x (m' ++ l2) (by rw [heq, List.append_assoc, List.cons_append])

end Run
