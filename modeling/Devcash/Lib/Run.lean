import Mathlib.Data.List.Basic
import Mathlib.Tactic.Common

/-! Runs of a step function over a list of actions: what holds in every state a run
passes, what every step meets, and the rule that carries an invariant along. -/
namespace Run
variable {σ α : Type*} (step : σ → α → σ)

/-- The state after the actions. -/
def after (s : σ) (l : List α) : σ := l.foldl step s

/-- `P` holds in every state the run passes, the first and the last one included. -/
def Always (P : σ → Prop) (s : σ) (l : List α) : Prop := ∀ l1, l1 <+: l → P (after step s l1)

/-- Every step meets `C`, a condition on the state before it and its action. -/
def Each (C : σ → α → Prop) (s : σ) (l : List α) : Prop :=
  ∀ l1 x l2, l = l1 ++ x :: l2 → C (after step s l1) x

variable {step} {P Inv : σ → Prop} {C : σ → α → Prop} {s : σ}

@[simp] theorem after_nil : after step s [] = s := rfl

@[simp] theorem after_cons (x : α) (l : List α) :
    after step s (x :: l) = after step (step s x) l := rfl

theorem after_append (l m : List α) : after step s (l ++ m) = after step (after step s l) m :=
  List.foldl_append

@[simp] theorem always_nil : Always step P s [] ↔ P s := by
  constructor
  · intro h
    exact h [] (List.prefix_refl [])
  · intro h l1 hl
    rw [List.prefix_nil.mp hl]
    exact h

theorem always_cons (x : α) (l : List α) :
    Always step P s (x :: l) ↔ P s ∧ Always step P (step s x) l := by
  constructor
  · intro h
    refine ⟨h [] List.nil_prefix, fun l1 hl => ?_⟩
    exact h (x :: l1) ((List.prefix_cons_inj x).mpr hl)
  · intro h l1 hl
    cases l1 with
    | nil => exact h.1
    | cons y l1 =>
      obtain ⟨rfl, hl'⟩ := List.cons_prefix_cons.mp hl
      exact h.2 l1 hl'

@[simp] theorem each_nil : Each step C s [] := by
  intro l1 x l2 h
  simp at h

theorem each_cons (x : α) (l : List α) :
    Each step C s (x :: l) ↔ C s x ∧ Each step C (step s x) l := by
  constructor
  · intro h
    refine ⟨h [] x l rfl, fun l1 y l2 hl => ?_⟩
    exact h (x :: l1) y l2 (by rw [hl]; rfl)
  · intro h l1 y l2 hl
    cases l1 with
    | nil =>
      obtain ⟨rfl, -⟩ := List.cons.inj hl
      exact h.1
    | cons z l1 =>
      obtain ⟨rfl, hl'⟩ := List.cons.inj hl
      exact h.2 l1 y l2 hl'

instance decidableEach (step : σ → α → σ) (C : σ → α → Prop) [∀ s x, Decidable (C s x)] :
    ∀ (s : σ) (l : List α), Decidable (Each step C s l)
  | _, [] => isTrue each_nil
  | s, x :: l =>
    have := decidableEach step C (step s x) l
    decidable_of_iff _ (each_cons x l).symm

/-- An invariant that every step keeps, provided the step meets the condition. -/
theorem always_of_each {l : List α} (hstep : ∀ s x, Inv s → C s x → Inv (step s x)) (hs : Inv s)
    (hl : Each step C s l) : Always step Inv s l := by
  induction l generalizing s with
  | nil => exact always_nil.mpr hs
  | cons x l ih =>
    rw [each_cons] at hl
    exact (always_cons x l).mpr ⟨hs, ih (hstep s x hs hl.1) hl.2⟩

/-- The property holds throughout exactly if every step meets the condition, given that in a
state with the invariant one step keeps the property exactly if it meets the condition. -/
theorem always_iff_each {l : List α} (hP : ∀ s, Inv s → P s)
    (hstep : ∀ s x, Inv s → (P (step s x) ↔ C s x))
    (hinv : ∀ s x, Inv s → C s x → Inv (step s x)) (hs : Inv s) :
    Always step P s l ↔ Each step C s l := by
  induction l generalizing s with
  | nil => exact ⟨fun _ => each_nil, fun _ => always_nil.mpr (hP s hs)⟩
  | cons x l ih =>
    rw [always_cons, each_cons]
    constructor
    · intro h
      have hC := (hstep s x hs).mp (h.2 [] List.nil_prefix)
      exact ⟨hC, (ih (hinv s x hs hC)).mp h.2⟩
    · intro h
      exact ⟨hP s hs, (ih (hinv s x hs h.1)).mpr h.2⟩

/-- What an invariant and the condition say about each step. -/
theorem each_of_always {D : σ → α → Prop} {l : List α} (hD : ∀ s x, Inv s → C s x → D s x)
    (hs : Always step Inv s l) (hl : Each step C s l) : Each step D s l := by
  intro l1 x l2 h
  refine hD _ x (hs l1 ?_) (hl l1 x l2 h)
  rw [h]
  exact List.prefix_append l1 (x :: l2)

end Run
