import Devcash.Lib.Reader

/-! When a loop over a cursor ends: every turn it makes fails or moves the cursor. -/
namespace Reader
variable {ε τ α : Type}

/-- At `b` the reader fails or moves the cursor. -/
def MovesAt (r : Reader ε τ α) (b : Cursor τ) : Prop :=
  ∀ a b', r b = .ok (a, b') → b.offset < b'.offset

/-- The first of several turns moves the cursor, and no other moves it back. -/
theorem movesAt_times {r : Reader ε τ α} (hf : Forward r) {b : Cursor τ} (hm : MovesAt r b)
    (n : Nat) : MovesAt (times r (n + 1)) b := by
  intro l b' h
  obtain ⟨a, b1, h1, h⟩ := bind_eq_ok h
  obtain ⟨as, b2, h2, h⟩ := bind_eq_ok h
  cases pure_eq_ok h
  exact Nat.lt_of_lt_of_le (hm a b1 h1) (hf.times n b1 as b' h2).2

/-- The loop that starts at the first cursor makes a turn at the second. -/
inductive Turn (r : Reader ε τ α) (limit : Nat) : Cursor τ → Cursor τ → Prop
  | here {b : Cursor τ} (h : b.offset < limit) : Turn r limit b b
  | next {b b1 b' : Cursor τ} {a : α} (h : b.offset < limit) (hr : r b = .ok (a, b1))
      (ht : Turn r limit b1 b') : Turn r limit b b'

/-- A reader that goes forward inside its buffer and has no loop of its own. -/
structure Steps (stuck : ε) (r : Reader ε τ α) : Prop where
  forward : Forward r
  inside : ∀ b a b', r b = .ok (a, b') → b'.offset ≤ b'.buffer.length
  plain : ∀ b, r b ≠ .error stuck

variable {stuck : ε} {r : Reader ε τ α} {limit fuel : Nat} {b : Cursor τ}

section
variable {β : Type} (f : α → β)

theorem map_eq_ok {x : β} {b' : Cursor τ} :
    (r >>= fun a => pure (f a)) b = .ok (x, b') ↔ ∃ a, r b = .ok (a, b') ∧ x = f a := by
  constructor
  · intro h
    obtain ⟨a, b1, hr, hp⟩ := bind_eq_ok h
    cases hp
    exact ⟨a, hr, rfl⟩
  · rintro ⟨a, hr, rfl⟩
    rw [bind_of_ok hr]
    rfl

theorem Steps.map (h : Steps stuck r) : Steps stuck (r >>= fun a => pure (f a)) where
  forward := h.forward.bind (fun a => Forward.pure (f a))
  inside := by
    intro b x b' hx
    obtain ⟨a, hr, -⟩ := (map_eq_ok f).mp hx
    exact h.inside b a b' hr
  plain := by
    intro b hx
    cases hr : r b with
    | error e =>
      rw [bind_of_error hr] at hx
      cases hx
      exact h.plain b hr
    | ok p =>
      obtain ⟨a, b'⟩ := p
      rw [bind_of_ok hr] at hx
      cases hx

end
end Reader
