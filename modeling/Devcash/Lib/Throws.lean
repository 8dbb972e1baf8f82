import Devcash.Lib.Reader

/-! Which errors a computation can end with, and the rules that compose the answer. -/

namespace Except
variable {ε α β : Type} {P Q : ε → Prop}

/-- Every error of `x` satisfies `P`. -/
def Throws (P : ε → Prop) (x : Except ε α) : Prop := ∀ e, x = .error e → P e

theorem Throws.ok (a : α) : Throws P (.ok a : Except ε α) := fun _ h => nomatch h

theorem Throws.error {e : ε} (h : P e) : Throws P (.error e : Except ε α) := by
  intro e' he
  cases he
  exact h

theorem Throws.mono {x : Except ε α} (hx : Throws P x) (h : ∀ e, P e → Q e) : Throws Q x :=
  fun e he => h e (hx e he)

theorem Throws.bind {x : Except ε α} {f : α → Except ε β} (hx : Throws P x)
    (hf : ∀ a, x = .ok a → Throws P (f a)) : Throws P (x >>= f) := by
  cases x with
  | error e => exact Throws.error (hx e rfl)
  | ok a => exact hf a rfl

theorem Throws.ite {c : Prop} [Decidable c] {x y : Except ε α} (hx : Throws P x)
    (hy : Throws P y) : Throws P (if c then x else y) := by
  split_ifs
  · exact hx
  · exact hy

theorem Throws.mapM {f : α → Except ε β} {l : List α} (h : ∀ a ∈ l, Throws P (f a)) :
    Throws P (l.mapM f) := by
  induction l with
  | nil => exact Throws.ok []
  | cons a l ih =>
    obtain ⟨ha, hl⟩ := List.forall_mem_cons.mp h
    rw [List.mapM_cons]
    exact ha.bind (fun b _ => (ih hl).bind (fun m _ => Throws.ok _))

end Except

namespace Reader
variable {ε τ α β : Type} {P : ε → Prop}

def Throws (P : ε → Prop) (r : Reader ε τ α) : Prop := ∀ b, (r b).Throws P

theorem Throws.pure (a : α) : Throws P (Pure.pure a : Reader ε τ α) :=
  fun _ => Except.Throws.ok _

theorem Throws.fail {e : ε} (h : P e) : Throws P (Reader.fail e : Reader ε τ α) :=
  fun _ => Except.Throws.error h

theorem Throws.lift {x : Except ε α} (h : x.Throws P) :
    Throws P (Reader.lift x : Reader ε τ α) := by
  intro b
  cases x with
  | error e => exact Except.Throws.error (h e rfl)
  | ok a => exact Except.Throws.ok _

theorem Throws.bind {r : Reader ε τ α} {f : α → Reader ε τ β} (hr : Throws P r)
    (hf : ∀ a, Throws P (f a)) : Throws P (r >>= f) :=
  fun b => (hr b).bind (fun p _ => hf p.1 p.2)

theorem Throws.ite {c : Prop} [Decidable c] {r s : Reader ε τ α} (hr : Throws P r)
    (hs : Throws P s) : Throws P (if c then r else s) := by
  split_ifs
  · exact hr
  · exact hs

theorem Throws.times {r : Reader ε τ α} (h : Throws P r) (n : Nat) :
    Throws P (Reader.times r n) := by
  induction n with
  | zero => exact Throws.pure []
  | succ n ih => exact h.bind (fun a => ih.bind (fun l => Throws.pure _))

end Reader
