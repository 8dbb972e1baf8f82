import Mathlib.Data.List.Basic
import Mathlib.Tactic.Common

/-! Readers over a token list with a cursor, which fail with an error of any type.
`Reads r enc a` says that `r` turns the encoding `enc` into `a` and moves the cursor
exactly past it, whatever stands before and after; the rules below compose it. -/

structure Cursor (τ : Type*) where
  buffer : List τ
  offset : Nat
  deriving DecidableEq, Repr

abbrev Reader (ε τ α : Type) := StateT (Cursor τ) (Except ε) α

namespace Reader
variable {ε τ α β : Type}

def fail (e : ε) : Reader ε τ α := fun _ => .error e

/-- Lift a computation that does not touch the cursor. -/
def lift (x : Except ε α) : Reader ε τ α := fun b =>
  match x with
  | .ok a => .ok (a, b)
  | .error e => .error e

theorem bind_of_ok {r : Reader ε τ α} {f : α → Reader ε τ β} {b b' : Cursor τ} {a : α}
    (h : r b = .ok (a, b')) : (r >>= f) b = f a b' := by
  change (r b >>= fun p => f p.1 p.2) = f a b'
  rw [h]
  rfl

theorem bind_of_error {r : Reader ε τ α} {f : α → Reader ε τ β} {b : Cursor τ} {e : ε}
    (h : r b = .error e) : (r >>= f) b = .error e := by
  change (r b >>= fun p => f p.1 p.2) = .error e
  rw [h]
  rfl

theorem bind_eq_ok {r : Reader ε τ α} {f : α → Reader ε τ β} {b : Cursor τ}
    {x : β × Cursor τ} (h : (r >>= f) b = .ok x) :
    ∃ a b', r b = .ok (a, b') ∧ f a b' = .ok x := by
  change (r b >>= fun p => f p.1 p.2) = .ok x at h
  cases hr : r b with
  | error e => rw [hr] at h; cases h
  | ok p =>
    rw [hr] at h
    exact ⟨p.1, p.2, rfl, h⟩

theorem bind_eq_error_iff {r : Reader ε τ α} {f : α → Reader ε τ β} {b : Cursor τ} {e : ε} :
    (r >>= f) b = .error e ↔
      r b = .error e ∨ ∃ a b', r b = .ok (a, b') ∧ f a b' = .error e := by
  cases hr : r b with
  | error e' => simp [bind_of_error hr]
  | ok p =>
    obtain ⟨a, b'⟩ := p
    simp [bind_of_ok hr]

theorem pure_eq_ok {a : α} {b : Cursor τ} {x : α × Cursor τ}
    (h : (pure a : Reader ε τ α) b = .ok x) : x = (a, b) := by
  cases h
  rfl

theorem lift_eq_ok {y : Except ε α} {b : Cursor τ} {x : α × Cursor τ}
    (h : (lift y : Reader ε τ α) b = .ok x) : y = .ok x.1 ∧ x.2 = b := by
  cases y with
  | error e => cases h
  | ok a =>
    cases h
    exact ⟨rfl, rfl⟩

def Reads (r : Reader ε τ α) (enc : List τ) (a : α) : Prop :=
  ∀ pre post : List τ, r ⟨pre ++ enc ++ post, pre.length⟩ =
    .ok (a, ⟨pre ++ enc ++ post, pre.length + enc.length⟩)

theorem Reads.pure (a : α) : Reads (Pure.pure a : Reader ε τ α) [] a := by
  intro pre post
  simp
  rfl

theorem Reads.lift {x : Except ε α} {a : α} (h : x = .ok a) :
    Reads (Reader.lift x : Reader ε τ α) [] a := by
  intro pre post
  simp [Reader.lift, h]

theorem Reads.bind {r : Reader ε τ α} {f : α → Reader ε τ β} {enc enc' : List τ}
    {a : α} {x : β} (hr : Reads r enc a) (hf : Reads (f a) enc' x) :
    Reads (r >>= f) (enc ++ enc') x := by
  intro pre post
  have h1 := hr pre (enc' ++ post)
  have h2 := hf (pre ++ enc) post
  simp only [List.append_assoc, List.length_append, Nat.add_assoc] at h1 h2 ⊢
  rw [bind_of_ok h1, h2]

/-- One step of a run: what was read moves from the rest to the part before the cursor. -/
theorem Reads.run {r : Reader ε τ α} {f : α → Reader ε τ β} {enc : List τ} {a : α}
    (hr : Reads r enc a) (pre rest : List τ) :
    (r >>= f) ⟨pre ++ (enc ++ rest), pre.length⟩ =
      f a ⟨(pre ++ enc) ++ rest, (pre ++ enc).length⟩ := by
  rw [← List.append_assoc, bind_of_ok (hr pre rest), List.length_append]

theorem Reads.bind_done {r : Reader ε τ α} {f : α → Reader ε τ β} {enc : List τ}
    {a : α} {x : β} (hr : Reads r enc a) (hf : Reads (f a) [] x) :
    Reads (r >>= f) enc x := by
  have h := hr.bind hf
  rwa [List.append_nil] at h

/-- `r` leaves the buffer alone and never moves the cursor back. -/
def Forward (r : Reader ε τ α) : Prop :=
  ∀ b a b', r b = .ok (a, b') → b'.buffer = b.buffer ∧ b.offset ≤ b'.offset

theorem Forward.pure (a : α) : Forward (Pure.pure a : Reader ε τ α) := by
  intro b a' b' h
  cases h
  exact ⟨rfl, Nat.le_refl _⟩

theorem Forward.bind {r : Reader ε τ α} {f : α → Reader ε τ β} (hr : Forward r)
    (hf : ∀ a, Forward (f a)) : Forward (r >>= f) := by
  intro b x b' h
  obtain ⟨a, b1, h1, h2⟩ := bind_eq_ok h
  obtain ⟨hb1, ho1⟩ := hr b a b1 h1
  obtain ⟨hb2, ho2⟩ := hf a b1 x b' h2
  exact ⟨hb2.trans hb1, Nat.le_trans ho1 ho2⟩

/-- Run `r` a fixed number of times. -/
def times (r : Reader ε τ α) : Nat → Reader ε τ (List α)
  | 0 => pure []
  | n+1 => do
    let a ← r
    let l ← times r n
    pure (a :: l)

theorem Reads.times {r : Reader ε τ α} {enc : α → List τ} (l : List α)
    (h : ∀ a ∈ l, Reads r (enc a) a) : Reads (times r l.length) (l.flatMap enc) l := by
  induction l with
  | nil => exact Reads.pure []
  | cons a l ih =>
    rw [List.flatMap_cons]
    refine (h a (by simp)).bind ?_
    exact (ih (fun x hx => h x (by simp [hx]))).bind_done (Reads.pure _)

theorem times_add (r : Reader ε τ α) (m n : Nat) :
    times r (m + n) = (do
      let l ← times r m
      let l' ← times r n
      pure (l ++ l')) := by
  induction m with
  | zero => simp [times]
  | succ m ih =>
    rw [Nat.succ_add]
    simp only [times, ih, bind_assoc, pure_bind, List.cons_append]

theorem Forward.times {r : Reader ε τ α} (hr : Forward r) (n : Nat) : Forward (times r n) := by
  induction n with
  | zero => exact Forward.pure []
  | succ n ih => exact hr.bind (fun a => ih.bind (fun l => Forward.pure (a :: l)))

/-- Run `r` while the cursor is below `limit`; `stuck` is the error of a loop that
has used up its fuel. -/
def whileBelow (stuck : ε) (r : Reader ε τ α) (limit : Nat) : Nat → Reader ε τ (List α)
  | 0 => fun b => if b.offset < limit then .error stuck else .ok ([], b)
  | fuel+1 => fun b =>
    if b.offset < limit then
      (do
        let a ← r
        let l ← whileBelow stuck r limit fuel
        pure (a :: l)) b
    else .ok ([], b)

theorem whileBelow_done {stuck : ε} {r : Reader ε τ α} {limit fuel : Nat} {b : Cursor τ}
    (h : limit ≤ b.offset) : whileBelow stuck r limit fuel b = .ok ([], b) := by
  cases fuel <;> simp [whileBelow, Nat.not_lt.mpr h]

theorem whileBelow_step {stuck : ε} {r : Reader ε τ α} {limit fuel : Nat} {b b' : Cursor τ}
    {a : α} (h : b.offset < limit) (hr : r b = .ok (a, b')) :
    whileBelow stuck r limit (fuel + 1) b =
      (do
        let l ← whileBelow stuck r limit fuel
        pure (a :: l)) b' := by
  simp only [whileBelow, if_pos h]
  exact bind_of_ok hr

theorem whileBelow_error {stuck e : ε} {r : Reader ε τ α} {limit fuel : Nat} {b : Cursor τ}
    (h : b.offset < limit) (hr : r b = .error e) :
    whileBelow stuck r limit (fuel + 1) b = .error e := by
  simp only [whileBelow, if_pos h]
  exact bind_of_error hr

/-- In buffers that satisfy `P`, `r` moves the cursor exactly past `enc` and returns a
value that satisfies `Q`. -/
def ReadsIn (P : List τ → Prop) (r : Reader ε τ α) (enc : List τ) (Q : α → Prop) : Prop :=
  ∀ pre post : List τ, P (pre ++ enc ++ post) →
    ∃ a, r ⟨pre ++ enc ++ post, pre.length⟩ =
      .ok (a, ⟨pre ++ enc ++ post, pre.length + enc.length⟩) ∧ Q a

section
variable {P : List τ → Prop} {r : Reader ε τ α} {enc : List τ} {Q : α → Prop}

theorem Reads.readsIn {a : α} (h : Reads r enc a) (hQ : Q a) : ReadsIn P r enc Q :=
  fun pre post _ => ⟨a, h pre post, hQ⟩

theorem ReadsIn.weaken {P' : List τ → Prop} (hr : ReadsIn P r enc Q) (h : ∀ buf, P' buf → P buf) :
    ReadsIn P' r enc Q :=
  fun pre post hP => hr pre post (h _ hP)

theorem ReadsIn.bind {f : α → Reader ε τ β} {enc' : List τ} {R : β → Prop}
    (hr : ReadsIn P r enc Q) (hf : ∀ a, Q a → ReadsIn P (f a) enc' R) :
    ReadsIn P (r >>= f) (enc ++ enc') R := by
  intro pre post hP
  have h1 := hr pre (enc' ++ post)
  simp only [List.append_assoc] at h1 hP
  obtain ⟨a, ha, hQ⟩ := h1 hP
  have h2 := hf a hQ (pre ++ enc) post
  simp only [List.append_assoc, List.length_append] at h2
  obtain ⟨x, hx, hR⟩ := h2 hP
  refine ⟨x, ?_, hR⟩
  simp only [List.append_assoc, List.length_append]
  rw [bind_of_ok ha, hx, Nat.add_assoc]

theorem Reads.bindIn {a : α} {f : α → Reader ε τ β} {enc' : List τ} {R : β → Prop}
    (hr : Reads r enc a) (hf : ReadsIn P (f a) enc' R) : ReadsIn P (r >>= f) (enc ++ enc') R := by
  refine (hr.readsIn (Q := (· = a)) rfl).bind ?_
  rintro _ rfl
  exact hf

theorem ReadsIn.bind_done {f : α → Reader ε τ β} {R : β → Prop} (hr : ReadsIn P r enc Q)
    (hf : ∀ a, Q a → ReadsIn P (f a) [] R) : ReadsIn P (r >>= f) enc R := by
  have h := hr.bind hf
  rwa [List.append_nil] at h

/-- The loop over a series of encodings, none of which is empty. -/
theorem ReadsIn.whileBelow {ι : Type} (stuck : ε) {enc : ι → List τ} {Q : ι → α → Prop}
    (l : List ι) (h : ∀ i ∈ l, ReadsIn P r (enc i) (Q i)) (hne : ∀ i ∈ l, enc i ≠ [])
    {pre post : List τ} (hP : P (pre ++ l.flatMap enc ++ post)) {fuel : Nat}
    (hfuel : l.length ≤ fuel) :
    ∃ as, Reader.whileBelow stuck r (pre.length + (l.flatMap enc).length) fuel
        ⟨pre ++ l.flatMap enc ++ post, pre.length⟩ =
        .ok (as, ⟨pre ++ l.flatMap enc ++ post, pre.length + (l.flatMap enc).length⟩) ∧
      List.Forall₂ Q l as := by
  induction l generalizing pre fuel with
  | nil => exact ⟨[], by rw [whileBelow_done (by simp)]; simp, .nil⟩
  | cons i l ih =>
    cases fuel with
    | zero => simp at hfuel
    | succ fuel =>
      have hpos : 0 < (enc i).length := List.length_pos_iff.mpr (hne i List.mem_cons_self)
      have h1 := h i List.mem_cons_self pre (l.flatMap enc ++ post)
      have h2 := @ih (fun j hj => h j (List.mem_cons_of_mem i hj))
        (fun j hj => hne j (List.mem_cons_of_mem i hj)) (pre ++ enc i)
      simp only [List.flatMap_cons, List.append_assoc, List.length_append, Nat.add_assoc] at h1 h2 hP ⊢
      obtain ⟨a, ha, hQ⟩ := h1 hP
      obtain ⟨as, has, hall⟩ := h2 hP (Nat.le_of_succ_le_succ hfuel)
      refine ⟨a :: as, ?_, .cons hQ hall⟩
      rw [whileBelow_step (by simp only; omega) ha, bind_of_ok has]
      rfl

/-- The loop over a buffer that holds the series and nothing else. -/
theorem ReadsIn.whileBelow_whole {ι : Type} (stuck : ε) {enc : ι → List τ} {Q : ι → α → Prop}
    {l : List ι} (h : ∀ i ∈ l, ReadsIn P r (enc i) (Q i)) (hne : ∀ i ∈ l, enc i ≠ [])
    (hP : P (l.flatMap enc)) {fuel : Nat} (hfuel : l.length ≤ fuel) :
    ∃ as, Reader.whileBelow stuck r (l.flatMap enc).length fuel ⟨l.flatMap enc, 0⟩ =
        .ok (as, ⟨l.flatMap enc, (l.flatMap enc).length⟩) ∧ List.Forall₂ Q l as := by
  have hloop := @ReadsIn.whileBelow _ _ _ _ _ _ stuck _ _ l h hne [] []
  simp only [List.nil_append, List.append_nil, List.length_nil, Nat.zero_add] at hloop
  exact hloop hP hfuel

/-- What the loop returned, when each turn ends with a computation that may fail. -/
theorem ReadsIn.whileBelow_lift {ι : Type} {stuck : ε} {enc : ι → List τ} {Q : ι → α → Prop}
    {g : α → Except ε β} (l : List ι) (h : ∀ i ∈ l, ReadsIn P r (enc i) (Q i))
    (hne : ∀ i ∈ l, enc i ≠ []) (pre post : List τ) (hP : P (pre ++ l.flatMap enc ++ post))
    {fuel : Nat} {out : List β} {b' : Cursor τ}
    (hrun : Reader.whileBelow stuck (r >>= fun a => Reader.lift (g a))
      (pre.length + (l.flatMap enc).length) fuel ⟨pre ++ l.flatMap enc ++ post, pre.length⟩ =
        .ok (out, b')) :
    List.Forall₂ (fun i c => ∃ a, Q i a ∧ g a = .ok c) l out := by
  induction l generalizing pre fuel out with
  | nil =>
    rw [whileBelow_done (by simp)] at hrun
    cases hrun
    exact .nil
  | cons i l ih =>
    have hpos : 0 < (enc i).length := List.length_pos_iff.mpr (hne i List.mem_cons_self)
    have h1 := h i List.mem_cons_self pre (l.flatMap enc ++ post)
    have h2 := @ih (fun j hj => h j (List.mem_cons_of_mem i hj))
      (fun j hj => hne j (List.mem_cons_of_mem i hj)) (pre ++ enc i)
    simp only [List.flatMap_cons, List.append_assoc, List.length_append, Nat.add_assoc]
      at h1 h2 hP hrun
    obtain ⟨a, ha, hQ⟩ := h1 hP
    cases fuel with
    | zero =>
      simp only [Reader.whileBelow] at hrun
      rw [if_pos (by omega)] at hrun
      cases hrun
    | succ fuel =>
      cases hg : g a with
      | error e =>
        have hstep : (r >>= fun a => Reader.lift (g a))
            ⟨pre ++ (enc i ++ (l.flatMap enc ++ post)), pre.length⟩ = .error e := by
          rw [bind_of_ok ha, hg]
          rfl
        rw [whileBelow_error (by simp only; omega) hstep] at hrun
        cases hrun
      | ok c =>
        have hstep : (r >>= fun a => Reader.lift (g a))
            ⟨pre ++ (enc i ++ (l.flatMap enc ++ post)), pre.length⟩ =
            .ok (c, ⟨pre ++ (enc i ++ (l.flatMap enc ++ post)), pre.length + (enc i).length⟩) := by
          rw [bind_of_ok ha, hg]
          rfl
        rw [whileBelow_step (by simp only; omega) hstep] at hrun
        obtain ⟨cs, b1, hcs, hrun⟩ := bind_eq_ok hrun
        cases pure_eq_ok hrun
        exact .cons ⟨a, hQ, hg⟩ (h2 hP hcs)

theorem ReadsIn.whileBelow_lift_whole {ι : Type} {stuck : ε} {enc : ι → List τ} {Q : ι → α → Prop}
    {g : α → Except ε β} {l : List ι} (h : ∀ i ∈ l, ReadsIn P r (enc i) (Q i))
    (hne : ∀ i ∈ l, enc i ≠ []) (hP : P (l.flatMap enc)) {fuel : Nat} {out : List β} {b' : Cursor τ}
    (hrun : Reader.whileBelow stuck (r >>= fun a => Reader.lift (g a)) (l.flatMap enc).length fuel
      ⟨l.flatMap enc, 0⟩ = .ok (out, b')) :
    List.Forall₂ (fun i c => ∃ a, Q i a ∧ g a = .ok c) l out := by
  have hloop := @ReadsIn.whileBelow_lift _ _ _ _ _ _ _ stuck _ _ g l h hne [] []
  simp only [List.nil_append, List.append_nil, List.length_nil, Nat.zero_add] at hloop
  exact hloop hP hrun

end

theorem length_flatMap_const {ι : Type} {enc : ι → List τ} {l : List ι} {w : Nat}
    (h : ∀ i ∈ l, (enc i).length = w) : (l.flatMap enc).length = l.length * w := by
  induction l with
  | nil => simp
  | cons i l ih =>
    rw [List.flatMap_cons, List.length_append, h i List.mem_cons_self,
      ih (fun j hj => h j (List.mem_cons_of_mem i hj)), List.length_cons, Nat.succ_mul,
      Nat.add_comm]

theorem length_le_flatMap {ι : Type} {enc : ι → List τ} {l : List ι}
    (h : ∀ i ∈ l, enc i ≠ []) : l.length ≤ (l.flatMap enc).length := by
  induction l with
  | nil => exact Nat.le_refl _
  | cons i l ih =>
    have hpos : 0 < (enc i).length := List.length_pos_iff.mpr (h i List.mem_cons_self)
    have hl := ih (fun j hj => h j (List.mem_cons_of_mem i hj))
    rw [List.flatMap_cons, List.length_append, List.length_cons]
    omega

end Reader
