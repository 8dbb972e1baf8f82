import Mathlib.Data.List.Basic
import Mathlib.Tactic.Common

/-! Loops that break off once enough has been made. Nested in each other and repeated until that is
the case, they take the first of the items that they would visit. -/
namespace Quota
variable {ε σ α β : Type}

section
variable (full : σ → Bool) (turn : σ → α → Except ε σ)

/-- `break` ends the loop when the state is full after a turn. -/
def forEach : List α → σ → Except ε σ
  | [], s => .ok s
  | x :: l, s => do
    let s ← turn s x
    if full s then .ok s else forEach l s

/-- The body is repeated until the state is full; the fuel bounds the turns. -/
def repeatUntil (stuck : ε) (body : σ → Except ε σ) : Nat → σ → Except ε σ
  | 0, s => if full s then .ok s else .error stuck
  | fuel + 1, s =>
    if full s then .ok s
    else do
      let s ← body s
      repeatUntil stuck body fuel s

end

variable {full : σ → Bool} {turn : σ → α → Except ε σ}

/-- A loop over two lists is two loops, the second one unless the first has broken off. -/
theorem forEach_append (l m : List α) {s : σ} (hs : full s = false) :
    forEach full turn (l ++ m) s =
      (forEach full turn l s >>= fun s => if full s then .ok s else forEach full turn m s) := by
  induction l generalizing s with
  | nil =>
    change _ = if full s then _ else _
    rw [hs]
    rfl
  | cons x l ih =>
    rw [List.cons_append, forEach, forEach]
    cases turn s x with
    | error e => rfl
    | ok s' =>
      change (if full s' then _ else _) = (if full s' then _ else _) >>= _
      cases hs' : full s' with
      | true =>
        change _ = if full s' then _ else _
        rw [hs']
        rfl
      | false => exact ih hs'

theorem forEach_map (item : β → α) (l : List β) (s : σ) :
    forEach full turn (l.map item) s = forEach full (fun s x => turn s (item x)) l s := by
  induction l generalizing s with
  | nil => rfl
  | cons x l ih =>
    rw [List.map_cons, forEach, forEach]
    simp only [ih]

theorem forEach_flatMap (items : β → List α) (is : List β) {s : σ} (hs : full s = false) :
    forEach full (fun s i => forEach full turn (items i) s) is s =
      forEach full turn (is.flatMap items) s := by
  induction is generalizing s with
  | nil => rfl
  | cons i is ih =>
    rw [List.flatMap_cons, forEach_append _ _ hs, forEach]
    cases forEach full turn (items i) s with
    | error e => rfl
    | ok s' =>
      change (if full s' then _ else _) = if full s' then _ else _
      cases hs' : full s' with
      | true => rfl
      | false => exact ih hs'

theorem repeatUntil_congr {stuck : ε} {body body' : σ → Except ε σ}
    (h : ∀ s, full s = false → body s = body' s) (fuel : Nat) (s : σ) :
    repeatUntil full stuck body fuel s = repeatUntil full stuck body' fuel s := by
  induction fuel generalizing s with
  | zero => rfl
  | succ fuel ih =>
    rw [repeatUntil, repeatUntil]
    split_ifs with hs
    · rfl
    · rw [h s (by simpa using hs)]
      simp only [ih]

theorem repeatUntil_of_full (stuck : ε) (body : σ → Except ε σ) (fuel : Nat) {s : σ}
    (hs : full s = true) : repeatUntil full stuck body fuel s = .ok s := by
  cases fuel with
  | zero => rw [repeatUntil, if_pos hs]
  | succ fuel => rw [repeatUntil, if_pos hs]

section
variable {made : σ → Nat} {limit : Nat} (hfull : ∀ s, full s = decide (limit ≤ made s))
  (hturn : ∀ s x s', turn s x = .ok s' → made s' = made s + 1)
include hfull hturn

/-- With one thing made in each turn the loop takes the items up to the limit. -/
theorem forEach_eq_take (l : List α) {s : σ} (hs : made s < limit) :
    forEach full turn l s = (l.take (limit - made s)).foldlM turn s := by
  induction l generalizing s with
  | nil => rw [List.take_nil]; rfl
  | cons x l ih =>
    obtain ⟨left, hleft⟩ : ∃ left, limit - made s = left + 1 := ⟨limit - made s - 1, by omega⟩
    rw [hleft, List.take_succ_cons, List.foldlM_cons, forEach]
    cases hx : turn s x with
    | error e => rfl
    | ok s' =>
      have hmade := hturn s x s' hx
      change (if full s' then Except.ok s' else _) = (l.take left).foldlM turn s'
      rw [hfull]
      by_cases hmore : made s' < limit
      · rw [if_neg (by simpa using hmore), ih hmore]
        congr 2
        omega
      · obtain rfl : left = 0 := by omega
        rw [if_pos (by simpa using hmore)]
        rfl

omit hfull in
theorem made_forEach {l : List α} (hl : l ≠ []) {s s' : σ} (h : forEach full turn l s = .ok s') :
    made s < made s' := by
  induction l generalizing s with
  | nil => exact absurd rfl hl
  | cons x l ih =>
    rw [forEach] at h
    cases hx : turn s x with
    | error e => rw [hx] at h; cases h
    | ok s1 =>
      have hmade := hturn s x s1 hx
      rw [hx] at h
      change (if full s1 then Except.ok s1 else _) = .ok s' at h
      split_ifs at h
      · cases h
        omega
      · cases l with
        | nil => cases h; omega
        | cons y l =>
          have := ih (List.cons_ne_nil y l) h
          omega

/-- A loop that is repeated until the limit is reached is one loop over its items again and again. -/
theorem repeatUntil_forEach (stuck : ε) {l : List α} (hl : l ≠ []) (fuel : Nat) {s : σ}
    (hs : made s < limit) (hfuel : limit ≤ made s + fuel) :
    repeatUntil full stuck (forEach full turn l) fuel s =
      forEach full turn (List.replicate fuel l).flatten s := by
  induction fuel generalizing s with
  | zero => omega
  | succ fuel ih =>
    have hopen : full s = false := by
      rw [hfull]
      simpa using hs
    rw [List.replicate_succ, List.flatten_cons, forEach_append _ _ hopen, repeatUntil, hopen]
    change forEach full turn l s >>= _ = _
    cases hbody : forEach full turn l s with
    | error e => rfl
    | ok s' =>
      have hmade := made_forEach hturn hl hbody
      change repeatUntil full stuck _ fuel s' = if full s' then _ else _
      by_cases hmore : made s' < limit
      · rw [hfull, if_neg (by simpa using hmore), ih hmore (by omega)]
      · have hclosed : full s' = true := by
          rw [hfull]
          simpa using hmore
        rw [repeatUntil_of_full stuck _ fuel hclosed, hclosed]
        rfl

end

/-- What is begun of many rounds: some of them, and the beginning of the next one. -/
theorem prefix_rounds {l p : List α} {n : Nat} (h : p <+: (List.replicate n l).flatten) :
    ∃ k q, p = (List.replicate k l).flatten ++ q ∧ q <+: l := by
  induction n generalizing p with
  | zero =>
    obtain rfl := List.prefix_nil.mp h
    exact ⟨0, [], rfl, List.nil_prefix⟩
  | succ n ih =>
    rw [List.replicate_succ, List.flatten_cons] at h
    obtain hshort | ⟨t, rfl⟩ := List.prefix_or_prefix_of_prefix h (List.prefix_append l _)
    · exact ⟨0, p, rfl, hshort⟩
    · obtain ⟨k, q, rfl, hq⟩ := ih ((List.prefix_append_right_inj l).mp h)
      refine ⟨k + 1, q, ?_, hq⟩
      rw [List.replicate_succ, List.flatten_cons, List.append_assoc]

end Quota
