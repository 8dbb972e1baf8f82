import Devcash.Lib.Reader

/-! Readers that are exact: `Takes r enc V` says that whatever `r` returns satisfies `V` and
has its encoding at the cursor, which moves exactly past it. Together with the other
direction, `Reads`, this is a codec, and an encoding can be read in one way only. -/
namespace Reader
variable {ε τ α β : Type}

/-- From the first cursor to the second stands `enc`. -/
def Took (b : Cursor τ) (enc : List τ) (b' : Cursor τ) : Prop :=
  enc <+: b.buffer.drop b.offset ∧ b' = ⟨b.buffer, b.offset + enc.length⟩

theorem Took.nil (b : Cursor τ) : Took b [] b := ⟨List.nil_prefix, rfl⟩

theorem Took.append {b b1 b2 : Cursor τ} {enc enc' : List τ} (h : Took b enc b1)
    (h' : Took b1 enc' b2) : Took b (enc ++ enc') b2 := by
  obtain ⟨⟨t, ht⟩, rfl⟩ := h
  obtain ⟨⟨u, hu⟩, rfl⟩ := h'
  rw [← List.drop_drop, ← ht, List.drop_left] at hu
  refine ⟨⟨u, by rw [← ht, ← hu, List.append_assoc]⟩, ?_⟩
  rw [List.length_append, Nat.add_assoc]

theorem Took.split {pre rest enc : List τ} {b' : Cursor τ}
    (h : Took ⟨pre ++ rest, pre.length⟩ enc b') :
    ∃ post, rest = enc ++ post ∧ b' = ⟨(pre ++ enc) ++ post, (pre ++ enc).length⟩ := by
  obtain ⟨⟨post, hpost⟩, rfl⟩ := h
  rw [List.drop_left] at hpost
  refine ⟨post, hpost.symm, ?_⟩
  rw [List.append_assoc, hpost, List.length_append]

theorem Took.inside {b b' : Cursor τ} {enc : List τ} (h : Took b enc b') (hne : enc ≠ []) :
    b.offset + enc.length ≤ b.buffer.length := by
  have hpos : 0 < enc.length := List.length_pos_iff.mpr hne
  have hle := h.1.length_le
  rw [List.length_drop] at hle
  omega

/-- A reader gives the same on a buffer that is cut behind what it took. -/
theorem Took.of_take {r : Reader ε τ α} {b b' : Cursor τ} {enc : List τ} {a : α}
    (h : Took b enc b') (hne : enc ≠ []) (hr : Reads r enc a) {n : Nat}
    (hn : b.offset + enc.length ≤ n) :
    r ⟨b.buffer.take n, b.offset⟩ = .ok (a, ⟨b.buffer.take n, b.offset + enc.length⟩) := by
  have hinside := h.inside hne
  have hcut : enc <+: (b.buffer.take n).drop b.offset := by
    rw [List.drop_take, List.prefix_take_iff]
    exact ⟨h.1, by omega⟩
  obtain ⟨post, hpost⟩ := hcut
  have hlen : ((b.buffer.take n).take b.offset).length = b.offset := by
    rw [List.length_take, List.length_take]
    omega
  have hread := hr ((b.buffer.take n).take b.offset) post
  rwa [List.append_assoc, hpost, List.take_append_drop, hlen] at hread

/-- What `r` returns stands at the cursor. -/
def Takes (r : Reader ε τ α) (enc : α → List τ) (V : α → Prop) : Prop :=
  ∀ b a b', r b = .ok (a, b') → V a ∧ Took b (enc a) b'

structure Codec (r : Reader ε τ α) (enc : α → List τ) (V : α → Prop) : Prop where
  reads : ∀ a, V a → Reads r (enc a) a
  takes : Takes r enc V

theorem Takes.times {r : Reader ε τ α} {enc : α → List τ} {V : α → Prop} (hr : Takes r enc V)
    (n : Nat) :
    Takes (Reader.times r n) (fun l => l.flatMap enc) (fun l => l.length = n ∧ ∀ a ∈ l, V a) := by
  induction n with
  | zero =>
    intro b l b' h
    cases h
    exact ⟨⟨rfl, fun _ h => (List.not_mem_nil h).elim⟩, Took.nil b⟩
  | succ n ih =>
    intro b l b' h
    obtain ⟨a, b1, h1, h⟩ := bind_eq_ok h
    obtain ⟨as, b2, h2, h⟩ := bind_eq_ok h
    cases pure_eq_ok h
    obtain ⟨hV, htook⟩ := hr b a b1 h1
    obtain ⟨⟨hlen, hall⟩, htook'⟩ := ih b1 as b' h2
    refine ⟨⟨?_, List.forall_mem_cons.mpr ⟨hV, hall⟩⟩, htook.append htook'⟩
    rw [List.length_cons, hlen]

theorem length_times {r : Reader ε τ α} {n : Nat} {b b' : Cursor τ} {l : List α}
    (h : Reader.times r n b = .ok (l, b')) : l.length = n := by
  induction n generalizing b l with
  | zero =>
    cases h
    rfl
  | succ n ih =>
    obtain ⟨a, b1, -, h⟩ := bind_eq_ok h
    obtain ⟨as, b2, has, h⟩ := bind_eq_ok h
    cases pure_eq_ok h
    rw [List.length_cons, ih has]

theorem times_map (r : Reader ε τ α) (f : α → β) (n : Nat) :
    Reader.times (r >>= fun a => Pure.pure (f a)) n =
      Reader.times r n >>= fun l => Pure.pure (l.map f) := by
  induction n with
  | zero => rfl
  | succ n ih => simp only [Reader.times, ih, bind_assoc, pure_bind, List.map_cons]

theorem Takes.whileBelow {r : Reader ε τ α} {enc : α → List τ} {V : α → Prop} (hr : Takes r enc V)
    (stuck : ε) (limit fuel : Nat) :
    Takes (Reader.whileBelow stuck r limit fuel) (fun l => l.flatMap enc) (fun l => ∀ a ∈ l, V a) := by
  induction fuel with
  | zero =>
    intro b l b' h
    simp only [Reader.whileBelow] at h
    split_ifs at h
    cases h
    exact ⟨fun _ h => (List.not_mem_nil h).elim, Took.nil b⟩
  | succ fuel ih =>
    intro b l b' h
    simp only [Reader.whileBelow] at h
    split_ifs at h
    · obtain ⟨a, b1, h1, h⟩ := bind_eq_ok h
      obtain ⟨as, b2, h2, h⟩ := bind_eq_ok h
      cases pure_eq_ok h
      obtain ⟨hV, htook⟩ := hr b a b1 h1
      obtain ⟨hall, htook'⟩ := ih b1 as b' h2
      exact ⟨List.forall_mem_cons.mpr ⟨hV, hall⟩, htook.append htook'⟩
    · cases h
      exact ⟨fun _ h => (List.not_mem_nil h).elim, Took.nil b⟩

theorem Codec.times {r : Reader ε τ α} {enc : α → List τ} {V : α → Prop} (hr : Codec r enc V)
    (n : Nat) :
    Codec (Reader.times r n) (fun l => l.flatMap enc) (fun l => l.length = n ∧ ∀ a ∈ l, V a) where
  reads := by
    rintro l ⟨rfl, hl⟩
    exact Reads.times l (fun a ha => hr.reads a (hl a ha))
  takes := hr.takes.times n

theorem Codec.unique {r : Reader ε τ α} {enc : α → List τ} {V : α → Prop} (h : Codec r enc V)
    {a a' : α} (ha : V a) (ha' : V a') {rest rest' : List τ}
    (he : enc a ++ rest = enc a' ++ rest') : a = a' ∧ rest = rest' := by
  have h1 := h.reads a ha [] rest
  have h2 := h.reads a' ha' [] rest'
  simp only [List.nil_append, List.length_nil, Nat.zero_add] at h1 h2
  rw [he, h2] at h1
  obtain rfl := (Prod.mk.inj (Except.ok.inj h1)).1.symm
  exact ⟨rfl, List.append_cancel_left he⟩

/-- `r` returns values whose encoding is no longer than what it took; those of the same length
are what it took, and satisfy `Q`. -/
def Shrinks (r : Reader ε τ α) (enc : α → List τ) (Q : α → Prop) : Prop :=
  ∀ b a b', r b = .ok (a, b') → ∃ took, Took b took b' ∧ (enc a).length ≤ took.length ∧
    ((enc a).length = took.length → enc a = took ∧ Q a)

theorem Shrinks.times {r : Reader ε τ α} {enc : α → List τ} {Q : α → Prop} (hr : Shrinks r enc Q)
    (n : Nat) : Shrinks (Reader.times r n) (fun l => l.flatMap enc) (fun l => ∀ a ∈ l, Q a) := by
  induction n with
  | zero =>
    intro b l b' h
    cases h
    exact ⟨[], Took.nil b, Nat.le_refl _, fun _ => ⟨rfl, fun _ h => (List.not_mem_nil h).elim⟩⟩
  | succ n ih =>
    intro b l b' h
    obtain ⟨a, b1, h1, h⟩ := bind_eq_ok h
    obtain ⟨as, b2, h2, h⟩ := bind_eq_ok h
    cases pure_eq_ok h
    obtain ⟨took, htook, hle, hfull⟩ := hr b a b1 h1
    obtain ⟨took', htook', hle', hfull'⟩ := ih b1 as b' h2
    beta_reduce at hle' hfull' ⊢
    refine ⟨took ++ took', htook.append htook', ?_, fun heq => ?_⟩
    · rw [List.flatMap_cons, List.length_append, List.length_append]
      omega
    · rw [List.flatMap_cons, List.length_append, List.length_append] at heq
      obtain ⟨henc, hQ⟩ := hfull (by omega)
      obtain ⟨henc', hQ'⟩ := hfull' (by omega)
      exact ⟨by rw [List.flatMap_cons, henc, henc'], List.forall_mem_cons.mpr ⟨hQ, hQ'⟩⟩

/-- Jumps of a width that is read where they start, up to a limit. -/
inductive Hops (stride : Nat → Option Nat) (limit : Nat) : Nat → Nat → Prop
  | stop {p : Nat} : limit ≤ p → Hops stride limit p p
  | hop {p n q : Nat} : p < limit → stride p = some n → Hops stride limit (p + n) q →
    Hops stride limit p q

theorem Hops.unique {stride : Nat → Option Nat} {limit p q q' : Nat}
    (h : Hops stride limit p q) (h' : Hops stride limit p q') : q = q' := by
  induction h with
  | stop hle =>
    cases h' with
    | stop _ => rfl
    | hop hlt _ _ => exact absurd hlt (Nat.not_lt.mpr hle)
  | hop hlt hn _ ih =>
    cases h' with
    | stop hle => exact absurd hlt (Nat.not_lt.mpr hle)
    | hop _ hn' hrest =>
      cases hn.symm.trans hn'
      exact ih hrest

/-- A loop ends where the jumps over its turns end. -/
theorem whileBelow_hops {stuck : ε} {r : Reader ε τ α} {stride : List τ → Nat → Option Nat}
    (hr : ∀ b a b', r b = .ok (a, b') → b'.buffer = b.buffer ∧
      ∃ n, stride b.buffer b.offset = some n ∧ b'.offset = b.offset + n)
    {limit fuel : Nat} {b b' : Cursor τ} {l : List α}
    (h : Reader.whileBelow stuck r limit fuel b = .ok (l, b')) :
    Hops (stride b.buffer) limit b.offset b'.offset := by
  induction fuel generalizing b l with
  | zero =>
    simp only [Reader.whileBelow] at h
    split_ifs at h with hlt
    cases h
    exact .stop (Nat.le_of_not_lt hlt)
  | succ fuel ih =>
    simp only [Reader.whileBelow] at h
    split_ifs at h with hlt
    · obtain ⟨a, b1, h1, h⟩ := bind_eq_ok h
      obtain ⟨as, b2, h2, h⟩ := bind_eq_ok h
      cases pure_eq_ok h
      obtain ⟨hbuf, n, hn, hoff⟩ := hr b a b1 h1
      have hrest := ih h2
      rw [hbuf, hoff] at hrest
      exact .hop hlt hn hrest
    · cases h
      exact .stop (Nat.le_of_not_lt hlt)

end Reader
