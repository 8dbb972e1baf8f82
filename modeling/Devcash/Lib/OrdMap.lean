import Mathlib.Data.Int.ModEq
import Mathlib.Data.List.Flatten
import Mathlib.Data.List.Nodup
import Mathlib.Data.List.Pairwise
import Mathlib.Data.List.Perm.Subperm
import Mathlib.Order.Lattice

/-! Finite maps kept as association lists in strictly increasing key order.
The order is a field, so a map has one representation: two maps with the same
lookups are equal, and iteration is in key order. -/

structure OrdMap (κ ν : Type*) [LinearOrder κ] where
  entries : List (κ × ν)
  sorted : entries.Pairwise (fun a b => a.1 < b.1)

namespace OrdMap
variable {κ ν : Type*} [LinearOrder κ]

instance [DecidableEq ν] : DecidableEq (OrdMap κ ν) := fun a b =>
  decidable_of_iff (a.entries = b.entries) (by cases a; cases b; simp)

def empty : OrdMap κ ν := ⟨[], List.Pairwise.nil⟩

def lookup (k : κ) : List (κ × ν) → Option ν
  | [] => none
  | (k', v) :: l => if k = k' then some v else lookup k l

def find? (m : OrdMap κ ν) (k : κ) : Option ν := lookup k m.entries

def size (m : OrdMap κ ν) : Nat := m.entries.length

def keys (m : OrdMap κ ν) : List κ := m.entries.map Prod.fst

def putList (k : κ) (v : ν) : List (κ × ν) → List (κ × ν)
  | [] => [(k, v)]
  | (k', v') :: l =>
    if k < k' then (k, v) :: (k', v') :: l
    else if k = k' then (k, v) :: l
    else (k', v') :: putList k v l

theorem mem_putList {k : κ} {v : ν} {l : List (κ × ν)} {e : κ × ν}
    (h : e ∈ putList k v l) : e = (k, v) ∨ e ∈ l := by
  induction l with
  | nil => simpa [putList] using h
  | cons x l ih =>
    obtain ⟨k', v'⟩ := x
    simp only [putList] at h
    split_ifs at h with h1 h2
    · simpa using h
    · have h' : e = (k, v) ∨ e ∈ l := by simpa using h
      exact h'.imp_right (List.mem_cons_of_mem _)
    · obtain h | h := List.mem_cons.mp h
      · exact .inr (by simp [h])
      · exact (ih h).imp_right (List.mem_cons_of_mem _)

theorem sorted_putList (k : κ) (v : ν) (l : List (κ × ν))
    (h : l.Pairwise (fun a b => a.1 < b.1)) :
    (putList k v l).Pairwise (fun a b => a.1 < b.1) := by
  induction l with
  | nil => simp [putList]
  | cons x l ih =>
    obtain ⟨k', v'⟩ := x
    obtain ⟨hx, hl⟩ := List.pairwise_cons.mp h
    simp only [putList]
    split_ifs with h1 h2
    · refine List.pairwise_cons.mpr ⟨fun e he => ?_, h⟩
      obtain rfl | he := List.mem_cons.mp he
      · exact h1
      · exact h1.trans (hx e he)
    · subst h2
      exact List.pairwise_cons.mpr ⟨hx, hl⟩
    · have hlt : k' < k := lt_of_le_of_ne (not_lt.mp h1) (Ne.symm h2)
      refine List.pairwise_cons.mpr ⟨fun e he => ?_, ih hl⟩
      obtain rfl | he := mem_putList he
      · exact hlt
      · exact hx e he

/-- Store `v` at `k`, replacing what was there. -/
def put (m : OrdMap κ ν) (k : κ) (v : ν) : OrdMap κ ν :=
  ⟨putList k v m.entries, sorted_putList k v m.entries m.sorted⟩

/-- Store `v` at `k` unless `k` already has a value. -/
def insert (m : OrdMap κ ν) (k : κ) (v : ν) : OrdMap κ ν :=
  if (m.find? k).isSome then m else m.put k v

def erase (m : OrdMap κ ν) (k : κ) : OrdMap κ ν :=
  ⟨m.entries.filter (fun e => e.1 ≠ k), m.sorted.filter _⟩

/-- Insert every pair of a list in order; the first pair of a key wins. -/
def insertAll (m : OrdMap κ ν) (l : List (κ × ν)) : OrdMap κ ν :=
  l.foldl (fun m e => m.insert e.1 e.2) m

@[simp] theorem find?_empty (k : κ) : (empty : OrdMap κ ν).find? k = none := rfl

theorem lookup_eq_none {k : κ} {l : List (κ × ν)} :
    lookup k l = none ↔ ∀ e ∈ l, e.1 ≠ k := by
  induction l with
  | nil => simp [lookup]
  | cons x l ih =>
    obtain ⟨k', v⟩ := x
    by_cases h : k = k'
    · simp [lookup, h]
    · simp [lookup, h, ih, Ne.symm h]

theorem mem_of_lookup {k : κ} {v : ν} {l : List (κ × ν)}
    (h : lookup k l = some v) : (k, v) ∈ l := by
  induction l with
  | nil => simp [lookup] at h
  | cons x l ih =>
    obtain ⟨k', v'⟩ := x
    by_cases hk : k = k'
    · simp only [lookup, if_pos hk, Option.some.injEq] at h
      simp [hk, h]
    · simp only [lookup, if_neg hk] at h
      exact List.mem_cons_of_mem _ (ih h)

theorem lookup_of_mem {k : κ} {v : ν} {l : List (κ × ν)}
    (hs : l.Pairwise (fun a b => a.1 < b.1)) (h : (k, v) ∈ l) : lookup k l = some v := by
  induction l with
  | nil => simp at h
  | cons x l ih =>
    obtain ⟨k', v'⟩ := x
    obtain ⟨hx, hl⟩ := List.pairwise_cons.mp hs
    obtain h | h := List.mem_cons.mp h
    · simp only [Prod.mk.injEq] at h
      simp [lookup, h.1, h.2]
    · have hne : k ≠ k' := fun he => absurd (he ▸ hx _ h) (lt_irrefl k')
      simp only [lookup, if_neg hne]
      exact ih hl h

theorem lookup_of_mem_nodup {k : κ} {v : ν} {l : List (κ × ν)} (hl : (l.map Prod.fst).Nodup)
    (h : (k, v) ∈ l) : lookup k l = some v := by
  induction l with
  | nil => simp at h
  | cons x l ih =>
    obtain ⟨k', v'⟩ := x
    rw [List.map_cons, List.nodup_cons] at hl
    rw [lookup]
    cases List.mem_cons.mp h with
    | inl heq =>
      cases heq
      exact if_pos rfl
    | inr hmem =>
      have hne : k ≠ k' := by
        rintro rfl
        exact hl.1 (List.mem_map.mpr ⟨(k, v), hmem, rfl⟩)
      rw [if_neg hne, ih hl.2 hmem]

theorem find?_eq_some {m : OrdMap κ ν} {k : κ} {v : ν} :
    m.find? k = some v ↔ (k, v) ∈ m.entries :=
  ⟨mem_of_lookup, lookup_of_mem m.sorted⟩

theorem find?_eq_none {m : OrdMap κ ν} {k : κ} : m.find? k = none ↔ k ∉ m.keys := by
  simp only [find?, lookup_eq_none, keys, List.mem_map]
  constructor
  · rintro h ⟨e, he, rfl⟩
    exact h e he rfl
  · rintro h e he rfl
    exact h ⟨e, he, rfl⟩

theorem mem_keys {m : OrdMap κ ν} {k : κ} : k ∈ m.keys ↔ (m.find? k).isSome := by
  rw [Option.isSome_iff_ne_none, Ne, find?_eq_none, not_not]

theorem nodup_keys (m : OrdMap κ ν) : m.keys.Nodup := by
  have h : m.keys.Pairwise (· < ·) := List.pairwise_map.mpr m.sorted
  exact h.imp (fun hab => ne_of_lt hab)

theorem lookup_putList (k : κ) (v : ν) (l : List (κ × ν)) (q : κ) :
    lookup q (putList k v l) = if q = k then some v else lookup q l := by
  induction l with
  | nil => simp [putList, lookup]
  | cons x l ih =>
    obtain ⟨k', v'⟩ := x
    by_cases h1 : k < k'
    · simp [putList, h1, lookup]
    · by_cases h2 : k = k'
      · subst h2
        by_cases hq : q = k <;> simp [putList, lookup, hq]
      · by_cases hq : q = k'
        · subst hq
          simp [putList, h1, h2, lookup, Ne.symm h2]
        · simp [putList, h1, h2, lookup, hq, ih]

@[simp] theorem find?_put (m : OrdMap κ ν) (k : κ) (v : ν) (q : κ) :
    (m.put k v).find? q = if q = k then some v else m.find? q :=
  lookup_putList k v m.entries q

theorem find?_insert (m : OrdMap κ ν) (k : κ) (v : ν) (q : κ) :
    (m.insert k v).find? q = if q = k then some ((m.find? k).getD v) else m.find? q := by
  rw [insert]
  by_cases hq : q = k
  · subst hq
    cases h : m.find? q <;> simp [h]
  · cases h : m.find? k <;> simp [hq]

theorem find?_insert_new {m : OrdMap κ ν} {k : κ} (h : m.find? k = none) (v : ν) :
    (m.insert k v).find? k = some v := by
  rw [find?_insert, h, if_pos rfl, Option.getD_none]

theorem find?_erase (m : OrdMap κ ν) (k q : κ) :
    (m.erase k).find? q = if q = k then none else m.find? q := by
  have key : ∀ l : List (κ × ν), lookup q (l.filter (fun e => e.1 ≠ k)) =
      if q = k then none else lookup q l := by
    intro l
    induction l with
    | nil => simp [lookup]
    | cons x l ih =>
      obtain ⟨k', v⟩ := x
      by_cases hk : k' = k
      · subst hk
        by_cases hq : q = k'
        · simpa [hq] using ih
        · simpa [lookup, hq] using ih
      · by_cases hq : q = k'
        · subst hq
          simp [lookup, hk]
        · simpa [hk, lookup, hq] using ih
  exact key m.entries

theorem lookup_ext {l l' : List (κ × ν)} (hl : l.Pairwise (fun a b => a.1 < b.1))
    (hl' : l'.Pairwise (fun a b => a.1 < b.1))
    (h : ∀ k, lookup k l = lookup k l') : l = l' := by
  induction l generalizing l' with
  | nil =>
    cases l' with
    | nil => rfl
    | cons x l' => simpa [lookup] using h x.1
  | cons x l ih =>
    cases l' with
    | nil => simpa [lookup] using h x.1
    | cons y l' =>
      obtain ⟨hx, hl⟩ := List.pairwise_cons.mp hl
      obtain ⟨hy, hl'⟩ := List.pairwise_cons.mp hl'
      -- the smaller of the two heads would be missing from the other list
      have hxy : x.1 = y.1 := by
        by_contra hne
        obtain hlt | hlt := lt_or_gt_of_ne hne
        · have hn : lookup x.1 (y :: l') = none := lookup_eq_none.mpr (by
            intro e he
            obtain rfl | he := List.mem_cons.mp he
            · exact Ne.symm hne
            · exact (hlt.trans (hy e he)).ne')
          exact absurd ((h x.1).trans hn) (by simp [lookup])
        · have hn : lookup y.1 (x :: l) = none := lookup_eq_none.mpr (by
            intro e he
            obtain rfl | he := List.mem_cons.mp he
            · exact hne
            · exact (hlt.trans (hx e he)).ne')
          exact absurd ((h y.1).symm.trans hn) (by simp [lookup])
      have hv : x.2 = y.2 := by simpa [lookup, hxy] using h x.1
      have ht : l = l' := by
        refine ih hl hl' (fun k => ?_)
        by_cases hk : k = x.1
        · have h1 : lookup k l = none :=
            lookup_eq_none.mpr (fun e he => hk ▸ (hx e he).ne')
          have h2 : lookup k l' = none :=
            lookup_eq_none.mpr (fun e he => hk ▸ hxy ▸ (hy e he).ne')
          rw [h1, h2]
        · simpa [lookup, hk, hxy ▸ hk] using h k
      rw [ht, Prod.ext hxy hv]

theorem ext_find? {m m' : OrdMap κ ν} (h : ∀ k, m.find? k = m'.find? k) : m = m' := by
  have he : m.entries = m'.entries := lookup_ext m.sorted m'.sorted h
  cases m; cases m'
  simpa using he

/-- A map that differs from another one at one key is got by a write. -/
theorem eq_put {m m' : OrdMap κ ν} {k : κ} {f : κ → ν}
    (h : ∀ q, m'.find? q = if q = k then some (f q) else m.find? q) : m' = m.put k (f k) := by
  apply ext_find?
  intro q
  rw [h, find?_put]
  by_cases hq : q = k
  · rw [if_pos hq, if_pos hq, hq]
  · rw [if_neg hq, if_neg hq]

theorem mem_insert {m : OrdMap κ ν} {k : κ} {v : ν} {e : κ × ν}
    (h : e ∈ (m.insert k v).entries) : e = (k, v) ∨ e ∈ m.entries := by
  rw [insert] at h
  split_ifs at h
  · exact .inr h
  · exact mem_putList h

theorem mem_keys_insert {m : OrdMap κ ν} {k q : κ} {v : ν} :
    q ∈ (m.insert k v).keys ↔ q = k ∨ q ∈ m.keys := by
  rw [mem_keys, mem_keys, find?_insert]
  by_cases h : q = k <;> simp [h]

theorem mem_keys_erase {m : OrdMap κ ν} {k q : κ} :
    q ∈ (m.erase k).keys ↔ q ≠ k ∧ q ∈ m.keys := by
  rw [mem_keys, mem_keys, find?_erase]
  by_cases h : q = k <;> simp [h]

/-- What a bulk insertion holds was in the map, or is in the list under a new key. -/
theorem mem_insertAll {m : OrdMap κ ν} {l : List (κ × ν)} {e : κ × ν}
    (h : e ∈ (m.insertAll l).entries) : e ∈ m.entries ∨ e ∈ l ∧ e.1 ∉ m.keys := by
  induction l generalizing m with
  | nil => exact .inl h
  | cons x l ih =>
    have h' : e ∈ ((m.insert x.1 x.2).insertAll l).entries := h
    rw [insert] at h'
    split_ifs at h' with hx
    · obtain h1 | ⟨h1, h2⟩ := ih h'
      · exact .inl h1
      · exact .inr ⟨List.mem_cons_of_mem x h1, h2⟩
    · obtain h1 | ⟨h1, h2⟩ := ih h'
      · obtain rfl | h2 := mem_putList h1
        · refine .inr ⟨List.mem_cons_self, fun hk => hx ?_⟩
          exact mem_keys.mp hk
        · exact .inl h2
      · refine .inr ⟨List.mem_cons_of_mem x h1, fun hk => h2 ?_⟩
        rw [mem_keys, find?_put]
        split_ifs
        · rfl
        · exact mem_keys.mp hk

theorem find?_insertAll (m : OrdMap κ ν) (l : List (κ × ν)) (q : κ) :
    (m.insertAll l).find? q = (m.find? q).or (lookup q l) := by
  induction l generalizing m with
  | nil => simp [insertAll, lookup]
  | cons x l ih =>
    obtain ⟨k, v⟩ := x
    have h : (m.insertAll ((k, v) :: l)).find? q = ((m.insert k v).insertAll l).find? q := rfl
    rw [h, ih, find?_insert]
    by_cases hq : q = k
    · subst hq
      cases hm : m.find? q <;> simp [lookup]
    · simp [lookup, hq]

/-- The entries of a map, inserted into an empty one, give the map back. -/
theorem insertAll_entries (m : OrdMap κ ν) : empty.insertAll m.entries = m := by
  apply ext_find?
  intro q
  rw [find?_insertAll, find?_empty, Option.none_or]
  rfl

theorem mem_insert_new {m : OrdMap κ ν} {k : κ} (h : k ∉ m.keys) {v : ν} {e : κ × ν} :
    e ∈ (m.insert k v).entries ↔ e = (k, v) ∨ e ∈ m.entries := by
  refine ⟨mem_insert, fun he => ?_⟩
  apply find?_eq_some.mp
  rw [find?_insert]
  cases he with
  | inl he => rw [he, if_pos rfl, find?_eq_none.mpr h, Option.getD_none]
  | inr he =>
    have hne : e.1 ≠ k := fun hk => h (hk ▸ List.mem_map_of_mem he)
    rw [if_neg hne, find?_eq_some.mpr he]

theorem perm_putList {k : κ} {v : ν} {l : List (κ × ν)} (h : ∀ e ∈ l, e.1 ≠ k) :
    (putList k v l).Perm ((k, v) :: l) := by
  induction l with
  | nil => exact List.Perm.refl _
  | cons e l ih =>
    rw [putList]
    split_ifs with hlt heq
    · exact List.Perm.refl _
    · exact absurd heq.symm (h e List.mem_cons_self)
    · exact ((ih (fun x hx => h x (List.mem_cons_of_mem e hx))).cons e).trans (List.Perm.swap _ _ _)

theorem perm_insert_new {m : OrdMap κ ν} {k : κ} (h : k ∉ m.keys) (v : ν) :
    (m.insert k v).entries.Perm ((k, v) :: m.entries) := by
  have hnone : m.find? k = none := find?_eq_none.mpr h
  rw [insert, hnone, if_neg (by simp)]
  exact perm_putList (lookup_eq_none.mp hnone)

theorem size_insert_new {m : OrdMap κ ν} {k : κ} (h : k ∉ m.keys) (v : ν) :
    (m.insert k v).size = m.size + 1 := (perm_insert_new h v).length_eq

theorem insert_of_mem {m : OrdMap κ ν} {k : κ} (h : k ∈ m.keys) (v : ν) : m.insert k v = m := by
  rw [insert, if_pos (mem_keys.mp h)]

theorem ext_mem {m m' : OrdMap κ ν} (h : ∀ e, e ∈ m.entries ↔ e ∈ m'.entries) : m = m' := by
  apply ext_find?
  intro k
  ext v
  rw [find?_eq_some, find?_eq_some]
  exact h (k, v)

/-- Where two maps agree on the keys they share, nothing of either is lost. -/
theorem mem_insertAll_of_agree {m m' : OrdMap κ ν}
    (h : ∀ e ∈ m.entries, ∀ e' ∈ m'.entries, e.1 = e'.1 → e = e') {e : κ × ν} :
    e ∈ (m.insertAll m'.entries).entries ↔ e ∈ m.entries ∨ e ∈ m'.entries := by
  constructor
  · intro he
    exact (mem_insertAll he).imp id And.left
  · intro he
    have hfind : (m.insertAll m'.entries).find? e.1 = (m.find? e.1).or (m'.find? e.1) :=
      find?_insertAll m m'.entries e.1
    apply find?_eq_some.mp
    rw [hfind]
    cases hm : m.find? e.1 with
    | none =>
      cases he with
      | inl he => rw [find?_eq_some.mpr he] at hm; cases hm
      | inr he => exact find?_eq_some.mpr he
    | some v =>
      have hv : (e.1, v) = e := by
        cases he with
        | inl he => rw [find?_eq_some.mpr he] at hm; cases hm; rfl
        | inr he => exact h (e.1, v) (find?_eq_some.mp hm) e he rfl
      exact congrArg some (congrArg Prod.snd hv)

/-- A list in key order goes through a map unchanged. -/
theorem entries_insertAll_of_sorted {l : List (κ × ν)} (h : l.Pairwise (fun a b => a.1 < b.1)) :
    (empty.insertAll l).entries = l := congrArg entries (insertAll_entries ⟨l, h⟩)

/-- In any other order the map holds some of the pairs, each once. -/
theorem subperm_insertAll (l : List (κ × ν)) : (empty.insertAll l).entries.Subperm l := by
  have hnodup : (empty.insertAll l).entries.Nodup := List.Nodup.of_map Prod.fst (nodup_keys _)
  refine hnodup.subperm (fun e he => ?_)
  obtain h | ⟨h, -⟩ := mem_insertAll he
  · cases h
  · exact h

theorem size_insertAll_le (l : List (κ × ν)) : (empty.insertAll l).size ≤ l.length :=
  (subperm_insertAll l).length_le

/-- The encoding of the map is no longer than that of the list. -/
theorem length_flatMap_insertAll_le {τ : Type*} (f : κ × ν → List τ) (l : List (κ × ν)) :
    ((empty.insertAll l).entries.flatMap f).length ≤ (l.flatMap f).length := by
  obtain ⟨l', hperm, hsub⟩ := subperm_insertAll l
  have hlen := (hperm.flatMap (fun a _ => List.Perm.refl (f a))).length_eq
  rw [← hlen]
  exact (hsub.flatMap f).length_le

/-- It keeps all the pairs exactly if no key comes twice. -/
theorem size_insertAll_eq_iff (l : List (κ × ν)) :
    (empty.insertAll l).size = l.length ↔ (l.map Prod.fst).Nodup := by
  constructor
  · intro h
    have hperm := (subperm_insertAll l).perm_of_length_le (Nat.le_of_eq h.symm)
    exact (hperm.map Prod.fst).nodup_iff.mp (nodup_keys _)
  · intro h
    refine Nat.le_antisymm (size_insertAll_le l) ?_
    have hall : l ⊆ (empty.insertAll l).entries := by
      rintro ⟨k, v⟩ he
      apply find?_eq_some.mp
      rw [find?_insertAll, find?_empty, Option.none_or, lookup_of_mem_nodup h he]
    exact ((List.Nodup.of_map Prod.fst h).subperm hall).length_le

theorem eq_of_length_flatMap {β τ : Type*} {f : β → List τ} {l l' : List β} (h : l'.Sublist l)
    (hne : ∀ e ∈ l, f e ≠ []) (hlen : (l'.flatMap f).length = (l.flatMap f).length) : l' = l := by
  induction h with
  | slnil => rfl
  | @cons l' l e h ih =>
    have hle := (h.flatMap f).length_le
    have hpos := List.length_pos_iff.mpr (hne e List.mem_cons_self)
    rw [List.flatMap_cons, List.length_append] at hlen
    omega
  | @cons_cons l' l e h ih =>
    rw [List.flatMap_cons, List.flatMap_cons, List.length_append, List.length_append] at hlen
    rw [ih (fun e' he' => hne e' (List.mem_cons_of_mem e he')) (by omega)]

theorem length_flatMap_insertAll_eq_iff {τ : Type*} {f : κ × ν → List τ} {l : List (κ × ν)}
    (hne : ∀ e ∈ l, f e ≠ []) :
    ((empty.insertAll l).entries.flatMap f).length = (l.flatMap f).length ↔
      (l.map Prod.fst).Nodup := by
  rw [← size_insertAll_eq_iff]
  constructor
  · intro h
    obtain ⟨l', hperm, hsub⟩ := subperm_insertAll l
    have hlen := (hperm.flatMap (fun a _ => List.Perm.refl (f a))).length_eq
    rw [size, ← hperm.length_eq, eq_of_length_flatMap hsub hne (hlen.trans h)]
  · intro h
    have hperm := (subperm_insertAll l).perm_of_length_le (Nat.le_of_eq h.symm)
    exact (hperm.flatMap (fun a _ => List.Perm.refl (f a))).length_eq

/-- The sum of a quantity over the values. -/
def total (f : ν → Int) (m : OrdMap κ ν) : Int := (m.entries.map (fun e => f e.2)).sum

theorem total_putList (f : ν → Int) (k : κ) (v : ν) {l : List (κ × ν)}
    (hs : l.Pairwise (fun a b => a.1 < b.1)) :
    ((putList k v l).map (fun e => f e.2)).sum =
      (l.map (fun e => f e.2)).sum + (f v - ((lookup k l).map f).getD 0) := by
  induction l with
  | nil => simp [putList, lookup]
  | cons x l ih =>
    obtain ⟨k', v'⟩ := x
    obtain ⟨hx, hl⟩ := List.pairwise_cons.mp hs
    rw [putList]
    split_ifs with h1 h2
    · have hnone : lookup k ((k', v') :: l) = none := lookup_eq_none.mpr (by
        intro e he
        obtain rfl | he := List.mem_cons.mp he
        · exact h1.ne'
        · exact (h1.trans (hx e he)).ne')
      simp only [hnone, List.map_cons, List.sum_cons, Option.map_none, Option.getD_none]
      omega
    · simp only [lookup, if_pos h2, List.map_cons, List.sum_cons, Option.map_some, Option.getD_some]
      omega
    · simp only [lookup, if_neg h2, List.map_cons, List.sum_cons, ih hl]
      omega

/-- A stored value replaces what was there in the sum. -/
theorem total_put (f : ν → Int) (m : OrdMap κ ν) (k : κ) (v : ν) :
    (m.put k v).total f = m.total f + (f v - ((m.find? k).map f).getD 0) :=
  total_putList f k v m.sorted

/-- The same modulo `n`, for a value that differs by `d` from what was there. -/
theorem total_put_modEq {n d : Int} {f : ν → Int} {m : OrdMap κ ν} {k : κ} {v : ν}
    (h : f v ≡ ((m.find? k).map f).getD 0 + d [ZMOD n]) :
    (m.put k v).total f ≡ m.total f + d [ZMOD n] := by
  rw [total_put]
  refine Int.ModEq.add_left _ ?_
  calc f v - ((m.find? k).map f).getD 0
    _ ≡ ((m.find? k).map f).getD 0 + d - ((m.find? k).map f).getD 0 [ZMOD n] := h.sub_right _
    _ = d := by omega

theorem length_keys (m : OrdMap κ ν) : m.keys.length = m.size := List.length_map _

end OrdMap
