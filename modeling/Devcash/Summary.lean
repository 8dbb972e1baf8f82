import Devcash.ChainState
import Devcash.Transfer

/-! `Summary`: the coin changes of a block by address, delayed and undelayed ones
apart, with its codec. -/
namespace Devcash
open Endian Reader InputBuffer Postings

/-- `delta` is declared `uint64_t`. -/
structure DelayedItem where
  delay : Nat
  delta : Nat
  deriving DecidableEq, Repr

/-- `DelayedItem(delay_val, delta_val)` takes a signed delta. -/
def DelayedItem.make (delay : Nat) (delta : Int) : DelayedItem := ⟨delay, toUint64 delta⟩

abbrev DelayedMap := OrdMap Nat DelayedItem
abbrev SummaryPair := DelayedMap × CoinMap

def addToDelayedMap (coin : Nat) (item : DelayedItem) (existing : DelayedMap) : DelayedMap :=
  match existing.find? coin with
  | some theItem =>
    existing.put coin ⟨max theItem.delay item.delay, u64 (theItem.delta + item.delta)⟩
  | none => existing.insert coin item

/-- The sum is made in a `uint64_t` and stored as an `int64_t`. -/
def addToCoinMap (coin : Nat) (item : DelayedItem) (existing : CoinMap) : CoinMap :=
  match existing.find? coin with
  | some theItem => existing.put coin (i64 (toUint64 theItem + item.delta : Nat))
  | none => existing.insert coin (i64 item.delta)

structure Summary where
  summary : OrdMap Address SummaryPair
  deriving DecidableEq

namespace Summary

/-- `Summary::Create()`. -/
def empty : Summary := ⟨OrdMap.empty⟩

def minSize : Nat := 4

def addItem (s : Summary) (addr : Address) (coin : Nat) (item : DelayedItem) : Summary :=
  match s.summary.find? addr with
  | some existing =>
    if item.delay > 0 then
      ⟨s.summary.put addr (addToDelayedMap coin item existing.1, existing.2)⟩
    else
      ⟨s.summary.put addr (existing.1, addToCoinMap coin item existing.2)⟩
  | none =>
    if item.delay > 0 then
      ⟨s.summary.insert addr (OrdMap.empty.insert coin item, OrdMap.empty)⟩
    else
      ⟨s.summary.insert addr (OrdMap.empty, OrdMap.empty.insert coin (i64 item.delta))⟩

/-- `addItem(addr, coin_type, delta, delay)`. -/
def addFlow (s : Summary) (f : Flow) : Summary :=
  s.addItem f.addr f.coin (DelayedItem.make f.delay f.amount)

def pairCanonical (p : SummaryPair) (out : Bytes) : Bytes :=
  let out := uint64ToBin p.1.size out
  let out := uint64ToBin p.2.size out
  let out := p.1.entries.foldl (fun out d =>
    int64ToBin (i64 d.2.delta) (uint64ToBin d.2.delay (uint64ToBin d.1 out))) out
  p.2.entries.foldl (fun out c => int64ToBin c.2 (uint64ToBin c.1 out)) out

def getCanonical (s : Summary) : Bytes :=
  s.summary.entries.foldl (fun out e => pairCanonical e.2 (out ++ e.1.getCanonical))
    (uint32ToBin (u32 s.summary.size) [])

def getByteSize (s : Summary) : Nat := s.getCanonical.length

def getTransfers (s : Summary) : List Transfer :=
  s.summary.entries.flatMap fun e =>
    e.2.1.entries.map (fun d => Transfer.make e.1 d.1 (i64 d.2.delta) d.2.delay) ++
      e.2.2.entries.map (fun c => Transfer.make e.1 c.1 c.2 0)

/-- The deltas are added up in a `uint64_t`. -/
def coinTotal (s : Summary) : Nat :=
  s.summary.entries.foldl (fun total e =>
    e.2.2.entries.foldl (fun total c => u64 (total + toUint64 c.2))
      (e.2.1.entries.foldl (fun total d => u64 (total + d.2.delta)) total)) 0

def isSane (s : Summary) : Bool :=
  !s.summary.entries.isEmpty && s.coinTotal == 0

def readDelayed : BufReader (Nat × DelayedItem) := do
  let coin ← getNextUint64 true
  let delay ← getNextUint64 true
  let delta ← getNextUint64 true
  pure (coin, DelayedItem.make delay (i64 delta))

def readCoin : BufReader (Nat × Int) := do
  let coin ← getNextUint64 true
  let delta ← getNextUint64 true
  pure (coin, i64 delta)

def readEntry : BufReader (Address × SummaryPair) := do
  let oneAddr ← copyAddress
  let delayedCount ← getNextUint64 true
  let coinCount ← getNextUint64 true
  let delayed ← times readDelayed delayedCount
  let coins ← times readCoin coinCount
  pure (oneAddr, OrdMap.empty.insertAll delayed, OrdMap.empty.insertAll coins)

/-- `Summary::Create(buffer)`. -/
def create : BufReader Summary := fun b =>
  if InputBuffer.size b < minSize + b.offset then
    .error (.runtime "Invalid serialized Summary, too small!")
  else
    (do
      let addrCount ← getNextUint32 true
      let l ← times readEntry addrCount
      pure (Summary.mk (OrdMap.empty.insertAll l))) b

/-- The undelayed delta of a coin at an address, if the summary has one. -/
def coinEntry (s : Summary) (a : Address) (c : Nat) : Option Int :=
  (s.summary.find? a).bind (fun p => p.2.find? c)

def delayedEntry (s : Summary) (a : Address) (c : Nat) : Option DelayedItem :=
  (s.summary.find? a).bind (fun p => p.1.find? c)

/-- Every address of the summary has an entry. -/
def NoEmpty (s : Summary) : Prop :=
  ∀ a, (s.summary.find? a).isSome →
    ∃ c, (s.coinEntry a c).isSome ∨ (s.delayedEntry a c).isSome

/-- A delayed item merged with what was there. -/
def mergeDelayed (old : Option DelayedItem) (delay : Nat) (amount : Int) : DelayedItem :=
  match old with
  | some o => ⟨max o.delay delay, u64 (o.delta + toUint64 amount)⟩
  | none => ⟨delay, toUint64 amount⟩

theorem mergeDelayed_modEq (old : Option DelayedItem) (delay : Nat) (amount : Int) :
    ((mergeDelayed old delay amount).delta : Int) ≡
      (old.map (fun d => (d.delta : Int))).getD 0 + amount [ZMOD 2 ^ 64] := by
  cases old with
  | none =>
    rw [Option.map_none, Option.getD_none, Int.zero_add]
    exact toUint64_modEq amount
  | some d =>
    refine (u64_modEq (d.delta + toUint64 amount)).trans ?_
    rw [Nat.cast_add]
    exact (toUint64_modEq amount).add_left _

theorem find?_addToCoinMap (coin : Nat) (item : DelayedItem) (m : CoinMap) (c : Nat) :
    (addToCoinMap coin item m).find? c =
      if c = coin then some (i64 ((m.find? c).getD 0 + item.delta)) else m.find? c := by
  rw [addToCoinMap]
  by_cases hc : c = coin
  · subst hc
    cases h : m.find? c with
    | none => rw [if_pos rfl, Option.getD_none, Int.zero_add, OrdMap.find?_insert_new h]
    | some x =>
      have hx : i64 ((toUint64 x + item.delta : Nat) : Int) = i64 (x + item.delta) := by
        rw [Nat.cast_add, ← i64_add_i64, i64_toUint64, i64_add_i64]
      simp only [OrdMap.find?_put, if_true, Option.getD_some, hx]
  · cases h : m.find? coin <;> simp [OrdMap.find?_insert, hc]

theorem find?_addToDelayedMap (coin delay : Nat) (amount : Int) (m : DelayedMap) (c : Nat) :
    (addToDelayedMap coin (DelayedItem.make delay amount) m).find? c =
      if c = coin then some (mergeDelayed (m.find? c) delay amount) else m.find? c := by
  rw [addToDelayedMap]
  by_cases hc : c = coin
  · subst hc
    cases h : m.find? c <;> simp [OrdMap.find?_insert, h, mergeDelayed, DelayedItem.make]
  · cases h : m.find? coin <;> simp [OrdMap.find?_insert, hc]

theorem find?_addFlow (s : Summary) (f : Flow) (a : Address) :
    (s.addFlow f).summary.find? a =
      if a = f.addr then
        some (if f.delay > 0 then
          (addToDelayedMap f.coin (DelayedItem.make f.delay f.amount)
              ((s.summary.find? a).getD (OrdMap.empty, OrdMap.empty)).1,
            ((s.summary.find? a).getD (OrdMap.empty, OrdMap.empty)).2)
        else
          (((s.summary.find? a).getD (OrdMap.empty, OrdMap.empty)).1,
            addToCoinMap f.coin (DelayedItem.make f.delay f.amount)
              ((s.summary.find? a).getD (OrdMap.empty, OrdMap.empty)).2))
      else s.summary.find? a := by
  rw [addFlow, addItem]
  by_cases ha : a = f.addr
  · subst ha
    by_cases hd : f.delay > 0
    · cases h : s.summary.find? f.addr <;>
        simp [hd, h, DelayedItem.make, addToDelayedMap, OrdMap.find?_insert]
    · cases h : s.summary.find? f.addr <;>
        simp [hd, h, DelayedItem.make, addToCoinMap, OrdMap.find?_insert]
  · cases h : s.summary.find? f.addr <;> by_cases hd : f.delay > 0 <;>
      simp [hd, ha, DelayedItem.make, OrdMap.find?_insert]

theorem coinEntry_addFlow (s : Summary) (f : Flow) (a : Address) (c : Nat) :
    (s.addFlow f).coinEntry a c =
      if f.delay = 0 ∧ a = f.addr ∧ c = f.coin then
        some (i64 ((s.coinEntry a c).getD 0 + f.amount))
      else s.coinEntry a c := by
  unfold coinEntry
  rw [find?_addFlow]
  by_cases ha : a = f.addr
  · subst ha
    by_cases hd : f.delay > 0
    · have h0 : f.delay ≠ 0 := by omega
      cases h : s.summary.find? f.addr <;> simp [hd, h0]
    · have h0 : f.delay = 0 := by omega
      have hx (x : Int) : i64 (x + (toUint64 f.amount : Int)) = i64 (x + f.amount) := by
        rw [← add_i64, i64_toUint64, add_i64]
      cases h : s.summary.find? f.addr <;> by_cases hc : c = f.coin <;>
        simp [h0, find?_addToCoinMap, hc, DelayedItem.make, hx, i64_toUint64]
  · simp [ha]

theorem delayedEntry_addFlow (s : Summary) (f : Flow) (a : Address) (c : Nat) :
    (s.addFlow f).delayedEntry a c =
      if 0 < f.delay ∧ a = f.addr ∧ c = f.coin then
        some (mergeDelayed (s.delayedEntry a c) f.delay f.amount)
      else s.delayedEntry a c := by
  unfold delayedEntry
  rw [find?_addFlow]
  by_cases ha : a = f.addr
  · subst ha
    by_cases hd : f.delay > 0
    · cases h : s.summary.find? f.addr <;> by_cases hc : c = f.coin <;>
        simp [hd, find?_addToDelayedMap, hc]
    · have h0 : ¬ 0 < f.delay := hd
      cases h : s.summary.find? f.addr <;> simp [h0]
  · simp [ha]

theorem noEmpty_empty : NoEmpty empty := by
  intro a h
  cases h

theorem noEmpty_addFlow {s : Summary} (h : s.NoEmpty) (f : Flow) : (s.addFlow f).NoEmpty := by
  intro a ha
  by_cases hf : a = f.addr
  · refine ⟨f.coin, ?_⟩
    rw [coinEntry_addFlow, delayedEntry_addFlow]
    by_cases hd : f.delay = 0
    · left; simp [hd, hf]
    · right; simp [hf, Nat.pos_of_ne_zero hd]
  · rw [find?_addFlow, if_neg hf] at ha
    obtain ⟨c, hc⟩ := h a ha
    refine ⟨c, ?_⟩
    rw [coinEntry_addFlow, delayedEntry_addFlow]
    simpa [hf] using hc

theorem ext_addr {s s' : Summary}
    (ha : ∀ a, (s.summary.find? a).isSome = (s'.summary.find? a).isSome)
    (hc : ∀ a c, s.coinEntry a c = s'.coinEntry a c)
    (hd : ∀ a c, s.delayedEntry a c = s'.delayedEntry a c) : s = s' := by
  have hm : s.summary = s'.summary := by
    apply OrdMap.ext_find?
    intro a
    have hsome := ha a
    cases h : s.summary.find? a with
    | none =>
      cases h' : s'.summary.find? a with
      | none => rfl
      | some p' => simp [h, h'] at hsome
    | some p =>
      cases h' : s'.summary.find? a with
      | none => simp [h, h'] at hsome
      | some p' =>
        have h1 : p.1 = p'.1 := OrdMap.ext_find? (fun c => by
          simpa [delayedEntry, h, h'] using hd a c)
        have h2 : p.2 = p'.2 := OrdMap.ext_find? (fun c => by
          simpa [coinEntry, h, h'] using hc a c)
        rw [Prod.ext h1 h2]
  cases s; cases s'
  simpa using hm

theorem isSome_of_entry {s : Summary} {a : Address} {c : Nat}
    (h : (s.coinEntry a c).isSome ∨ (s.delayedEntry a c).isSome) : (s.summary.find? a).isSome := by
  cases hf : s.summary.find? a with
  | none => simp [coinEntry, delayedEntry, hf] at h
  | some p => rfl

theorem ext_entry {s s' : Summary} (hs : s.NoEmpty) (hs' : s'.NoEmpty)
    (hc : ∀ a c, s.coinEntry a c = s'.coinEntry a c)
    (hd : ∀ a c, s.delayedEntry a c = s'.delayedEntry a c) : s = s' := by
  refine ext_addr (fun a => Bool.eq_iff_iff.mpr ⟨fun ha => ?_, fun ha => ?_⟩) hc hd
  · obtain ⟨c, hx⟩ := hs a ha
    rw [hc, hd] at hx
    exact isSome_of_entry hx
  · obtain ⟨c, hx⟩ := hs' a ha
    rw [← hc, ← hd] at hx
    exact isSome_of_entry hx

def addFlows (s : Summary) (l : List Flow) : Summary := l.foldl addFlow s

theorem addFlows_cons (s : Summary) (f : Flow) (l : List Flow) :
    s.addFlows (f :: l) = (s.addFlow f).addFlows l := rfl

theorem addFlows_append (s : Summary) (l m : List Flow) :
    s.addFlows (l ++ m) = (s.addFlows l).addFlows m := List.foldl_append

/-- The transfers that take effect at once. -/
def undelayed (l : List Flow) : List Flow := l.filter (fun f => f.delay = 0)

def delayed (l : List Flow) : List Flow := l.filter (fun f => 0 < f.delay)

/-- The longest delay posted to an account. -/
def longest (l : List Flow) (k : Address × Nat) : Nat :=
  (l.filter (fun f => f.slot = k)).foldr (fun f n => max f.delay n) 0

theorem coinEntry_addFlows (s : Summary) (l : List Flow) (a : Address) (c : Nat) :
    (s.addFlows l).coinEntry a c =
      if Touches Flow.slot (undelayed l) (a, c) then
        some (i64 ((s.coinEntry a c).getD 0 + net Flow.slot Flow.amount (undelayed l) (a, c)))
      else s.coinEntry a c := by
  induction l generalizing s with
  | nil => exact (if_neg (touches_nil Flow.slot (a, c))).symm
  | cons f l ih =>
    rw [addFlows_cons, ih, coinEntry_addFlow]
    by_cases hd : f.delay = 0
    · have hu : undelayed (f :: l) = f :: undelayed l := by simp [undelayed, hd]
      rw [hu, net_cons]
      by_cases hk : f.slot = (a, c)
      · have h : f.delay = 0 ∧ a = f.addr ∧ c = f.coin := by
          rw [Flow.slot, Prod.mk.injEq] at hk
          exact ⟨hd, hk.1.symm, hk.2.symm⟩
        rw [if_pos h, if_pos hk, if_pos ((touches_cons _ _ _ _).mpr (Or.inl hk)),
          Option.getD_some, i64_add_i64, Int.add_assoc]
        split_ifs with ht
        · rfl
        · rw [net_of_not_touches _ _ ht, Int.add_zero]
      · have h : ¬ (f.delay = 0 ∧ a = f.addr ∧ c = f.coin) :=
          fun h => hk (by rw [h.2.1, h.2.2]; rfl)
        rw [if_neg h, if_neg hk, Int.zero_add]
        simp only [touches_cons, hk, false_or]
    · have hu : undelayed (f :: l) = undelayed l := by simp [undelayed, hd]
      have h : ¬ (f.delay = 0 ∧ a = f.addr ∧ c = f.coin) := fun h => hd h.1
      rw [hu, if_neg h]

theorem toUint64_add (x y : Int) : toUint64 (x + y) = u64 (toUint64 x + toUint64 y) := by
  unfold toUint64 u64
  omega

theorem mergeDelayed_merge (old : Option DelayedItem) (d d' : Nat) (x y : Int) :
    mergeDelayed (some (mergeDelayed old d x)) d' y = mergeDelayed old (max d d') (x + y) := by
  cases old with
  | none => simp [mergeDelayed, toUint64_add]
  | some o =>
    have h : u64 (u64 (o.delta + toUint64 x) + toUint64 y) =
        u64 (o.delta + u64 (toUint64 x + toUint64 y)) := by
      unfold u64
      omega
    simp [mergeDelayed, toUint64_add, h, Nat.max_assoc]

theorem longest_of_not_touches {l : List Flow} {k : Address × Nat}
    (h : ¬ Touches Flow.slot l k) : longest l k = 0 := by
  have hf : l.filter (fun f => f.slot = k) = [] := by
    rw [List.filter_eq_nil_iff]
    intro f hf hk
    exact h ⟨f, hf, of_decide_eq_true hk⟩
  rw [longest, hf, List.foldr_nil]

theorem delayedEntry_addFlows (s : Summary) (l : List Flow) (a : Address) (c : Nat) :
    (s.addFlows l).delayedEntry a c =
      if Touches Flow.slot (delayed l) (a, c) then
        some (mergeDelayed (s.delayedEntry a c) (longest (delayed l) (a, c))
          (net Flow.slot Flow.amount (delayed l) (a, c)))
      else s.delayedEntry a c := by
  induction l generalizing s with
  | nil => exact (if_neg (touches_nil Flow.slot (a, c))).symm
  | cons f l ih =>
    rw [addFlows_cons, ih, delayedEntry_addFlow]
    by_cases hd : 0 < f.delay
    · have hu : delayed (f :: l) = f :: delayed l := by simp [delayed, hd]
      rw [hu, net_cons]
      by_cases hk : f.slot = (a, c)
      · have h : 0 < f.delay ∧ a = f.addr ∧ c = f.coin := by
          rw [Flow.slot, Prod.mk.injEq] at hk
          exact ⟨hd, hk.1.symm, hk.2.symm⟩
        have hl : longest (f :: delayed l) (a, c) = max f.delay (longest (delayed l) (a, c)) := by
          simp [longest, hk]
        rw [if_pos h, if_pos hk, if_pos ((touches_cons _ _ _ _).mpr (Or.inl hk)), hl]
        split_ifs with ht
        · rw [mergeDelayed_merge]
        · rw [net_of_not_touches _ _ ht, longest_of_not_touches ht, Int.add_zero, Nat.max_zero]
      · have h : ¬ (0 < f.delay ∧ a = f.addr ∧ c = f.coin) :=
          fun h => hk (by rw [h.2.1, h.2.2]; rfl)
        have hl : longest (f :: delayed l) (a, c) = longest (delayed l) (a, c) := by
          simp [longest, hk]
        rw [if_neg h, if_neg hk, Int.zero_add, hl]
        simp only [touches_cons, hk, false_or]
    · have hu : delayed (f :: l) = delayed l := by simp [delayed, hd]
      have h : ¬ (0 < f.delay ∧ a = f.addr ∧ c = f.coin) := fun h => hd h.1
      rw [hu, if_neg h]

theorem noEmpty_addFlows {s : Summary} (h : s.NoEmpty) (l : List Flow) :
    (s.addFlows l).NoEmpty := by
  induction l generalizing s with
  | nil => exact h
  | cons f l ih => exact ih (noEmpty_addFlow h f)

theorem longest_append (l m : List Flow) (k : Address × Nat) :
    longest (l ++ m) k = max (longest l k) (longest m k) := by
  unfold longest
  rw [List.filter_append]
  induction l.filter (fun f => f.slot = k) with
  | nil => simp
  | cons f l ih => simp [ih, Nat.max_assoc]

theorem longest_perm {l m : List Flow} (h : l.Perm m) (k : Address × Nat) :
    longest l k = longest m k := by
  refine (h.filter _).foldr_eq' ?_ 0
  intro f _ g _ n
  omega

theorem addFlows_perm {s : Summary} (hs : s.NoEmpty) {l m : List Flow} (h : l.Perm m) :
    s.addFlows l = s.addFlows m := by
  apply ext_entry (noEmpty_addFlows hs l) (noEmpty_addFlows hs m)
  · intro a c
    have hu : (undelayed l).Perm (undelayed m) := h.filter _
    rw [coinEntry_addFlows, coinEntry_addFlows, net_perm _ _ hu]
    simp only [touches_perm _ hu]
  · intro a c
    have hd : (delayed l).Perm (delayed m) := h.filter _
    rw [delayedEntry_addFlows, delayedEntry_addFlows, net_perm _ _ hd, longest_perm hd]
    simp only [touches_perm _ hd]

/-- The entries of a summary are the sums of the transfers, and it has no others. -/
structure Sums (s : Summary) (l : List Flow) : Prop where
  noEmpty : s.NoEmpty
  undelayed : ∀ a c, s.coinEntry a c =
    if Touches Flow.slot (undelayed l) (a, c) then
      some (i64 (net Flow.slot Flow.amount (Summary.undelayed l) (a, c)))
    else none
  delayed : ∀ a c, s.delayedEntry a c =
    if Touches Flow.slot (delayed l) (a, c) then
      some ⟨longest (Summary.delayed l) (a, c),
        toUint64 (net Flow.slot Flow.amount (Summary.delayed l) (a, c))⟩
    else none

theorem sums_addFlows (l : List Flow) : (empty.addFlows l).Sums l := by
  refine ⟨noEmpty_addFlows noEmpty_empty l, fun a c => ?_, fun a c => ?_⟩
  · have he : empty.coinEntry a c = none := rfl
    rw [coinEntry_addFlows, he, Option.getD_none, Int.zero_add]
  · have he : empty.delayedEntry a c = none := rfl
    rw [delayedEntry_addFlows, he]
    rfl

theorem eq_addFlows_iff (s : Summary) (l : List Flow) : s = empty.addFlows l ↔ s.Sums l := by
  constructor
  · intro h
    rw [h]
    exact sums_addFlows l
  · intro h
    have h' := sums_addFlows l
    apply ext_entry h.noEmpty h'.noEmpty
    · intro a c
      rw [h.undelayed, h'.undelayed]
    · intro a c
      rw [h.delayed, h'.delayed]

/-- Further transfers leave no trace in the summary of others: they cancel out, add no
entry and have no longer delay. -/
structure Invisible (l m : List Flow) : Prop where
  undelayed : ∀ k, Touches Flow.slot (undelayed m) k →
    Touches Flow.slot (Summary.undelayed l) k ∧
      i64 (net Flow.slot Flow.amount (Summary.undelayed m) k) = 0
  delayed : ∀ k, Touches Flow.slot (delayed m) k →
    Touches Flow.slot (Summary.delayed l) k ∧
      toUint64 (net Flow.slot Flow.amount (Summary.delayed m) k) = 0 ∧
      longest (Summary.delayed m) k ≤ longest (Summary.delayed l) k

theorem coinEntry_append_eq_iff (l m : List Flow) (a : Address) (c : Nat) :
    (empty.addFlows (l ++ m)).coinEntry a c = (empty.addFlows l).coinEntry a c ↔
      (Touches Flow.slot (undelayed m) (a, c) → Touches Flow.slot (undelayed l) (a, c) ∧
        i64 (net Flow.slot Flow.amount (undelayed m) (a, c)) = 0) := by
  have he : empty.coinEntry a c = none := rfl
  have hu : undelayed (l ++ m) = undelayed l ++ undelayed m := List.filter_append ..
  rw [coinEntry_addFlows, coinEntry_addFlows, hu, net_append, he, Option.getD_none]
  simp only [touches_append, Int.zero_add]
  by_cases hm : Touches Flow.slot (undelayed m) (a, c)
  · by_cases hl : Touches Flow.slot (undelayed l) (a, c)
    · simp only [hl, hm, or_true, if_true, Option.some.injEq, i64_add_eq_iff, true_and,
        true_imp_iff]
    · simp [hl, hm]
  · rw [net_of_not_touches _ _ hm, Int.add_zero]
    simp only [hm, or_false, false_imp_iff]

theorem toUint64_add_eq_iff (x y : Int) : toUint64 (x + y) = toUint64 x ↔ toUint64 y = 0 := by
  unfold toUint64
  omega

theorem delayedEntry_append_eq_iff (l m : List Flow) (a : Address) (c : Nat) :
    (empty.addFlows (l ++ m)).delayedEntry a c = (empty.addFlows l).delayedEntry a c ↔
      (Touches Flow.slot (delayed m) (a, c) → Touches Flow.slot (delayed l) (a, c) ∧
        toUint64 (net Flow.slot Flow.amount (delayed m) (a, c)) = 0 ∧
        longest (delayed m) (a, c) ≤ longest (delayed l) (a, c)) := by
  have he : empty.delayedEntry a c = none := rfl
  have hu : delayed (l ++ m) = delayed l ++ delayed m := List.filter_append ..
  rw [delayedEntry_addFlows, delayedEntry_addFlows, hu, net_append, he, longest_append]
  simp only [touches_append]
  by_cases hm : Touches Flow.slot (delayed m) (a, c)
  · by_cases hl : Touches Flow.slot (delayed l) (a, c)
    · simp only [hl, hm, or_true, if_true, Option.some.injEq, mergeDelayed, DelayedItem.mk.injEq,
        toUint64_add_eq_iff, true_and, true_imp_iff]
      omega
    · simp [hl, hm]
  · rw [net_of_not_touches _ _ hm, longest_of_not_touches hm, Int.add_zero, Nat.max_zero]
    simp only [hm, or_false, false_imp_iff]

theorem addFlows_append_eq_iff (l m : List Flow) :
    empty.addFlows (l ++ m) = empty.addFlows l ↔ Invisible l m := by
  constructor
  · intro h
    constructor
    · intro k
      rw [← coinEntry_append_eq_iff, h]
    · intro k
      rw [← delayedEntry_append_eq_iff, h]
  · intro h
    apply ext_entry (noEmpty_addFlows noEmpty_empty _) (noEmpty_addFlows noEmpty_empty _)
    · intro a c
      exact (coinEntry_append_eq_iff l m a c).mpr (h.undelayed (a, c))
    · intro a c
      exact (delayedEntry_append_eq_iff l m a c).mpr (h.delayed (a, c))

end Summary
end Devcash
