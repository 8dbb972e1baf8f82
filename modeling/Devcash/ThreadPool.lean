import Devcash.Basic
import Mathlib

/-! `ThreadPool::ParallelFor`: the ranges it launches and the calls they make. An
index type is signed and wide enough for the sums below; the helper that runs a
range takes its bounds as `int`. -/
namespace Devcash

namespace ThreadPool

/-- The values of `k` in `for (Index k = k1; k < k2; k++)`. -/
def indices (k1 k2 : Int) : List Int := (List.range (k2 - k1).toNat).map (fun j : Nat => k1 + j)

def sequentialFor (start stop : Int) : List Int := indices start stop

def launchRange (k1 k2 : Int) : List Int := indices (i32 k1) (i32 k2)

/-- The launching loop with the turns it has left, and the range after it. -/
def launchFrom (slice stop : Int) : Nat → Int → Int → List (Int × Int)
  | 0, i1, _ => if i1 < stop then [(i1, stop)] else []
  | turns+1, i1, i2 =>
    if i1 < stop then (i1, i2) :: launchFrom slice stop turns i2 (min (i2 + slice) stop)
    else []

/-- The ranges launched, in order; `slice` is what the rounding gives, at least 1. -/
def ranges (nbThreads : Nat) (slice start stop : Int) : List (Int × Int) :=
  launchFrom slice stop (nbThreads - 1) start (min (start + slice) stop)

/-- The calls of `func`, listed range by range. -/
def parallelFor (nbThreads : Nat) (slice start stop : Int) : List Int :=
  (ranges nbThreads slice start stop).flatMap (fun r => launchRange r.1 r.2)

theorem mem_indices {k1 k2 k : Int} : k ∈ indices k1 k2 ↔ k1 ≤ k ∧ k < k2 := by
  simp only [indices, List.mem_map, List.mem_range]
  constructor
  · rintro ⟨j, hj, hk⟩
    omega
  · intro hk
    exact ⟨(k - k1).toNat, by omega, by omega⟩

theorem indices_append {a b c : Int} (hab : a ≤ b) (hbc : b ≤ c) :
    indices a b ++ indices b c = indices a c := by
  have hlen : (c - a).toNat = (b - a).toNat + (c - b).toNat := by omega
  have hshift : ∀ j : Nat, b + j = a + ((b - a).toNat + j : Nat) := by omega
  simp only [indices, hlen, List.range_add, List.map_append, List.map_map]
  congr 1
  apply List.map_congr_left
  intro j _
  exact hshift j

/-- Ranges that follow each other without a gap from one index to another. -/
inductive Consecutive : Int → Int → List (Int × Int) → Prop
  | done (a : Int) : Consecutive a a []
  | cons {a b c : Int} {l : List (Int × Int)} (h : a < b) (rest : Consecutive b c l) :
    Consecutive a c ((a, b) :: l)

namespace Consecutive
variable {a c : Int} {l : List (Int × Int)}

theorem le (h : Consecutive a c l) : a ≤ c := by
  induction h with
  | done a => exact le_refl a
  | cons h _ ih => omega

theorem bounds (h : Consecutive a c l) : ∀ r ∈ l, a ≤ r.1 ∧ r.1 < r.2 ∧ r.2 ≤ c := by
  induction h with
  | done a => simp
  | cons h rest ih =>
    intro r hr
    have hle := rest.le
    cases List.mem_cons.mp hr with
    | inl hr =>
      subst hr
      exact ⟨le_refl _, h, hle⟩
    | inr hr =>
      have hb := ih r hr
      omega

theorem pairwise (h : Consecutive a c l) : l.Pairwise (fun r s => r.2 ≤ s.1) := by
  induction h with
  | done a => exact List.Pairwise.nil
  | cons _ rest ih => exact List.Pairwise.cons (fun s hs => (rest.bounds s hs).1) ih

theorem flatMap_indices (h : Consecutive a c l) :
    l.flatMap (fun r => indices r.1 r.2) = indices a c := by
  induction h with
  | done a => simp [indices]
  | cons h rest ih => rw [List.flatMap_cons, ih, indices_append h.le rest.le]

end Consecutive

section
variable {slice start stop : Int} (hslice : 1 ≤ slice)
include hslice

/- The loop ends because its turns are used up or because the last range it
   launched reached the end; the range after it covers the rest in the first case. -/
theorem consecutive_launchFrom (turns : Nat) {i1 i2 : Int} (hi1 : i1 ≤ stop)
    (hi2 : i2 = min (i1 + slice) stop) : Consecutive i1 stop (launchFrom slice stop turns i1 i2) := by
  induction turns generalizing i1 i2 with
  | zero =>
    rw [launchFrom]
    split_ifs with h
    · exact .cons h (.done stop)
    · rw [show i1 = stop by omega]
      exact .done stop
  | succ turns ih =>
    rw [launchFrom]
    split_ifs with h
    · exact .cons (by omega) (ih (by omega) rfl)
    · rw [show i1 = stop by omega]
      exact .done stop

theorem consecutive_ranges (nbThreads : Nat) (h : start ≤ stop) :
    Consecutive start stop (ranges nbThreads slice start stop) :=
  consecutive_launchFrom hslice (nbThreads - 1) h rfl

theorem parallelFor_of_int (nbThreads : Nat) (h : start ≤ stop) (h1 : -2 ^ 31 ≤ start)
    (h2 : stop < 2 ^ 31) : parallelFor nbThreads slice start stop = sequentialFor start stop := by
  have hranges := consecutive_ranges hslice nbThreads h
  have hlaunch : ∀ r ∈ ranges nbThreads slice start stop,
      launchRange r.1 r.2 = indices r.1 r.2 := by
    intro r hr
    have hr := hranges.bounds r hr
    rw [launchRange, i32_of_bounds (by omega) (by omega), i32_of_bounds (by omega) (by omega)]
  rw [parallelFor, List.flatMap_congr hlaunch, hranges.flatMap_indices, sequentialFor]

end

theorem parallelFor_self (nbThreads : Nat) (slice start : Int) :
    parallelFor nbThreads slice start start = [] := by
  have hstop : ∀ turns i2, launchFrom slice start turns start i2 = [] := by
    intro turns i2
    cases turns with
    | zero => simp [launchFrom]
    | succ turns => simp [launchFrom]
  rw [parallelFor, ranges, hstop, List.flatMap_nil]

/-- No range calls an index outside `int`, nor the largest `int`. -/
theorem parallelFor_int {nbThreads : Nat} {slice start stop k : Int}
    (h : k ∈ parallelFor nbThreads slice start stop) : -2 ^ 31 ≤ k ∧ k < 2 ^ 31 - 1 := by
  obtain ⟨r, _, hk⟩ := List.mem_flatMap.mp h
  have hk := mem_indices.mp hk
  have h1 := i32_bounds r.1
  have h2 := i32_bounds r.2
  omega

/-- The ranges are disjoint and cover what the sequential loop visits. The threads make their calls
in any order, and these are the calls of the sequential loop just when its indices are `int`
values. -/
theorem parallelFor_partitions {slice start stop : Int} {nbThreads : Nat} (h : start ≤ stop)
    (_hthreads : 1 ≤ nbThreads) (hslice : 1 ≤ slice) :
    (ranges nbThreads slice start stop).Pairwise
        (fun r s => Disjoint (Set.Ico r.1 r.2) (Set.Ico s.1 s.2)) ∧
      (∀ k, (∃ r ∈ ranges nbThreads slice start stop, k ∈ Set.Ico r.1 r.2) ↔
        k ∈ Set.Ico start stop) ∧
      ∀ calls : List Int, calls.Perm (parallelFor nbThreads slice start stop) →
        (calls.Perm (sequentialFor start stop) ↔
          (start < stop → -2 ^ 31 ≤ start ∧ stop < 2 ^ 31)) := by
  have hranges := consecutive_ranges hslice nbThreads h
  refine ⟨?_, ?_, fun calls hcalls => ⟨?_, ?_⟩⟩
  · refine hranges.pairwise.imp ?_
    intro r s hrs
    exact Set.Ico_disjoint_Ico.mpr ((min_le_left _ _).trans (hrs.trans (le_max_right _ _)))
  · intro k
    rw [Set.mem_Ico, ← mem_indices, ← hranges.flatMap_indices, List.mem_flatMap]
    simp only [mem_indices, Set.mem_Ico]
  · intro hperm hlt
    have hfirst : start ∈ sequentialFor start stop := mem_indices.mpr (by omega)
    have hlast : stop - 1 ∈ sequentialFor start stop := mem_indices.mpr (by omega)
    rw [← hperm.mem_iff, hcalls.mem_iff] at hfirst hlast
    have h1 := parallelFor_int hfirst
    have h2 := parallelFor_int hlast
    omega
  · intro hint
    have heq : parallelFor nbThreads slice start stop = sequentialFor start stop := by
      rcases h.lt_or_eq with hlt | rfl
      · exact parallelFor_of_int hslice nbThreads h (hint hlt).1 (hint hlt).2
      · rw [parallelFor_self, sequentialFor, indices, sub_self]
        rfl
    rwa [heq] at hcalls

theorem parallelFor_partitions_seven :
    ranges 3 2 0 7 = [(0, 2), (2, 4), (4, 7)] ∧ (parallelFor 3 2 0 7).Perm (sequentialFor 0 7) :=
  ⟨by decide, ((parallelFor_partitions (by decide) (by decide) (by decide)).2.2 _
    (List.Perm.refl _)).mpr (by decide)⟩

/-- A wider index above the `int` values comes back negative. -/
theorem parallelFor_wide : sequentialFor (2 ^ 31) (2 ^ 31 + 1) = [2 ^ 31] ∧
    ranges 2 1 (2 ^ 31) (2 ^ 31 + 1) = [(2 ^ 31, 2 ^ 31 + 1)] ∧
    parallelFor 2 1 (2 ^ 31) (2 ^ 31 + 1) = [-2 ^ 31] := by
  decide

end ThreadPool
end Devcash
