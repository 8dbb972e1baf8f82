import Devcash.Aggregate
import Devcash.Endorsement

/-! When a refused validation leaves the books as they were. -/
namespace Devcash
open Postings

namespace Summary

theorem isSome_addFlows (s : Summary) (m : List Flow) (a : Address) :
    ((s.addFlows m).summary.find? a).isSome ↔
      (s.summary.find? a).isSome ∨ ∃ f ∈ m, f.addr = a := by
  induction m generalizing s with
  | nil => simp [addFlows]
  | cons f m ih =>
    rw [addFlows_cons, ih, find?_addFlow]
    by_cases ha : a = f.addr
    · simp [ha]
    · simp [ha, Ne.symm ha]

/-- Transfers leave no trace: each account they post to has an entry that takes them in
without a change. -/
structure Hides (s : Summary) (m : List Flow) : Prop where
  undelayed : ∀ a c, Touches Flow.slot (undelayed m) (a, c) → ∃ x, s.coinEntry a c = some x ∧
    i64 (x + net Flow.slot Flow.amount (Summary.undelayed m) (a, c)) = x
  delayed : ∀ a c, Touches Flow.slot (delayed m) (a, c) → ∃ d, s.delayedEntry a c = some d ∧
    longest (Summary.delayed m) (a, c) ≤ d.delay ∧
    u64 (d.delta + toUint64 (net Flow.slot Flow.amount (Summary.delayed m) (a, c))) = d.delta

theorem coinEntry_addFlows_eq_iff (s : Summary) (m : List Flow) (a : Address) (c : Nat) :
    (s.addFlows m).coinEntry a c = s.coinEntry a c ↔
      (Touches Flow.slot (undelayed m) (a, c) → ∃ x, s.coinEntry a c = some x ∧
        i64 (x + net Flow.slot Flow.amount (undelayed m) (a, c)) = x) := by
  rw [coinEntry_addFlows]
  split_ifs with ht
  · cases hx : s.coinEntry a c with
    | none => simp [ht]
    | some x => simp [ht]
  · simp [ht]

theorem delayedEntry_addFlows_eq_iff (s : Summary) (m : List Flow) (a : Address) (c : Nat) :
    (s.addFlows m).delayedEntry a c = s.delayedEntry a c ↔
      (Touches Flow.slot (delayed m) (a, c) → ∃ d, s.delayedEntry a c = some d ∧
        longest (delayed m) (a, c) ≤ d.delay ∧
        u64 (d.delta + toUint64 (net Flow.slot Flow.amount (delayed m) (a, c))) = d.delta) := by
  rw [delayedEntry_addFlows]
  split_ifs with ht
  · cases hd : s.delayedEntry a c with
    | none => simp [ht]
    | some d =>
      obtain ⟨delay, delta⟩ := d
      simp [ht, mergeDelayed]
  · simp [ht]

theorem addFlows_eq_iff (s : Summary) (m : List Flow) : s.addFlows m = s ↔ s.Hides m := by
  constructor
  · intro h
    constructor
    · intro a c
      rw [← coinEntry_addFlows_eq_iff, h]
    · intro a c
      rw [← delayedEntry_addFlows_eq_iff, h]
  · intro h
    refine ext_addr (fun a => Bool.eq_iff_iff.mpr ?_)
      (fun a c => (coinEntry_addFlows_eq_iff s m a c).mpr (h.undelayed a c))
      (fun a c => (delayedEntry_addFlows_eq_iff s m a c).mpr (h.delayed a c))
    rw [isSome_addFlows]
    refine or_iff_left_of_imp ?_
    rintro ⟨f, hf, rfl⟩
    -- The account of a transfer has an entry, so its address has one.
    refine isSome_of_entry (c := f.coin) ?_
    by_cases hd : f.delay = 0
    · obtain ⟨x, hx, -⟩ := h.undelayed f.addr f.coin
        ⟨f, List.mem_filter.mpr ⟨hf, decide_eq_true hd⟩, rfl⟩
      rw [hx]
      exact Or.inl rfl
    · obtain ⟨d, hx, -⟩ := h.delayed f.addr f.coin
        ⟨f, List.mem_filter.mpr ⟨hf, decide_eq_true (Nat.pos_of_ne_zero hd)⟩, rfl⟩
      rw [hx]
      exact Or.inr rfl

end Summary

/-- What was posted cannot be seen in the state and in the summary. -/
structure Books.Hides (b : Books) (p : Posted) : Prop where
  state : b.state.Invisible [] p.coins
  summary : b.summary.Hides p.flows

theorem Books.After.eq_iff {b b' : Books} {p : Posted} (h : b.After p b') :
    b' = b ↔ b.Hides p ∧ b'.aggregate = b.aggregate := by
  have hstate : b.state.addCoins p.coins = b.state ↔ b.state.Invisible [] p.coins :=
    b.state.addCoins_append_eq_iff [] p.coins
  have hfields : b' = b ↔ b'.state = b.state ∧ b'.summary = b.summary ∧
      b'.aggregate = b.aggregate := by
    cases b
    cases b'
    exact Books.mk.injEq _ _ _ _ _ _ ▸ Iff.rfl
  rw [hfields, h.1, h.2, hstate, Summary.addFlows_eq_iff, ← and_assoc]
  exact and_congr_left' ⟨fun h => ⟨h.1, h.2⟩, fun h => ⟨h.state, h.summary⟩⟩

namespace Transaction
variable {o : Ossl} {keys : KeyRing o}

/-- What `isValid` posts to the books, accepted or not. -/
def postedByIsValid (keys : KeyRing o) (tx : Transaction) (b : Books) : Posted :=
  postedWith (tx.isSound keys)
    (do
      let oper ← tx.operation
      let xfers ← tx.getTransfers
      .ok (xfers, spendFor oper)) Transfer.amountCoinAddr b

theorem aggregate_isValid (tx : Transaction) (b : Books) :
    (tx.isValid keys b).2.aggregate = b.aggregate := by
  rw [isValid_eq]
  have hfold : ∀ l : List SmartCoin, l.foldl (fun g _ => g) b.aggregate = b.aggregate := by
    intro l
    induction l with
    | nil => rfl
    | cons k l ih => exact ih
  refine (aggregate_validateWith ?_ (fun _ _ h => h) b).trans (hfold _)
  intro ts spend hbody b' a c x g _ hg
  obtain ⟨oper, -, hbody⟩ := Result.bind_eq_ok hbody
  obtain ⟨xfers, -, hbody⟩ := Result.bind_eq_ok hbody
  cases hbody
  exact allow_spendFor_same hg

theorem isValid_eq_iff (tx : Transaction) (b : Books) :
    (tx.isValid keys b).2 = b ↔ b.Hides (tx.postedByIsValid keys b) := by
  have hafter : b.After (tx.postedByIsValid keys b) (tx.isValid keys b).2 := by
    rw [isValid_eq]
    exact validateWith_after _ _ _ _
  rw [hafter.eq_iff, aggregate_isValid]
  exact and_iff_left rfl

theorem isValidInAggregate_eq_iff (prior : ChainState) (tx : Transaction) (b : Books) :
    (tx.isValidInAggregate keys prior b).2 = b ↔
      b.Hides (tx.postedInAggregate keys prior b) ∧
        Aggregate.Hides b.aggregate (tx.postedInAggregate keys prior b).coins := by
  rw [← Aggregate.commits_eq_iff, ← aggregate_aggregateStep]
  exact (aggregateStep_after prior tx b).eq_iff

/-- A validation that returns false is atomic exactly if what it posted before cannot be
seen in the books: nothing is undone. -/
theorem validation_atomic_iff (keys : KeyRing o) (prior : ChainState) (tx : Transaction)
    (b : Books) :
    ((tx.isValid keys b).1 = .ok false →
      ((tx.isValid keys b).2 = b ↔ b.Hides (tx.postedByIsValid keys b))) ∧
    ((tx.isValidInAggregate keys prior b).1 = .ok false →
      ((tx.isValidInAggregate keys prior b).2 = b ↔
        b.Hides (tx.postedInAggregate keys prior b) ∧
          Aggregate.Hides b.aggregate (tx.postedInAggregate keys prior b).coins)) :=
  ⟨fun _ => isValid_eq_iff tx b, fun _ => isValidInAggregate_eq_iff prior tx b⟩

/-- A wallet spends a coin that it has no entry of, after another one. -/
def sampleHalfway : Transaction :=
  let xfers := [Transfer.make (Address.sample 1) 1 (-5) 0,
    Transfer.make (Address.sample 1) 2 (-5) 0, Transfer.make (Address.sample 2) 1 10 0]
  let nonce : Bytes := [0, 1, 2, 3, 4, 5, 6, 7]
  .tier2 (Tier2Transaction.ofSignature OpType.exchange.toByte xfers nonce
    (Ossl.toySignature (Address.sample 1)
      (Ossl.toyHash (Tier2Transaction.layout OpType.exchange.toByte xfers nonce))))

theorem validation_atomic_iff_sampleHalfway :
    ((sampleHalfway.isValid KeyRing.toy Books.empty).1 = .ok false ∧
      ((sampleHalfway.isValid KeyRing.toy Books.empty).2 = Books.empty ↔
        Books.empty.Hides (sampleHalfway.postedByIsValid KeyRing.toy Books.empty))) ∧
    (sampleHalfway.isValidInAggregate KeyRing.toy ChainState.empty Books.empty).1 = .ok false ∧
      ((sampleHalfway.isValidInAggregate KeyRing.toy ChainState.empty Books.empty).2 = Books.empty ↔
        Books.empty.Hides (sampleHalfway.postedInAggregate KeyRing.toy ChainState.empty Books.empty) ∧
          Aggregate.Hides Books.empty.aggregate
            (sampleHalfway.postedInAggregate KeyRing.toy ChainState.empty Books.empty).coins) := by
  have hvalid : (sampleHalfway.isValid KeyRing.toy Books.empty).1 = .ok false := by decide +kernel
  have haggregate : (sampleHalfway.isValidInAggregate KeyRing.toy ChainState.empty Books.empty).1 =
      .ok false := by decide +kernel
  obtain ⟨hatomic, hatomicInAggregate⟩ :=
    validation_atomic_iff KeyRing.toy ChainState.empty sampleHalfway Books.empty
  exact ⟨⟨hvalid, hatomic hvalid⟩, haggregate, hatomicInAggregate haggregate⟩

/-- Both validations refuse it, and the first spending stays in all three books. -/
theorem sampleHalfway_stays :
    (sampleHalfway.isValid KeyRing.toy Books.empty).1 = .ok false ∧
    (sampleHalfway.isValid KeyRing.toy Books.empty).2.state ≠ Books.empty.state ∧
    (sampleHalfway.isValid KeyRing.toy Books.empty).2.summary ≠ Books.empty.summary ∧
    (sampleHalfway.isValidInAggregate KeyRing.toy ChainState.empty Books.empty).1 = .ok false ∧
    (sampleHalfway.isValidInAggregate KeyRing.toy ChainState.empty Books.empty).2.state ≠
      Books.empty.state ∧
    Aggregate.committed (sampleHalfway.isValidInAggregate KeyRing.toy ChainState.empty
      Books.empty).2.aggregate (Address.sample 1) = -5 := by
  decide +kernel

end Transaction
end Devcash
