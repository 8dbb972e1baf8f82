import Devcash.Lib.Run
import Devcash.Transaction

/-! A pass of `isValidInAggregate` over a series of transactions: what the aggregate
knows about the accepted ones, and when every order of them is executable. -/
namespace Devcash
open Postings

namespace Transaction
variable {o : Ossl} {keys : KeyRing o}

def flows (tx : Transaction) : List Flow := flowsOf tx.getTransfers

/-- The amounts that can be read, of every transfer. -/
def amounts (tx : Transaction) : List Int :=
  match tx.getTransfers with
  | .ok ts => ts.filterMap (fun t => t.getAmount.toOption)
  | .error _ => []

/-- What `isValidInAggregate` reads of a sound transaction: the transfers to post and
how a spending is checked. -/
def aggregateBody (prior : ChainState) : Transaction → Result (List Transfer × Spend)
  | .tier1 tx => do
    let xfers ← tx.getTransfers
    .ok (xfers, spendInAggregate prior)
  | .tier2 tx => do
    let oper ← tx.getOperation
    let xfers ← tx.getTransfers
    .ok (xfers, spendAvailable oper (spendInAggregate prior))

/-- The order in which the fields of a transfer are read. -/
def aggregateFields : Transaction → Transfer → Result (Address × Nat × Int)
  | .tier1 _ => Transfer.coinAddrAmount
  | .tier2 _ => Transfer.amountCoinAddr

theorem isValidInAggregate_eq (keys : KeyRing o) (prior : ChainState) (tx : Transaction)
    (b : Books) : tx.isValidInAggregate keys prior b =
      validateWith (tx.isSound keys) (tx.aggregateBody prior) tx.aggregateFields b := by
  cases tx with
  | tier1 tx => rfl
  | tier2 tx => rfl

/-- Both kinds of transaction check a spending against the aggregate. -/
theorem aggregateBody_ok {prior : ChainState} {tx : Transaction} {ts : List Transfer}
    {spend : Spend} (h : tx.aggregateBody prior = .ok (ts, spend)) :
    tx.getTransfers = .ok ts ∧ ∀ b a c x g, spend b a c x = .ok (some g) →
      spendInAggregate prior b a c x = .ok (some g) := by
  cases tx with
  | tier1 tx =>
    obtain ⟨xfers, hx, h⟩ := Result.bind_eq_ok h
    cases h
    exact ⟨hx, fun b a c x g h => h⟩
  | tier2 tx =>
    obtain ⟨oper, -, h⟩ := Result.bind_eq_ok h
    obtain ⟨xfers, hx, h⟩ := Result.bind_eq_ok h
    cases h
    refine ⟨hx, fun b a c x g h => ?_⟩
    obtain ⟨enough, -, h⟩ := Result.bind_eq_ok h
    split_ifs at h
    · exact h
    · cases h

theorem aggregateFields_ok {tx : Transaction} {t : Transfer} {f : Address × Nat × Int}
    (h : tx.aggregateFields t = .ok f) : t.amountCoinAddr = .ok f := by
  cases tx with
  | tier1 tx => exact Transfer.amountCoinAddr_of_coinAddrAmount h
  | tier2 tx => exact h

end Transaction

/-- What the aggregate says about the flows of accepted transactions: an address
without an entry has spent nothing, and an entry is at most the debits of any one coin. -/
structure Committed (g : OrdMap Address SmartCoin) (accepted : List Flow) (v : Nat) : Prop where
  fresh : ∀ a, g.find? a = none → ∀ f ∈ accepted, f.addr = a → 0 ≤ f.amount
  spent : ∀ a sc, g.find? a = some sc → -(v : Int) ≤ sc.amount ∧
    ∀ c, sc.amount ≤ debits Flow.slot Flow.amount accepted (a, c)

theorem Committed.mono {g : OrdMap Address SmartCoin} {l m : List Flow} {v w : Nat}
    (h : Committed g (l ++ m) v) (hv : v ≤ w) : Committed g l w := by
  constructor
  · intro a ha f hf
    exact h.fresh a ha f (List.mem_append_left m hf)
  · intro a sc ha
    obtain ⟨h1, h2⟩ := h.spent a sc ha
    refine ⟨by omega, fun c => ?_⟩
    have h3 := h2 c
    have h4 := debits_nonpos Flow.slot Flow.amount m (a, c)
    rw [debits_append] at h3
    omega

theorem Committed.weaken {g : OrdMap Address SmartCoin} {l : List Flow} {v w : Nat}
    (h : Committed g l v) (hv : v ≤ w) : Committed g l w :=
  Committed.mono (m := []) (by rwa [List.append_nil]) hv

theorem Committed.debits_fresh {g : OrdMap Address SmartCoin} {l : List Flow} {v : Nat}
    (h : Committed g l v) {a : Address} (ha : g.find? a = none) (c : Nat) :
    debits Flow.slot Flow.amount l (a, c) = 0 := by
  apply debits_eq_zero
  intro e he hk
  exact h.fresh a ha e he (congrArg Prod.fst hk)

/-- Every order of the flows can be paid. -/
def Executable (prior : ChainState) (l : List Flow) : Prop :=
  ∀ a c, 0 ≤ prior.balance a c + debits Flow.slot Flow.amount l (a, c)

/-- A spending of an address that has spent nothing before is within its balance. -/
def FirstSpendsCovered (prior : ChainState) (g : OrdMap Address SmartCoin) (fs : List Flow) :
    Prop :=
  ∀ l1 f l2, fs = l1 ++ f :: l2 → f.amount < 0 → g.find? f.addr = none →
    (∀ e ∈ l1, e.amount < 0 → e.addr ≠ f.addr) → 0 ≤ prior.balance f.addr f.coin + f.amount

theorem spendInAggregate_some {prior : ChainState} {b : Books} {a : Address} {c : Nat} {x : Int}
    {g : OrdMap Address SmartCoin} (h : spendInAggregate prior b a c x = .ok (some g)) :
    (b.aggregate.find? a = none ∧ ∀ q, g.find? q =
      if q = a then some (SmartCoin.make a c x) else b.aggregate.find? q) ∨
    ∃ sc, b.aggregate.find? a = some sc ∧ 0 ≤ i64 (prior.balance a c + sc.amount + x) ∧
      ∀ q, g.find? q =
        if q = a then some (SmartCoin.make a c (x + sc.amount)) else b.aggregate.find? q := by
  rw [spendInAggregate] at h
  cases hf : b.aggregate.find? a with
  | none =>
    rw [hf] at h
    cases h
    refine Or.inl ⟨rfl, fun q => ?_⟩
    rw [OrdMap.find?_insert, hf, Option.getD_none]
  | some sc =>
    rw [hf] at h
    obtain ⟨historic, hh, h⟩ := Result.bind_eq_ok h
    rw [ChainState.getAmount_eq] at hh
    split_ifs at hh h with h1 h2
    · cases h
    · cases hh
      cases h
      exact Or.inr ⟨sc, rfl, by omega, fun q => OrdMap.find?_put _ _ _ _⟩

section
variable {prior : ChainState} {spend : Spend} {b : Books} {l : List Flow} {v : Nat} {f : Flow}
  {g : OrdMap Address SmartCoin}
  (hspend : ∀ b a c x g, spend b a c x = .ok (some g) →
    spendInAggregate prior b a c x = .ok (some g))
  (hallow : allow spend b f.addr f.coin f.amount = .ok (some g))
  (hc : Committed b.aggregate l v)
  (hfit : ∀ a c, prior.balance a c + (v + f.amount.natAbs : Nat) < 2 ^ 63)

theorem debits_concat (l : List Flow) (f : Flow) (k : Address × Nat) :
    debits Flow.slot Flow.amount (l ++ [f]) k =
      debits Flow.slot Flow.amount l k + if f.slot = k ∧ f.amount < 0 then f.amount else 0 := by
  rw [debits_append, debits_cons, debits_nil, Int.add_zero]

theorem spent_other {a : Address} {sc : SmartCoin}
    (h : -(v : Int) ≤ sc.amount ∧ ∀ c, sc.amount ≤ debits Flow.slot Flow.amount l (a, c))
    (hk : f.amount < 0 → a ≠ f.addr) :
    -((v + f.amount.natAbs : Nat) : Int) ≤ sc.amount ∧
      ∀ c, sc.amount ≤ debits Flow.slot Flow.amount (l ++ [f]) (a, c) := by
  refine ⟨by omega, fun c => ?_⟩
  rw [debits_concat, if_neg (fun he => hk he.2 (congrArg Prod.fst he.1).symm), Int.add_zero]
  exact h.2 c

/-- The entry of the spender takes the amount in, and does not wrap. -/
theorem spent_spender (hx : f.amount < 0) (hroom : ((v + f.amount.natAbs : Nat) : Int) < 2 ^ 63)
    {e : Int} (h1 : -(v : Int) ≤ e) (h2 : ∀ c, e ≤ debits Flow.slot Flow.amount l (f.addr, c)) :
    -((v + f.amount.natAbs : Nat) : Int) ≤ (SmartCoin.make f.addr f.coin (f.amount + e)).amount ∧
      ∀ c, (SmartCoin.make f.addr f.coin (f.amount + e)).amount ≤
        debits Flow.slot Flow.amount (l ++ [f]) (f.addr, c) := by
  have hdebits := debits_nonpos Flow.slot Flow.amount l (f.addr, f.coin)
  have hcoin := h2 f.coin
  have hamount : (SmartCoin.make f.addr f.coin (f.amount + e)).amount = f.amount + e :=
    i64_of_bounds (by omega) (by omega)
  rw [hamount]
  refine ⟨by omega, fun c => ?_⟩
  have hc := h2 c
  rw [debits_concat]
  split_ifs
  · omega
  · omega

include hallow

theorem allow_nonneg (hx : 0 ≤ f.amount) : g = b.aggregate := by
  rw [allow, if_neg (by omega)] at hallow
  cases hallow
  rfl

include hspend in
theorem allow_neg (hx : f.amount < 0) :
    spendInAggregate prior b f.addr f.coin f.amount = .ok (some g) := by
  rw [allow, if_pos hx] at hallow
  exact hspend _ _ _ _ _ hallow

include hspend in
theorem allow_absent {q : Address} (hq : g.find? q = none) :
    b.aggregate.find? q = none ∧ (f.amount < 0 → f.addr ≠ q) := by
  by_cases hx : f.amount < 0
  · obtain ⟨-, hg⟩ | ⟨sc, -, -, hg⟩ := spendInAggregate_some (allow_neg hspend hallow hx)
    all_goals
      rw [hg] at hq
      split_ifs at hq with h
      exact ⟨hq, fun _ he => h he.symm⟩
  · rw [allow_nonneg hallow (by omega)] at hq
    exact ⟨hq, fun h => absurd h hx⟩

include hspend hc hfit in
theorem committed_allow (hp : prior.NonNeg) :
    Committed g (l ++ [f]) (v + f.amount.natAbs) := by
  have hroom : ((v + f.amount.natAbs : Nat) : Int) < 2 ^ 63 := by
    have hv := hfit f.addr f.coin
    have hb := hp f.addr f.coin
    omega
  constructor
  · intro a ha e he hea
    obtain ⟨h1, h2⟩ := allow_absent hspend hallow ha
    cases List.mem_append.mp he with
    | inl he => exact hc.fresh a h1 e he hea
    | inr he =>
      rw [List.mem_singleton.mp he] at hea ⊢
      by_contra hx
      exact h2 (by omega) hea
  · intro a sc ha
    by_cases hx : f.amount < 0
    · obtain ⟨hf, hg⟩ | ⟨sc', hf, -, hg⟩ := spendInAggregate_some (allow_neg hspend hallow hx)
      · rw [hg] at ha
        split_ifs at ha with hk
        · subst hk
          cases ha
          have h := spent_spender hx hroom (by omega) (fun c => (hc.debits_fresh hf c).ge)
          rwa [Int.add_zero] at h
        · exact spent_other (hc.spent a sc ha) (fun _ => hk)
      · rw [hg] at ha
        split_ifs at ha with hk
        · subst hk
          cases ha
          obtain ⟨h1, h2⟩ := hc.spent f.addr sc' hf
          exact spent_spender hx hroom h1 h2
        · exact spent_other (hc.spent a sc ha) (fun _ => hk)
    · rw [allow_nonneg hallow (by omega)] at ha
      exact spent_other (hc.spent a sc ha) (fun h => absurd h hx)

include hspend hc hfit in
/-- An allowed flow keeps every order payable, unless it is a first spending. -/
theorem executable_allow (hp : prior.NonNeg) (he : Executable prior l)
    (hfirst : f.amount < 0 → b.aggregate.find? f.addr = none →
      0 ≤ prior.balance f.addr f.coin + f.amount) : Executable prior (l ++ [f]) := by
  intro a c
  have h := he a c
  rw [debits_concat]
  split_ifs with hk
  · obtain ⟨hk, hx⟩ := hk
    obtain ⟨rfl, rfl⟩ : f.addr = a ∧ f.coin = c := Prod.mk.inj hk
    obtain ⟨hf, -⟩ | ⟨sc, hf, hpos, -⟩ := spendInAggregate_some (allow_neg hspend hallow hx)
    · rw [hc.debits_fresh hf]
      have := hfirst hx hf
      omega
    · obtain ⟨h1, h2⟩ := hc.spent f.addr sc hf
      have h3 := h2 f.coin
      have h4 := debits_nonpos Flow.slot Flow.amount l (f.addr, f.coin)
      have hv := hfit f.addr f.coin
      have hb := hp f.addr f.coin
      rw [i64_of_bounds (by omega) (by omega)] at hpos
      omega
  · omega

end

/-- The sizes of the amounts that can be read. -/
def transferVolume (ts : List Transfer) : Nat :=
  volume id (ts.filterMap (fun t => t.getAmount.toOption))

theorem transferVolume_cons {t : Transfer} {a : Address} {c : Nat} {x : Int}
    (h : t.amountCoinAddr = .ok (a, c, x)) (ts : List Transfer) :
    transferVolume (t :: ts) = x.natAbs + transferVolume ts := by
  obtain ⟨x', hx, h⟩ := Result.bind_eq_ok h
  obtain ⟨c', -, h⟩ := Result.bind_eq_ok h
  obtain ⟨a', -, h⟩ := Result.bind_eq_ok h
  cases h
  simp [transferVolume, hx, Except.toOption, volume]

theorem FirstSpendsCovered.tail {prior : ChainState} {spend : Spend} {b : Books} {f : Flow}
    {g : OrdMap Address SmartCoin} {fs : List Flow}
    (hspend : ∀ b a c x g, spend b a c x = .ok (some g) →
      spendInAggregate prior b a c x = .ok (some g))
    (hallow : allow spend b f.addr f.coin f.amount = .ok (some g))
    (h : FirstSpendsCovered prior b.aggregate (f :: fs)) : FirstSpendsCovered prior g fs := by
  intro l1 e l2 hfs hx hg hl
  obtain ⟨h1, h2⟩ := allow_absent hspend hallow hg
  refine h (f :: l1) e l2 (by rw [hfs]; rfl) hx h1 ?_
  intro d hd hdx
  cases List.mem_cons.mp hd with
  | inl hd =>
    rw [hd] at hdx ⊢
    exact h2 hdx
  | inr hd => exact hl d hd hdx

section
variable {prior : ChainState} {spend : Spend} {fields : Transfer → Result (Address × Nat × Int)}
  (hspend : ∀ b a c x g, spend b a c x = .ok (some g) →
    spendInAggregate prior b a c x = .ok (some g))
  (hfields : ∀ t f, fields t = .ok f → t.amountCoinAddr = .ok f) (hp : prior.NonNeg)
include hspend hfields hp

theorem committed_postTransfers {ts : List Transfer} {b : Books} {l : List Flow} {v : Nat}
    (hc : Committed b.aggregate l v)
    (hfit : ∀ a c, prior.balance a c + (v + transferVolume ts : Nat) < 2 ^ 63) :
    Committed (postTransfers fields spend ts b).2.aggregate l (v + transferVolume ts) ∧
      ((postTransfers fields spend ts b).1 = .ok true → ∀ fs, ts.mapM Transfer.flow = .ok fs →
        Committed (postTransfers fields spend ts b).2.aggregate (l ++ fs)
          (v + transferVolume ts) ∧
        (Executable prior l → FirstSpendsCovered prior b.aggregate fs →
          Executable prior (l ++ fs))) := by
  induction ts generalizing b l v with
  | nil =>
    refine ⟨hc, fun _ fs hfs => ?_⟩
    obtain rfl : fs = [] := (Except.ok.inj hfs).symm
    rw [List.append_nil]
    exact ⟨hc, fun he _ => he⟩
  | cons t ts ih =>
    obtain ⟨r, hr, ht, -⟩ | ⟨a, c, x, g, hf, hg, ⟨e, -, ht, -⟩ | ⟨d, hd, ht, -⟩⟩ :=
      postTransfer_cases fields spend t b
    · rw [postTransfers_stop (by rw [ht]; exact hr), ht]
      exact ⟨hc.weaken (Nat.le_add_right _ _), fun h => absurd h hr⟩
    · have hvol := transferVolume_cons (hfields t _ hf) ts
      rw [postTransfers_stop (by rw [ht]; simp), ht]
      have hstep := committed_allow (f := ⟨a, c, x, 0⟩) hspend hg hc
        (fun a c => by have := hfit a c; simp only; omega) hp
      exact ⟨hstep.mono (by simp only; omega), fun h => nomatch h⟩
    · have hvol := transferVolume_cons (hfields t _ hf) ts
      have hfit' : ∀ q k, prior.balance q k + (v + x.natAbs : Nat) < 2 ^ 63 := fun q k => by
        have := hfit q k
        omega
      have hstep : Committed g (l ++ [⟨a, c, x, d⟩]) (v + x.natAbs) :=
        committed_allow (f := ⟨a, c, x, d⟩) hspend hg hc hfit' hp
      have hflow : t.flow = .ok ⟨a, c, x, d⟩ :=
        Transfer.flow_ok_iff.mpr ⟨hfields t _ hf, hd⟩
      rw [postTransfers_step ht, hvol, ← Nat.add_assoc]
      obtain ⟨h1, h2⟩ := ih (b := ⟨b.state.addCoin (SmartCoin.make a c x),
        b.summary.addFlow ⟨a, c, x, d⟩, g⟩) hstep (fun q k => by have := hfit q k; omega)
      refine ⟨h1.mono (Nat.le_refl _), fun hr fs hfs => ?_⟩
      rw [List.mapM_cons, hflow, Result.bind_ok] at hfs
      obtain ⟨fs', hfs', hfs⟩ := Result.bind_eq_ok hfs
      cases hfs
      obtain ⟨h3, h4⟩ := h2 hr fs' hfs'
      rw [List.append_assoc, List.singleton_append] at h3 h4
      refine ⟨h3, fun he hfirst => ?_⟩
      refine h4 (executable_allow (f := ⟨a, c, x, d⟩) hspend hg hc hfit' hp he ?_)
        (hfirst.tail hspend hg)
      intro hx hn
      exact hfirst [] _ fs' rfl hx hn (by simp)

end

variable {o : Ossl} {keys : KeyRing o}

/-- A validation in a pass, as a step on the books. -/
def aggregateStep (keys : KeyRing o) (prior : ChainState) (b : Books) (tx : Transaction) : Books :=
  (tx.isValidInAggregate keys prior b).2

/-- The transactions of a pass for which `isValidInAggregate` returns true. -/
def accepted (keys : KeyRing o) (prior : ChainState) : Books → List Transaction → List Transaction
  | _, [] => []
  | b, tx :: l =>
    if (tx.isValidInAggregate keys prior b).1 = .ok true then
      tx :: accepted keys prior (aggregateStep keys prior b tx) l
    else accepted keys prior (aggregateStep keys prior b tx) l

theorem mem_accepted {prior : ChainState} {b : Books} {l1 l2 : List Transaction} {tx : Transaction}
    (h : (tx.isValidInAggregate keys prior (Run.after (aggregateStep keys prior) b l1)).1 =
      .ok true) : tx ∈ accepted keys prior b (l1 ++ tx :: l2) := by
  induction l1 generalizing b with
  | nil => simp [accepted, show (tx.isValidInAggregate keys prior b).1 = .ok true from h]
  | cons t l1 ih =>
    have hm := ih (b := aggregateStep keys prior b t) h
    simp only [List.cons_append, accepted]
    split_ifs
    · exact List.mem_cons_of_mem t hm
    · exact hm

/-- The sizes of all the amounts of the transactions, readable ones of refused
transactions included, do not wrap on top of any balance. -/
def PassFits (prior : ChainState) (l : List Transaction) : Prop :=
  ∀ a c, prior.balance a c + volume id (l.flatMap Transaction.amounts) < 2 ^ 63

theorem volume_amounts (tx : Transaction) {ts : List Transfer} (h : tx.getTransfers = .ok ts) :
    volume id tx.amounts = transferVolume ts := by
  rw [Transaction.amounts, h]
  rfl

theorem committed_aggregateStep {prior : ChainState} (hp : prior.NonNeg) {tx : Transaction}
    {b : Books} {l : List Flow} {v : Nat} (hc : Committed b.aggregate l v)
    (hfit : ∀ a c, prior.balance a c + (v + volume id tx.amounts : Nat) < 2 ^ 63) :
    Committed (aggregateStep keys prior b tx).aggregate l (v + volume id tx.amounts) ∧
      ((tx.isValidInAggregate keys prior b).1 = .ok true →
        Committed (aggregateStep keys prior b tx).aggregate (l ++ tx.flows)
          (v + volume id tx.amounts) ∧
        (Executable prior l → FirstSpendsCovered prior b.aggregate tx.flows →
          Executable prior (l ++ tx.flows))) := by
  have hfields : ∀ t f, tx.aggregateFields t = .ok f → t.amountCoinAddr = .ok f :=
    fun t f => Transaction.aggregateFields_ok
  rw [aggregateStep]
  rw [Transaction.isValidInAggregate_eq]
  obtain ⟨hb, hn⟩ | ⟨ts, spend, hb, -, he⟩ :=
    validateWith_cases (tx.isSound keys) (tx.aggregateBody prior) tx.aggregateFields b
  · rw [hb]
    exact ⟨hc.weaken (Nat.le_add_right _ _), fun h => absurd h hn⟩
  · obtain ⟨hts, hspend⟩ := Transaction.aggregateBody_ok hb
    rw [volume_amounts tx hts] at hfit ⊢
    obtain ⟨h1, h2⟩ := committed_postTransfers hspend hfields hp hc hfit
    rw [he]
    refine ⟨h1, fun h => ?_⟩
    have ht := catchFalse_true h
    obtain ⟨fs, hfs, -⟩ := postTransfers_true hfields ht
    have hflows : tx.flows = fs := by
      rw [Transaction.flows, flowsOf, hts, Result.bind_ok, hfs]
    rw [hflows]
    exact h2 ht fs hfs

/-- The condition on a transaction and the books before it: if it is accepted, the
first spending of each address is within its balance. -/
def StepCovered (keys : KeyRing o) (prior : ChainState) (b : Books) (tx : Transaction) : Prop :=
  (tx.isValidInAggregate keys prior b).1 = .ok true →
    FirstSpendsCovered prior b.aggregate tx.flows

theorem volume_flatMap_cons (tx : Transaction) (l : List Transaction) :
    volume id ((tx :: l).flatMap Transaction.amounts) =
      volume id tx.amounts + volume id (l.flatMap Transaction.amounts) := by
  simp [volume]

theorem executable_accepted {prior : ChainState} (hp : prior.NonNeg) {l : List Transaction}
    {b : Books} {done : List Flow} {v : Nat} (hc : Committed b.aggregate done v)
    (hfit : ∀ a c, prior.balance a c +
      (v + volume id (l.flatMap Transaction.amounts) : Nat) < 2 ^ 63)
    (he : Executable prior done)
    (hl : Run.Each (aggregateStep keys prior) (StepCovered keys prior) b l) :
    Executable prior (done ++ (accepted keys prior b l).flatMap Transaction.flows) := by
  induction l generalizing b done v with
  | nil => simpa [accepted] using he
  | cons tx l ih =>
    rw [Run.each_cons] at hl
    simp only [volume_flatMap_cons] at hfit
    have hfit1 : ∀ a c, prior.balance a c + (v + volume id tx.amounts : Nat) < 2 ^ 63 :=
      fun a c => by have := hfit a c; omega
    obtain ⟨h1, h2⟩ := @committed_aggregateStep o keys prior hp tx b done v hc hfit1
    have hfit' : ∀ a c, prior.balance a c +
        (v + volume id tx.amounts + volume id (l.flatMap Transaction.amounts) : Nat) < 2 ^ 63 :=
      fun a c => by have := hfit a c; omega
    simp only [accepted]
    split_ifs with hacc
    · obtain ⟨h3, h4⟩ := h2 hacc
      rw [List.flatMap_cons, ← List.append_assoc]
      exact ih h3 hfit' (h4 he (hl.1 hacc)) hl.2
    · exact ih h1 hfit' he hl.2

/-- Every prefix of every permutation, executed from the state, keeps all balances. -/
def ExecutableInAnyOrder (prior : ChainState) (l : List Transaction) : Prop :=
  Executable prior (l.flatMap Transaction.flows) ∧
    ∀ (l' : List Transaction) (p : List Flow), l'.Perm l → p <+: l'.flatMap Transaction.flows →
      (prior.addCoins (p.map Flow.smartCoin)).NonNeg

theorem volume_mapM {ts : List Transfer} {fs : List Flow} (h : ts.mapM Transfer.flow = .ok fs) :
    volume Flow.amount fs = transferVolume ts := by
  induction ts generalizing fs with
  | nil =>
    cases h
    rfl
  | cons t ts ih =>
    rw [List.mapM_cons] at h
    obtain ⟨f, hf, h⟩ := Result.bind_eq_ok h
    obtain ⟨fs', hfs, h⟩ := Result.bind_eq_ok h
    cases h
    obtain ⟨⟨a, c, x⟩, hx, hf⟩ := Result.bind_eq_ok hf
    obtain ⟨d, -, hf⟩ := Result.bind_eq_ok hf
    cases hf
    rw [transferVolume_cons hx, volume_cons, ih hfs]

theorem volume_flows_le (tx : Transaction) :
    volume Flow.amount tx.flows ≤ volume id tx.amounts := by
  rw [Transaction.flows, flowsOf]
  split
  · rename_i fs hfs
    obtain ⟨ts, hts, hfs⟩ := Result.bind_eq_ok hfs
    rw [volume_amounts tx hts, volume_mapM hfs]
  · exact Nat.zero_le _

theorem volume_accepted_le (prior : ChainState) (b : Books) (l : List Transaction) :
    volume Flow.amount ((accepted keys prior b l).flatMap Transaction.flows) ≤
      volume id (l.flatMap Transaction.amounts) := by
  induction l generalizing b with
  | nil => exact Nat.le_refl _
  | cons tx l ih =>
    have h := ih (aggregateStep keys prior b tx)
    have h' := volume_flows_le tx
    rw [volume_flatMap_cons, accepted]
    split_ifs
    · rw [List.flatMap_cons, volume_append]
      omega
    · omega

theorem flows_range {l : List Transaction} {f : Flow} (h : f ∈ l.flatMap Transaction.flows) :
    i64 f.amount = f.amount := by
  obtain ⟨tx, -, hf⟩ := List.mem_flatMap.mp h
  exact flowsOf_range hf

theorem executableInAnyOrder_of {prior : ChainState} {l : List Transaction} (hp : prior.NonNeg)
    (hfit : prior.Fits (l.flatMap Transaction.flows))
    (h : Executable prior (l.flatMap Transaction.flows)) : ExecutableInAnyOrder prior l := by
  refine ⟨h, fun l' p hl hpre a c => ?_⟩
  have hperm := hl.flatMap_right Transaction.flows
  have hmem : ∀ f ∈ p, i64 f.amount = f.amount :=
    fun f hf => flows_range (hpre.subset hf)
  have hvol : volume Flow.amount p ≤ volume Flow.amount (l.flatMap Transaction.flows) := by
    obtain ⟨q, hq⟩ := hpre
    rw [← volume_perm Flow.amount hperm, ← hq, volume_append]
    exact Nat.le_add_right _ _
  have hfit' : prior.Fits p := fun a c => by
    have := hfit a c
    omega
  rw [ChainState.balance_addFlows hp hfit' hmem]
  exact any_order Flow.slot Flow.amount (h a c) hperm hpre

/-- Every order of the accepted transactions is executable exactly when no accepted
transaction spends, as the first of its sender, more than the sender has. -/
theorem accepted_executable_iff (prior : ChainState) (summary : Summary) (l : List Transaction)
    (hp : prior.NonNeg) (hfit : PassFits prior l) :
    ExecutableInAnyOrder prior (accepted keys prior ⟨prior, summary, OrdMap.empty⟩ l) ↔
      Run.Each (aggregateStep keys prior) (StepCovered keys prior)
        ⟨prior, summary, OrdMap.empty⟩ l := by
  constructor
  · intro h l1 tx l2 hl hacc m1 f m2 hf hx _ _
    have hm : f ∈ (accepted keys prior ⟨prior, summary, OrdMap.empty⟩ l).flatMap
        Transaction.flows := by
      rw [hl]
      exact List.mem_flatMap.mpr ⟨tx, mem_accepted hacc, by rw [hf]; simp⟩
    have h1 := h.1 f.addr f.coin
    have h2 := debits_le_of_mem Flow.slot Flow.amount hm hx
    change debits _ _ _ (f.addr, f.coin) ≤ _ at h2
    omega
  · intro h
    apply executableInAnyOrder_of hp
    · intro a c
      have h1 := hfit a c
      have h2 := @volume_accepted_le o keys prior ⟨prior, summary, OrdMap.empty⟩ l
      omega
    · have hc : Committed (OrdMap.empty : OrdMap Address SmartCoin) [] 0 := by
        constructor
        · intro a _ f hf
          cases hf
        · intro a sc h
          cases h
      refine executable_accepted (b := ⟨prior, summary, OrdMap.empty⟩) hp hc ?_ ?_ h
      · intro a c
        have := hfit a c
        omega
      · intro a c
        have := hp a c
        simpa using this

theorem accepted_samplePayment :
    accepted KeyRing.toy ChainState.empty Books.empty [.tier2 Tier2Transaction.samplePayment] =
      [.tier2 Tier2Transaction.samplePayment] := by
  decide +kernel

theorem accepted_executable_iff_samplePayment :
    ¬ Run.Each (aggregateStep KeyRing.toy ChainState.empty)
      (StepCovered KeyRing.toy ChainState.empty) Books.empty
      [.tier2 Tier2Transaction.samplePayment] := by
  have hv : volume id ([Transaction.tier2 Tier2Transaction.samplePayment].flatMap
      Transaction.amounts) = 10 := by decide +kernel
  have h := @accepted_executable_iff Ossl.toy KeyRing.toy ChainState.empty Summary.empty
    [.tier2 Tier2Transaction.samplePayment] (fun a c => Int.le_refl 0)
    (fun a c => by rw [hv]; exact (by decide : (0 : Int) + 10 < 2 ^ 63))
  intro hl
  have he := (h.mpr hl).1 (Address.sample 1) 1
  exact absurd he (by decide +kernel)

/-- All that the only accepted transaction does is to spend 5 coins that nobody has. -/
theorem samplePayment_not_executable :
    ChainState.empty.NonNeg ∧
      Tier2Transaction.samplePayment.getOperation = .ok OpType.exchange.toByte ∧
      Tier2Transaction.samplePayment.isSound KeyRing.toy = .ok true ∧
      accepted KeyRing.toy ChainState.empty Books.empty
        [.tier2 Tier2Transaction.samplePayment] = [.tier2 Tier2Transaction.samplePayment] ∧
      ChainState.empty.balance (Address.sample 1) 1 + debits Flow.slot Flow.amount
        ([Transaction.tier2 Tier2Transaction.samplePayment].flatMap Transaction.flows)
        (Address.sample 1, 1) = -5 := by
  refine ⟨fun a c => Int.le_refl 0, by decide, by decide +kernel,
    accepted_samplePayment, by decide +kernel⟩

end Devcash
