import Devcash.Proposal
import Mathlib.Data.List.Induction

/-! The aggregate of a pass: one amount for each sender, whatever coins it is made of. -/
namespace Devcash
open Postings

theorem SmartCoin.make_add (a : Address) (c : Nat) (x y : Int) :
    SmartCoin.make a c (i64 x + y) = SmartCoin.make a c (x + y) := by
  simp only [SmartCoin.make, i64_add_i64]

theorem SmartCoin.make_eq_iff {a : Address} {c : Nat} {x : Int} {sc : SmartCoin} :
    SmartCoin.make a c x = sc ↔ sc.addr = a ∧ sc.coin = c ∧ sc.amount = i64 x := by
  obtain ⟨addr, coin, amount, hrange⟩ := sc
  rw [SmartCoin.make, SmartCoin.mk.injEq]
  exact and_congr eq_comm (and_congr eq_comm eq_comm)

namespace Aggregate
variable (g : OrdMap Address SmartCoin)

/-- What the aggregate holds against an address. -/
def committed (a : Address) : Int := ((g.find? a).map SmartCoin.amount).getD 0

/-- The aggregate after an allowed transfer. -/
def commit (k : SmartCoin) : OrdMap Address SmartCoin :=
  if k.amount < 0 then g.put k.addr (SmartCoin.make k.addr k.coin (committed g k.addr + k.amount))
  else g

def commits (l : List SmartCoin) : OrdMap Address SmartCoin := l.foldl commit g

/-- The negative amounts of an address, of every coin. -/
def spent (l : List SmartCoin) (a : Address) : Int := debits SmartCoin.addr SmartCoin.amount l a

/-- The spending of an address that comes last. -/
def lastSpend (l : List SmartCoin) (a : Address) : Option SmartCoin :=
  (l.filter (fun k => k.addr = a ∧ k.amount < 0)).getLast?

theorem find?_commit (k : SmartCoin) (a : Address) :
    (commit g k).find? a = if k.addr = a ∧ k.amount < 0 then
        some (SmartCoin.make a k.coin (committed g a + k.amount))
      else g.find? a := by
  rw [commit]
  by_cases hx : k.amount < 0
  · rw [if_pos hx, OrdMap.find?_put]
    by_cases ha : a = k.addr
    · subst ha
      rw [if_pos rfl, if_pos ⟨rfl, hx⟩]
    · rw [if_neg ha, if_neg (fun h => ha h.1.symm)]
  · rw [if_neg hx, if_neg (fun h => hx h.2)]

theorem i64_committed (a : Address) : i64 (committed g a) = committed g a := by
  rw [committed]
  cases g.find? a with
  | none => rfl
  | some sc => exact sc.inRange

theorem committed_commit (k : SmartCoin) (a : Address) :
    committed (commit g k) a =
      i64 (committed g a + if k.addr = a ∧ k.amount < 0 then k.amount else 0) := by
  rw [committed, find?_commit]
  split_ifs with h
  · rfl
  · rw [Int.add_zero, i64_committed, committed]

theorem committed_commits (l : List SmartCoin) (a : Address) :
    committed (commits g l) a = i64 (committed g a + spent l a) := by
  induction l generalizing g with
  | nil => rw [spent, debits_nil, Int.add_zero, i64_committed]; rfl
  | cons k l ih =>
    have hspent : spent (k :: l) a =
        (if k.addr = a ∧ k.amount < 0 then k.amount else 0) + spent l a := debits_cons _ _ k l a
    rw [commits, List.foldl_cons, ← commits, ih, committed_commit, i64_add_i64, hspent,
      Int.add_assoc]

theorem lastSpend_concat (l : List SmartCoin) (k : SmartCoin) (a : Address) :
    lastSpend (l ++ [k]) a =
      if k.addr = a ∧ k.amount < 0 then some k else lastSpend l a := by
  rw [lastSpend, List.filter_append]
  split_ifs with h
  · rw [List.filter_cons_of_pos (by simpa using h), List.filter_nil, List.getLast?_concat]
  · rw [List.filter_cons_of_neg (by simpa using h), List.filter_nil, List.append_nil, lastSpend]

theorem find?_commits (l : List SmartCoin) (a : Address) :
    (commits g l).find? a = (lastSpend l a).elim (g.find? a)
      (fun k => some (SmartCoin.make a k.coin (committed g a + spent l a))) := by
  induction l using List.reverseRecOn with
  | nil => rfl
  | append_singleton l k ih =>
    have hstep : commits g (l ++ [k]) = commit (commits g l) k := List.foldl_append
    rw [hstep, find?_commit, lastSpend_concat, committed_commits]
    have hspent : spent (l ++ [k]) a =
        spent l a + if k.addr = a ∧ k.amount < 0 then k.amount else 0 := by
      rw [spent, debits_append, debits_cons, debits_nil, Int.add_zero, spent]
    rw [hspent]
    split_ifs with h
    · rw [Option.elim_some, SmartCoin.make_add, Int.add_assoc]
    · rw [ih, Int.add_zero]

/-- Nobody spends in vain. -/
theorem spent_eq_zero {l : List SmartCoin} {a : Address} (h : lastSpend l a = none) :
    spent l a = 0 := by
  rw [lastSpend, List.getLast?_eq_none_iff] at h
  rw [spent, debits, h, List.map_nil, List.sum_nil]

theorem spent_split (l : List SmartCoin) (a : Address) (c : Nat) :
    spent l a = debits SmartCoin.slot SmartCoin.amount l (a, c) +
      spent (l.filter (fun k => k.coin ≠ c)) a := by
  induction l with
  | nil => rfl
  | cons k l ih =>
    rw [spent] at ih ⊢
    rw [debits_cons, debits_cons, ih]
    by_cases hc : k.coin = c
    · rw [List.filter_cons_of_neg (by simpa using hc)]
      have hslot : (k.slot = (a, c) ∧ k.amount < 0) = (k.addr = a ∧ k.amount < 0) := by
        simp [SmartCoin.slot, hc]
      simp only [hslot]
      omega
    · rw [List.filter_cons_of_pos (by simpa using hc)]
      have hslot : ¬ (k.slot = (a, c) ∧ k.amount < 0) := by simp [SmartCoin.slot, hc]
      rw [if_neg hslot, spent, spent, debits_cons]
      omega

/-- The spendings leave no trace: each spender had an entry of its last coin, and its
amounts cancel out. -/
def Hides (l : List SmartCoin) : Prop :=
  ∀ a k, lastSpend l a = some k → ∃ sc, g.find? a = some sc ∧ sc.addr = a ∧ sc.coin = k.coin ∧
    i64 (spent l a) = 0

theorem commits_eq_iff (l : List SmartCoin) : commits g l = g ↔ Hides g l := by
  have hentry : ∀ a, (commits g l).find? a = g.find? a ↔ ∀ k, lastSpend l a = some k →
      ∃ sc, g.find? a = some sc ∧ sc.addr = a ∧ sc.coin = k.coin ∧ i64 (spent l a) = 0 := by
    intro a
    rw [find?_commits]
    cases hl : lastSpend l a with
    | none => simp
    | some k =>
      rw [Option.elim_some, committed]
      cases hg : g.find? a with
      | none => simp
      | some sc =>
        have hsame : sc.amount = i64 (sc.amount + spent l a) ↔ i64 (spent l a) = 0 := by
          rw [← i64_add_eq_iff sc.amount, sc.inRange, eq_comm]
        simp [SmartCoin.make_eq_iff, hsame]
  constructor
  · intro h a k hk
    exact (hentry a).mp (by rw [h]) k hk
  · intro h
    exact OrdMap.ext_find? (fun a => (hentry a).mpr (fun k hk => h a k hk))

end Aggregate

section
variable {spend : Spend} {fields : Transfer → Result (Address × Nat × Int)}
  {update : OrdMap Address SmartCoin → SmartCoin → OrdMap Address SmartCoin}
  (hspend : ∀ b a c x g, i64 x = x → allow spend b a c x = .ok (some g) →
    g = update b.aggregate (SmartCoin.make a c x))
  (hfields : ∀ t f, fields t = .ok f → t.amountCoinAddr = .ok f)
include hspend hfields

theorem aggregate_postTransfers (ts : List Transfer) (b : Books) :
    (postTransfers fields spend ts b).2.aggregate =
      (postedAll fields spend ts b).coins.foldl update b.aggregate := by
  induction ts generalizing b with
  | nil => rfl
  | cons t ts ih =>
    obtain ⟨r, hr, ht, hp⟩ | ⟨a, c, x, g, hf, hg, ⟨e, -, ht, hp⟩ | ⟨d, -, ht, hp⟩⟩ :=
      postTransfer_cases fields spend t b
    · rw [postTransfers_stop (by rw [ht]; exact hr), postedAll_stop (by rw [ht]; exact hr), ht, hp]
      rfl
    · have hagg := hspend b a c x g (Transfer.amountCoinAddr_range (hfields t _ hf)) hg
      rw [postTransfers_stop (by rw [ht]; simp), postedAll_stop (by rw [ht]; simp), ht, hp]
      exact hagg
    · have hagg := hspend b a c x g (Transfer.amountCoinAddr_range (hfields t _ hf)) hg
      rw [postTransfers_step ht, postedAll_step ht, hp, ih]
      change List.foldl update g _ = List.foldl update (update _ _) _
      rw [hagg]
      rfl

end

theorem aggregate_validateWith {sound : Result Bool} {body : Result (List Transfer × Spend)}
    {fields : Transfer → Result (Address × Nat × Int)}
    {update : OrdMap Address SmartCoin → SmartCoin → OrdMap Address SmartCoin}
    (hspend : ∀ ts spend, body = .ok (ts, spend) → ∀ b a c x g, i64 x = x →
      allow spend b a c x = .ok (some g) → g = update b.aggregate (SmartCoin.make a c x))
    (hfields : ∀ t f, fields t = .ok f → t.amountCoinAddr = .ok f) (b : Books) :
    (validateWith sound body fields b).2.aggregate =
      (postedWith sound body fields b).coins.foldl update b.aggregate := by
  cases sound with
  | error e => rfl
  | ok x =>
    cases x with
    | false => rfl
    | true =>
      cases body with
      | error e => rfl
      | ok p => exact aggregate_postTransfers (hspend p.1 p.2 rfl) hfields p.1 b

namespace Transaction
variable {o : Ossl} {keys : KeyRing o}

theorem commit_of_allow {prior : ChainState} {tx : Transaction} {ts : List Transfer} {spend : Spend}
    (h : tx.aggregateBody prior = .ok (ts, spend)) (b : Books) (a : Address) (c : Nat) (x : Int)
    (g : OrdMap Address SmartCoin) (hx : i64 x = x) (hg : allow spend b a c x = .ok (some g)) :
    g = Aggregate.commit b.aggregate (SmartCoin.make a c x) := by
  have hamount : (SmartCoin.make a c x).amount = x := hx
  apply OrdMap.ext_find?
  intro q
  rw [Aggregate.find?_commit, hamount]
  by_cases hneg : x < 0
  · rw [allow, if_pos hneg] at hg
    have hentry : g.find? q = if q = a then
        some (SmartCoin.make a c (Aggregate.committed b.aggregate a + x))
        else b.aggregate.find? q := by
      rw [Aggregate.committed]
      obtain ⟨hf, hg⟩ | ⟨sc, hf, -, hg⟩ :=
        spendInAggregate_some ((aggregateBody_ok h).2 b a c x g hg)
      · rw [hg, hf, Option.map_none, Option.getD_none, Int.zero_add]
      · rw [hg, hf, Option.map_some, Option.getD_some, Int.add_comm x]
    rw [hentry]
    by_cases hq : q = a
    · rw [if_pos hq, if_pos ⟨hq.symm, hneg⟩, hq]
      rfl
    · rw [if_neg hq, if_neg (fun h => hq h.1.symm)]
  · rw [allow, if_neg hneg] at hg
    cases hg
    rw [if_neg (fun h => hneg h.2)]

theorem aggregate_aggregateStep (prior : ChainState) (tx : Transaction) (b : Books) :
    (aggregateStep keys prior b tx).aggregate =
      Aggregate.commits b.aggregate (tx.postedInAggregate keys prior b).coins := by
  rw [aggregateStep, isValidInAggregate_eq]
  exact aggregate_validateWith (fun ts spend hb => commit_of_allow hb)
    (fun t f => aggregateFields_ok) b

/-- What a pass posts to the state, refused transactions included. -/
def passCoins (keys : KeyRing o) (prior : ChainState) : Books → List Transaction → List SmartCoin
  | _, [] => []
  | b, tx :: l =>
    (tx.postedInAggregate keys prior b).coins ++ passCoins keys prior (aggregateStep keys prior b tx) l

theorem aggregate_after (prior : ChainState) (l : List Transaction) (b : Books) :
    (Run.after (aggregateStep keys prior) b l).aggregate =
      Aggregate.commits b.aggregate (passCoins keys prior b l) := by
  induction l generalizing b with
  | nil => rfl
  | cons tx l ih =>
    rw [Run.after_cons, ih, aggregate_aggregateStep]
    exact List.foldl_append.symm

/-- The funds check of an exchange, which comes before the test. -/
def PassesFunds (state : ChainState) (a : Address) (c : Nat) (x : Int) : Transaction → Prop
  | .tier1 _ => True
  | .tier2 tx => ∃ oper, tx.getOperation = .ok oper ∧ availableFunds oper state a c x = .ok true

theorem spend_of_passesFunds {prior : ChainState} {tx : Transaction} {ts : List Transfer}
    {spend : Spend} (h : tx.aggregateBody prior = .ok (ts, spend)) {b : Books} {a : Address} {c : Nat}
    {x : Int} (hfunds : tx.PassesFunds b.state a c x) :
    spend b a c x = spendInAggregate prior b a c x := by
  cases tx with
  | tier1 tx =>
    obtain ⟨xfers, -, h⟩ := Result.bind_eq_ok h
    cases h
    rfl
  | tier2 tx =>
    obtain ⟨oper, ho, h⟩ := Result.bind_eq_ok h
    obtain ⟨xfers, -, h⟩ := Result.bind_eq_ok h
    cases h
    obtain ⟨oper', ho', hfunds⟩ := hfunds
    obtain rfl : oper = oper' := Except.ok.inj (ho.symm.trans ho')
    rw [spendAvailable, hfunds, Result.bind_ok, if_pos rfl]

end Transaction

/-- A pass over transactions that has come to the test of a spending. -/
structure AtTest {o : Ossl} (keys : KeyRing o) (prior : ChainState) (start : Books) where
  before : List Transaction
  tx : Transaction
  earlier : List Transfer
  xfer : Transfer
  later : List Transfer
  spend : Spend
  now : Books
  addr : Address
  coin : Nat
  amount : Int
  sound : tx.isSound keys = .ok true
  body : tx.aggregateBody prior = .ok (earlier ++ xfer :: later, spend)
  posted : postTransfers tx.aggregateFields spend earlier
    (Run.after (aggregateStep keys prior) start before) = (.ok true, now)
  fields : tx.aggregateFields xfer = .ok (addr, coin, amount)
  spends : amount < 0
  funds : tx.PassesFunds now.state addr coin amount

namespace AtTest
variable {o : Ossl} {keys : KeyRing o} {prior : ChainState} {start : Books}
  (p : AtTest keys prior start)

/-- The coins that the pass has posted so far. -/
def done : List SmartCoin :=
  Transaction.passCoins keys prior start p.before ++
    (postedAll p.tx.aggregateFields p.spend p.earlier
      (Run.after (aggregateStep keys prior) start p.before)).coins

def Rejected : Prop := (postTransfer p.tx.aggregateFields p.spend p.xfer p.now).1 = .ok false

instance : Decidable p.Rejected := inferInstanceAs (Decidable (_ = _))

/-- What is left of the coin after the spendings of it that were accepted, and this one. -/
def left : Int :=
  prior.balance p.addr p.coin +
    debits SmartCoin.slot SmartCoin.amount p.done (p.addr, p.coin) + p.amount

/-- What the address has spent of the other coins. -/
def others : Int := Aggregate.spent (p.done.filter (fun k => k.coin ≠ p.coin)) p.addr

/-- The sums of the test do not wrap. -/
structure Unwrapped : Prop where
  balance : prior.balance p.addr p.coin < 2 ^ 63
  spent : -2 ^ 63 ≤ Aggregate.spent p.done p.addr
  total : -2 ^ 63 ≤ prior.balance p.addr p.coin + Aggregate.spent p.done p.addr + p.amount

theorem aggregate_now (h : start.aggregate = OrdMap.empty) :
    p.now.aggregate = Aggregate.commits OrdMap.empty p.done := by
  have hfields : ∀ t f, p.tx.aggregateFields t = .ok f → t.amountCoinAddr = .ok f :=
    fun t f => Transaction.aggregateFields_ok
  have hloop := aggregate_postTransfers (Transaction.commit_of_allow p.body) hfields p.earlier
    (Run.after (aggregateStep keys prior) start p.before)
  rw [p.posted, Transaction.aggregate_after, h] at hloop
  rw [hloop, done]
  exact List.foldl_append.symm

theorem rejected_iff : p.Rejected ↔
    spendInAggregate prior p.now p.addr p.coin p.amount = .ok none := by
  have hallow : allow p.spend p.now p.addr p.coin p.amount =
      spendInAggregate prior p.now p.addr p.coin p.amount := by
    rw [allow, if_pos p.spends, Transaction.spend_of_passesFunds p.body p.funds]
  rw [Rejected, postTransfer, p.fields]
  simp only [hallow]
  cases spendInAggregate prior p.now p.addr p.coin p.amount with
  | error e => simp
  | ok g =>
    cases g with
    | none => simp
    | some g => cases p.xfer.getDelay <;> simp

theorem spent_eq : Aggregate.spent p.done p.addr =
    debits SmartCoin.slot SmartCoin.amount p.done (p.addr, p.coin) + p.others := by
  rw [others]
  exact Aggregate.spent_split p.done p.addr p.coin

theorem rejected_iff_total (h : start.aggregate = OrdMap.empty) (hwrap : p.Unwrapped) :
    p.Rejected ↔ Aggregate.lastSpend p.done p.addr ≠ none ∧
      prior.getAmount p.coin p.addr = .ok (prior.balance p.addr p.coin) ∧ p.left + p.others < 0 := by
  have hentry := Aggregate.find?_commits OrdMap.empty p.done p.addr
  rw [← p.aggregate_now h] at hentry
  rw [rejected_iff, spendInAggregate]
  cases hlast : Aggregate.lastSpend p.done p.addr with
  | none =>
    rw [hlast, Option.elim_none, OrdMap.find?_empty] at hentry
    simp [hentry]
  | some k =>
    rw [hlast, Option.elim_some] at hentry
    have hzero : Aggregate.committed OrdMap.empty p.addr = 0 := rfl
    have hspent : i64 (Aggregate.spent p.done p.addr) = Aggregate.spent p.done p.addr := by
      have hneg : Aggregate.spent p.done p.addr ≤ 0 := debits_nonpos _ _ _ _
      have hbound := hwrap.spent
      exact i64_of_bounds (by omega) (by omega)
    have htotal : i64 (prior.balance p.addr p.coin + Aggregate.spent p.done p.addr + p.amount) =
        p.left + p.others := by
      have hneg : Aggregate.spent p.done p.addr ≤ 0 := debits_nonpos _ _ _ _
      have hspends := p.spends
      have hbalance := hwrap.balance
      have hbound := hwrap.total
      rw [i64_of_bounds (by omega) (by omega), left, spent_eq]
      omega
    rw [hzero, Int.zero_add] at hentry
    rw [hentry]
    simp only [SmartCoin.make, hspent]
    rw [ChainState.getAmount_eq]
    split_ifs with hthrow
    · simp
    · rw [Result.bind_ok, htotal]
      split_ifs with hneg
      · simp [hneg]
      · simp [hneg]

/-- The other coins that the address has spent do not decide the test: the coin itself is
spent up, or is not in the state, or pays for them too. -/
def Isolated : Prop :=
  0 ≤ p.left → prior.getAmount p.coin p.addr ≠ .ok (prior.balance p.addr p.coin) ∨
    0 ≤ p.left + p.others

/-- A rejected spending is more than is left of its coin exactly where the other coins do
not decide: the aggregate has one amount for all of them. -/
theorem rejected_only_if_spent_iff (h : start.aggregate = OrdMap.empty) (hwrap : p.Unwrapped) :
    (p.Rejected → p.left < 0) ↔ p.Isolated := by
  rw [p.rejected_iff_total h hwrap, Isolated]
  constructor
  · intro hlaw hleft
    by_contra hboth
    obtain ⟨hget, htotal⟩ : prior.getAmount p.coin p.addr = .ok (prior.balance p.addr p.coin) ∧
        p.left + p.others < 0 := by
      rw [not_or, not_not] at hboth
      exact ⟨hboth.1, by omega⟩
    -- The others are some, so the address has an entry.
    have hlast : Aggregate.lastSpend p.done p.addr ≠ none := by
      intro hnone
      have hzero := Aggregate.spent_eq_zero hnone
      have hown := debits_nonpos SmartCoin.slot SmartCoin.amount p.done (p.addr, p.coin)
      rw [p.spent_eq] at hzero
      omega
    have hspent := hlaw ⟨hlast, hget, htotal⟩
    omega
  · rintro hiso ⟨-, hget, htotal⟩
    by_contra hleft
    obtain hthrow | hpays := hiso (by omega)
    · exact hthrow hget
    · omega

/-- A wallet pays another 8 coins of type 1 and some of type 2. -/
def sampleXfers (amount : Nat) : List Transfer :=
  [Transfer.make (Address.sample 1) 1 (-8) 0, Transfer.make (Address.sample 1) 2 (-amount) 0,
    Transfer.make (Address.sample 2) 1 8 0, Transfer.make (Address.sample 2) 2 amount 0]

def sampleTwoCoins (amount : Nat) : Tier2Transaction :=
  let nonce : Bytes := [0, 1, 2, 3, 4, 5, 6, 7]
  Tier2Transaction.ofSignature OpType.exchange.toByte (sampleXfers amount) nonce
    (Ossl.toySignature (Address.sample 1)
      (Ossl.toyHash (Tier2Transaction.layout OpType.exchange.toByte (sampleXfers amount) nonce)))

/-- It has 10 of each. -/
def samplePrior : ChainState :=
  ChainState.empty.addCoins
    [SmartCoin.make (Address.sample 1) 1 10, SmartCoin.make (Address.sample 1) 2 10]

def sampleStart : Books := { Books.empty with state := samplePrior }

/-- The books between the two spendings. -/
def sampleBetween : Result Bool × Books :=
  postTransfers Transfer.amountCoinAddr
    (spendAvailable OpType.exchange.toByte (spendInAggregate samplePrior))
    [Transfer.make (Address.sample 1) 1 (-8) 0] sampleStart

/-- The transaction is sound and its second spending comes to the test. -/
structure SampleComes (amount : Nat) : Prop where
  sound : (sampleTwoCoins amount).isSound KeyRing.toy = .ok true
  oper : (sampleTwoCoins amount).getOperation = .ok OpType.exchange.toByte
  xfers : (sampleTwoCoins amount).getTransfers = .ok (sampleXfers amount)
  first : sampleBetween.1 = .ok true
  fields : (Transfer.make (Address.sample 1) 2 (-amount) 0).amountCoinAddr =
    .ok (Address.sample 1, 2, -amount)
  spends : (-amount : Int) < 0
  funds : availableFunds OpType.exchange.toByte sampleBetween.2.state (Address.sample 1) 2 (-amount) =
    .ok true

instance (amount : Nat) : Decidable (SampleComes amount) :=
  decidable_of_iff ((sampleTwoCoins amount).isSound KeyRing.toy = .ok true ∧
      (sampleTwoCoins amount).getOperation = .ok OpType.exchange.toByte ∧
      (sampleTwoCoins amount).getTransfers = .ok (sampleXfers amount) ∧ sampleBetween.1 = .ok true ∧
      (Transfer.make (Address.sample 1) 2 (-amount) 0).amountCoinAddr =
        .ok (Address.sample 1, 2, -amount) ∧ (-amount : Int) < 0 ∧
      availableFunds OpType.exchange.toByte sampleBetween.2.state (Address.sample 1) 2 (-amount) =
        .ok true)
    ⟨fun h => ⟨h.1, h.2.1, h.2.2.1, h.2.2.2.1, h.2.2.2.2.1, h.2.2.2.2.2.1, h.2.2.2.2.2.2⟩,
      fun h => ⟨h.sound, h.oper, h.xfers, h.first, h.fields, h.spends, h.funds⟩⟩

def sampleTest {amount : Nat} (h : SampleComes amount) :
    AtTest KeyRing.toy samplePrior sampleStart where
  before := []
  tx := .tier2 (sampleTwoCoins amount)
  earlier := [Transfer.make (Address.sample 1) 1 (-8) 0]
  xfer := Transfer.make (Address.sample 1) 2 (-amount) 0
  later := [Transfer.make (Address.sample 2) 1 8 0, Transfer.make (Address.sample 2) 2 amount 0]
  spend := spendAvailable OpType.exchange.toByte (spendInAggregate samplePrior)
  now := sampleBetween.2
  addr := Address.sample 1
  coin := 2
  amount := -amount
  sound := h.sound
  body := by
    rw [Transaction.aggregateBody, h.oper, Result.bind_ok, h.xfers, Result.bind_ok]
    rfl
  posted := Prod.ext h.first rfl
  fields := h.fields
  spends := h.spends
  funds := ⟨_, h.oper, h.funds⟩

theorem sampleComes_two : SampleComes 2 := by
  decide +kernel

theorem sampleComes_five : SampleComes 5 := by
  decide +kernel

/-- After 8 coins of type 1 there are 2 of the 10 coins of type 2 to spend. -/
theorem rejected_only_if_spent_iff_two :
    (sampleTest sampleComes_two).Isolated ∧
      ((sampleTest sampleComes_two).Rejected → (sampleTest sampleComes_two).left < 0) := by
  have hsums : -2 ^ 63 ≤ Aggregate.spent (sampleTest sampleComes_two).done (Address.sample 1) ∧
      -2 ^ 63 ≤ samplePrior.balance (Address.sample 1) 2 +
        Aggregate.spent (sampleTest sampleComes_two).done (Address.sample 1) + (-2) ∧
      0 ≤ (sampleTest sampleComes_two).left + (sampleTest sampleComes_two).others := by
    decide
  have hiso : (sampleTest sampleComes_two).Isolated := fun _ => Or.inr hsums.2.2
  exact ⟨hiso, (rejected_only_if_spent_iff _ rfl ⟨by decide, hsums.1, hsums.2.1⟩).mpr hiso⟩

/-- A payment of 5 is rejected. -/
theorem sampleTest_rejected :
    (sampleTest sampleComes_five).Rejected ∧ 0 ≤ (sampleTest sampleComes_five).left ∧
      ((sampleTwoCoins 5).isValidInAggregate KeyRing.toy samplePrior sampleStart).1 = .ok false := by
  decide +kernel

end AtTest
end Devcash
