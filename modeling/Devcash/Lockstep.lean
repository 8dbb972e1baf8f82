import Devcash.Proposal

/-! The chain state and the summary of a pass move together: every exit of the two
validations leaves the balances as the prior ones plus the summary. -/
namespace Devcash

namespace Summary

/-- What the summary adds to a coin at an address, absent entries counting as 0. -/
def delta (s : Summary) (a : Address) (c : Nat) : Int :=
  ((s.delayedEntry a c).map (fun d => (d.delta : Int))).getD 0 + (s.coinEntry a c).getD 0

@[simp] theorem delta_empty (a : Address) (c : Nat) : empty.delta a c = 0 := rfl

theorem delta_addFlow (s : Summary) (f : Flow) (a : Address) (c : Nat) :
    (s.addFlow f).delta a c ≡
      s.delta a c + (if a = f.addr ∧ c = f.coin then f.amount else 0) [ZMOD 2 ^ 64] := by
  rw [delta, delta, coinEntry_addFlow, delayedEntry_addFlow]
  by_cases hk : a = f.addr ∧ c = f.coin
  · rw [if_pos hk]
    by_cases hd : f.delay = 0
    · have hnot : ¬ (0 < f.delay ∧ a = f.addr ∧ c = f.coin) := fun hp => by omega
      rw [if_neg hnot, if_pos ⟨hd, hk⟩, Option.getD_some, Int.add_assoc]
      exact (i64_modEq _).add_left _
    · have hnot : ¬ (f.delay = 0 ∧ a = f.addr ∧ c = f.coin) := fun hp => hd hp.1
      rw [if_neg hnot, if_pos ⟨Nat.pos_of_ne_zero hd, hk⟩, Option.map_some, Option.getD_some,
        Int.add_right_comm]
      exact (mergeDelayed_modEq _ _ _).add_right _
  · rw [if_neg hk, if_neg (fun hp => hk hp.2), if_neg (fun hp => hk hp.2), Int.add_zero]

end Summary

/-- Every transfer of the transaction is on a wallet or node address. -/
def Transaction.OnAccounts (tx : Transaction) : Prop :=
  ∀ ts, tx.getTransfers = .ok ts → ∀ t ∈ ts, t.OnAccount

instance (tx : Transaction) : Decidable tx.OnAccounts :=
  inferInstanceAs (Decidable (∀ ts, tx.getTransfers = .ok ts → ∀ t ∈ ts, t.OnAccount))

namespace Books
variable {prior : ChainState}

/-- The balances are the prior ones plus the summary, in 64-bit arithmetic. -/
def Lockstep (prior : ChainState) (b : Books) : Prop :=
  ∀ a c, b.state.balance a c ≡ prior.balance a c + b.summary.delta a c [ZMOD 2 ^ 64]

theorem lockstep_start (prior : ChainState) : Lockstep prior { Books.empty with state := prior } := by
  intro a c
  change prior.balance a c ≡ prior.balance a c + Summary.empty.delta a c [ZMOD 2 ^ 64]
  rw [Summary.delta_empty, Int.add_zero]

theorem Lockstep.post {b : Books} (h : b.Lockstep prior) (f : Flow)
    (g : OrdMap Address SmartCoin) :
    Lockstep prior ⟨b.state.addCoin f.smartCoin, b.summary.addFlow f, g⟩ := by
  intro a c
  change (b.state.addCoin f.smartCoin).balance a c ≡
    prior.balance a c + (b.summary.addFlow f).delta a c [ZMOD 2 ^ 64]
  refine Int.ModEq.trans ?_ ((b.summary.delta_addFlow f a c).symm.add_left _)
  rw [ChainState.balance_addCoin, ← Int.add_assoc]
  by_cases hk : a = f.addr ∧ c = f.coin
  · rw [if_pos hk, if_pos (show a = f.smartCoin.addr ∧ c = f.smartCoin.coin from hk)]
    calc i64 (b.state.balance a c + f.smartCoin.amount)
      _ ≡ b.state.balance a c + f.smartCoin.amount [ZMOD 2 ^ 64] := i64_modEq _
      _ ≡ b.state.balance a c + f.amount [ZMOD 2 ^ 64] := (i64_modEq f.amount).add_left _
      _ ≡ prior.balance a c + b.summary.delta a c + f.amount [ZMOD 2 ^ 64] :=
        (h a c).add_right _
  · rw [if_neg hk, if_neg (show ¬ (a = f.smartCoin.addr ∧ c = f.smartCoin.coin) from hk),
      Int.add_zero]
    exact h a c

/-- What every posting of a transfer on an account keeps. -/
def KeptByPosts (I : Books → Prop) : Prop :=
  ∀ (b : Books) (t : Transfer) (f : Flow) (g : OrdMap Address SmartCoin),
    t.OnAccount → t.flow = .ok f → I b → I ⟨b.state.addCoin f.smartCoin, b.summary.addFlow f, g⟩

theorem keptByPosts_lockstep (prior : ChainState) : KeptByPosts (Lockstep prior) :=
  fun _ _ f g _ _ h => h.post f g

section
variable {I : Books → Prop} (hI : KeptByPosts I)
include hI

section
variable {fields : Transfer → Result (Address × Nat × Int)} {spend : Spend}
  (hfields : ∀ t f, fields t = .ok f → t.amountCoinAddr = .ok f)
include hfields

/-- The body of the loop: with a delay that can be read, both additions are made or
neither is. -/
theorem KeptByPosts.postTransfer {b : Books} (h : I b) {t : Transfer} (ht : t.OnAccount) :
    I (postTransfer fields spend t b).2 := by
  obtain ⟨r, -, he, -⟩ | ⟨a, c, x, g, hf, -, ⟨e, hd, -, -⟩ | ⟨d, hd, he, -⟩⟩ :=
    postTransfer_cases fields spend t b
  · rw [he]
    exact h
  · obtain ⟨d, hd'⟩ := ht.getDelay
    rw [hd'] at hd
    cases hd
  · have hflow : t.flow = .ok ⟨a, c, x, d⟩ := Transfer.flow_ok_iff.mpr ⟨hfields t _ hf, hd⟩
    rw [he]
    exact hI b t _ g ht hflow h

theorem KeptByPosts.postTransfers {b : Books} (h : I b) {ts : List Transfer}
    (ht : ∀ t ∈ ts, t.OnAccount) : I (postTransfers fields spend ts b).2 := by
  induction ts generalizing b with
  | nil => exact h
  | cons t ts ih =>
    have hstep : I (Devcash.postTransfer fields spend t b).2 :=
      hI.postTransfer hfields h (ht t List.mem_cons_self)
    simp only [Devcash.postTransfers]
    split
    · rename_i b' hb
      rw [hb] at hstep
      exact ih hstep (fun t' ht' => ht t' (List.mem_cons_of_mem t ht'))
    · exact hstep

end

variable {o : Ossl} {keys : KeyRing o}

/-- A validation of either kind, whatever it answers. -/
theorem KeptByPosts.aggregateStep {b : Books} (h : I b) {tx : Transaction}
    (htx : tx.OnAccounts) : I (aggregateStep keys prior b tx) := by
  rw [Devcash.aggregateStep, Transaction.isValidInAggregate_eq]
  obtain ⟨hb, -⟩ | ⟨ts, spend, hbody, -, he⟩ :=
    validateWith_cases (tx.isSound keys) (tx.aggregateBody prior) tx.aggregateFields b
  · rw [hb]
    exact h
  · rw [he]
    exact hI.postTransfers (fun t f => Transaction.aggregateFields_ok) h
      (htx ts (Transaction.aggregateBody_ok hbody).1)

theorem KeptByPosts.collectFrom {max numTxs : Nat} {l valid : List Transaction} {b b' : Books}
    (h : I b) (hl : ∀ tx ∈ l, tx.OnAccounts)
    (hc : UnrecordedTransactionPool.collectFrom keys prior max l numTxs b = .ok (valid, b')) :
    I b' := by
  induction l generalizing numTxs b valid with
  | nil =>
    cases hc
    exact h
  | cons tx l ih =>
    have hstep : I (Devcash.aggregateStep keys prior b tx) :=
      hI.aggregateStep h (hl tx List.mem_cons_self)
    have hrest : ∀ tx' ∈ l, tx'.OnAccounts := fun tx' ht => hl tx' (List.mem_cons_of_mem tx ht)
    obtain ⟨-, ⟨-, hr⟩ | ⟨-, valid', b'', hr, hc⟩⟩ | ⟨-, hc⟩ :=
      UnrecordedTransactionPool.collectFrom_cons hc
    · cases hr
      exact hstep
    · cases hr
      exact ih hstep hrest hc
    · exact ih hstep hrest hc

end

end Books

namespace UnrecordedTransactionPool
variable {o : Ossl} {keys : KeyRing o}

/-- The state and the summary agree after every transaction of the pass, accepted, refused
or broken off, and so in what the pass returns. -/
theorem collectValidTransactions_lockstep {pool : UnrecordedTransactionPool} (prior : ChainState)
    (hpool : ∀ tx ∈ pool.pending, tx.OnAccounts) :
    Run.Always (aggregateStep keys prior) (Books.Lockstep prior)
      { Books.empty with state := prior } pool.pending ∧
    ∀ valid b, pool.collectValidTransactions keys prior = .ok (valid, b) → b.Lockstep prior := by
  constructor
  · refine Run.always_of_each (C := fun _ tx => tx.OnAccounts)
      (fun b tx h htx => (Books.keptByPosts_lockstep prior).aggregateStep h htx)
      (Books.lockstep_start prior) ?_
    intro l1 tx l2 hl
    exact hpool tx (by rw [hl]; simp)
  · intro valid b hc
    exact (Books.keptByPosts_lockstep prior).collectFrom (Books.lockstep_start prior) hpool hc

theorem collectValidTransactions_lockstep_sample :
    ∃ valid b, (sample [.sampleMove 1 0 5, .sampleMove 1 0 7]).collectValidTransactions KeyRing.toy
        ChainState.empty = .ok (valid, b) ∧ valid.length = 1 ∧ b.Lockstep ChainState.empty := by
  have hpool : (∀ tx ∈ (sample [.sampleMove 1 0 5, .sampleMove 1 0 7]).pending, tx.OnAccounts) ∧
      (((sample [.sampleMove 1 0 5, .sampleMove 1 0 7]).collectValidTransactions KeyRing.toy
        ChainState.empty).toOption.map (fun r => r.1.length)) = some 1 := by
    decide +kernel
  obtain ⟨hacc, hone⟩ := hpool
  have hlock := (@collectValidTransactions_lockstep _ KeyRing.toy _ ChainState.empty hacc).2
  cases hc : (sample [.sampleMove 1 0 5, .sampleMove 1 0 7]).collectValidTransactions KeyRing.toy
      ChainState.empty with
  | error e =>
    rw [hc] at hone
    cases hone
  | ok r =>
    rw [hc] at hone
    exact ⟨r.1, r.2, rfl, Option.some.inj hone, hlock r.1 r.2 hc⟩

end UnrecordedTransactionPool
end Devcash
