import Devcash.Lockstep
import Devcash.Summarisation

/-! A proposal that is kept across the arrival of another block. Its transactions are
checked against the new state, its own stored state is not computed again. -/
namespace Devcash
open Postings

namespace ChainState

/-- The state with every item of a summary added. -/
def addSummary (s : ChainState) (sum : Summary) : ChainState :=
  s.addCoins (sum.flows.map Flow.smartCoin)

theorem addCoins_congr (s : ChainState) {l m : List SmartCoin}
    (ht : ∀ k, Touches SmartCoin.slot l k ↔ Touches SmartCoin.slot m k)
    (hn : ∀ k, i64 (net SmartCoin.slot SmartCoin.amount l k) =
      i64 (net SmartCoin.slot SmartCoin.amount m k)) : s.addCoins l = s.addCoins m := by
  have haddr (l : List SmartCoin) (a : Address) :
      (∃ k ∈ l, k.addr = a) ↔ ∃ c, Touches SmartCoin.slot l (a, c) := by
    constructor
    · intro h
      obtain ⟨k, hk, rfl⟩ := h
      exact ⟨k.coin, k, hk, rfl⟩
    · intro h
      obtain ⟨c, k, hk, hslot⟩ := h
      exact ⟨k, hk, congrArg Prod.fst hslot⟩
  apply ext_entry
  · intro a
    rw [Bool.eq_iff_iff, knows_addCoins, knows_addCoins, haddr, haddr]
    simp only [ht]
  · intro a c
    rw [entry_addCoins, entry_addCoins, ← add_i64, hn, add_i64]
    simp only [ht]

end ChainState

namespace Summary

theorem touches_split (l : List Flow) (k : Address × Nat) :
    Touches Flow.slot l k ↔
      Touches Flow.slot (undelayed l) k ∨ Touches Flow.slot (delayed l) k := by
  constructor
  · intro h
    obtain ⟨f, hf, hk⟩ := h
    obtain hd | hd := Nat.eq_zero_or_pos f.delay
    · exact Or.inl ⟨f, List.mem_filter.mpr ⟨hf, decide_eq_true hd⟩, hk⟩
    · exact Or.inr ⟨f, List.mem_filter.mpr ⟨hf, decide_eq_true hd⟩, hk⟩
  · intro h
    obtain ⟨f, hf, hk⟩ | ⟨f, hf, hk⟩ := h
    · exact ⟨f, (List.mem_filter.mp hf).1, hk⟩
    · exact ⟨f, (List.mem_filter.mp hf).1, hk⟩

theorem net_split (l : List Flow) (k : Address × Nat) :
    net Flow.slot Flow.amount l k =
      net Flow.slot Flow.amount (undelayed l) k + net Flow.slot Flow.amount (delayed l) k := by
  induction l with
  | nil => rfl
  | cons f l ih =>
    obtain hd | hd := Nat.eq_zero_or_pos f.delay
    · have hu : undelayed (f :: l) = f :: undelayed l := List.filter_cons_of_pos (decide_eq_true hd)
      have hl : delayed (f :: l) = delayed l := List.filter_cons_of_neg (by simp [hd])
      rw [hu, hl, net_cons, net_cons, ih, Int.add_assoc]
    · have hu : undelayed (f :: l) = undelayed l :=
        List.filter_cons_of_neg (by simpa using Nat.ne_of_gt hd)
      have hl : delayed (f :: l) = f :: delayed l := List.filter_cons_of_pos (decide_eq_true hd)
      rw [hu, hl, net_cons, net_cons, ih, Int.add_left_comm]

theorem addCoins_of_addFlows {l m : List Flow} (h : empty.addFlows l = empty.addFlows m)
    (hl : ∀ f ∈ l, i64 f.amount = f.amount) (hm : ∀ f ∈ m, i64 f.amount = f.amount)
    (s : ChainState) :
    s.addCoins (l.map Flow.smartCoin) = s.addCoins (m.map Flow.smartCoin) := by
  have hundelayed (k : Address × Nat) :
      (Touches Flow.slot (undelayed l) k ↔ Touches Flow.slot (undelayed m) k) ∧
      i64 (net Flow.slot Flow.amount (undelayed l) k) =
        i64 (net Flow.slot Flow.amount (undelayed m) k) := by
    have he : (empty.addFlows l).coinEntry k.1 k.2 = (empty.addFlows m).coinEntry k.1 k.2 := by rw [h]
    rw [(sums_addFlows l).undelayed, (sums_addFlows m).undelayed] at he
    split_ifs at he with h1 h2
    · exact ⟨iff_of_true h1 h2, Option.some.inj he⟩
    · rename_i h2
      rw [net_of_not_touches _ _ h1, net_of_not_touches _ _ h2]
      exact ⟨iff_of_false h1 h2, rfl⟩
  have hdelayed (k : Address × Nat) :
      (Touches Flow.slot (delayed l) k ↔ Touches Flow.slot (delayed m) k) ∧
      i64 (net Flow.slot Flow.amount (delayed l) k) =
        i64 (net Flow.slot Flow.amount (delayed m) k) := by
    have he : (empty.addFlows l).delayedEntry k.1 k.2 = (empty.addFlows m).delayedEntry k.1 k.2 := by
      rw [h]
    rw [(sums_addFlows l).delayed, (sums_addFlows m).delayed] at he
    split_ifs at he with h1 h2
    · have hdelta := (DelayedItem.mk.inj (Option.some.inj he)).2
      refine ⟨iff_of_true h1 h2, ?_⟩
      rw [← i64_toUint64, hdelta, i64_toUint64]
    · rename_i h2
      rw [net_of_not_touches _ _ h1, net_of_not_touches _ _ h2]
      exact ⟨iff_of_false h1 h2, rfl⟩
  apply ChainState.addCoins_congr
  · intro k
    rw [ChainState.touches_smartCoin, ChainState.touches_smartCoin, touches_split l, touches_split m,
      (hundelayed k).1, (hdelayed k).1]
  · intro k
    rw [ChainState.net_smartCoin hl, ChainState.net_smartCoin hm, net_split l, net_split m,
      ← i64_add_i64, (hundelayed k).2, i64_add_i64, ← add_i64, (hdelayed k).2, add_i64]

end Summary

namespace Transfer

theorem flow_typed {t : Transfer} {f : Flow} (h : t.flow = .ok f) : f.Typed := by
  obtain ⟨hfields, hdelay⟩ := flow_ok_iff.mp h
  obtain ⟨-, hcoin, haddr⟩ := amountCoinAddr_ok hfields
  obtain ⟨n, -, hcoin⟩ := Result.bind_eq_ok hcoin
  obtain ⟨n', -, hdelay⟩ := Result.bind_eq_ok hdelay
  exact ⟨getAddress_kind haddr, binToUint64_lt hcoin, binToUint64_lt hdelay⟩

end Transfer

namespace Books

/-- The state is the prior one plus the summary, as `addCoin` makes it. -/
def Accumulated (prior : ChainState) (b : Books) : Prop :=
  ∃ l : List Flow, (∀ f ∈ l, f.Typed ∧ i64 f.amount = f.amount) ∧
    b.state = prior.addCoins (l.map Flow.smartCoin) ∧ b.summary = Summary.empty.addFlows l

theorem accumulated_start (prior : ChainState) :
    Accumulated prior { Books.empty with state := prior } :=
  ⟨[], fun _ hf => (List.not_mem_nil hf).elim, rfl, rfl⟩

theorem keptByPosts_accumulated (prior : ChainState) : KeptByPosts (Accumulated prior) := by
  intro b t f g ht hf h
  obtain ⟨l, hl, hstate, hsum⟩ := h
  refine ⟨l ++ [f], ?_, ?_, ?_⟩
  · intro f' hf'
    obtain hf' | hf' := List.mem_append.mp hf'
    · exact hl f' hf'
    · rw [List.mem_singleton.mp hf']
      exact ⟨Transfer.flow_typed hf, Transfer.flow_range hf⟩
  · rw [List.map_append, ChainState.addCoins_append, ← hstate]
    rfl
  · rw [Summary.addFlows_append, ← hsum]
    rfl

theorem Accumulated.state {prior : ChainState} {b : Books} (h : b.Accumulated prior) :
    b.state = prior.addSummary b.summary := by
  obtain ⟨l, hl, hstate, hsum⟩ := h
  have hitems : (Summary.empty.addFlows l).ByItems :=
    Summary.byItems_empty.addFlows (fun f hf => (hl f hf).1)
  have hflows := Summary.addFlows_flows hitems (Summary.noEmpty_addFlows Summary.noEmpty_empty l)
  rw [hstate, hsum]
  exact Summary.addCoins_of_addFlows hflows.symm (fun f hf => (hl f hf).2)
    (fun f hf => (Summary.typed_flows hitems f hf).2) prior

end Books

/-- The state stored in a proposal is `old` plus its summary. -/
def ProposedBlock.AccumulatedFrom (p : ProposedBlock) (old : ChainState) : Prop :=
  p.blockState = old.addSummary p.summary

namespace UnrecordedTransactionPool
variable {o : Ossl} {keys : KeyRing o} {context : DevcashContext}

theorem proposeBlock_accumulatedFrom {pool pool' : UnrecordedTransactionPool} {prevHash : Hash}
    {old : ChainState} (hpool : ∀ tx ∈ pool.pending, tx.OnAccounts)
    (h : pool.proposeBlock keys context prevHash old = .ok pool') :
    pool'.pendingProposal.AccumulatedFrom old := by
  obtain ⟨-, b, hc, hsum, hstate⟩ := newProposal_ok (proposeBlock_ok h).1
  have hb : b.Accumulated old :=
    (Books.keptByPosts_accumulated old).collectFrom (Books.accumulated_start old) hpool hc
  rw [ProposedBlock.AccumulatedFrom, hstate, hsum]
  exact hb.state

theorem removeTransactions_ok_iff (l : List Transaction) (txs : TxMap) :
    (∃ u, (removeTransactions l txs).1 = .ok u) ↔ ∀ tx ∈ l, ∃ sig, tx.getSignature = .ok sig := by
  induction l generalizing txs with
  | nil => exact iff_of_true ⟨(), rfl⟩ (fun _ h => (List.not_mem_nil h).elim)
  | cons tx l ih =>
    rw [List.forall_mem_cons, removeTransactions]
    cases hsig : tx.getSignature with
    | error e => simp
    | ok sig => simp [ih]

/-- The call gives a block whose state is `prior` with the summary of the proposal. -/
def KeepsUpdates (o : Ossl) (now : Nat) (pool : UnrecordedTransactionPool) (prior : ChainState)
    (summary : Summary) : Prop :=
  ∃ final pool', pool.finalizeLocalBlock o now = (.ok final, pool') ∧
    final.getChainState = prior.addSummary summary

theorem keepsUpdates_iff (now : Nat) (pool : UnrecordedTransactionPool) (prevHash : Hash)
    (prior : ChainState) (summary : Summary) :
    KeepsUpdates o now (pool.moveTo prevHash) prior summary ↔
      (∀ tx ∈ pool.pendingProposal.transactionVector, ∃ sig, tx.getSignature = .ok sig) ∧
        pool.pendingProposal.blockState = prior.addSummary summary := by
  have htxs : (pool.moveTo prevHash).pendingProposal.transactionVector =
      pool.pendingProposal.transactionVector := rfl
  rw [KeepsUpdates, ← removeTransactions_ok_iff _ (pool.moveTo prevHash).txs, finalizeLocalBlock, htxs]
  cases removeTransactions pool.pendingProposal.transactionVector (pool.moveTo prevHash).txs with
  | mk r txs =>
    cases r with
    | error e => simp
    | ok u =>
      constructor
      · intro h
        obtain ⟨final, pool', hfinal, hstate⟩ := h
        cases hfinal
        exact ⟨⟨u, rfl⟩, hstate⟩
      · intro h
        exact ⟨_, _, rfl, h.2⟩

/-- After a successful re-verification the block has the effects of the one that arrived in
between exactly when there are none: the state the proposal was computed from agrees with
the new one. A stored state that is not of this kind never fits. -/
theorem reverifyProposal_keepsUpdates_iff {pool pool' : UnrecordedTransactionPool}
    {prevHash : Hash} {prior : ChainState} (hhas : pool.hasProposal = true)
    (h : pool.reverifyProposal keys context prevHash prior = .ok pool') (now : Nat) :
    (∀ old, pool.pendingProposal.AccumulatedFrom old →
      (KeepsUpdates o now pool' prior pool.pendingProposal.summary ↔
        (∀ tx ∈ pool.pendingProposal.transactionVector, ∃ sig, tx.getSignature = .ok sig) ∧
          ChainState.Agree (pool.pendingProposal.summary.flows.map Flow.smartCoin) old prior)) ∧
    ((¬ ∃ old, pool.pendingProposal.AccumulatedFrom old) →
      ¬ KeepsUpdates o now pool' prior pool.pendingProposal.summary) := by
  rw [reverifyProposal_ok hhas h]
  constructor
  · intro old hold
    rw [keepsUpdates_iff, hold, ← ChainState.addCoins_eq_iff]
    rfl
  · intro hnone hkeeps
    exact hnone ⟨prior, ((keepsUpdates_iff now pool prevHash prior _).mp hkeeps).2⟩

theorem reverifyProposal_keepsUpdates_iff_sampleMove :
    ∃ pool', (sampleProposed ChainState.empty [.sampleMove 1 2 5]).reverifyProposal KeyRing.toy
        (DevcashContext.sample 0) Ossl.toy.genesisHash ChainState.empty = .ok pool' ∧
      KeepsUpdates Ossl.toy 0 pool' ChainState.empty
        (sampleProposed ChainState.empty [.sampleMove 1 2 5]).pendingProposal.summary := by
  have hrun : (sampleProposed ChainState.empty [.sampleMove 1 2 5]).hasProposal = true ∧
      ((sampleProposed ChainState.empty [.sampleMove 1 2 5]).reverifyProposal KeyRing.toy
        (DevcashContext.sample 0) Ossl.toy.genesisHash ChainState.empty).toOption.isSome = true ∧
      (∀ tx ∈ (sampleProposed ChainState.empty
          [.sampleMove 1 2 5]).pendingProposal.transactionVector,
        tx.getSignature.toOption.isSome = true) ∧
      (sampleProposed ChainState.empty [.sampleMove 1 2 5]).pendingProposal.blockState =
        ChainState.empty.addSummary
          (sampleProposed ChainState.empty [.sampleMove 1 2 5]).pendingProposal.summary := by
    decide +kernel
  obtain ⟨hhas, hok, hsigs, hold⟩ := hrun
  obtain ⟨pool', h⟩ := Result.exists_ok hok
  refine ⟨pool', h, ((reverifyProposal_keepsUpdates_iff hhas h 0).1 _ hold).mpr ⟨?_, ?_⟩⟩
  · exact fun tx htx => Result.exists_ok (hsigs tx htx)
  · exact (ChainState.addCoins_eq_iff _ _ _).mp rfl

/-- While a move from wallet 1 to wallet 2 is pending, a block arrives that gives wallet 3
seven coins. The proposal passes, and the block made of it has none on wallet 3. -/
theorem pendingMove_losesUpdate :
    (((sampleProposed ChainState.empty [.sampleMove 1 2 5]).reverifyProposal KeyRing.toy
        (DevcashContext.sample 0) Ossl.toy.genesisHash
        (ChainState.empty.addCoin (SmartCoin.make (Address.sample 3) 1 7))).toOption.bind
      (fun pool' => (pool'.finalizeLocalBlock Ossl.toy 0).1.toOption.map
        (fun final => final.getChainState.balance (Address.sample 3) 1))) = some 0 ∧
    (((ChainState.empty.addCoin (SmartCoin.make (Address.sample 3) 1 7)).addSummary
      (sampleProposed ChainState.empty [.sampleMove 1 2 5]).pendingProposal.summary).balance
        (Address.sample 3) 1) = 7 := by
  decide +kernel

end UnrecordedTransactionPool
end Devcash
