import Devcash.Pool
import Devcash.Selection

/-! What `ProposeBlock` stores: the pass over the pool, transaction by transaction, and
when the summary and the state of the proposal are those of its own transactions. -/
namespace Devcash
open Postings

namespace Transaction
variable {o : Ossl} {keys : KeyRing o}

/-- The flows, in the order of the transfers. -/
def readFlows (tx : Transaction) : Result (List Flow) := do
  let ts ← tx.getTransfers
  ts.mapM Transfer.flow

theorem flows_of_readFlows {tx : Transaction} {fs : List Flow} (h : tx.readFlows = .ok fs) :
    tx.flows = fs := by
  rw [readFlows] at h
  rw [flows, flowsOf, h]

/-- What `isValidInAggregate` posts to the books, accepted or not. -/
def postedInAggregate (keys : KeyRing o) (prior : ChainState) (tx : Transaction) (b : Books) :
    Posted :=
  postedWith (tx.isSound keys) (tx.aggregateBody prior) tx.aggregateFields b

theorem aggregateStep_after (prior : ChainState) (tx : Transaction) (b : Books) :
    b.After (tx.postedInAggregate keys prior b) (aggregateStep keys prior b tx) := by
  rw [aggregateStep, isValidInAggregate_eq]
  exact validateWith_after _ _ _ _

theorem posted_of_accepted {prior : ChainState} {tx : Transaction} {b : Books}
    (h : (tx.isValidInAggregate keys prior b).1 = .ok true) :
    ∃ fs, tx.readFlows = .ok fs ∧ tx.postedInAggregate keys prior b = .whole fs := by
  rw [isValidInAggregate_eq] at h
  obtain ⟨hs, ts, spend, hb, hp⟩ := validateWith_true h
  obtain ⟨fs, hm, hfs⟩ := postTransfers_true (fun t f => aggregateFields_ok) (congrArg Prod.fst hp)
  refine ⟨fs, ?_, ?_⟩
  · rw [readFlows, (aggregateBody_ok hb).1]
    exact hm
  · rw [postedInAggregate, hs, hb]
    exact hfs

end Transaction

/-- The flows of a block's transactions, in block order. -/
def blockFlows (l : List Transaction) : Result (List Flow) := do
  let fss ← l.mapM Transaction.readFlows
  .ok fss.flatten

theorem blockFlows_cons {tx : Transaction} {l : List Transaction} {fs gs : List Flow}
    (h : tx.readFlows = .ok fs) (hl : blockFlows l = .ok gs) :
    blockFlows (tx :: l) = .ok (fs ++ gs) := by
  obtain ⟨fss, hfss, hl⟩ := Result.bind_eq_ok hl
  cases hl
  rw [blockFlows, List.mapM_cons, h, Result.bind_ok, hfss]
  rfl

/-- One transaction of a pass: the verdict and what the validation posted. -/
structure Visit where
  accepted : Bool
  posted : Posted

namespace Visit

def coins (l : List Visit) : List SmartCoin := l.flatMap (fun v => v.posted.coins)

def flows (l : List Visit) : List Flow := l.flatMap (fun v => v.posted.flows)

def taken (l : List Visit) : List Visit := l.filter (fun v => v.accepted)

def refused (l : List Visit) : List Visit := l.filter (fun v => !v.accepted)

theorem coins_perm (l : List Visit) : (coins l).Perm (coins (taken l) ++ coins (refused l)) := by
  rw [coins, coins, coins, ← List.flatMap_append]
  exact (List.filter_append_perm _ l).symm.flatMap_right _

theorem flows_perm (l : List Visit) : (flows l).Perm (flows (taken l) ++ flows (refused l)) := by
  rw [flows, flows, flows, ← List.flatMap_append]
  exact (List.filter_append_perm _ l).symm.flatMap_right _

end Visit

namespace UnrecordedTransactionPool
variable {o : Ossl} (keys : KeyRing o)

/-- The transactions that `collectFrom` visits. -/
def visitsFrom (prior : ChainState) (maxTxPerBlock : Nat) :
    List Transaction → Nat → Books → List Visit
  | [], _, _ => []
  | tx :: l, numTxs, b =>
    let posted := tx.postedInAggregate keys prior b
    let b' := aggregateStep keys prior b tx
    if (tx.isValidInAggregate keys prior b).1 = .ok true then
      ⟨true, posted⟩ :: if u32 (numTxs + 1) ≥ maxTxPerBlock then []
        else visitsFrom prior maxTxPerBlock l (u32 (numTxs + 1)) b'
    else ⟨false, posted⟩ :: visitsFrom prior maxTxPerBlock l numTxs b'

/-- The pass of a proposal from the state `prior`. -/
def visits (pool : UnrecordedTransactionPool) (prior : ChainState) : List Visit :=
  visitsFrom keys prior pool.maxTxPerBlock pool.pending 0 { Books.empty with state := prior }

/-- What the refused transactions posted cannot be seen next to the accepted ones. -/
structure LeavesNoTrace (pool : UnrecordedTransactionPool) (prior : ChainState) : Prop where
  state : prior.Invisible (Visit.coins (Visit.taken (pool.visits keys prior)))
    (Visit.coins (Visit.refused (pool.visits keys prior)))
  summary : Summary.Invisible (Visit.flows (Visit.taken (pool.visits keys prior)))
    (Visit.flows (Visit.refused (pool.visits keys prior)))

variable {keys}

theorem collectFrom_cons {prior : ChainState} {max numTxs : Nat} {tx : Transaction}
    {l : List Transaction} {b : Books} {r : List Transaction × Books}
    (h : collectFrom keys prior max (tx :: l) numTxs b = .ok r) :
    ((tx.isValidInAggregate keys prior b).1 = .ok true ∧
      ((u32 (numTxs + 1) ≥ max ∧ r = ([tx], aggregateStep keys prior b tx)) ∨
        (¬ u32 (numTxs + 1) ≥ max ∧ ∃ valid b', r = (tx :: valid, b') ∧
          collectFrom keys prior max l (u32 (numTxs + 1)) (aggregateStep keys prior b tx) =
            .ok (valid, b')))) ∨
    ((tx.isValidInAggregate keys prior b).1 = .ok false ∧
      collectFrom keys prior max l numTxs (aggregateStep keys prior b tx) = .ok r) := by
  simp only [collectFrom] at h
  rw [aggregateStep]
  split at h
  · cases h
  · rename_i b' hb
    rw [hb]
    exact Or.inr ⟨rfl, h⟩
  · rename_i b' hb
    rw [hb]
    split_ifs at h with hmax
    · cases h
      exact Or.inl ⟨rfl, Or.inl ⟨hmax, rfl⟩⟩
    · obtain ⟨⟨valid, b''⟩, hc, h⟩ := Result.bind_eq_ok h
      cases h
      exact Or.inl ⟨rfl, Or.inr ⟨hmax, valid, b'', rfl, hc⟩⟩

/-- The pass leaves the books with everything it posted, and what it selects is what
the accepted visits posted. -/
theorem collectFrom_visits {prior : ChainState} {max : Nat} {l valid : List Transaction}
    {numTxs : Nat} {b b' : Books} (h : collectFrom keys prior max l numTxs b = .ok (valid, b')) :
    b.After ⟨Visit.coins (visitsFrom keys prior max l numTxs b),
        Visit.flows (visitsFrom keys prior max l numTxs b)⟩ b' ∧
      ∃ fs, blockFlows valid = .ok fs ∧
        Visit.flows (Visit.taken (visitsFrom keys prior max l numTxs b)) = fs ∧
        Visit.coins (Visit.taken (visitsFrom keys prior max l numTxs b)) =
          fs.map Flow.smartCoin := by
  induction l generalizing numTxs b valid with
  | nil =>
    cases h
    exact ⟨.refl _, [], rfl, rfl, rfl⟩
  | cons tx l ih =>
    have hstep := @Transaction.aggregateStep_after o keys prior tx b
    obtain ⟨hacc, hcases⟩ | ⟨href, hc⟩ := collectFrom_cons h
    · obtain ⟨fs, hfs, hpost⟩ := Transaction.posted_of_accepted hacc
      rw [hpost] at hstep
      simp only [visitsFrom, hacc, if_true, hpost]
      obtain ⟨hmax, hr⟩ | ⟨hmax, valid', b'', hr, hc⟩ := hcases
      · cases hr
        rw [if_pos hmax]
        refine ⟨hstep.trans (.refl _), fs ++ [], blockFlows_cons hfs rfl, ?_, ?_⟩
        · simp [Visit.flows, Visit.taken, Posted.whole]
        · simp [Visit.coins, Visit.taken, Posted.whole]
      · cases hr
        rw [if_neg hmax]
        obtain ⟨h1, gs, hgs, hf, hk⟩ := ih hc
        refine ⟨hstep.trans h1, fs ++ gs, blockFlows_cons hfs hgs, ?_, ?_⟩
        · rw [← hf]
          rfl
        · rw [List.map_append, ← hk]
          rfl
    · obtain ⟨h1, gs, hgs, hf, hk⟩ := ih hc
      simp only [visitsFrom, href, Except.ok.injEq, Bool.false_eq_true, if_false]
      exact ⟨hstep.trans h1, gs, hgs, hf, hk⟩

end UnrecordedTransactionPool

/-- The summary and the state after the transfers of the transactions, from an empty
summary and the state `prior`. -/
def replay (prior : ChainState) (l : List Transaction) : Result (Summary × ChainState) := do
  let fs ← blockFlows l
  .ok (Summary.empty.addFlows fs, prior.addCoins (fs.map Flow.smartCoin))

/-- A proposal has the summary and the state of its own transactions. -/
def ProposedBlock.IsOwn (prior : ChainState) (p : ProposedBlock) : Prop :=
  replay prior p.transactionVector = .ok (p.summary, p.blockState)

instance (prior : ChainState) (p : ProposedBlock) : Decidable (p.IsOwn prior) :=
  inferInstanceAs (Decidable (replay prior p.transactionVector = .ok (p.summary, p.blockState)))

namespace UnrecordedTransactionPool
variable {o : Ossl} {keys : KeyRing o} {context : DevcashContext}

/-- A stored proposal has the summary and the state of its own transactions exactly when
the refused transactions leave no trace. -/
theorem proposeBlock_isOwn_iff {pool pool' : UnrecordedTransactionPool} {prevHash : Hash}
    {prior : ChainState} (h : pool.proposeBlock keys context prevHash prior = .ok pool') :
    pool'.pendingProposal.IsOwn prior ↔ pool.LeavesNoTrace keys prior := by
  obtain ⟨-, b, hc, hsum, hstate⟩ := newProposal_ok (proposeBlock_ok h).1
  obtain ⟨⟨hs, hm⟩, fs, hfs, hflows, hcoins⟩ := collectFrom_visits hc
  have hstate' : pool'.pendingProposal.blockState = prior.addCoins
      (fs.map Flow.smartCoin ++ Visit.coins (Visit.refused (pool.visits keys prior))) := by
    rw [hstate, hs, ← hcoins]
    exact ChainState.addCoins_perm prior (Visit.coins_perm _)
  have hsum' : pool'.pendingProposal.summary = Summary.empty.addFlows
      (fs ++ Visit.flows (Visit.refused (pool.visits keys prior))) := by
    rw [hsum, hm, ← hflows]
    exact Summary.addFlows_perm Summary.noEmpty_empty (Visit.flows_perm _)
  have hown : pool'.pendingProposal.IsOwn prior ↔
      pool'.pendingProposal.summary = Summary.empty.addFlows fs ∧
        pool'.pendingProposal.blockState = prior.addCoins (fs.map Flow.smartCoin) := by
    rw [ProposedBlock.IsOwn, replay, hfs, Result.bind_ok, Except.ok.injEq, Prod.mk.injEq]
    exact and_congr eq_comm eq_comm
  rw [hown, hsum', hstate', Summary.addFlows_append_eq_iff, ChainState.addCoins_append_eq_iff,
    ← hcoins, ← hflows]
  exact ⟨fun h => ⟨h.2, h.1⟩, fun h => ⟨h.summary, h.state⟩⟩

theorem leavesNoTrace_of_accepted {pool : UnrecordedTransactionPool} {prior : ChainState}
    (h : Visit.refused (pool.visits keys prior) = []) : pool.LeavesNoTrace keys prior := by
  refine ⟨?_, ?_, ?_⟩
  · intro a c ht
    rw [h] at ht
    exact absurd ht (touches_nil _ _)
  · intro k ht
    rw [h] at ht
    exact absurd ht (touches_nil _ _)
  · intro k ht
    rw [h] at ht
    exact absurd ht (touches_nil _ _)

theorem proposeBlock_isOwn_iff_sample :
    (sampleProposed ChainState.empty [.sampleMove 1 2 5]).pendingProposal.IsOwn ChainState.empty := by
  have h : ((sample [.sampleMove 1 2 5]).proposeBlock KeyRing.toy (DevcashContext.sample 0)
        Ossl.toy.genesisHash ChainState.empty).toOption.isSome = true ∧
      (Visit.refused ((sample [.sampleMove 1 2 5]).visits KeyRing.toy
        ChainState.empty)).isEmpty = true := by
    decide +kernel
  exact (proposeBlock_isOwn_iff (proposeBlock_sample h.1)).mpr
    (leavesNoTrace_of_accepted (List.isEmpty_iff.mp h.2))

/-- Of two payments of a wallet without coins the second one is refused, after its
recipient has been credited. -/
theorem refusedMove_stays :
    (sample [.sampleMove 1 0 5, .sampleMove 1 0 7]).proposeBlock KeyRing.toy
        (DevcashContext.sample 0) Ossl.toy.genesisHash ChainState.empty =
      .ok (sampleProposed ChainState.empty [.sampleMove 1 0 5, .sampleMove 1 0 7]) ∧
    ¬ (sampleProposed ChainState.empty [.sampleMove 1 0 5, .sampleMove 1 0 7]).pendingProposal.IsOwn
      ChainState.empty := by
  decide +kernel

end UnrecordedTransactionPool
end Devcash
