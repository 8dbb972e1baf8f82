import Devcash.AtMostOnce
import Devcash.Delivery

/-! Where an accepted transaction is: in the pool or in the chain, over any series of
deliveries. -/
namespace Devcash

namespace UnrecordedTransactionPool
variable {o : Ossl} {keys : KeyRing o} {context : DevcashContext}

/-- The signature of every transaction can be read. -/
def Signed (l : List Transaction) : Prop := ∀ tx ∈ l, ∃ sig, tx.getSignature = .ok sig

theorem keys_addEach {l : List Transaction} {allGood : Bool} {txs : TxMap} {sig : Signature}
    (h : sig ∈ txs.keys) : sig ∈ (addEach keys l allGood txs).2.keys := by
  induction l generalizing allGood txs with
  | nil => exact h
  | cons tx l ih =>
    rw [addEach]
    split
    · exact h
    · rename_i allGood' txs' hadd
      apply ih
      obtain ⟨s, -, hadd⟩ := Result.bind_eq_ok hadd
      split at hadd
      · cases hadd
        exact h
      · obtain ⟨sound, -, hadd⟩ := Result.bind_eq_ok hadd
        split_ifs at hadd
        · cases hadd
          exact OrdMap.mem_keys_insert.mpr (Or.inr h)
        · cases hadd
          exact h

theorem keyed_addTransactions {pool : UnrecordedTransactionPool} (h : Keyed pool.txs)
    (l : List Transaction) : Keyed (pool.addTransactions keys l).2.txs := by
  intro e he
  obtain hold | ⟨-, hsig⟩ := mem_addEach he
  · exact h e hold
  · exact hsig

theorem removeTransactions_signed {l : List Transaction} (h : Signed l) (txs : TxMap) :
    (removeTransactions l txs).1 = .ok () ∧
      ∀ sig ∈ txs.keys, sig ∈ (removeTransactions l txs).2.keys ∨ sig ∈ signaturesOf l := by
  induction l generalizing txs with
  | nil => exact ⟨rfl, fun sig hs => Or.inl hs⟩
  | cons tx l ih =>
    obtain ⟨s, hs⟩ := h tx List.mem_cons_self
    obtain ⟨hok, hkeys⟩ := ih (fun t ht => h t (List.mem_cons_of_mem tx ht)) (txs.erase s)
    have hsigs : signaturesOf (tx :: l) = s :: signaturesOf l := by
      simp [signaturesOf, hs, Except.toOption]
    simp only [removeTransactions, hs, hsigs]
    refine ⟨hok, fun sig hsig => ?_⟩
    by_cases he : sig = s
    · exact Or.inr (List.mem_cons.mpr (Or.inl he))
    · exact (hkeys sig (OrdMap.mem_keys_erase.mpr ⟨he, hsig⟩)).imp id (List.mem_cons_of_mem s)

theorem signed_proposal {pool pool' : UnrecordedTransactionPool} {prevHash : Hash}
    {prior : ChainState} (hk : Keyed pool.txs)
    (h : pool.proposeBlock keys context prevHash prior = .ok pool') :
    Signed pool'.pendingProposal.transactionVector := by
  obtain ⟨-, b, hc, -⟩ := newProposal_ok (proposeBlock_ok h).1
  intro tx htx
  obtain ⟨e, he, rfl⟩ := List.mem_map.mp ((collectFrom_sublist hc).subset htx)
  exact ⟨e.1, hk e he⟩

end UnrecordedTransactionPool

namespace Node
open UnrecordedTransactionPool
variable {o : Ossl} {keys : KeyRing o} {context : DevcashContext}

/-- The signatures a node has in its pool or in its chain. -/
def heldSignatures (n : Node) : List Signature := n.utxPool.txs.keys ++ n.finalChain.signatures

theorem heldSignatures_mono {n n' : Node} (hpool : n.utxPool.txs.keys ⊆ n'.heldSignatures)
    (hchain : n.finalChain.signatures ⊆ n'.finalChain.signatures) :
    n.heldSignatures ⊆ n'.heldSignatures := by
  intro sig hsig
  obtain h | h := List.mem_append.mp hsig
  · exact hpool h
  · exact List.mem_append_right _ (hchain h)

theorem heldSignatures_of_keys {n n' : Node} (hpool : n.utxPool.txs.keys ⊆ n'.utxPool.txs.keys)
    (hchain : n.finalChain.signatures ⊆ n'.finalChain.signatures) :
    n.heldSignatures ⊆ n'.heldSignatures :=
  heldSignatures_mono (fun _ hs => List.mem_append_left _ (hpool hs)) hchain

/-- The pool is in order, and the transactions of a pending proposal can be removed. -/
structure CustodyInv (n : Node) : Prop where
  keyed : Keyed n.utxPool.txs
  signed : n.utxPool.hasProposal = true → Signed n.utxPool.pendingProposal.transactionVector

theorem custodyInv_init (mode : AppMode) (maxTxPerBlock : Nat) :
    CustodyInv (init mode maxTxPerBlock) :=
  ⟨fun _ he => absurd he List.not_mem_nil, fun h => nomatch h⟩

theorem handleValidationBlock_custody {finalChain : Blockchain} {pool : UnrecordedTransactionPool}
    (hs : pool.hasProposal = true → Signed pool.pendingProposal.transactionVector) (now : Nat)
    (data : Bytes) (f : Effect)
    (hf : f = handleValidationBlock context o now finalChain pool data) :
    (f.finalChain = finalChain ∧ f.utxPool.txs = pool.txs ∧
      (f.utxPool.hasProposal = true → Signed f.utxPool.pendingProposal.transactionVector)) ∨
    ∃ p, Signed p.transactionVector ∧ f.finalChain = finalChain ++ [FinalBlock.ofProposed o now p] ∧
      f.utxPool.txs = (removeTransactions p.transactionVector pool.txs).2 ∧
      f.utxPool.hasProposal = false := by
  rw [handleValidationBlock] at hf
  cases hc : pool.checkValidation context data with
  | error e =>
    rw [hc] at hf
    exact Or.inl (by rw [hf]; exact ⟨rfl, rfl, hs⟩)
  | ok r =>
    obtain ⟨enough, pool'⟩ := r
    obtain ⟨htxs, hsame, hhas⟩ := checkValidation_ok hc
    have hsigned : pool.hasProposal = true → Signed pool'.pendingProposal.transactionVector := by
      rw [hsame.transactionVector]
      exact hs
    rw [hc] at hf
    cases enough with
    | false => exact Or.inl (by rw [hf]; exact ⟨rfl, htxs, fun h => hsigned (hhas (Or.inl h))⟩)
    | true =>
      have hvec := hsigned (hhas (Or.inr rfl))
      have hok := (removeTransactions_signed hvec pool'.txs).1
      simp only [finalizeLocalBlock] at hf
      cases hr : removeTransactions pool'.pendingProposal.transactionVector pool'.txs with
      | mk r txs =>
        rw [hr] at hok hf
        cases (show r = .ok () from hok)
        refine Or.inr ⟨pool'.pendingProposal, hvec, ?_⟩
        rw [hf, ← htxs, hr]
        exact ⟨rfl, rfl, hasProposal_of_setNull rfl⟩

theorem CustodyInv.proposes {n : Node} {chain : Blockchain} {pool : UnrecordedTransactionPool}
    (hk : Keyed pool.txs) (h : Proposes keys context chain pool n.utxPool) :
    CustodyInv n ∧ n.utxPool.txs = pool.txs := by
  have htxs : n.utxPool.txs = pool.txs := by
    rw [(proposeBlock_ok h.2.2.2).2]
  exact ⟨⟨by rw [htxs]; exact hk, fun _ => signed_proposal hk h.2.2.2⟩, htxs⟩

theorem CustodyInv.same {n n' : Node} (hn : CustodyInv n) (htxs : n'.utxPool.txs = n.utxPool.txs)
    (hsigned : n'.utxPool.hasProposal = true → Signed n'.utxPool.pendingProposal.transactionVector)
    (hchain : n.finalChain.signatures ⊆ n'.finalChain.signatures) :
    CustodyInv n' ∧ n.heldSignatures ⊆ n'.heldSignatures :=
  ⟨⟨by rw [htxs]; exact hn.keyed, hsigned⟩,
    heldSignatures_of_keys (by rw [htxs]; exact List.Subset.refl _) hchain⟩

theorem CustodyInv.finalizes {n n' : Node} (hn : CustodyInv n) {p : ProposedBlock} {now : Nat}
    (hvec : Signed p.transactionVector)
    (hchain : n'.finalChain = n.finalChain ++ [FinalBlock.ofProposed o now p])
    (htxs : n'.utxPool.txs = (removeTransactions p.transactionVector n.utxPool.txs).2)
    (hnone : n'.utxPool.hasProposal = false) :
    CustodyInv n' ∧ n.heldSignatures ⊆ n'.heldSignatures := by
  refine ⟨⟨fun e he => ?_, fun h => ?_⟩, heldSignatures_mono (fun sig hsig => ?_) ?_⟩
  · rw [htxs] at he
    exact hn.keyed e (mem_removeTransactions he)
  · rw [hnone] at h
    cases h
  · -- what leaves the pool is in the new block
    rw [heldSignatures, htxs, hchain, Blockchain.signatures_concat]
    obtain hstill | hblock := (removeTransactions_signed hvec n.utxPool.txs).2 sig hsig
    · exact List.mem_append_left _ hstill
    · exact List.mem_append_right _ (List.mem_append_right _ hblock)
  · rw [hchain, Blockchain.signatures_concat]
    exact List.subset_append_left _ _

theorem custody_step {n : Node} (hn : CustodyInv n) (a : Nat × Delivery) :
    CustodyInv (n.arrive keys context a) ∧
      n.heldSignatures ⊆ (n.arrive keys context a).heldSignatures := by
  generalize hn' : n.arrive keys context a = n'
  have hcases := @arrive_cases o keys context n a
  rw [hn'] at hcases
  cases hcases with
  | rested chain pool failed =>
    exact hn.same (by rw [pool]) (by rw [pool]; exact hn.signed)
      (by rw [chain]; exact List.Subset.refl _)
  | announced txs chain failed pool =>
    have hkeyed : Keyed (n.utxPool.addTransactions keys txs).2.txs :=
      keyed_addTransactions hn.keyed txs
    have hgrows : n.utxPool.txs.keys ⊆ (n.utxPool.addTransactions keys txs).2.txs.keys :=
      fun sig hs => keys_addEach hs
    have hchain : n.finalChain.signatures ⊆ n'.finalChain.signatures := by
      rw [chain]
      exact List.Subset.refl _
    obtain hpool | hprop := pool
    · refine ⟨⟨by rw [hpool]; exact hkeyed, by rw [hpool]; exact hn.signed⟩, ?_⟩
      exact heldSignatures_of_keys (by rw [hpool]; exact hgrows) hchain
    · obtain ⟨hinv, htxs⟩ := CustodyInv.proposes hkeyed hprop
      exact ⟨hinv, heldSignatures_of_keys (by rw [htxs]; exact hgrows) hchain⟩
  | counted data up effect =>
    have hmoves := handleValidationBlock_custody hn.signed a.1 data
      (handleValidationBlock context o a.1 n.finalChain n.utxPool data) rfl
    rw [← consensus_utxPool n, ← consensus_finalChain n, ← effect] at hmoves
    obtain ⟨hchain, htxs, hsigned⟩ | ⟨p, hvec, hchain, htxs, hnone⟩ := hmoves
    · exact hn.same htxs hsigned (by rw [hchain]; exact List.Subset.refl _)
    · exact hn.finalizes hvec hchain htxs hnone
  | adopted fields up effect =>
    have hadopts : Adopts keys context n.finalChain _ n.utxPool
        (adoptBlock keys context n.finalChain n.utxPool fields) := handleFinalBlockWith_ok rfl
    obtain ⟨hchain, -, hpool⟩ := hadopts
    rw [← consensus_utxPool n, ← effect] at hpool
    rw [← consensus_finalChain n, ← effect] at hchain
    have hgrows : n.finalChain.signatures ⊆ n'.finalChain.signatures := by
      rw [hchain, Blockchain.signatures_concat]
      exact List.subset_append_left _ _
    obtain ⟨hsame, -⟩ | ⟨hhas, hmoved⟩ | hprop := hpool
    · exact hn.same (by rw [hsame]) (by rw [hsame]; exact hn.signed) hgrows
    · exact hn.same (by rw [hmoved]; rfl) (fun _ => by rw [hmoved]; exact hn.signed hhas) hgrows
    · obtain ⟨hinv, htxs⟩ := CustodyInv.proposes hn.keyed hprop
      exact ⟨hinv, heldSignatures_of_keys (by rw [htxs]; exact List.Subset.refl _) hgrows⟩

/-- Whatever is in the pool of a node at some point of a run is later in its pool or in its
chain. -/
theorem pool_subset_heldSignatures (keys : KeyRing o) (context : DevcashContext) (mode : AppMode)
    (maxTxPerBlock : Nat) (l1 l2 : List (Nat × Delivery)) :
    (Run.after (arrive keys context) (init mode maxTxPerBlock) l1).utxPool.txs.keys ⊆
      (Run.after (arrive keys context) (init mode maxTxPerBlock) (l1 ++ l2)).heldSignatures := by
  have halways : Run.Always (arrive keys context) CustodyInv (init mode maxTxPerBlock) l1 :=
    Run.always_of_each (C := fun _ _ => True) (fun n a hn _ => (custody_step hn a).1)
      (custodyInv_init mode maxTxPerBlock) (fun _ _ _ _ => trivial)
  have hinv := halways l1 (List.prefix_refl l1)
  rw [Run.after_append]
  generalize Run.after (arrive keys context) (init mode maxTxPerBlock) l1 = n at hinv
  have hheld : n.heldSignatures ⊆ (Run.after (arrive keys context) n l2).heldSignatures := by
    induction l2 generalizing n with
    | nil => exact List.Subset.refl _
    | cons a l2 ih =>
      obtain ⟨hinv', hsub⟩ := @custody_step o keys context n hinv a
      exact List.Subset.trans hsub (ih _ hinv')
  exact List.Subset.trans (List.subset_append_left _ _) hheld

end Node
end Devcash
