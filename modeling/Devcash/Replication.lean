import Devcash.Lib.Run
import Devcash.Node
import Devcash.Proposal
import Devcash.Quorum

/-! The chain states of two nodes after a block that one of them finalized and the other
one received. -/
namespace Devcash
namespace Node
variable {o : Ossl} {keys : KeyRing o} {context : DevcashContext}

/-- A node that only counts votes still has its proposal, or has finalized it. -/
inductive Voting (chain : Blockchain) (p : ProposedBlock) (n : Node) : Prop where
  | pending (same : n.finalChain = chain) (content : p.SameContent n.utxPool.pendingProposal)
  | finalized (top : FinalBlock) (pushed : n.finalChain = chain ++ [top])
      (state : top.blockState = p.blockState) (null : n.utxPool.hasProposal = false)

theorem voting_step {chain : Blockchain} {p : ProposedBlock} {n : Node} {e : Event} {data : Bytes}
    (hn : Voting chain p n) (he : e.message = .valid data) :
    Voting chain p (n.step keys context e) := by
  cases @step_moves o keys context n e with
  | rested same pool failed quiet =>
    cases hn with
    | pending h content => exact .pending (same.trans h) (by rw [pool]; exact content)
    | finalized top h state null => exact .finalized top (same.trans h) state (by rw [pool]; exact null)
  | announced data' message same failed pool quiet => rw [he] at message; cases message
  | adopted data' message fields up decoded f effect output adopts => rw [he] at message; cases message
  | counted data' message up f effect output counts =>
    rw [effect]
    cases counts with
    | counted p' same null same' sent proposal txs =>
      cases hn with
      | pending h content => exact .pending (same'.trans h) (by
          change p.SameContent f.utxPool.pendingProposal
          rw [proposal]
          exact content.trans same)
      | finalized top h state hnull =>
        refine .finalized top (same'.trans h) state ?_
        change f.utxPool.hasProposal = false
        rw [UnrecordedTransactionPool.hasProposal, proposal, null hnull]
        exact hnull
    | finalized p' same notNull pushed sent proposal txs =>
      cases hn with
      | pending h content =>
        refine .finalized _ (by rw [← h]; exact pushed) ?_
          (UnrecordedTransactionPool.hasProposal_of_setNull proposal)
        exact (content.trans same).blockState
      | finalized top h state null => exact absurd (notNull.symm.trans null) (by decide)

theorem finalized_state {n : Node} {votes : List Event} {top : FinalBlock}
    (hvotes : ∀ e ∈ votes, ∃ data, e.message = .valid data)
    (hfinal : (Run.after (step keys context) n votes).finalChain = n.finalChain ++ [top]) :
    top.blockState = n.utxPool.pendingProposal.blockState := by
  have hrun : Run.Always (step keys context) (Voting n.finalChain n.utxPool.pendingProposal)
      n votes := by
    refine Run.always_of_each (C := fun _ e => ∃ data, e.message = .valid data) ?_
      (.pending rfl (.refl _)) ?_
    · rintro n e hn ⟨data, he⟩
      exact voting_step hn he
    · intro l1 e l2 hl
      exact hvotes e (by rw [hl]; simp)
  cases hrun votes (List.prefix_refl _) with
  | pending same content =>
    rw [same] at hfinal
    exact absurd (congrArg List.length hfinal) (by simp)
  | finalized top' pushed state null =>
    have htop : top' = top := by
      have h := pushed.symm.trans hfinal
      exact List.singleton_inj.mp (List.append_cancel_left h)
    rw [← htop, state]

/-- The proposer and a node that receives the block agree on the chain state exactly when
nothing that was posted while the block was selected can be seen in the prior state. -/
theorem highestChainState_agrees_iff {o' : Ossl} {keys' : KeyRing o'}
    {context' : DevcashContext} {pool : UnrecordedTransactionPool} {prevHash : Hash}
    {prior : ChainState} {a b : Node} {votes : List Event} {top : FinalBlock}
    {read : Bytes → Result BlockFields} {fields : BlockFields}
    (hprop : pool.proposeBlock keys context prevHash prior = .ok a.utxPool)
    (hb : b.finalChain.getHighestChainState = prior)
    (hvotes : ∀ e ∈ votes, ∃ data, e.message = .valid data)
    (hfinal : (Run.after (step keys context) a votes).finalChain = a.finalChain ++ [top])
    (hread : read top.getCanonical = .ok fields) :
    (Run.after (step keys context) a votes).finalChain.getHighestChainState =
        (handleFinalBlockWith keys' context' read b.finalChain b.utxPool
          top.getCanonical).finalChain.getHighestChainState ↔
      prior.Invisible [] (Visit.coins (pool.visits keys prior)) := by
  have hstate : top.blockState = prior.addCoins (Visit.coins (pool.visits keys prior)) := by
    obtain ⟨-, c, hc, -, hs⟩ := UnrecordedTransactionPool.newProposal_ok
      (UnrecordedTransactionPool.proposeBlock_ok hprop).1
    rw [finalized_state hvotes hfinal, hs]
    exact (UnrecordedTransactionPool.collectFrom_visits hc).1.1
  have hremote := @handleFinalBlockWith_ok o' keys' context' b.finalChain b.utxPool _ _ _ hread
  rw [hfinal, hremote.1, Blockchain.getHighestChainState_concat,
    Blockchain.getHighestChainState_concat, hstate, ← ChainState.addCoins_append_eq_iff, hb,
    List.nil_append]
  rfl

/-- The first of three nodes, with a proposal on top of a chain in the state `prior`. -/
def sampleProposer (chain : Blockchain) (l : List Tier1Transaction) : Node where
  finalChain := chain
  utxPool := UnrecordedTransactionPool.sampleProposed chain.getHighestChainState l
  consensusFailure := none
  validatorFailure := none

/-- The vote of the second node. -/
def sampleVote (n : Node) : Event := ⟨0, .valid n.utxPool.pendingProposal.cosigned⟩

/-- The block after that vote. -/
def sampleTop (n : Node) : FinalBlock :=
  FinalBlock.ofProposed Ossl.toy 0
    (n.utxPool.pendingProposal.receiveVotes (DevcashContext.sample 0)
      n.utxPool.pendingProposal.cosigned)

/-- What the second node, with the same chain, makes of the block. -/
def sampleReceived (n : Node) : Blockchain :=
  (handleFinalBlock KeyRing.toy (DevcashContext.sample 1) n.finalChain
    (UnrecordedTransactionPool.sample []) (sampleTop n).getCanonical).finalChain

/-- A wallet has ten coins. -/
def sampleChain : Blockchain :=
  [.ofFields .default (ChainState.empty.addCoin (SmartCoin.make (Address.sample 1) 1 10))]

/-- A node that moves coins of a wallet to the same wallet. -/
def sampleReturn : Node := sampleProposer sampleChain [.sampleMove 1 1 5]

theorem highestChainState_agrees_iff_sampleReturn :
    (sampleReturn.step KeyRing.toy (DevcashContext.sample 0)
        (sampleVote sampleReturn)).finalChain.getHighestChainState =
      (sampleReceived sampleReturn).getHighestChainState := by
  have hrun : (UnrecordedTransactionPool.sample [.sampleMove 1 1 5]).proposeBlock KeyRing.toy
        (DevcashContext.sample 0) Ossl.toy.genesisHash sampleChain.getHighestChainState =
          .ok sampleReturn.utxPool ∧
      (sampleReturn.step KeyRing.toy (DevcashContext.sample 0) (sampleVote sampleReturn)).finalChain =
        sampleReturn.finalChain ++ [sampleTop sampleReturn] ∧
      (FinalBlock.decode KeyRing.toy .t1 (sampleTop sampleReturn).getCanonical).toOption.isSome =
        true ∧
      sampleChain.getHighestChainState.Invisible []
        (Visit.coins ((UnrecordedTransactionPool.sample [.sampleMove 1 1 5]).visits KeyRing.toy
          sampleChain.getHighestChainState)) := by decide +kernel
  obtain ⟨hprop, hfinal, hread, hinvisible⟩ := hrun
  obtain ⟨fields, hd⟩ := Result.exists_ok hread
  refine (@highestChainState_agrees_iff _ KeyRing.toy (DevcashContext.sample 0) _ KeyRing.toy
    (DevcashContext.sample 1) _ _ _ sampleReturn
    ⟨sampleChain, UnrecordedTransactionPool.sample [], none, none⟩ [sampleVote sampleReturn]
    _ _ fields hprop rfl ?_ hfinal hd).mpr hinvisible
  intro e he
  rw [List.mem_singleton.mp he]
  exact ⟨_, rfl⟩

/-- The proposer has the state after its block, the other node the state before it. -/
theorem sampleMove_states_differ :
    (sampleProposer [] [.sampleMove 1 2 5]).utxPool.hasProposal = true ∧
      ((sampleProposer [] [.sampleMove 1 2 5]).step KeyRing.toy (DevcashContext.sample 0)
        (sampleVote (sampleProposer [] [.sampleMove 1 2 5]))).finalChain =
          [sampleTop (sampleProposer [] [.sampleMove 1 2 5])] ∧
      (FinalBlock.decode KeyRing.toy .t1
        (sampleTop (sampleProposer [] [.sampleMove 1 2 5])).getCanonical).map
          BlockFields.getCanonical =
            .ok (sampleTop (sampleProposer [] [.sampleMove 1 2 5])).getCanonical ∧
      ((sampleProposer [] [.sampleMove 1 2 5]).step KeyRing.toy (DevcashContext.sample 0)
        (sampleVote (sampleProposer [] [.sampleMove 1 2 5]))).finalChain.getHighestChainState ≠
          (sampleReceived (sampleProposer [] [.sampleMove 1 2 5])).getHighestChainState := by
  decide +kernel

end Node
end Devcash
