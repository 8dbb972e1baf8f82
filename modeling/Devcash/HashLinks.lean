import Devcash.Lib.Run
import Devcash.Node

/-! The links between the blocks of a node's chain, over any series of messages. -/
namespace Devcash

/-- Each block names the hash of the block before it, the first one the genesis hash. -/
def Blockchain.Linked (o : Ossl) (chain : Blockchain) : Prop :=
  HashChain.Linked FinalBlock.getPreviousHash
    (fun b : FinalBlock => o.devcashHash b.getCanonical) o.genesisHash chain

theorem Blockchain.linked_concat (o : Ossl) (chain : Blockchain) (b : FinalBlock) :
    Linked o (chain ++ [b]) ↔ Linked o chain ∧ b.prevHash = tipHash o chain :=
  HashChain.linked_concat chain b

namespace Node
variable {o : Ossl} {keys : KeyRing o} {context : DevcashContext}

/-- A `FINAL_BLOCK` message that the node can read extends the top of its chain. -/
def ExtendsTop (keys : KeyRing o) (n : Node) (e : Event) : Prop :=
  ∀ data fields, e.message = .finalBlock data → n.consensusFailure = none →
    FinalBlock.decode keys n.utxPool.mode data = .ok fields →
      fields.prevHash = n.finalChain.tipHash o

/-- The chain is linked and a pending proposal continues it, as long as the consensus
thread runs. -/
structure LinkInv (o : Ossl) (n : Node) : Prop where
  linked : n.finalChain.Linked o
  continues : n.utxPool.hasProposal = true → n.consensusFailure = none →
    n.utxPool.pendingProposal.prevHash = n.finalChain.tipHash o

theorem Proposes.prevHash {finalChain : Blockchain} {pool pool' : UnrecordedTransactionPool}
    (h : Proposes keys context finalChain pool pool') :
    pool'.pendingProposal.prevHash = finalChain.tipHash o :=
  (UnrecordedTransactionPool.newProposal_ok (UnrecordedTransactionPool.proposeBlock_ok h.2.2.2).1).1

theorem linkInv_init (mode : AppMode) (maxTxPerBlock : Nat) :
    LinkInv o (init mode maxTxPerBlock) :=
  ⟨HashChain.linked_nil, fun h => nomatch h⟩

theorem LinkInv.counts {n : Node} {now : Nat} {f : Effect} (hn : LinkInv o n)
    (hup : n.consensusFailure = none) (h : Counts o now n.finalChain n.utxPool f) :
    LinkInv o (n.consensus f).1 := by
  cases h with
  | counted p same null chain sent proposal txs =>
    refine ⟨?_, fun hp _ => ?_⟩
    · rw [consensus_finalChain, chain]
      exact hn.linked
    · rw [consensus_utxPool, consensus_finalChain, proposal, chain, same.prevHash]
      have hold := UnrecordedTransactionPool.hasProposal_of_kept (fun h => proposal.trans (null h)) hp
      exact hn.continues hold hup
  | finalized p same notNull chain sent proposal txs =>
    refine ⟨?_, fun hp => ?_⟩
    · rw [consensus_finalChain, chain, Blockchain.linked_concat]
      refine ⟨hn.linked, ?_⟩
      rw [← hn.continues notNull hup]
      exact same.prevHash
    · exact absurd (hp.symm.trans (UnrecordedTransactionPool.hasProposal_of_setNull proposal))
        (by decide)

theorem LinkInv.adopts {n : Node} {top : FinalBlock} {f : Effect} (hn : LinkInv o n)
    (htop : top.prevHash = n.finalChain.tipHash o)
    (h : Adopts keys context n.finalChain top n.utxPool f) : LinkInv o (n.consensus f).1 := by
  obtain ⟨hchain, -, hpool⟩ := h
  refine ⟨?_, fun hp hf => ?_⟩
  · rw [consensus_finalChain, hchain, Blockchain.linked_concat]
    exact ⟨hn.linked, htop⟩
  · rw [consensus_utxPool] at hp ⊢
    rw [consensus_failure] at hf
    rw [consensus_finalChain]
    obtain ⟨hsame, hfail | hnone⟩ | ⟨-, hmoved⟩ | hprop := hpool
    · rw [hf] at hfail
      cases hfail
    · rw [hsame, hnone] at hp
      cases hp
    · rw [hmoved, hchain, Blockchain.tipHash_concat]
      rfl
    · rw [hchain]
      exact Proposes.prevHash hprop

theorem linkInv_step {n : Node} {e : Event} (hn : LinkInv o n) (he : n.ExtendsTop keys e) :
    LinkInv o (n.step keys context e) := by
  cases @step_moves o keys context n e with
  | rested chain pool failed quiet =>
    refine ⟨by rw [chain]; exact hn.linked, fun hp hf => ?_⟩
    rw [pool] at hp
    rw [pool, chain]
    refine hn.continues hp ?_
    by_contra hc
    have h := failed (Option.isSome_iff_ne_none.mpr hc)
    rw [hf] at h
    cases h
  | announced data message chain failed pool quiet =>
    refine ⟨by rw [chain]; exact hn.linked, fun hp hf => ?_⟩
    rw [failed] at hf
    rw [chain]
    obtain hpool | hprop := pool
    · rw [hpool, UnrecordedTransactionPool.addSerial_hasProposal] at hp
      rw [hpool, UnrecordedTransactionPool.addSerial_pendingProposal]
      exact hn.continues hp hf
    · exact Proposes.prevHash hprop
  | counted data message up f effect output counts =>
    rw [effect]
    exact hn.counts up counts
  | adopted data message fields up decoded f effect output adopts =>
    rw [effect]
    exact hn.adopts (he data fields message up decoded) adopts

/-- The chain is linked in every state of a run exactly when every final block that the
node reads extends the chain it has at that moment. -/
theorem finalChain_linked_iff (keys : KeyRing o) (context : DevcashContext) (mode : AppMode)
    (maxTxPerBlock : Nat) (l : List Event) :
    Run.Always (step keys context) (fun n => n.finalChain.Linked o) (init mode maxTxPerBlock) l ↔
      Run.Each (step keys context) (ExtendsTop keys) (init mode maxTxPerBlock) l := by
  constructor
  · intro h l1 e l2 hl data fields hm hup hd
    -- The state after the message has the block on top, and is linked.
    have hlinked := h (l1 ++ [e]) (by rw [hl]; exact ⟨l2, by simp⟩)
    rw [Run.after_append, Run.after_cons, Run.after_nil] at hlinked
    obtain ⟨f, effect, adopts⟩ := handle_finalBlock hm hup hd
    rw [step, effect, consensus_finalChain, adopts.1, Blockchain.linked_concat] at hlinked
    exact hlinked.2
  · intro h n1 hn1
    exact (Run.always_of_each (fun n e => linkInv_step) (linkInv_init mode maxTxPerBlock) h n1
      hn1).linked

/-- Any bytes are pushed, as a block of zeros when they are too few. -/
theorem emptyBlock_unlinked :
    ¬ ((init .t1 10).step KeyRing.toy (DevcashContext.sample 0) ⟨0, .finalBlock []⟩).finalChain.Linked
      Ossl.toy := by
  intro h
  have hfirst := h [] (FinalBlock.ofFields BlockFields.default ChainState.empty) [] rfl
  exact absurd hfirst (by decide)

end Node
end Devcash
