import Devcash.Lib.Run
import Devcash.Network
import Devcash.Replication

/-! How often a transaction is executed: the signatures in the chain, the pool and the
pending proposal of one node, over any series of messages. -/
namespace Devcash

/-- The signatures of the transactions that have one. -/
def signaturesOf (l : List Transaction) : List Signature :=
  l.filterMap (fun tx => tx.getSignature.toOption)

def Blockchain.signatures (chain : Blockchain) : List Signature :=
  chain.flatMap (fun b => signaturesOf b.getTransactions)

/-- Each signature is in one place of one block. -/
def Blockchain.AtMostOnce (chain : Blockchain) : Prop := chain.signatures.Nodup

instance (chain : Blockchain) : Decidable chain.AtMostOnce :=
  inferInstanceAs (Decidable (List.Nodup _))

theorem Blockchain.signatures_concat (chain : Blockchain) (b : FinalBlock) :
    signatures (chain ++ [b]) = chain.signatures ++ signaturesOf b.getTransactions := by
  rw [signatures, List.flatMap_append, List.flatMap_singleton]
  rfl

namespace UnrecordedTransactionPool
variable {o : Ossl} {keys : KeyRing o} {context : DevcashContext}

/-- The signatures of the pending proposal, if there is one. -/
def proposedSignatures (pool : UnrecordedTransactionPool) : List Signature :=
  if pool.hasProposal then signaturesOf pool.pendingProposal.transactionVector else []

theorem proposedSignatures_null {pool : UnrecordedTransactionPool}
    (h : pool.hasProposal = false) : pool.proposedSignatures = [] := by
  rw [proposedSignatures, h]
  rfl

/-- Every transaction is stored under its signature. -/
def Keyed (txs : TxMap) : Prop := ∀ e ∈ txs.entries, e.2.getSignature = .ok e.1

theorem signaturesOf_pending {pool : UnrecordedTransactionPool} (h : Keyed pool.txs) :
    signaturesOf pool.pending = pool.txs.keys := by
  rw [signaturesOf, pending, OrdMap.keys, List.filterMap_map, ← List.filterMap_eq_map]
  apply List.filterMap_congr
  intro e he
  simp [h e he, Except.toOption]

theorem mem_addEach {l : List Transaction} {allGood : Bool} {txs : TxMap}
    {e : Signature × Transaction} (h : e ∈ (addEach keys l allGood txs).2.entries) :
    e ∈ txs.entries ∨ e.2 ∈ l ∧ e.2.getSignature = .ok e.1 := by
  induction l generalizing allGood txs with
  | nil => exact Or.inl h
  | cons tx l ih =>
    rw [addEach] at h
    split at h
    · exact Or.inl h
    · rename_i allGood' txs' hadd
      obtain hmem | ⟨hmem, hsig⟩ := ih h
      · obtain ⟨sig, hsig, hadd⟩ := Result.bind_eq_ok hadd
        split at hadd
        · cases hadd
          exact Or.inl hmem
        · obtain ⟨sound, -, hadd⟩ := Result.bind_eq_ok hadd
          split_ifs at hadd
          · cases hadd
            obtain rfl | hold := OrdMap.mem_insert hmem
            · exact Or.inr ⟨List.mem_cons_self, hsig⟩
            · exact Or.inl hold
          · cases hadd
            exact Or.inl hmem
      · exact Or.inr ⟨List.mem_cons_of_mem tx hmem, hsig⟩

theorem mem_addSerial {pool : UnrecordedTransactionPool} {serial : Bytes}
    {e : Signature × Transaction} (h : e ∈ (pool.addSerial keys serial).2.txs.entries) :
    e ∈ pool.txs.entries ∨ ∃ l, decodeAnnouncement keys pool.mode serial = .ok l ∧ e.2 ∈ l ∧
      e.2.getSignature = .ok e.1 := by
  rw [addSerial] at h
  split at h
  · exact Or.inl h
  · rename_i l hl
    obtain hold | hnew := mem_addEach h
    · exact Or.inl hold
    · exact Or.inr ⟨l, hl, hnew⟩

theorem mem_removeTransactions {l : List Transaction} {txs : TxMap}
    {e : Signature × Transaction} (h : e ∈ (removeTransactions l txs).2.entries) :
    e ∈ txs.entries := by
  induction l generalizing txs with
  | nil => exact h
  | cons tx l ih =>
    rw [removeTransactions] at h
    split at h
    · exact h
    · exact (List.mem_filter.mp (ih h)).1

theorem collectFrom_sublist {prior : ChainState} {max numTxs : Nat} {l valid : List Transaction}
    {b b' : Books} (h : collectFrom keys prior max l numTxs b = .ok (valid, b')) : valid.Sublist l := by
  induction l generalizing numTxs b valid with
  | nil =>
    cases h
    exact List.Sublist.refl []
  | cons tx l ih =>
    obtain ⟨-, ⟨-, hr⟩ | ⟨-, valid', b'', hr, hc⟩⟩ | ⟨-, hc⟩ := collectFrom_cons h
    · cases hr
      exact (List.nil_sublist l).cons_cons tx
    · cases hr
      exact (ih hc).cons_cons tx
    · exact (ih hc).cons tx

theorem signaturesOf_proposal {pool pool' : UnrecordedTransactionPool} {prevHash : Hash}
    {prior : ChainState} (hk : Keyed pool.txs)
    (h : pool.proposeBlock keys context prevHash prior = .ok pool') :
    (signaturesOf pool'.pendingProposal.transactionVector).Nodup ∧
      ∀ sig ∈ signaturesOf pool'.pendingProposal.transactionVector, sig ∈ pool.txs.keys := by
  obtain ⟨-, b, hc, -⟩ := newProposal_ok (proposeBlock_ok h).1
  have hsub : (signaturesOf pool'.pendingProposal.transactionVector).Sublist pool.txs.keys := by
    rw [← signaturesOf_pending hk]
    exact (collectFrom_sublist hc).filterMap _
  exact ⟨pool.txs.nodup_keys.sublist hsub, fun sig hs => hsub.subset hs⟩

end UnrecordedTransactionPool
namespace Node
variable {o : Ossl} {keys : KeyRing o} {context : DevcashContext}

/-- A message that makes a node propose finds no transaction of the chain in the pool,
and brings none. -/
def FreshAnnouncement (keys : KeyRing o) (context : DevcashContext) (n : Node) (data : Bytes) :
    Prop :=
  myTurn context n.finalChain = true → n.utxPool.hasProposal = false →
    (∀ sig ∈ n.utxPool.txs.keys, sig ∉ n.finalChain.signatures) ∧
      ∀ l, UnrecordedTransactionPool.decodeAnnouncement keys n.utxPool.mode data = .ok l →
        ∀ sig ∈ signaturesOf l, sig ∉ n.finalChain.signatures

/-- A block that is received has new signatures, and the proposal that it makes the node
propose will have new ones. -/
structure FreshBlock (context : DevcashContext) (n : Node) (fields : BlockFields) : Prop where
  distinct : (signaturesOf fields.transactionVector).Nodup
  fresh : ∀ sig ∈ signaturesOf fields.transactionVector, sig ∉ n.finalChain.signatures
  unproposed : ∀ sig ∈ signaturesOf fields.transactionVector, sig ∉ n.utxPool.proposedSignatures
  pool : myTurn context (n.finalChain ++
      [FinalBlock.ofFields fields n.finalChain.getHighestChainState]) = true →
    n.utxPool.hasProposal = false → ∀ sig ∈ n.utxPool.txs.keys,
      sig ∉ n.finalChain.signatures ∧ sig ∉ signaturesOf fields.transactionVector

/-- The condition on one message and the state before it. -/
def NoReplay (keys : KeyRing o) (context : DevcashContext) (n : Node) (e : Event) : Prop :=
  match e.message with
  | .transactionAnnouncement data => n.FreshAnnouncement keys context data
  | .finalBlock data => n.consensusFailure = none → ∀ fields,
      FinalBlock.decode keys n.utxPool.mode data = .ok fields → n.FreshBlock context fields
  | _ => True

instance (n : Node) (data : Bytes) : Decidable (n.FreshAnnouncement keys context data) :=
  inferInstanceAs (Decidable (_ → _ → _ ∧ _))

instance (n : Node) (fields : BlockFields) : Decidable (n.FreshBlock context fields) :=
  decidable_of_iff (_ ∧ _ ∧ _ ∧ _)
    ⟨fun h => ⟨h.1, h.2.1, h.2.2.1, h.2.2.2⟩, fun h => ⟨h.distinct, h.fresh, h.unproposed, h.pool⟩⟩

instance (n : Node) (e : Event) : Decidable (n.NoReplay keys context e) :=
  match e with
  | ⟨_, .transactionAnnouncement data⟩ =>
    inferInstanceAs (Decidable (n.FreshAnnouncement keys context data))
  | ⟨_, .finalBlock _⟩ => inferInstanceAs (Decidable (_ → ∀ _, _ → _))
  | ⟨_, .proposalBlock _⟩ => isTrue trivial
  | ⟨_, .valid _⟩ => isTrue trivial

/-- The chain and the pending proposal together have no signature twice. -/
structure OnceInv (n : Node) : Prop where
  keyed : UnrecordedTransactionPool.Keyed n.utxPool.txs
  once : (n.finalChain.signatures ++ n.utxPool.proposedSignatures).Nodup

theorem OnceInv.atMostOnce {n : Node} (h : OnceInv n) : n.finalChain.AtMostOnce :=
  (List.nodup_append.mp h.once).1

theorem onceInv_init (mode : AppMode) (maxTxPerBlock : Nat) : OnceInv (init mode maxTxPerBlock) :=
  ⟨fun _ he => absurd he List.not_mem_nil, List.nodup_nil⟩

theorem OnceInv.proposes {n : Node} {chain : Blockchain} {pool : UnrecordedTransactionPool}
    (hk : UnrecordedTransactionPool.Keyed pool.txs) (hchain : chain.AtMostOnce)
    (hfresh : ∀ sig ∈ pool.txs.keys, sig ∉ chain.signatures) (hn : n.finalChain = chain)
    (h : Proposes keys context chain pool n.utxPool) : OnceInv n := by
  obtain ⟨hnodup, hmem⟩ := UnrecordedTransactionPool.signaturesOf_proposal hk h.2.2.2
  have htxs : n.utxPool.txs = pool.txs := by
    rw [(UnrecordedTransactionPool.proposeBlock_ok h.2.2.2).2]
  refine ⟨by rw [htxs]; exact hk, ?_⟩
  rw [hn, UnrecordedTransactionPool.proposedSignatures]
  split_ifs
  · refine List.nodup_append.mpr ⟨hchain, hnodup, ?_⟩
    rintro sig hs sig' hs' rfl
    exact hfresh sig (hmem sig hs') hs
  · rw [List.append_nil]
    exact hchain

theorem onceInv_announced {n n' : Node} {data : Bytes} (hn : OnceInv n)
    (hd : n.FreshAnnouncement keys context data) (hchain : n'.finalChain = n.finalChain)
    (hpool : n'.utxPool = (n.utxPool.addSerial keys data).2 ∨
      Proposes keys context n.finalChain (n.utxPool.addSerial keys data).2 n'.utxPool) :
    OnceInv n' := by
  have hk : UnrecordedTransactionPool.Keyed (n.utxPool.addSerial keys data).2.txs := by
    intro e he
    obtain hold | ⟨l, -, -, hsig⟩ := UnrecordedTransactionPool.mem_addSerial he
    · exact hn.keyed e hold
    · exact hsig
  obtain hadd | hprop := hpool
  · refine ⟨by rw [hadd]; exact hk, ?_⟩
    have hsame : n'.utxPool.proposedSignatures = n.utxPool.proposedSignatures := by
      simp only [UnrecordedTransactionPool.proposedSignatures, hadd, UnrecordedTransactionPool.addSerial_hasProposal,
        UnrecordedTransactionPool.addSerial_pendingProposal]
    rw [hchain, hsame]
    exact hn.once
  · have hnone : n.utxPool.hasProposal = false := by
      rw [← @UnrecordedTransactionPool.addSerial_hasProposal o keys]
      exact hprop.2.1
    obtain ⟨hpool, hann⟩ := hd hprop.1 hnone
    refine OnceInv.proposes hk hn.atMostOnce ?_ hchain hprop
    intro sig hs
    obtain ⟨e, he, rfl⟩ := List.mem_map.mp hs
    obtain hold | ⟨l, hl, hmem, hsig⟩ := UnrecordedTransactionPool.mem_addSerial he
    · exact hpool e.1 (List.mem_map_of_mem hold)
    · refine hann l hl e.1 (List.mem_filterMap.mpr ⟨e.2, hmem, ?_⟩)
      rw [hsig]
      rfl

theorem onceInv_counts {n : Node} {now : Nat} {f : Effect} (hn : OnceInv n)
    (h : Counts o now n.finalChain n.utxPool f) : OnceInv (n.consensus f).1 := by
  have hk : ∀ l, UnrecordedTransactionPool.Keyed
      (UnrecordedTransactionPool.removeTransactions l n.utxPool.txs).2 :=
    fun l e he => hn.keyed e (UnrecordedTransactionPool.mem_removeTransactions he)
  cases h with
  | counted p same null chain sent proposal txs =>
    constructor
    · rw [consensus_utxPool]
      obtain htxs | ⟨-, htxs⟩ := txs
      · rw [htxs]
        exact hn.keyed
      · rw [htxs]
        exact hk _
    · rw [consensus_finalChain, consensus_utxPool, chain,
        UnrecordedTransactionPool.proposedSignatures]
      split_ifs with hp
      · have hold := UnrecordedTransactionPool.hasProposal_of_kept
          (fun h => proposal.trans (null h)) hp
        rw [proposal, same.transactionVector]
        have honce := hn.once
        rw [UnrecordedTransactionPool.proposedSignatures, if_pos hold] at honce
        exact honce
      · rw [List.append_nil]
        exact hn.atMostOnce
  | finalized p same notNull chain sent proposal txs =>
    constructor
    · rw [consensus_utxPool, txs]
      exact hk _
    · have hnull := UnrecordedTransactionPool.hasProposal_of_setNull proposal
      have hold := hn.once
      rw [UnrecordedTransactionPool.proposedSignatures, if_pos notNull, ← same.transactionVector] at hold
      rw [consensus_finalChain, consensus_utxPool,
        UnrecordedTransactionPool.proposedSignatures_null hnull, List.append_nil, chain,
        Blockchain.signatures_concat]
      exact hold

theorem onceInv_adopts {n : Node} {fields : BlockFields} {f : Effect} (hn : OnceInv n)
    (hd : n.FreshBlock context fields)
    (h : Adopts keys context n.finalChain
      (FinalBlock.ofFields fields n.finalChain.getHighestChainState) n.utxPool f) :
    OnceInv (n.consensus f).1 := by
  obtain ⟨hchain, -, hpool⟩ := h
  have hsig : f.finalChain.signatures =
      n.finalChain.signatures ++ signaturesOf fields.transactionVector := by
    rw [hchain, Blockchain.signatures_concat]
    rfl
  have honce : (f.finalChain.signatures ++ n.utxPool.proposedSignatures).Nodup := by
    obtain ⟨h1, h2, h3⟩ := List.nodup_append.mp hn.once
    rw [hsig]
    refine List.nodup_append.mpr ⟨List.nodup_append.mpr ⟨h1, hd.distinct, ?_⟩, h2, ?_⟩
    · rintro sig hs sig' hs' rfl
      exact hd.fresh sig hs' hs
    · rintro sig hs sig' hs' rfl
      cases List.mem_append.mp hs with
      | inl hs => exact h3 sig hs sig hs' rfl
      | inr hs => exact hd.unproposed sig hs hs'
  have hkept (htxs : f.utxPool.txs = n.utxPool.txs)
      (hsame : f.utxPool.proposedSignatures = n.utxPool.proposedSignatures) :
      OnceInv (n.consensus f).1 := by
    refine ⟨?_, ?_⟩
    · rw [consensus_utxPool, htxs]
      exact hn.keyed
    · rw [consensus_finalChain, consensus_utxPool, hsame]
      exact honce
  obtain ⟨hsame, -⟩ | ⟨-, hmoved⟩ | hprop := hpool
  · exact hkept (by rw [hsame]) (by rw [hsame])
  · exact hkept (by rw [hmoved]; rfl) (by rw [hmoved]; rfl)
  · refine OnceInv.proposes hn.keyed ?_ ?_ hchain hprop
    · rw [← hchain]
      exact (List.nodup_append.mp honce).1
    · intro sig hs hmem
      rw [← hchain, hsig] at hmem
      obtain ⟨h1, h2⟩ := hd.pool hprop.1 hprop.2.1 sig hs
      cases List.mem_append.mp hmem with
      | inl hm => exact h1 hm
      | inr hm => exact h2 hm

theorem onceInv_step {n : Node} {e : Event} (hn : OnceInv n) (he : n.NoReplay keys context e) :
    OnceInv (n.step keys context e) := by
  rw [NoReplay] at he
  cases @step_moves o keys context n e with
  | rested chain pool failed quiet =>
    exact ⟨by rw [pool]; exact hn.keyed, by rw [chain, pool]; exact hn.once⟩
  | announced data message chain failed pool quiet =>
    rw [message] at he
    exact onceInv_announced hn he chain pool
  | counted data message up f effect output counts =>
    rw [effect]
    exact onceInv_counts hn counts
  | adopted data message fields up decoded f effect output adopts =>
    rw [message] at he
    rw [effect]
    exact onceInv_adopts hn (he up fields decoded) adopts

/-- No transaction is executed twice in a run in which no message replays one. -/
theorem finalChain_atMostOnce {mode : AppMode} {maxTxPerBlock : Nat} {l : List Event}
    (h : Run.Each (step keys context) (NoReplay keys context) (init mode maxTxPerBlock) l) :
    Run.Always (step keys context) (fun n => n.finalChain.AtMostOnce) (init mode maxTxPerBlock)
      l := by
  have hinv : Run.Always (step keys context) OnceInv (init mode maxTxPerBlock) l :=
    Run.always_of_each (fun n e => onceInv_step) (onceInv_init mode maxTxPerBlock) h
  intro l1 hl1
  exact (hinv l1 hl1).atMostOnce

/-- The second node gets the block of the first one and then a new transaction. -/
def sampleMessages : List Event :=
  [⟨0, .finalBlock (sampleTop (sampleProposer [] [.sampleMove 1 2 5])).getCanonical⟩,
    ⟨0, .transactionAnnouncement (Tier1Transaction.sampleMove 3 4 7).getCanonical⟩]

theorem finalChain_atMostOnce_sampleMessages :
    (Run.after (step KeyRing.toy (DevcashContext.sample 1)) (init .t1 10)
        sampleMessages).finalChain.signatures.length = 1 ∧
      (Run.after (step KeyRing.toy (DevcashContext.sample 1)) (init .t1 10)
        sampleMessages).finalChain.AtMostOnce := by
  have hrun : Run.Each (step KeyRing.toy (DevcashContext.sample 1))
        (NoReplay KeyRing.toy (DevcashContext.sample 1)) (init .t1 10) sampleMessages ∧
      (Run.after (step KeyRing.toy (DevcashContext.sample 1)) (init .t1 10)
        sampleMessages).finalChain.signatures.length = 1 := by decide +kernel
  exact ⟨hrun.2, finalChain_atMostOnce hrun.1 sampleMessages (List.prefix_refl _)⟩

end Node
namespace Network

/-- A block that is received leaves its transactions in the pool, and the second node
executes one of them twice although every message arrives once and in order. -/
theorem reproposingRound_executes_twice : Action.InOrder reproposingRound ∧
    ¬((Run.after (step Shard.toy) (init .t1 10) reproposingRound).nodes 1).finalChain.AtMostOnce := by
  decide +kernel

end Network
end Devcash
