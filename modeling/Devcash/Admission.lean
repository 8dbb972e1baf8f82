import Devcash.Lib.Run
import Devcash.Node
import Mathlib.Data.Set.Basic

/-! What a node lets in: a batch of transactions into its pool and a final block into its
chain. Neither refuses as it says. -/
namespace Devcash

namespace Tier2Transaction
variable {o : Ossl} {keys : KeyRing o}

theorem isSound_ok {tx : Tier2Transaction} {r : Bool} (h : tx.isSound keys = .ok r) : r = true := by
  rw [isSound] at h
  split_ifs at h
  · exact (Except.ok.inj h).symm
  · obtain ⟨oper, -, h⟩ := Result.bind_eq_ok h
    obtain ⟨xfers, -, h⟩ := Result.bind_eq_ok h
    obtain ⟨scan, -, h⟩ := Result.bind_eq_ok h
    dsimp only at h
    split_ifs at h
    obtain ⟨eckey, -, h⟩ := Result.bind_eq_ok h
    obtain ⟨msg, -, h⟩ := Result.bind_eq_ok h
    obtain ⟨sig, -, h⟩ := Result.bind_eq_ok h
    split_ifs at h
    exact (Except.ok.inj h).symm

variable (keys)

/-- Sound, under a signature that can be read. -/
def SoundAs (tx : Tier2Transaction) (sig : Signature) : Prop :=
  tx.isSound keys = .ok true ∧ tx.getSignature = .ok sig

/-- The signatures held once a transaction has had its turn. -/
def admitted (held : Set Signature) (tx : Tier2Transaction) : Set Signature :=
  held ∪ {sig | tx.SoundAs keys sig}

/-- Sound or already held. -/
def Passes (held : Set Signature) (tx : Tier2Transaction) : Prop :=
  ∃ sig, tx.getSignature = .ok sig ∧ (tx.isSound keys = .ok true ∨ sig ∈ held)

/-- What the signature and the soundness check throw is caught. -/
def Raises (tx : Tier2Transaction) : Prop :=
  ∀ e, (do let _ ← tx.getSignature; tx.isSound keys) = .error e → e.isException = true

/-- The first transaction that is neither sound nor held raises an exception, and the
sound ones behind it are held without their turn. -/
def LosesNone : Set Signature → List Tier2Transaction → Prop
  | _, [] => True
  | held, tx :: l =>
    (tx.Passes keys held → LosesNone (tx.admitted keys held) l) ∧
      (¬ tx.Passes keys held → tx.Raises keys ∧ ∀ x ∈ l, ∀ sig, x.SoundAs keys sig → sig ∈ held)

/-- The payment between the sample wallets, decoded from bytes with a wrong type byte in
front of the signature. -/
def sampleMisSigned : Tier2Transaction :=
  { samplePayment with canonical := samplePayment.canonical.take 141 ++ 74 :: List.replicate 73 0 }

end Tier2Transaction

namespace UnrecordedTransactionPool
open Tier2Transaction
variable {o : Ossl} {keys : KeyRing o}

/-- A turn in which nothing is raised adds a signature to the pool when the transaction
is sound. -/
theorem addTransaction_passes {tx : Tier2Transaction} {txs : TxMap}
    (h : tx.Passes keys {sig | sig ∈ txs.keys}) (allGood : Bool) :
    ∃ txs', addTransaction keys (.tier2 tx) allGood txs = .ok (allGood, txs') ∧
      {sig | sig ∈ txs'.keys} = tx.admitted keys {sig | sig ∈ txs.keys} := by
  obtain ⟨sig, hsig, hpass⟩ := h
  have hget : (Transaction.tier2 tx).getSignature = .ok sig := hsig
  have hadmitted (s : Signature) : s ∈ tx.admitted keys {sig | sig ∈ txs.keys} ↔
      s ∈ txs.keys ∨ (tx.isSound keys = .ok true ∧ s = sig) := by
    simp only [admitted, SoundAs, hsig, Set.mem_union, Set.mem_ofPred_eq, Except.ok.injEq]
    exact or_congr_right (and_congr_right fun _ => eq_comm)
  rw [addTransaction, hget, Result.bind_ok]
  cases hfind : txs.find? sig with
  | some old =>
    have hmem : sig ∈ txs.keys := OrdMap.mem_keys.mpr (by rw [hfind]; rfl)
    refine ⟨txs, rfl, Set.ext fun s => ?_⟩
    rw [hadmitted, Set.mem_ofPred_eq]
    constructor
    · exact Or.inl
    · intro hs
      obtain hs | ⟨-, rfl⟩ := hs
      · exact hs
      · exact hmem
  | none =>
    have hsound : tx.isSound keys = .ok true :=
      hpass.resolve_right (OrdMap.find?_eq_none.mp hfind)
    have hcall : (Transaction.tier2 tx).isSound keys = .ok true := hsound
    refine ⟨txs.insert sig (.tier2 tx), by rw [hcall]; rfl, Set.ext fun s => ?_⟩
    rw [hadmitted, Set.mem_ofPred_eq, OrdMap.mem_keys_insert, or_comm, and_iff_right hsound]

theorem addTransaction_fails {tx : Tier2Transaction} {txs : TxMap}
    (h : ¬ tx.Passes keys {sig | sig ∈ txs.keys}) (allGood : Bool) :
    ∃ e, (do let _ ← tx.getSignature; tx.isSound keys) = .error e ∧
      addTransaction keys (.tier2 tx) allGood txs = .error e := by
  cases hget : tx.getSignature with
  | error e =>
    have hcall : (Transaction.tier2 tx).getSignature = .error e := hget
    exact ⟨e, rfl, by rw [addTransaction, hcall]; rfl⟩
  | ok sig =>
    have hcall : (Transaction.tier2 tx).getSignature = .ok sig := hget
    have hnew : txs.find? sig = none := OrdMap.find?_eq_none.mpr fun hs => h ⟨sig, hget, Or.inr hs⟩
    cases hsound : tx.isSound keys with
    | error e =>
      have hcheck : (Transaction.tier2 tx).isSound keys = .error e := hsound
      refine ⟨e, rfl, ?_⟩
      rw [addTransaction, hcall, Result.bind_ok, hnew]
      simp only [hcheck, Result.bind_error]
    | ok r =>
      rw [isSound_ok hsound] at hsound
      exact absurd ⟨sig, hget, Or.inl hsound⟩ h

variable (keys)

/-- Exact admission: the pool then holds what it held and the sound transactions of the
batch, and the answer tells whether each of them was sound or held in its turn. -/
def Exact (txs : TxMap) (l : List Tier2Transaction) (after : Result Bool × TxMap) : Prop :=
  ∃ r, after.1 = .ok r ∧
    (∀ sig, sig ∈ after.2.keys ↔ sig ∈ txs.keys ∨ ∃ tx ∈ l, tx.SoundAs keys sig) ∧
    (r = true ↔ Run.Each (admitted keys) (Passes keys) {sig | sig ∈ txs.keys} l)

variable {keys}

theorem exact_stopped_iff {txs : TxMap} {tx : Tier2Transaction} (l : List Tier2Transaction)
    (h : ¬ tx.Passes keys {sig | sig ∈ txs.keys}) :
    Exact keys txs (tx :: l) (addEach keys ((tx :: l).map .tier2) true txs) ↔
      tx.Raises keys ∧ ∀ x ∈ l, ∀ sig, x.SoundAs keys sig → sig ∈ txs.keys := by
  obtain ⟨e, he, hadd⟩ := addTransaction_fails h true
  have hloop : addEach keys ((tx :: l).map .tier2) true txs = (catchFalse (.error e), txs) := by
    rw [List.map_cons, addEach, hadd]
  have hnot (sig : Signature) : ¬ tx.SoundAs keys sig := fun hs => h ⟨sig, hs.2, Or.inl hs.1⟩
  have hraise : tx.Raises keys ↔ e.isException = true := by
    rw [Raises, he]
    exact ⟨fun hr => hr e rfl, fun hr e' he' => (Except.error.inj he') ▸ hr⟩
  have heach : ¬ Run.Each (admitted keys) (Passes keys) {sig | sig ∈ txs.keys} (tx :: l) :=
    fun hl => h ((Run.each_cons tx l).mp hl).1
  rw [hloop, hraise]
  constructor
  · intro hexact
    obtain ⟨r, hr, hkeys, -⟩ := hexact
    refine ⟨?_, fun x hx sig hs => (hkeys sig).mpr (Or.inr ⟨x, List.mem_cons_of_mem tx hx, hs⟩)⟩
    by_contra hn
    rw [catchFalse, if_neg hn] at hr
    cases hr
  · intro hc
    refine ⟨false, by rw [catchFalse, if_pos hc.1], fun sig => ⟨Or.inl, fun hs => ?_⟩,
      fun hf => absurd hf (by decide), fun hl => absurd hl heach⟩
    obtain hs | ⟨x, hx, hs⟩ := hs
    · exact hs
    · obtain rfl | hx := List.mem_cons.mp hx
      · exact absurd hs (hnot sig)
      · exact hc.2 x hx sig hs

theorem exact_addEach_iff (l : List Tier2Transaction) (txs : TxMap) :
    Exact keys txs l (addEach keys (l.map .tier2) true txs) ↔
      LosesNone keys {sig | sig ∈ txs.keys} l := by
  induction l generalizing txs with
  | nil =>
    refine iff_of_true ⟨true, rfl, fun sig => ?_, iff_of_true rfl Run.each_nil⟩ trivial
    simp [addEach]
  | cons tx l ih =>
    rw [LosesNone]
    by_cases h : tx.Passes keys {sig | sig ∈ txs.keys}
    · obtain ⟨txs', hadd, hkeys⟩ := addTransaction_passes h true
      have hloop : addEach keys ((tx :: l).map .tier2) true txs =
          addEach keys (l.map .tier2) true txs' := by
        rw [List.map_cons, addEach, hadd]
      have hheld (sig : Signature) : (sig ∈ txs.keys ∨ ∃ x ∈ tx :: l, x.SoundAs keys sig) ↔
          (sig ∈ txs'.keys ∨ ∃ x ∈ l, x.SoundAs keys sig) := by
        have hs : sig ∈ txs'.keys ↔ sig ∈ tx.admitted keys {sig | sig ∈ txs.keys} := by
          rw [← hkeys]
          rfl
        rw [hs, admitted, Set.mem_union, Set.mem_ofPred_eq, Set.mem_ofPred_eq, or_assoc]
        simp only [List.mem_cons, exists_eq_or_imp]
      rw [← hkeys, ← ih txs', hloop]
      simp only [h, not_true_eq_false, false_imp_iff, and_true, true_imp_iff, Exact, hheld,
        Run.each_cons, true_and, ← hkeys]
    · rw [exact_stopped_iff l h]
      simp only [h, not_false_eq_true, true_imp_iff, false_imp_iff, true_and]
      rfl

/-- A batch is admitted exactly unless a transaction that stops the loop takes a sound one
with it or breaks the call. -/
theorem addTransactions_exact_iff (pool : UnrecordedTransactionPool) (l : List Tier2Transaction) :
    Exact keys pool.txs l ((pool.addTransactions keys (l.map .tier2)).1,
        (pool.addTransactions keys (l.map .tier2)).2.txs) ↔
      LosesNone keys {sig | sig ∈ pool.txs.keys} l :=
  exact_addEach_iff l pool.txs

/-- In front of a sound payment, a decoded transaction whose signature cannot be read keeps
it out of the pool; behind it, it does not. -/
theorem misSigned_takesSound :
    ((Tier2Transaction.quickCreate (InputBuffer.ofBytes (sampleMisSigned.canonical ++ [0]))).toOption.map
      Prod.fst = some sampleMisSigned) ∧
    ((samplePayment.demandSound KeyRing.toy).toOption = some { samplePayment with isSoundFlag := true }) ∧
    (((make ChainState.empty .t2 10).addTransactions KeyRing.toy
      [.tier2 { samplePayment with isSoundFlag := true }, .tier2 sampleMisSigned]).2.txs.size = 1) ∧
    (((make ChainState.empty .t2 10).addTransactions KeyRing.toy
      [.tier2 sampleMisSigned, .tier2 { samplePayment with isSoundFlag := true }]).2.txs.size = 0) ∧
    ¬ Exact KeyRing.toy (make ChainState.empty .t2 10).txs
      [sampleMisSigned, { samplePayment with isSoundFlag := true }]
      (addEach KeyRing.toy
        [.tier2 sampleMisSigned, .tier2 { samplePayment with isSoundFlag := true }] true
        (make ChainState.empty .t2 10).txs) := by
  have hsig : (getSignature { samplePayment with isSoundFlag := true }).toOption.isSome = true := by
    decide +kernel
  have hnone : (addEach KeyRing.toy
      [.tier2 sampleMisSigned, .tier2 { samplePayment with isSoundFlag := true }] true
      (make ChainState.empty .t2 10).txs).2.keys = [] := by
    decide +kernel
  refine ⟨by decide +kernel, by decide +kernel, by decide +kernel, by decide +kernel, ?_⟩
  intro hexact
  obtain ⟨r, -, hkeys, -⟩ := hexact
  obtain ⟨sig, hget⟩ := Result.exists_ok hsig
  have hin := (hkeys sig).mpr (Or.inr ⟨_, List.mem_cons_of_mem _ List.mem_cons_self, rfl, hget⟩)
  rw [hnone] at hin
  cases hin

end UnrecordedTransactionPool

namespace FinalBlock
open Endian Reader InputBuffer
variable {o : Ossl} (keys : KeyRing o)

/-- The constructor only returns early: nobody learns that a check failed. -/
theorem readFields_malformed (mode : AppMode) {data : Bytes} (h : Malformed data) :
    ∃ fields b, readFields keys mode (ofBytes data) = .ok (fields, b) ∧
      fields.transactionVector = [] := by
  rw [readFields]
  have hs : InputBuffer.size (ofBytes data) = data.length := rfl
  rw [hs]
  by_cases hsize : data.length < minSize
  · rw [if_pos hsize]
    exact ⟨_, _, rfl, rfl⟩
  · rw [if_neg hsize]
    have hlen : 101 ≤ data.length := not_lt.mp hsize
    cases hc : data with
    | nil =>
      rw [hc] at hlen
      cases hlen
    | cons version rest =>
      have hnext : getNextByte (ofBytes (version :: rest)) = .ok (version, ⟨version :: rest, 1⟩) := rfl
      rw [bind_of_ok hnext]
      by_cases hversion : version = 0
      · have hword : binToUint64 (version :: rest) 1 =
            .ok (leValue (((version :: rest).drop 1).take 8)) :=
          binToUint64_eq (by rw [← hc]; omega)
        have hread : getNextUint64 true ⟨version :: rest, 1⟩ =
            .ok (leValue (((version :: rest).drop 1).take 8), ⟨version :: rest, 9⟩) := by
          simp only [getNextUint64, getWord, Nat.add_zero, hword, if_true]
        have hbad : (version :: rest).length ≠ leValue (((version :: rest).drop 1).take 8) := by
          intro he
          obtain h | h | h := h
          · exact hsize h
          · exact h (by rw [hc, hversion]; rfl)
          · exact h (by rw [hc, hword, he])
        rw [if_neg (not_not.mpr hversion), bind_of_ok hread, if_pos hbad]
        exact ⟨_, _, rfl, rfl⟩
      · rw [if_pos hversion]
        exact ⟨_, _, rfl, rfl⟩

end FinalBlock

section
variable {o : Ossl} (keys : KeyRing o) (context : DevcashContext)

/-- The chain and the pool, with its proposal, are as they were. -/
def Effect.Unchanged (e : Effect) (finalChain : Blockchain) (utxPool : UnrecordedTransactionPool) :
    Prop :=
  e.finalChain = finalChain ∧ e.utxPool = utxPool

/-- In every state of the node a malformed payload extends the chain by a block without
transactions, and the proposal and the next turn follow that block. -/
theorem handleFinalBlock_malformed (finalChain : Blockchain) (utxPool : UnrecordedTransactionPool)
    {data : Bytes} (h : FinalBlock.Malformed data) :
    ¬ (handleFinalBlock keys context finalChain utxPool data).Unchanged finalChain utxPool ∧
    ∃ top : FinalBlock, top.transactionVector = [] ∧
      top.blockState = finalChain.getHighestChainState ∧
      Adopts keys context finalChain top utxPool
        (handleFinalBlock keys context finalChain utxPool data) := by
  obtain ⟨fields, b, hread, hnone⟩ := FinalBlock.readFields_malformed keys utxPool.mode h
  have hdecode : FinalBlock.decode keys utxPool.mode data = .ok fields := by
    rw [FinalBlock.decode, hread, Result.bind_ok]
  have hadopts : Adopts keys context finalChain
      (FinalBlock.ofFields fields finalChain.getHighestChainState) utxPool
      (handleFinalBlock keys context finalChain utxPool data) := handleFinalBlockWith_ok hdecode
  refine ⟨fun hsame => ?_, _, hnone, rfl, hadopts⟩
  have hlen := congrArg List.length (hadopts.1.symm.trans hsame.1)
  rw [List.length_append, List.length_singleton] at hlen
  omega

/-- A byte 1 where the version stands: the block is pushed, and the pending proposal of
the first node now names its hash. -/
theorem otherVersion_pushed :
    (FinalBlock.Malformed (1 :: List.replicate 100 0)) ∧
    (handleFinalBlock KeyRing.toy (DevcashContext.sample 0) []
      (UnrecordedTransactionPool.sampleProposed ChainState.empty [.sampleMove 1 2 5])
      (1 :: List.replicate 100 0)).finalChain.length = 1 ∧
    (handleFinalBlock KeyRing.toy (DevcashContext.sample 0) []
      (UnrecordedTransactionPool.sampleProposed ChainState.empty [.sampleMove 1 2 5])
      (1 :: List.replicate 100 0)).utxPool.pendingProposal.prevHash ≠
      (UnrecordedTransactionPool.sampleProposed ChainState.empty
        [.sampleMove 1 2 5]).pendingProposal.prevHash := by
  have hversion : byteAt (1 :: List.replicate 100 0) 0 ≠ .ok 0 := by
    intro h
    cases h
  exact ⟨Or.inr (Or.inl hversion), by decide +kernel, by decide +kernel⟩

/-- The same in the general theorem. -/
theorem handleFinalBlock_malformed_otherVersion :
    FinalBlock.Malformed (1 :: List.replicate 100 0) ∧
    ¬ (handleFinalBlock KeyRing.toy (DevcashContext.sample 0) []
      (UnrecordedTransactionPool.make ChainState.empty .t1 10)
      (1 :: List.replicate 100 0)).Unchanged []
      (UnrecordedTransactionPool.make ChainState.empty .t1 10) := by
  have h : FinalBlock.Malformed (1 :: List.replicate 100 0) := by
    refine Or.inr (Or.inl fun h => ?_)
    cases h
  exact ⟨h, (handleFinalBlock_malformed KeyRing.toy (DevcashContext.sample 0) []
    (UnrecordedTransactionPool.make ChainState.empty .t1 10) h).1⟩

end
end Devcash
