import Devcash.Lib.Run
import Devcash.Locking
import Devcash.Node

/-! Two notions of an empty proposal. `isNull` looks at the size field, which `setNull` resets;
`isNullProposal` looks at all bytes of the encoding, and `setNull` leaves the others. -/
namespace Devcash

namespace ProposedBlock
variable {o : Ossl} {keys : KeyRing o} {context : DevcashContext} {p q : ProposedBlock}

theorem isNullProposal_iff {vec : Bytes} : isNullProposal vec = true ↔ ∀ b ∈ vec, b = 0 := by
  rw [isNullProposal, beq_iff_eq, List.eq_replicate_iff]
  exact and_iff_right rfl

theorem isNullProposal_ofPrior (prior : ChainState) :
    isNullProposal (ofPrior prior).getCanonical = true := by
  have hcanonical : (ofPrior prior).getCanonical = (ofPrior ChainState.empty).getCanonical := rfl
  rw [hcanonical]
  decide

/-- Among the votes is one of a node. -/
def Signed (p : ProposedBlock) : Prop := ∃ vote ∈ p.vals.sigs.entries, vote.2.IsNode

/-- A vote is not encoded with zeros only: there is its type byte. -/
theorem Signed.isNullProposal_eq_false (h : p.Signed) : isNullProposal p.getCanonical = false := by
  obtain ⟨vote, hmem, -, htype⟩ := h
  rw [Bool.eq_false_iff, ne_eq, isNullProposal_iff]
  intro hzero
  have hvals : (UInt8.ofNat kNodeSigSize) ∈ p.vals.getCanonical :=
    List.mem_flatMap.mpr ⟨vote, hmem, List.mem_append_right _ (List.mem_of_head? htype)⟩
  exact absurd (hzero _ (List.mem_append_right _ hvals)) (by decide)

/-- Both notions say the same of a proposal. -/
def Agrees (p : ProposedBlock) : Prop := isNullProposal p.getCanonical = true ↔ p.isNull = true

instance (p : ProposedBlock) : Decidable p.Agrees := inferInstanceAs (Decidable (_ ↔ _))

/-- The sizes of the parts, added up in 64 bits, come to less than the size of a header. -/
def Wraps (p : ProposedBlock) : Prop := bytesFor p.txSize p.sumSize p.valCount < minSize

instance (p : ProposedBlock) : Decidable p.Wraps := inferInstanceAs (Decidable (_ < _))

/-- A proposal that was made, and has not been finalized. -/
structure Standing (p : ProposedBlock) : Prop where
  signed : p.Signed
  size : p.numBytes = bytesFor p.txSize p.sumSize p.valCount

theorem Standing.isNull_iff (h : p.Standing) : p.isNull = true ↔ p.Wraps := by
  rw [isNull, decide_eq_true_eq, h.size, Wraps]

theorem Standing.agrees_iff (h : p.Standing) : p.Agrees ↔ ¬ p.Wraps := by
  rw [Agrees, h.signed.isNullProposal_eq_false, h.isNull_iff]
  exact ⟨fun hiff hwraps => Bool.false_ne_true (hiff.mpr hwraps),
    fun hfits => ⟨fun hfalse => absurd hfalse Bool.false_ne_true, fun hwraps => absurd hwraps hfits⟩⟩

theorem Signed.not_agrees_setNull (h : p.Signed) : ¬ p.setNull.Agrees := by
  have hsigned : p.setNull.Signed := h
  rw [Agrees, hsigned.isNullProposal_eq_false]
  exact fun hiff => Bool.false_ne_true (hiff.mpr rfl)

/-- The first proposal of a pool, or one that stands and whose size is right. -/
inductive Live (p : ProposedBlock) : Prop
  | blank (prior : ChainState) (eq : p = ofPrior prior)
  | standing (made : p.Standing) (fits : ¬ p.Wraps)

theorem Live.agrees (h : p.Live) : p.Agrees := by
  cases h with
  | blank prior heq =>
    rw [heq]
    exact iff_of_true (isNullProposal_ofPrior prior) rfl
  | standing made fits => exact made.agrees_iff.mpr fits

theorem Live.not_wraps (h : p.Live) : ¬ p.Wraps := by
  cases h with
  | blank prior heq =>
    rw [heq]
    exact (by decide : ¬ bytesFor 0 0 0 < minSize)
  | standing _ fits => exact fits

theorem Live.standing_of_not_isNull (h : p.Live) (hnull : p.isNull = false) : p.Standing := by
  cases h with
  | blank prior heq =>
    rw [heq] at hnull
    cases hnull
  | standing made _ => exact made

theorem standing_of_signBlock (hempty : p.vals = Validation.empty)
    (h : p.signBlock keys context = .ok q) : q.Standing := by
  obtain ⟨nodeAddr, -, h⟩ := Result.bind_eq_ok h
  obtain ⟨eckey, -, h⟩ := Result.bind_eq_ok h
  obtain ⟨nodeSig, hsig, h⟩ := Result.bind_eq_ok h
  obtain ⟨vals, hvals, h⟩ := Result.bind_eq_ok h
  cases h
  rw [hempty, Validation.addValidation] at hvals
  split_ifs at hvals with haddr hsize
  cases hvals
  refine ⟨⟨(nodeAddr, nodeSig), List.mem_singleton_self _, ?_⟩, rfl⟩
  cases o.signBinary_size hsig with
  | inl hwallet => exact absurd hwallet.1 (by rw [← Signature.size, not_not.mp hsize]; decide)
  | inr hnode => exact hnode

/-- What a call can do to a proposal, other than to finalize it. -/
inductive Change (p : ProposedBlock) : ProposedBlock → Prop
  | kept : Change p p
  | moved (has : p.isNull = false) (prevHash : Hash) : Change p (p.setPrevHash prevHash)
  | counted (has : p.isNull = false) (votes : Validation) :
      Change p (p.setVals (p.vals.addAll votes))
  | proposed {q : ProposedBlock} (made : q.Standing) : Change p q

theorem Change.eq_or_standing (h : p.Change q) (hlive : p.Live) : q = p ∨ q.Standing := by
  cases h with
  | kept => exact Or.inl rfl
  | moved has prevHash =>
    have hmade := hlive.standing_of_not_isNull has
    exact Or.inr ⟨hmade.signed, hmade.size⟩
  | counted has votes =>
    obtain ⟨vote, hmem, hnode⟩ := (hlive.standing_of_not_isNull has).signed
    refine Or.inr ⟨⟨vote, ?_, hnode⟩, rfl⟩
    -- the first vote of a node is kept
    apply OrdMap.find?_eq_some.mp
    change (p.vals.sigs.insertAll votes.sigs.entries).find? vote.1 = some vote.2
    rw [OrdMap.find?_insertAll, OrdMap.find?_eq_some.mpr hmem]
    rfl
  | proposed made => exact Or.inr made

theorem Change.agrees_iff (h : p.Change q) (hlive : p.Live) : q.Agrees ↔ ¬ q.Wraps := by
  cases h.eq_or_standing hlive with
  | inl heq =>
    rw [heq]
    exact iff_of_true hlive.agrees hlive.not_wraps
  | inr made => exact made.agrees_iff

theorem Change.live (h : p.Change q) (hlive : p.Live) (hfits : ¬ q.Wraps) : q.Live := by
  cases h.eq_or_standing hlive with
  | inl heq =>
    rw [heq]
    exact hlive
  | inr made => exact .standing made hfits

end ProposedBlock

namespace UnrecordedTransactionPool
variable {o : Ossl} {keys : KeyRing o} {context : DevcashContext} {prevHash : Hash}
  {prior : ChainState} {pool pool' : UnrecordedTransactionPool}

theorem standing_of_proposeBlock (h : pool.proposeBlock keys context prevHash prior = .ok pool') :
    pool'.pendingProposal.Standing := by
  obtain ⟨r, -, hsign⟩ := Result.bind_eq_ok (proposeBlock_ok h).1
  exact ProposedBlock.standing_of_signBlock rfl hsign

theorem change_of_reverifyProposal
    (h : pool.reverifyProposal keys context prevHash prior = .ok pool') :
    pool.pendingProposal.Change pool'.pendingProposal := by
  cases hnull : pool.pendingProposal.isNull with
  | true =>
    rw [reverifyProposal, if_pos hnull] at h
    cases h
    exact .kept
  | false =>
    have hhas : pool.hasProposal = true := by
      rw [hasProposal, hnull]
      rfl
    rw [reverifyProposal_ok hhas h]
    exact .moved hnull prevHash

theorem change_of_checkValidation {data : Bytes} {r : Bool × UnrecordedTransactionPool}
    (h : pool.checkValidation context data = .ok r) :
    pool.pendingProposal.Change r.2.pendingProposal := by
  rw [checkValidation] at h
  split_ifs at h with hnull
  · cases h
    exact .kept
  · obtain ⟨⟨enough, p⟩, hp, h⟩ := Result.bind_eq_ok h
    cases h
    obtain ⟨rfl, -⟩ | ⟨v, -, rfl, -⟩ := ProposedBlock.checkValidationData_ok hp
    · exact .kept
    · exact .counted (Bool.eq_false_iff.mpr hnull) v

end UnrecordedTransactionPool

namespace PoolCall
variable {o : Ossl} {pool : UnrecordedTransactionPool}
open UnrecordedTransactionPool

/-- The call makes a final block of the proposal. -/
def finalizes (pool : UnrecordedTransactionPool) : PoolCall o → Bool
  | .finalizeLocalBlock now => (pool.finalizeLocalBlock o now).1.toOption.isSome
  | _ => false

theorem pendingProposal_finalizeLocalBlock (now : Nat) :
    (pool.finalizeLocalBlock o now).2.pendingProposal =
      if (pool.finalizeLocalBlock o now).1.toOption.isSome = true then pool.pendingProposal.setNull
      else pool.pendingProposal := by
  rw [UnrecordedTransactionPool.finalizeLocalBlock]
  split
  · rfl
  · rfl

theorem pendingProposal_of_finalizes {c : PoolCall o} (h : c.finalizes pool = true) :
    (c.after pool).pendingProposal = pool.pendingProposal.setNull := by
  cases c with
  | finalizeLocalBlock now => exact (pendingProposal_finalizeLocalBlock now).trans (if_pos h)
  | _ => exact absurd h Bool.false_ne_true

theorem change_of_not_finalizes {c : PoolCall o} (h : ¬ c.finalizes pool = true) :
    pool.pendingProposal.Change (c.after pool).pendingProposal := by
  cases c with
  | addSerial keys serial =>
    rw [after, addSerial_pendingProposal]
    exact .kept
  | proposeBlock keys context prevHash prior =>
    rw [after]
    cases hp : pool.proposeBlock keys context prevHash prior with
    | error e => exact .kept
    | ok pool' => exact .proposed (standing_of_proposeBlock hp)
  | reverifyProposal keys context prevHash prior =>
    rw [after]
    cases hr : pool.reverifyProposal keys context prevHash prior with
    | error e => exact .kept
    | ok pool' => exact change_of_reverifyProposal hr
  | checkValidation context data =>
    rw [after]
    cases hc : pool.checkValidation context data with
    | error e => exact .kept
    | ok r => exact change_of_checkValidation hc
  | finalizeLocalBlock now =>
    have hkept := (@pendingProposal_finalizeLocalBlock o pool now).trans (if_neg h)
    change pool.pendingProposal.Change (pool.finalizeLocalBlock o now).2.pendingProposal
    rw [hkept]
    exact .kept
  | _ => exact .kept

/-- The sizes of the proposal do not wrap around, and nothing is finalized that was proposed. -/
def Keeps (pool : UnrecordedTransactionPool) (c : PoolCall o) : Prop :=
  ¬ (c.after pool).pendingProposal.Wraps ∧ (c.finalizes pool = true → pool.hasProposal = false)

instance (pool : UnrecordedTransactionPool) (c : PoolCall o) : Decidable (c.Keeps pool) :=
  inferInstanceAs (Decidable (_ ∧ _))

theorem agrees_after_iff (c : PoolCall o) (hlive : pool.pendingProposal.Live) :
    (c.after pool).pendingProposal.Agrees ↔ c.Keeps pool := by
  rw [Keeps]
  by_cases hf : c.finalizes pool = true
  · have hafter := pendingProposal_of_finalizes hf
    have hfits : ¬ (c.after pool).pendingProposal.Wraps := by
      rw [hafter]
      exact hlive.not_wraps
    rw [and_iff_right hfits, forall_prop_of_true hf, hafter]
    cases hlive with
    | blank prior heq =>
      rw [UnrecordedTransactionPool.hasProposal, heq]
      exact iff_of_true (ProposedBlock.Live.blank prior rfl).agrees rfl
    | standing made fits =>
      rw [UnrecordedTransactionPool.hasProposal, Bool.not_eq_false', made.isNull_iff]
      exact iff_of_false made.signed.not_agrees_setNull fits
  · rw [forall_prop_of_false hf, and_true]
    exact (change_of_not_finalizes hf).agrees_iff hlive

theorem live_after (c : PoolCall o) (hlive : pool.pendingProposal.Live) (h : c.Keeps pool) :
    (c.after pool).pendingProposal.Live := by
  by_cases hf : c.finalizes pool = true
  · have hhas := h.2 hf
    rw [pendingProposal_of_finalizes hf]
    rw [UnrecordedTransactionPool.hasProposal, Bool.not_eq_false'] at hhas
    cases hlive with
    | blank prior heq => exact .blank prior (by rw [heq]; rfl)
    | standing made fits => exact absurd (made.isNull_iff.mp hhas) fits
  · exact (change_of_not_finalizes hf).live hlive h.1

end PoolCall

/-- A message that hands out a proposal hands out the one that the pool has. -/
def Effect.BroadcastsOwn (e : Effect) : Prop :=
  ∀ proposal, .proposalBlock proposal ∈ e.sent →
    e.utxPool.hasProposal = true ∧ proposal = e.utxPool.getProposal

section
variable {o : Ossl} {keys : KeyRing o} {context : DevcashContext} {finalChain : Blockchain}
  {pool : UnrecordedTransactionPool}

theorem Effect.broadcastsOwn_nil (finalChain : Blockchain) (pool : UnrecordedTransactionPool)
    (failure : Option Error) : Effect.BroadcastsOwn ⟨finalChain, pool, [], failure⟩ :=
  fun _ h => absurd h List.not_mem_nil

theorem proposeInTurn_sent {proposal : Bytes}
    (h : .proposalBlock proposal ∈ (proposeInTurn keys context finalChain pool).sent) :
    proposal = (proposeInTurn keys context finalChain pool).utxPool.getProposal ∧
      ProposedBlock.isNullProposal proposal = false := by
  rw [proposeInTurn] at h ⊢
  split_ifs at h ⊢ with hturn
  · cases hc : createNextProposal keys context finalChain pool with
    | error e =>
      simp only [hc] at h
      exact absurd h List.not_mem_nil
    | ok r =>
      obtain ⟨pool', -, hr⟩ := Result.bind_eq_ok hc
      simp only [hc] at h ⊢
      obtain rfl : (pool'.getProposal, pool') = r := Except.ok.inj hr
      cases hnull : ProposedBlock.isNullProposal pool'.getProposal with
      | true =>
        rw [if_pos hnull] at h
        exact absurd h List.not_mem_nil
      | false =>
        rw [hnull, if_neg Bool.false_ne_true, List.mem_singleton] at h
        rw [Message.proposalBlock.inj h]
        exact ⟨rfl, hnull⟩
  · exact absurd h List.not_mem_nil

theorem broadcastsOwn_proposeInTurn (hlive : pool.pendingProposal.Live)
    (hfits : ¬ (proposeInTurn keys context finalChain pool).utxPool.pendingProposal.Wraps) :
    (proposeInTurn keys context finalChain pool).BroadcastsOwn := by
  intro proposal hsent
  obtain ⟨hproposal, hnull⟩ := proposeInTurn_sent hsent
  have hagrees : (proposeInTurn keys context finalChain pool).utxPool.pendingProposal.Agrees := by
    obtain ⟨-, -, heq | ⟨-, -, hp⟩⟩ := proposeInTurn_cases keys context finalChain pool
    · rw [heq]
      exact hlive.agrees
    · exact (UnrecordedTransactionPool.standing_of_proposeBlock hp.2).agrees_iff.mpr hfits
  refine ⟨?_, hproposal⟩
  rw [UnrecordedTransactionPool.hasProposal, Bool.not_eq_true', Bool.eq_false_iff]
  intro hempty
  rw [hproposal] at hnull
  exact Bool.eq_false_iff.mp hnull (hagrees.mpr hempty)

theorem broadcastsOwn_validatorCallback (hlive : pool.pendingProposal.Live) (held : Bool)
    (data : Bytes) (hfits : ¬ (validatorCallback keys context held finalChain pool
      data).utxPool.pendingProposal.Wraps) :
    (validatorCallback keys context held finalChain pool data).BroadcastsOwn := by
  rw [validatorCallback] at hfits ⊢
  have hsame := @UnrecordedTransactionPool.addSerial_pendingProposal o keys pool data
  cases hadd : pool.addSerial keys data with
  | mk added pool' =>
    rw [hadd] at hsame
    simp only [hadd] at hfits ⊢
    cases added with
    | error e => exact Effect.broadcastsOwn_nil _ _ _
    | ok _ =>
      simp only at hfits ⊢
      split_ifs at hfits ⊢
      · exact Effect.broadcastsOwn_nil _ _ _
      · exact broadcastsOwn_proposeInTurn (hsame ▸ hlive) hfits

theorem broadcastsOwn_handleFinalBlock (hlive : pool.pendingProposal.Live) (data : Bytes)
    (hfits : ¬ (handleFinalBlock keys context finalChain pool data).utxPool.pendingProposal.Wraps) :
    (handleFinalBlock keys context finalChain pool data).BroadcastsOwn := by
  rw [handleFinalBlock, handleFinalBlockWith] at hfits ⊢
  cases hread : FinalBlock.decode keys pool.mode data with
  | error e => exact Effect.broadcastsOwn_nil _ _ _
  | ok fields =>
    simp only [hread] at hfits ⊢
    cases hre : afterPush keys context
        (FinalBlock.ofFields fields finalChain.getHighestChainState) pool with
    | error e => exact Effect.broadcastsOwn_nil _ _ _
    | ok pool' =>
      simp only [hre] at hfits ⊢
      have hlive' : pool'.pendingProposal.Live := by
        obtain ⟨-, rfl⟩ | ⟨hhas, rfl⟩ := afterPush_ok hre
        · exact hlive
        · rw [UnrecordedTransactionPool.hasProposal, Bool.not_eq_true'] at hhas
          exact (ProposedBlock.Change.moved hhas _).live hlive hlive.not_wraps
      split_ifs at hfits ⊢
      · exact broadcastsOwn_proposeInTurn hlive' hfits
      · exact Effect.broadcastsOwn_nil _ _ _

end

namespace UnrecordedTransactionPool
variable {o : Ossl}

/-- `isNullProposal(getProposal())` holds exactly if `HasProposal()` does not. -/
def NotionsAgree (pool : UnrecordedTransactionPool) : Prop :=
  ProposedBlock.isNullProposal pool.getProposal = true ↔ pool.hasProposal = false

theorem notionsAgree_iff {pool : UnrecordedTransactionPool} :
    pool.NotionsAgree ↔ pool.pendingProposal.Agrees := by
  rw [NotionsAgree, hasProposal, Bool.not_eq_false']
  rfl

/-- One call after the other, of one thread. -/
def call (pool : UnrecordedTransactionPool) (c : PoolCall o) : UnrecordedTransactionPool :=
  c.after pool

/-- Over any series of calls the notions agree exactly as long as nothing is finalized that was
proposed; and as long as they do, the handlers hand out only what the pool has. -/
theorem notions_agree_iff (prior : ChainState) (mode : AppMode) (maxTxPerBlock : Nat)
    (l : List (PoolCall o)) :
    (Run.Always call NotionsAgree (make prior mode maxTxPerBlock) l ↔
      Run.Each call (fun pool c => c.Keeps pool) (make prior mode maxTxPerBlock) l) ∧
    (Run.Each call (fun pool c => c.Keeps pool) (make prior mode maxTxPerBlock) l →
      ∀ (keys : KeyRing o) (context : DevcashContext) (finalChain : Blockchain) (data : Bytes),
        ∀ e ∈ [validatorCallback keys context false finalChain
              (Run.after call (make prior mode maxTxPerBlock) l) data,
            handleFinalBlock keys context finalChain
              (Run.after call (make prior mode maxTxPerBlock) l) data],
          ¬ e.utxPool.pendingProposal.Wraps → e.BroadcastsOwn) := by
  have hmake : (make prior mode maxTxPerBlock).pendingProposal.Live := .blank prior rfl
  have hlive : ∀ (pool : UnrecordedTransactionPool) (c : PoolCall o), pool.pendingProposal.Live →
      c.Keeps pool → (pool.call c).pendingProposal.Live :=
    fun pool c h hkeeps => PoolCall.live_after c h hkeeps
  refine ⟨Run.always_iff_each (fun pool h => notionsAgree_iff.mpr h.agrees)
    (fun pool c h => notionsAgree_iff.trans (PoolCall.agrees_after_iff c h)) hlive hmake, ?_⟩
  intro hkeeps keys context finalChain data
  have hend := Run.always_of_each hlive hmake hkeeps l (List.prefix_refl l)
  rw [List.forall_mem_cons, List.forall_mem_singleton]
  exact ⟨broadcastsOwn_validatorCallback hend false data, broadcastsOwn_handleFinalBlock hend data⟩

/-- The first of three nodes gets a transaction and proposes it. -/
def sampleCalls : List (PoolCall Ossl.toy) :=
  [.addTransactions KeyRing.toy [.tier1 (.sampleMove 1 2 5)],
    .proposeBlock KeyRing.toy (DevcashContext.sample 0) Ossl.toy.genesisHash ChainState.empty]

theorem notions_agree_iff_sampleCalls :
    (Run.after call (make ChainState.empty .t1 10) sampleCalls).hasProposal = true ∧
      Run.Always call NotionsAgree (make ChainState.empty .t1 10) sampleCalls := by
  have h : (Run.after call (make ChainState.empty .t1 10) sampleCalls).hasProposal = true ∧
      Run.Each call (fun pool c => c.Keeps pool) (make ChainState.empty .t1 10) sampleCalls := by
    decide +kernel
  exact ⟨h.1, (notions_agree_iff ChainState.empty .t1 10 sampleCalls).1.mpr h.2⟩

/-- Its block is finalized. -/
def sampleFinalized : UnrecordedTransactionPool :=
  Run.after call (make ChainState.empty .t1 10) (sampleCalls ++ [.finalizeLocalBlock 0])

/-- When it is the node's turn again, it gets an announcement without a transaction. -/
def sampleTurn : Effect :=
  validatorCallback KeyRing.toy (DevcashContext.sample 0) false
    (List.replicate 3 ⟨BlockFields.default, ChainState.empty⟩) sampleFinalized []

/-- The pool has no proposal any more, and the node sends the bytes of the old one. -/
theorem finalized_broadcast :
    sampleFinalized.hasProposal = false ∧
      ProposedBlock.isNullProposal sampleFinalized.getProposal = false ∧
      ¬ sampleFinalized.NotionsAgree ∧
      sampleTurn.sent = [.proposalBlock sampleFinalized.getProposal] ∧
      sampleTurn.utxPool.hasProposal = false ∧ ¬ sampleTurn.BroadcastsOwn := by
  have h : sampleFinalized.hasProposal = false ∧
      ProposedBlock.isNullProposal sampleFinalized.getProposal = false ∧
      sampleTurn.sent = [.proposalBlock sampleFinalized.getProposal] ∧
      sampleTurn.utxPool.hasProposal = false := by
    decide +kernel
  obtain ⟨hhas, hbytes, hsent, hafter⟩ := h
  refine ⟨hhas, hbytes, ?_, hsent, hafter, ?_⟩
  · intro hagree
    exact Bool.eq_false_iff.mp hbytes (hagree.mpr hhas)
  · intro hown
    have hin : .proposalBlock sampleFinalized.getProposal ∈ sampleTurn.sent := by
      rw [hsent]
      exact List.mem_singleton_self _
    exact Bool.eq_false_iff.mp hafter (hown _ hin).1

end UnrecordedTransactionPool
end Devcash
