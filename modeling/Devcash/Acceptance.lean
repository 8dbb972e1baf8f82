import Devcash.Conservation
import Devcash.Endorsement

/-! When a validator accepts what `ProposeBlock` has stored: the checks of
`ProposedBlock::validate`, traced back to the pass over the pool. -/
namespace Devcash

/-- A signature verifies under the key that made it. -/
def Ossl.SignsVerifiably (o : Ossl) : Prop :=
  ∀ eckey h sig, o.signBinary eckey h = .ok sig → o.verifyByteSig eckey h sig = true

theorem KeyRing.getKey_of_getNodeKey {o : Ossl} {keys : KeyRing o} {index : Nat} {addr : Address}
    {eckey : o.EcKey} (haddr : keys.getNodeAddr index = .ok addr)
    (h : keys.getNodeKey index = .ok eckey) : keys.getKey addr = .ok eckey := by
  rw [getNodeKey, haddr, Result.bind_ok] at h
  split at h
  · rename_i key hkey
    cases h
    exact getKey_of_find? hkey
  · cases h

theorem ProposedBlock.signBlock_verifies {o : Ossl} (hsign : o.SignsVerifiably) {keys : KeyRing o}
    {context : DevcashContext} {p p' : ProposedBlock} (hvals : p.vals = Validation.empty)
    (h : p.signBlock keys context = .ok p') :
    ∀ vote ∈ p'.vals.sigs.entries, ∃ eckey, keys.getKey vote.1 = .ok eckey ∧
      o.verifyByteSig eckey (o.devcashHash p'.summary.getCanonical) vote.2 = true := by
  obtain ⟨nodeAddr, haddr, h⟩ := Result.bind_eq_ok h
  obtain ⟨eckey, hkey, h⟩ := Result.bind_eq_ok h
  obtain ⟨nodeSig, hsig, h⟩ := Result.bind_eq_ok h
  obtain ⟨vals, hadd, h⟩ := Result.bind_eq_ok h
  cases h
  rw [hvals, Validation.addValidation] at hadd
  split_ifs at hadd
  cases hadd
  intro vote hvote
  cases List.mem_singleton.mp hvote
  exact ⟨eckey, KeyRing.getKey_of_getNodeKey haddr hkey, hsign eckey _ nodeSig hsig⟩

namespace Summary

theorem entries_addFlow_ne_nil (s : Summary) (f : Flow) : (s.addFlow f).summary.entries ≠ [] := by
  intro h
  have hfind := s.find?_addFlow f f.addr
  rw [if_pos rfl] at hfind
  have hmem := OrdMap.find?_eq_some.mp hfind
  rw [h] at hmem
  exact List.not_mem_nil hmem

theorem entries_addFlows_ne_nil (l : List Flow) :
    (Summary.empty.addFlows l).summary.entries ≠ [] ↔ l ≠ [] := by
  induction l using List.reverseRecOn with
  | nil => exact ⟨fun h => absurd rfl h, fun h => absurd rfl h⟩
  | append_singleton l f =>
    rw [addFlows_append]
    exact ⟨fun _ => by simp, fun _ => entries_addFlow_ne_nil _ f⟩

end Summary

namespace UnrecordedTransactionPool
variable {o : Ossl} {keys : KeyRing o} {context : DevcashContext}

theorem length_taken {prior : ChainState} {max : Nat} {l valid : List Transaction} {numTxs : Nat}
    {b b' : Books} (h : collectFrom keys prior max l numTxs b = .ok (valid, b')) :
    (Visit.taken (visitsFrom keys prior max l numTxs b)).length = valid.length := by
  induction l generalizing numTxs b valid with
  | nil =>
    cases h
    rfl
  | cons tx l ih =>
    obtain ⟨hacc, hcases⟩ | ⟨href, hc⟩ := collectFrom_cons h
    · simp only [visitsFrom, hacc, if_true]
      obtain ⟨hmax, hr⟩ | ⟨hmax, valid', b'', hr, hc⟩ := hcases
      · cases hr
        rw [if_pos hmax]
        rfl
      · cases hr
        rw [if_neg hmax]
        exact congrArg (· + 1) (ih hc)
    · simp only [visitsFrom, href, Except.ok.injEq, Bool.false_eq_true, if_false]
      exact ih hc

/-- A validator can accept what the pass over the pool gives: a transaction passes in its turn,
and the amounts posted add up to 0. Of an accepted transaction all transfers are posted, of a
refused one those in front of the transfer that fails. -/
structure Acceptable (keys : KeyRing o) (pool : UnrecordedTransactionPool) (prior : ChainState) :
    Prop where
  takes : Visit.taken (pool.visits keys prior) ≠ []
  posts : Visit.flows (pool.visits keys prior) ≠ []
  balances : ((Visit.flows (pool.visits keys prior)).map Flow.amount).sum ≡ 0 [ZMOD 2 ^ 64]

/-- `ProposeBlock` stores what the pass gives, whatever it is: the stored proposal validates
exactly when the pass over the pool takes a transaction and posts amounts that cancel out. -/
theorem proposeBlock_validates_iff (hsign : o.SignsVerifiably)
    {pool pool' : UnrecordedTransactionPool} {prevHash : Hash} {prior : ChainState}
    (h : pool.proposeBlock keys context prevHash prior = .ok pool') :
    pool'.pendingProposal.validate keys = .ok true ↔ pool.Acceptable keys prior := by
  obtain ⟨⟨valid, b⟩, hc, hs⟩ := Result.bind_eq_ok (proposeBlock_ok h).1
  have hvotes := ProposedBlock.signBlock_verifies hsign rfl hs
  have hsame := ProposedBlock.signBlock_ok hs
  have htxs : pool'.pendingProposal.transactionVector = valid := hsame.transactionVector
  have hsum : pool'.pendingProposal.summary =
      Summary.empty.addFlows (Visit.flows (pool.visits keys prior)) :=
    hsame.summary.trans (collectFrom_visits hc).1.2
  rw [hsum] at hvotes
  have hdelta := Summary.empty.deltaSum_addFlows (Visit.flows (pool.visits keys prior))
  have hzero : Summary.empty.deltaSum = 0 := rfl
  rw [hzero, Int.zero_add] at hdelta
  have htaken : valid ≠ [] ↔ Visit.taken (pool.visits keys prior) ≠ [] := by
    rw [← List.length_pos_iff, ← List.length_pos_iff, ← length_taken hc]
    exact Iff.rfl
  rw [ProposedBlock.validate_true_iff, htxs, hsum, Summary.isSane_iff,
    Summary.entries_addFlows_ne_nil, htaken]
  constructor
  · intro hv
    exact ⟨hv.1, hv.2.1.1, hdelta.symm.trans hv.2.1.2⟩
  · intro ha
    exact ⟨ha.takes, ⟨ha.posts, hdelta.trans ha.balances⟩, hvotes⟩

theorem toy_signsVerifiably : Ossl.toy.SignsVerifiably := by
  intro eckey h sig hsig
  cases hsig
  exact decide_eq_true rfl

/-- One move that is accepted. -/
theorem proposeBlock_validates_iff_sampleMove :
    (sampleProposed ChainState.empty [.sampleMove 1 2 5]).pendingProposal.validate KeyRing.toy =
      .ok true := by
  have h : ((sample [.sampleMove 1 2 5]).proposeBlock KeyRing.toy (DevcashContext.sample 0)
        Ossl.toy.genesisHash ChainState.empty).toOption.isSome = true ∧
      (Visit.taken ((sample [.sampleMove 1 2 5]).visits KeyRing.toy
        ChainState.empty)).isEmpty = false ∧
      (Visit.flows ((sample [.sampleMove 1 2 5]).visits KeyRing.toy ChainState.empty)).map
        Flow.amount = [-5, 5] := by
    decide +kernel
  obtain ⟨hprop, hpass⟩ := h
  refine (proposeBlock_validates_iff toy_signsVerifiably (proposeBlock_sample hprop)).mpr
    ⟨?_, ?_, ?_⟩
  · exact List.isEmpty_eq_false_iff.mp hpass.1
  · intro hnil
    rw [hnil] at hpass
    exact absurd hpass.2 (by simp)
  · rw [hpass.2]
    exact Int.ModEq.refl 0

/-- A wallet pays 10 coins in two parts. -/
def samplePaidTwice : Tier2Transaction :=
  let xfers := [Transfer.make (Address.sample 1) 1 (-5) 0, Transfer.make (Address.sample 1) 1 (-5) 0,
    Transfer.make (Address.sample 2) 1 10 0]
  let nonce : Bytes := [0, 1, 2, 3, 4, 5, 6, 7]
  Tier2Transaction.ofSignature OpType.exchange.toByte xfers nonce
    (Ossl.toySignature (Address.sample 1)
      (Ossl.toyHash (Tier2Transaction.layout OpType.exchange.toByte xfers nonce)))

/-- A pool with that payment alone. -/
def samplePaying : UnrecordedTransactionPool :=
  ((make ChainState.empty .t2 10).addTransactions KeyRing.toy [.tier2 samplePaidTwice]).2

/-- What the pool proposes on an empty chain, and whether a validator accepts it. -/
def sampleVerdict (pool : UnrecordedTransactionPool) : Result (Nat × Bool) := do
  let pool' ← pool.proposeBlock KeyRing.toy (DevcashContext.sample 0) Ossl.toy.genesisHash
    ChainState.empty
  let verdict ← pool'.pendingProposal.validate KeyRing.toy
  .ok (pool'.pendingProposal.transactionVector.length, verdict)

/-- A payment that cannot be afforded is all there is, and the proposal is empty; or a second
move is refused after its recipient has been credited, and the summary is not sane. -/
theorem refusedPayments_proposed :
    samplePaying.pending.length = 1 ∧
      (∀ tx ∈ samplePaying.pending, tx.isSound KeyRing.toy = .ok true) ∧
      sampleVerdict samplePaying = .ok (0, false) ∧
      (sample [.sampleMove 1 0 5, .sampleMove 1 0 7]).pending.length = 2 ∧
      (∀ tx ∈ (sample [.sampleMove 1 0 5, .sampleMove 1 0 7]).pending,
        tx.isSound KeyRing.toy = .ok true) ∧
      sampleVerdict (sample [.sampleMove 1 0 5, .sampleMove 1 0 7]) = .ok (1, false) := by
  decide +kernel

end UnrecordedTransactionPool
end Devcash
