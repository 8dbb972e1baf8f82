import Devcash.Delivery
import Devcash.Failures
import Devcash.Proposal

/-! What a pending proposal is built on: the top of the chain, over any series of
deliveries. -/
namespace Devcash

/-- A key that can sign one digest can sign every digest, with signatures of one size. -/
def Ossl.SignsUniformly (o : Ossl) : Prop :=
  ∀ k h s, o.signBinary k h = .ok s → ∀ h', ∃ s', o.signBinary k h' = .ok s' ∧ s'.size = s.size

namespace ProposedBlock
variable {o : Ossl} {keys : KeyRing o} {context : DevcashContext}

/-- The node has its key and has signed a block. -/
def CanSign (keys : KeyRing o) (context : DevcashContext) : Prop :=
  ∃ p p' : ProposedBlock, p.signBlock keys context = .ok p'

theorem CanSign.signBlock (hsign : o.SignsUniformly) (h : CanSign keys context)
    (q : ProposedBlock) : ∃ q', q.signBlock keys context = .ok q' := by
  obtain ⟨p, p', hs⟩ := h
  obtain ⟨nodeAddr, haddr, hs⟩ := Result.bind_eq_ok hs
  obtain ⟨eckey, hkey, hs⟩ := Result.bind_eq_ok hs
  obtain ⟨nodeSig, hsig, hs⟩ := Result.bind_eq_ok hs
  obtain ⟨vals, hvals, hs⟩ := Result.bind_eq_ok hs
  obtain ⟨sig, hnew, hsize⟩ := hsign _ _ _ hsig (o.devcashHash q.summary.getCanonical)
  have hadd : q.vals.addValidation nodeAddr sig =
      .ok ⟨q.vals.sigs.insert nodeAddr sig⟩ := by
    rw [Validation.addValidation] at hvals
    rw [Validation.addValidation, hsize]
    split_ifs at hvals with h1 h2
    rw [if_neg h1, if_neg h2]
  simp only [ProposedBlock.signBlock, haddr, hkey, hnew, hadd, Result.bind_ok]
  exact ⟨_, rfl⟩

end ProposedBlock

namespace UnrecordedTransactionPool
variable {o : Ossl} {keys : KeyRing o} {context : DevcashContext} {pool : UnrecordedTransactionPool}

theorem canSign_of_proposeBlock {pool' : UnrecordedTransactionPool} {prevHash : Hash}
    {prior : ChainState} (h : pool.proposeBlock keys context prevHash prior = .ok pool') :
    ProposedBlock.CanSign keys context := by
  obtain ⟨p, hp, -⟩ := Result.bind_eq_ok h
  obtain ⟨r, -, hp⟩ := Result.bind_eq_ok hp
  exact ⟨_, p, hp⟩

section
variable (hload : o.LoadsPlainly)
include hload

end

end UnrecordedTransactionPool

namespace Node
open UnrecordedTransactionPool
variable {o : Ossl} {keys : KeyRing o} {context : DevcashContext}

/-- A call of `HasProposal()` comes back with `true`: there is a proposal, no thread is
stuck with its lock, and nothing has been read outside a vector. -/
def AnswersProposal (n : Node) : Prop :=
  n.utxPool.hasProposal = true ∧ n.consensusFailure ≠ some .deadlock ∧
    n.consensusFailure ≠ some .badAccess

instance (n : Node) : Decidable n.AnswersProposal := inferInstanceAs (Decidable (_ ∧ _ ∧ _))

/-- The pending proposal names the top block, or the genesis hash without one. -/
def ExtendsTip (o : Ossl) (n : Node) : Prop :=
  n.finalChain.topHash o = .ok n.utxPool.pendingProposal.prevHash

instance (o : Ossl) (n : Node) : Decidable (n.ExtendsTip o) := inferInstanceAs (Decidable (_ = _))

structure PendingInv (keys : KeyRing o) (context : DevcashContext) (n : Node) : Prop where
  continues : n.AnswersProposal → n.ExtendsTip o
  signer : n.utxPool.hasProposal = true → ProposedBlock.CanSign keys context

theorem PendingInv.proposes {n : Node} {pool : UnrecordedTransactionPool}
    (h : Proposes keys context n.finalChain pool n.utxPool) : PendingInv keys context n :=
  ⟨fun _ => h.2.2.1.trans (by rw [Proposes.prevHash h]), fun _ => canSign_of_proposeBlock h.2.2.2⟩

end Node
end Devcash
