import Devcash.Lib.Run
import Devcash.Pool

/-! The votes on a pending proposal, over any series of `VALID` messages. -/
namespace Devcash
namespace ProposedBlock
variable {o : Ossl} (keys : KeyRing o) (context : DevcashContext)

/-- A vote of a node whose signature of the summary verifies, as `validate` checks it. -/
def verifies (md : Hash) (vote : Address × Signature) : Bool :=
  vote.1.isNodeAddress &&
    match keys.getKey vote.1 with
    | .ok eckey => o.verifyByteSig eckey md vote.2
    | .error _ => false

/-- The node addresses with a signature that verifies. -/
def verifiedVoters (p : ProposedBlock) : List Address :=
  (p.vals.sigs.entries.filter (verifies keys (o.devcashHash p.summary.getCanonical))).map Prod.fst

/-- More than half of the peers have signed. -/
def Quorum (p : ProposedBlock) : Prop :=
  (p.verifiedVoters keys).Nodup ∧ context.getPeerCount / 2 < (p.verifiedVoters keys).length

def AllVerify (p : ProposedBlock) : Prop :=
  ∀ vote ∈ p.vals.sigs.entries, verifies keys (o.devcashHash p.summary.getCanonical) vote = true

/-- The votes of a message for a proposal, by addresses that have not voted yet. -/
def newVotes (p : ProposedBlock) (data : Bytes) : List (Address × Signature) :=
  match p.votesFor data with
  | .ok (some v) => v.sigs.entries.filter (fun vote => vote.1 ∉ p.vals.sigs.keys)
  | _ => []

def NewVotesVerify (p : ProposedBlock) (data : Bytes) : Prop :=
  ∀ vote ∈ p.newVotes data, verifies keys (o.devcashHash p.summary.getCanonical) vote = true

/-- A `VALID` message, as a step on the proposal. -/
def receiveVotes (p : ProposedBlock) (data : Bytes) : ProposedBlock :=
  match p.checkValidationData context data with
  | .ok (_, p') => p'
  | .error _ => p

instance (p : ProposedBlock) : Decidable (p.Quorum keys context) :=
  inferInstanceAs (Decidable (_ ∧ _))

instance (p : ProposedBlock) : Decidable (p.AllVerify keys) :=
  inferInstanceAs (Decidable (∀ vote ∈ p.vals.sigs.entries, _))

instance (p : ProposedBlock) (data : Bytes) : Decidable (p.NewVotesVerify keys data) :=
  inferInstanceAs (Decidable (∀ vote ∈ p.newVotes data, _))

variable {keys context}

theorem nodup_verifiedVoters (p : ProposedBlock) : (p.verifiedVoters keys).Nodup :=
  (p.vals.sigs.nodup_keys).sublist (List.filter_sublist.map Prod.fst)

theorem allVerify_addAll {p : ProposedBlock} {data : Bytes} {v : Validation}
    (hp : p.AllVerify keys) (hv : p.votesFor data = .ok (some v))
    (hd : p.NewVotesVerify keys data) : (p.setVals (p.vals.addAll v)).AllVerify keys := by
  intro vote hvote
  cases OrdMap.mem_insertAll hvote with
  | inl h => exact hp vote h
  | inr h =>
    apply hd vote
    rw [newVotes, hv]
    exact List.mem_filter.mpr ⟨h.1, decide_eq_true h.2⟩

theorem allVerify_receiveVotes {p : ProposedBlock} {data : Bytes} (hp : p.AllVerify keys)
    (hd : p.NewVotesVerify keys data) : (p.receiveVotes context data).AllVerify keys := by
  rw [receiveVotes]
  split
  · rename_i enough p' h
    obtain ⟨rfl, -⟩ | ⟨v, hv, rfl, -⟩ := checkValidationData_ok h
    · exact hp
    · exact allVerify_addAll hp hv hd
  · exact hp

theorem quorum_of_count {p : ProposedBlock} (hp : p.AllVerify keys)
    (h : context.getPeerCount / 2 < p.vals.getValidationCount) : p.Quorum keys context := by
  refine ⟨p.nodup_verifiedVoters, ?_⟩
  have hall : p.vals.sigs.entries.filter (verifies keys (o.devcashHash p.summary.getCanonical)) =
      p.vals.sigs.entries := List.filter_eq_self.mpr hp
  have hsize : p.vals.getValidationCount ≤ p.vals.sigs.entries.length := Nat.mod_le _ _
  rw [verifiedVoters, hall, List.length_map]
  omega

/-- When every vote verifies as it arrives, a check that succeeds has a quorum. -/
theorem checkValidationData_quorum {p : ProposedBlock} {messages : List Bytes}
    (hp : p.AllVerify keys)
    (hm : Run.Each (receiveVotes context) (NewVotesVerify keys) p messages) :
    Run.Each (receiveVotes context) (fun p data =>
      ∀ p', p.checkValidationData context data = .ok (true, p') → p'.Quorum keys context)
      p messages := by
  have hinv : Run.Always (receiveVotes context) (AllVerify keys) p messages :=
    Run.always_of_each (fun p data => allVerify_receiveVotes) hp hm
  refine Run.each_of_always ?_ hinv hm
  intro p data hp hd p' h
  obtain ⟨-, hf⟩ | ⟨v, hv, rfl, hc⟩ := checkValidationData_ok h
  · cases hf
  · exact quorum_of_count (allVerify_addAll hp hv hd) (hc rfl)

/-- A `VALID` message for a proposal: its votes and one of the second node. -/
def cosign (p : ProposedBlock) (sig : Signature) : Bytes :=
  p.getValidationData ++ (Address.sampleNode 2).getCanonical ++ sig.getCanonical

/-- The second node signs the summary. -/
def cosigned (p : ProposedBlock) : Bytes :=
  p.cosign (Ossl.toySignature (Address.sampleNode 2) (Ossl.toyHash p.summary.getCanonical))

/-- Somebody sends zeros in its place. -/
def forged (p : ProposedBlock) : Bytes := p.cosign ⟨105 :: List.replicate 105 0⟩

/-- The proposal of the first of three nodes. -/
def sample : ProposedBlock :=
  (UnrecordedTransactionPool.sampleProposed ChainState.empty [.sampleMove 1 2 5]).pendingProposal

theorem checkValidationData_quorum_sample :
    sample.checkValidationData (DevcashContext.sample 0) sample.cosigned =
        .ok (true, sample.receiveVotes (DevcashContext.sample 0) sample.cosigned) ∧
      (sample.receiveVotes (DevcashContext.sample 0) sample.cosigned).Quorum KeyRing.toy
        (DevcashContext.sample 0) := by
  have hrun : sample.checkValidationData (DevcashContext.sample 0) sample.cosigned =
        .ok (true, sample.receiveVotes (DevcashContext.sample 0) sample.cosigned) ∧
      sample.AllVerify KeyRing.toy ∧ sample.NewVotesVerify KeyRing.toy sample.cosigned := by
    decide +kernel
  obtain ⟨hcheck, hp, hm⟩ := hrun
  have hquorum := @checkValidationData_quorum _ _ (DevcashContext.sample 0) _ _ hp
    ((Run.each_cons _ _).mpr ⟨hm, Run.each_nil⟩)
  exact ⟨hcheck, ((Run.each_cons _ _).mp hquorum).1 _ hcheck⟩

/-- The forged vote is counted like a signed one. -/
theorem forged_enough :
    sample.checkValidationData (DevcashContext.sample 0) sample.forged =
        .ok (true, sample.receiveVotes (DevcashContext.sample 0) sample.forged) ∧
      ¬ (sample.receiveVotes (DevcashContext.sample 0) sample.forged).Quorum KeyRing.toy
        (DevcashContext.sample 0) := by
  decide +kernel

end ProposedBlock
end Devcash
