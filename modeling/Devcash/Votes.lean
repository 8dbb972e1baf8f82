import Devcash.BlockCodec
import Devcash.Quorum
import Mathlib.Data.Finset.Card

/-! The votes of distinct nodes on one proposal, delivered in any order and any number of
times. -/
namespace Devcash
open Endian Reader InputBuffer

theorem ProposedBlock.signBlock_adds {o : Ossl} {keys : KeyRing o} {context : DevcashContext}
    {p p' : ProposedBlock} (h : p.signBlock keys context = .ok p') :
    ∃ (node : Address) (sig : Signature),
      keys.getNodeAddr (context.getCurrentNode % context.getPeerCount) = .ok node ∧
      node.size = kNodeAddrBufSize ∧ sig.IsNode ∧
      p' = { p with
        vals := ⟨p.vals.sigs.insert node sig⟩
        valCount := u32 (p.valCount + 1)
        numBytes := bytesFor p.txSize p.sumSize (u32 (p.valCount + 1)) } := by
  obtain ⟨node, hnode, h⟩ := Result.bind_eq_ok h
  obtain ⟨eckey, -, h⟩ := Result.bind_eq_ok h
  obtain ⟨sig, hsig, h⟩ := Result.bind_eq_ok h
  obtain ⟨vals, hvals, h⟩ := Result.bind_eq_ok h
  rw [Validation.addValidation] at hvals
  split_ifs at hvals with haddr hsize
  cases hvals
  refine ⟨node, sig, hnode, not_not.mp haddr, ?_, (Except.ok.inj h).symm⟩
  obtain hw | hn := o.signBinary_size hsig
  · exact absurd (hw.1.symm.trans (not_not.mp hsize)) (by decide)
  · exact hn

/-- A node of the shard has signed a copy of `p`. -/
structure Ballot (o : Ossl) (nodes : List Address) (peerCount : Nat) (p : ProposedBlock) where
  keys : KeyRing o
  context : DevcashContext
  voter : Address
  copy : ProposedBlock
  nodeList : keys.nodeList = nodes
  peers : context.getPeerCount = peerCount
  votes : keys.getNodeAddr (context.getCurrentNode % context.getPeerCount) = .ok voter
  signed : p.signBlock keys context = .ok copy

namespace Ballot
variable {o : Ossl} {nodes : List Address} {peerCount : Nat} {p : ProposedBlock}

theorem voter_mem (b : Ballot o nodes peerCount p) (hpos : 0 < peerCount) :
    b.voter ∈ nodes.take peerCount := by
  have hvotes := b.votes
  rw [KeyRing.getNodeAddr, b.nodeList, b.peers] at hvotes
  split at hvotes
  · rename_i addr hget
    cases hvotes
    refine List.mem_of_getElem? (i := b.context.getCurrentNode % peerCount) ?_
    rw [List.getElem?_take, if_pos (Nat.mod_lt _ hpos), hget]
  · cases hvotes

theorem copy_eq (b : Ballot o nodes peerCount p) : ∃ sig : Signature, sig.IsNode ∧
    b.copy = { p with
      vals := ⟨p.vals.sigs.insert b.voter sig⟩
      valCount := u32 (p.valCount + 1)
      numBytes := ProposedBlock.bytesFor p.txSize p.sumSize (u32 (p.valCount + 1)) } := by
  obtain ⟨node, sig, hnode, -, hsig, hcopy⟩ := ProposedBlock.signBlock_adds b.signed
  have hvoter : node = b.voter := Except.ok.inj (hnode.symm.trans b.votes)
  exact ⟨sig, hsig, hvoter ▸ hcopy⟩

end Ballot

namespace ProposedBlock

/-- A proposal before it is signed, with the sizes of its parts. -/
structure Unsigned (p : ProposedBlock) : Prop where
  vals : p.vals = Validation.empty
  valCount : p.valCount = 0
  txSize : p.txSize = u64 p.rawTransactions.flatten.length
  sumSize : p.sumSize = p.summary.getByteSize

theorem unsigned_ofTransactions (prevHash : Hash) (txs : List Transaction) (summary : Summary)
    (state : ChainState) : (ofTransactions prevHash txs summary Validation.empty state).Unsigned := by
  refine ⟨rfl, rfl, ?_, rfl⟩
  rw [List.length_flatten]
  exact congrArg (fun l => u64 (List.sum l)) (List.map_map ..).symm

variable {o : Ossl} {nodes : List Address} {peerCount : Nat} {p : ProposedBlock}

theorem Unsigned.signed (h : p.Unsigned) (b : Ballot o nodes peerCount p) :
    (∃ sig : Signature, sig.IsNode ∧ ∀ e, e ∈ b.copy.vals.sigs.entries ↔ e = (b.voter, sig)) ∧
      b.copy = p.setVals b.copy.vals := by
  obtain ⟨sig, hsig, hcopy⟩ := b.copy_eq
  rw [h.vals, h.valCount] at hcopy
  refine ⟨⟨sig, hsig, fun e => ?_⟩, by rw [hcopy]; rfl⟩
  rw [hcopy]
  exact List.mem_singleton

theorem Unsigned.numBytes_setVals (h : p.Unsigned) {v : Validation} (hv : v.OfNodes)
    (hcount : v.sigs.size < 2 ^ 32) :
    (p.setVals v).numBytes = u64 (p.setVals v).getCanonical.length := by
  have hlen : (p.setVals v).getCanonical.length = minSize + p.rawTransactions.flatten.length +
      p.summary.getByteSize + v.sigs.size * Validation.pairSize := by
    rw [getCanonical_eq, List.length_append, length_header, sections, List.length_append,
      List.length_append, ← Validation.length_getCanonical hv, ← Nat.add_assoc, ← Nat.add_assoc]
    rfl
  have hnum : (p.setVals v).numBytes =
      u64 (minSize + p.txSize + p.sumSize + u32 v.sigs.size * Validation.pairSize) := rfl
  rw [hnum, hlen, h.txSize, h.sumSize, show u32 v.sigs.size = v.sigs.size from Nat.mod_eq_of_lt hcount]
  simp only [u64]
  omega

end ProposedBlock

section
variable {o : Ossl} {nodes : List Address} {peerCount : Nat} {p : ProposedBlock} {ι : Type}

/-- The signers, the proposer included. -/
def voters (proposer : Ballot o nodes peerCount p)
    (ballot : ι → Ballot o nodes peerCount proposer.copy) (l : List ι) : Finset Address :=
  insert proposer.voter (l.map (fun i => (ballot i).voter)).toFinset

/-- The validations of the signers: those of the proposal and of the delivered copies. -/
def Cast (proposer : Ballot o nodes peerCount p)
    (ballot : ι → Ballot o nodes peerCount proposer.copy) (l : List ι)
    (e : Address × Signature) : Prop :=
  e ∈ proposer.copy.vals.sigs.entries ∨ ∃ i ∈ l, e ∈ (ballot i).copy.vals.sigs.entries

/-- What the proposer holds when the votes `l` have been delivered. -/
structure Counted (proposer : Ballot o nodes peerCount p)
    (ballot : ι → Ballot o nodes peerCount proposer.copy) (l : List ι) (q : ProposedBlock) :
    Prop where
  vals : ∀ e, e ∈ q.vals.sigs.entries ↔ Cast proposer ballot l e
  voters : q.vals.sigs.keys.toFinset = voters proposer ballot l
  valCount : q.valCount = (Devcash.voters proposer ballot l).card
  numBytes : q.numBytes = u64 q.getCanonical.length

/-- The invariant: only the votes of the proposal change, and they are those cast. -/
structure Tally (proposer : Ballot o nodes peerCount p)
    (ballot : ι → Ballot o nodes peerCount proposer.copy) (l : List ι) (q : ProposedBlock) :
    Prop where
  block : q = p.setVals q.vals
  vals : ∀ e, e ∈ q.vals.sigs.entries ↔ Cast proposer ballot l e

/-- The proposal after the deliveries `l`. -/
def received (context : DevcashContext) (proposer : Ballot o nodes peerCount p)
    (ballot : ι → Ballot o nodes peerCount proposer.copy) (l : List ι) : ProposedBlock :=
  Run.after (ProposedBlock.receiveVotes context) proposer.copy
    (l.map (fun i => (ballot i).copy.getValidationData))

theorem received_concat {context : DevcashContext} {proposer : Ballot o nodes peerCount p}
    {ballot : ι → Ballot o nodes peerCount proposer.copy} {l : List ι} {i : ι} {enough : Bool}
    {q : ProposedBlock} (hcheck : (received context proposer ballot l).checkValidationData context
      (ballot i).copy.getValidationData = .ok (enough, q)) :
    received context proposer ballot (l ++ [i]) = q := by
  rw [received] at hcheck
  rw [received, List.map_append, Run.after_append]
  change ProposedBlock.receiveVotes context _ _ = q
  rw [ProposedBlock.receiveVotes, hcheck]

theorem card_voters_le (hpos : 0 < peerCount) (proposer : Ballot o nodes peerCount p)
    (ballot : ι → Ballot o nodes peerCount proposer.copy) (l : List ι) :
    (voters proposer ballot l).card ≤ peerCount := by
  have hsub : voters proposer ballot l ⊆ (nodes.take peerCount).toFinset := by
    intro a ha
    rw [voters, Finset.mem_insert, List.mem_toFinset, List.mem_map] at ha
    rw [List.mem_toFinset]
    obtain rfl | ⟨i, -, rfl⟩ := ha
    · exact proposer.voter_mem hpos
    · exact (ballot i).voter_mem hpos
  calc (voters proposer ballot l).card ≤ (nodes.take peerCount).toFinset.card :=
        Finset.card_le_card hsub
    _ ≤ (nodes.take peerCount).length := List.toFinset_card_le _
    _ ≤ peerCount := List.length_take_le _ _

variable (h0 : p.Unsigned) (hnodes : ∀ a ∈ nodes, a.IsNode) (hpos : 0 < peerCount)
  {proposer : Ballot o nodes peerCount p} {ballot : ι → Ballot o nodes peerCount proposer.copy}
  (hother : ∀ i, (ballot i).voter ≠ proposer.voter)
include h0 hother

theorem mem_copy (i : ι) : ∃ sig : Signature, sig.IsNode ∧
    (∀ e, e ∈ (ballot i).copy.vals.sigs.entries ↔
      e = ((ballot i).voter, sig) ∨ e ∈ proposer.copy.vals.sigs.entries) ∧
    (ballot i).copy.vals.sigs.size = 2 ∧ (ballot i).copy.prevHash = proposer.copy.prevHash := by
  obtain ⟨⟨sig0, -, hmem⟩, -⟩ := h0.signed proposer
  obtain ⟨sig, hsig, hcopy⟩ := (ballot i).copy_eq
  have hnew : (ballot i).voter ∉ proposer.copy.vals.sigs.keys := by
    intro hk
    obtain ⟨e, he, hv⟩ := List.mem_map.mp hk
    rw [(hmem e).mp he] at hv
    exact hother i hv.symm
  have hone : proposer.copy.vals.sigs.size = 1 := by
    obtain ⟨sig1, -, hfirst⟩ := proposer.copy_eq
    rw [hfirst, h0.vals]
    rfl
  refine ⟨sig, hsig, fun e => ?_, ?_, by rw [hcopy]⟩
  · rw [hcopy]
    exact OrdMap.mem_insert_new hnew
  · rw [hcopy]
    change (proposer.copy.vals.sigs.insert _ _).size = 2
    rw [OrdMap.size_insert_new hnew, hone]

theorem Tally.keys_toFinset {l : List ι} {q : ProposedBlock} (h : Tally proposer ballot l q) :
    q.vals.sigs.keys.toFinset = voters proposer ballot l := by
  obtain ⟨⟨sig0, -, hmem⟩, -⟩ := h0.signed proposer
  ext a
  rw [List.mem_toFinset, voters, Finset.mem_insert, List.mem_toFinset, List.mem_map]
  constructor
  · intro ha
    obtain ⟨e, he, rfl⟩ := List.mem_map.mp ha
    obtain he | ⟨i, hi, he⟩ := (h.vals e).mp he
    · exact Or.inl (by rw [(hmem e).mp he])
    · obtain ⟨sig, -, hcopy, -⟩ := mem_copy h0 hother i
      obtain hv | hv := (hcopy e).mp he
      · exact Or.inr ⟨i, hi, by rw [hv]⟩
      · exact Or.inl (by rw [(hmem e).mp hv])
  · rintro (rfl | ⟨i, hi, rfl⟩)
    · exact List.mem_map_of_mem (f := Prod.fst)
        ((h.vals (proposer.voter, sig0)).mpr (Or.inl ((hmem _).mpr rfl)))
    · obtain ⟨sig, -, hcopy, -⟩ := mem_copy h0 hother i
      exact List.mem_map_of_mem (f := Prod.fst) ((h.vals ((ballot i).voter, sig)).mpr
        (Or.inr ⟨i, hi, (hcopy _).mpr (Or.inl rfl)⟩))

variable (hinj : Function.Injective (fun i => (ballot i).voter))

include hinj in
theorem Cast.agree {l l' : List ι} {e e' : Address × Signature} (he : Cast proposer ballot l e)
    (he' : Cast proposer ballot l' e') (hkey : e.1 = e'.1) : e = e' := by
  obtain ⟨⟨sig0, -, hmem⟩, -⟩ := h0.signed proposer
  -- A validation that was cast is the proposer's or the one of a voter's own copy.
  have hcast : ∀ {l : List ι} {e : Address × Signature}, Cast proposer ballot l e →
      e = (proposer.voter, sig0) ∨
        ∃ i, e.1 = (ballot i).voter ∧ e ∈ (ballot i).copy.vals.sigs.entries := by
    intro l e he
    obtain he | ⟨i, -, he⟩ := he
    · exact Or.inl ((hmem e).mp he)
    · obtain ⟨sig, -, hcopy, -⟩ := mem_copy h0 hother i
      obtain hv | hv := (hcopy e).mp he
      · exact Or.inr ⟨i, by rw [hv], he⟩
      · exact Or.inl ((hmem e).mp hv)
  obtain rfl | ⟨i, hi, hm⟩ := hcast he
  · obtain rfl | ⟨j, hj, -⟩ := hcast he'
    · rfl
    · exact absurd (hj.symm.trans hkey.symm) (hother j)
  · obtain rfl | ⟨j, hj, hm'⟩ := hcast he'
    · exact absurd (hi.symm.trans hkey) (hother i)
    · obtain rfl : i = j := hinj (hi.symm.trans (hkey.trans hj))
      have hfind := OrdMap.find?_eq_some.mpr (show (e.1, e.2) ∈ _ from hm)
      have hfind' := OrdMap.find?_eq_some.mpr (show (e'.1, e'.2) ∈ _ from hm')
      rw [← hkey, hfind] at hfind'
      exact Prod.ext hkey (Option.some.inj hfind')

include hnodes hpos

theorem Cast.isNode {l : List ι} {e : Address × Signature} (he : Cast proposer ballot l e) :
    e.1.IsNode ∧ e.2.IsNode := by
  have hvoter : ∀ {q : ProposedBlock} (b : Ballot o nodes peerCount q), b.voter.IsNode :=
    fun b => hnodes _ (List.mem_of_mem_take (b.voter_mem hpos))
  obtain ⟨⟨sig0, hsig0, hmem⟩, -⟩ := h0.signed proposer
  obtain he | ⟨i, -, he⟩ := he
  · rw [(hmem e).mp he]
    exact ⟨hvoter proposer, hsig0⟩
  · obtain ⟨sig, hsig, hcopy, -⟩ := mem_copy h0 hother i
    obtain hv | hv := (hcopy e).mp he
    · rw [hv]
      exact ⟨hvoter (ballot i), hsig⟩
    · rw [(hmem e).mp hv]
      exact ⟨hvoter proposer, hsig0⟩

theorem Tally.counted {l : List ι} {q : ProposedBlock} (h : Tally proposer ballot l q)
    (hpeers : peerCount < 2 ^ 32) : Counted proposer ballot l q := by
  have hkeys := h.keys_toFinset h0 hother
  have hsize : q.vals.sigs.size = (voters proposer ballot l).card := by
    rw [← hkeys, List.toFinset_card_of_nodup q.vals.sigs.nodup_keys, OrdMap.length_keys]
  have hlt : q.vals.sigs.size < 2 ^ 32 := by
    rw [hsize]
    exact Nat.lt_of_le_of_lt (card_voters_le hpos proposer ballot l) hpeers
  have hcount : q.valCount = u32 q.vals.sigs.size := by
    rw [h.block]
    rfl
  refine ⟨h.vals, hkeys, ?_, ?_⟩
  · rw [hcount, ← hsize]
    exact Nat.mod_eq_of_lt hlt
  · rw [h.block]
    exact h0.numBytes_setVals
      (fun e he => Cast.isNode h0 hnodes hpos hother ((h.vals e).mp he)) hlt

theorem votesFor_copy (i : ι) {q : ProposedBlock} (hq : q.prevHash = proposer.copy.prevHash) :
    q.votesFor (ballot i).copy.getValidationData = .ok (some (ballot i).copy.vals) := by
  obtain ⟨sig, -, -, hsize, hprev⟩ := mem_copy h0 hother i
  have hof : (ballot i).copy.vals.OfNodes := fun e he =>
    Cast.isNode h0 hnodes hpos hother (l := [i]) (Or.inr ⟨i, List.mem_singleton_self i, he⟩)
  have hlen : ¬ (ballot i).copy.getValidationData.length < ProposedBlock.minValidationSize := by
    rw [ProposedBlock.getValidationData, List.length_append, Validation.length_getCanonical hof,
      hsize, (ballot i).copy.prevHash.2, ProposedBlock.minValidationSize]
    omega
  have hhash := reads_copyHash (ballot i).copy.prevHash [] (ballot i).copy.vals.getCanonical
  have hvals := Validation.create_getCanonical hof (ballot i).copy.prevHash.1
  simp only [List.nil_append, List.length_nil, Nat.zero_add] at hhash
  have hcopyHash : copyHash (ofBytes (ballot i).copy.getValidationData) = _ := hhash
  rw [ProposedBlock.votesFor, if_neg hlen, hcopyHash]
  simp only [Result.bind_ok, if_pos (hprev.trans hq.symm), hvals]

include hinj

/-- One delivery: it is accepted, and its votes are added. -/
theorem Tally.deliver {l : List ι} {q : ProposedBlock} (h : Tally proposer ballot l q) (i : ι)
    (context : DevcashContext) : ∃ q', Tally proposer ballot (l ++ [i]) q' ∧
      q.checkValidationData context (ballot i).copy.getValidationData =
        .ok (decide (q'.valCount > context.getPeerCount / 2), q') := by
  have hprev : q.prevHash = proposer.copy.prevHash := by
    rw [h.block, (h0.signed proposer).2]
    rfl
  have hvotes := votesFor_copy h0 hnodes hpos hother i hprev
  have hcheck : q.checkValidationData context (ballot i).copy.getValidationData = _ :=
    ProposedBlock.checkValidationData_eq q _
  rw [hvotes] at hcheck
  refine ⟨_, ⟨by rw [h.block]; rfl, fun e => ?_⟩, hcheck⟩
  have hcopy : ∀ e ∈ (ballot i).copy.vals.sigs.entries, Cast proposer ballot [i] e :=
    fun e he => Or.inr ⟨i, List.mem_singleton_self i, he⟩
  have hmerge : e ∈ (q.vals.addAll (ballot i).copy.vals).sigs.entries ↔
      e ∈ q.vals.sigs.entries ∨ e ∈ (ballot i).copy.vals.sigs.entries :=
    OrdMap.mem_insertAll_of_agree (fun e he e' he' =>
      Cast.agree h0 hother hinj ((h.vals e).mp he) (hcopy e' he'))
  refine hmerge.trans ?_
  rw [h.vals, Cast, Cast, or_assoc]
  simp only [List.mem_append, List.mem_singleton, or_and_right, exists_or, exists_eq_left]

theorem tally_received (context : DevcashContext) (l : List ι) :
    Tally proposer ballot l (received context proposer ballot l) := by
  induction l using List.reverseRecOn with
  | nil =>
    refine ⟨(h0.signed proposer).2, fun e => ?_⟩
    simp only [Cast, List.not_mem_nil, false_and, exists_false, or_false]
    rfl
  | append_singleton l i ih =>
    obtain ⟨q', hq', hcheck⟩ := ih.deliver h0 hnodes hpos hother hinj i context
    rw [received_concat hcheck]
    exact hq'

/-- Every series of deliveries counts each signer once, every check tells whether they are
more than half of the peers, and only which nodes have signed matters. -/
theorem votes_counted (hpeers : peerCount < 2 ^ 32) {context : DevcashContext}
    (hcontext : context.getPeerCount = peerCount) :
    (∀ l, Counted proposer ballot l (received context proposer ballot l)) ∧
    (∀ l i, (received context proposer ballot l).checkValidationData context
        (ballot i).copy.getValidationData =
      .ok (decide ((voters proposer ballot (l ++ [i])).card > peerCount / 2),
        received context proposer ballot (l ++ [i]))) ∧
    ∀ l l' : List ι, (∀ i, i ∈ l ↔ i ∈ l') →
      (received context proposer ballot l).vals = (received context proposer ballot l').vals := by
  have htally := tally_received h0 hnodes hpos hother hinj context
  refine ⟨fun l => (htally l).counted h0 hnodes hpos hother hpeers, fun l i => ?_, fun l l' hl => ?_⟩
  · obtain ⟨q', hq', hcheck⟩ := (htally l).deliver h0 hnodes hpos hother hinj i context
    have hcount := (hq'.counted h0 hnodes hpos hother hpeers).valCount
    rw [received_concat hcheck, hcheck, hcount, hcontext]
  · have hcast : ∀ e, Cast proposer ballot l e ↔ Cast proposer ballot l' e := by
      intro e
      simp only [Cast, hl]
    exact congrArg Validation.mk (OrdMap.ext_mem (fun e =>
      ((htally l).vals e).trans ((hcast e).trans ((htally l').vals e).symm)))

end

namespace Ballot

/-- The unsigned proposal of the sample nodes. -/
def sampleUnsigned : ProposedBlock :=
  let summary := Summary.empty.addFlows
    [⟨Address.sample 1, 1, -5, 0⟩, ⟨Address.sample 2, 1, 5, 0⟩]
  ProposedBlock.ofTransactions Hash.zero [.tier1 (Tier1Transaction.unchecked summary
    (Address.sampleNode 1) (Tier1Transaction.sampleSignature summary))] summary Validation.empty
    ChainState.empty

/-- A proposal with the vote of a sample node. -/
def signedBy (node : Nat) (p : ProposedBlock) : ProposedBlock :=
  match p.signBlock KeyRing.toy (DevcashContext.sample node) with
  | .ok q => q
  | .error _ => p

def sampleProposer : Ballot Ossl.toy KeyRing.toy.nodeList 3 sampleUnsigned where
  keys := KeyRing.toy
  context := DevcashContext.sample 0
  voter := Address.sampleNode 1
  copy := signedBy 0 sampleUnsigned
  nodeList := rfl
  peers := rfl
  votes := rfl
  signed := by decide +kernel

/-- The second node votes, or the third. -/
def sampleVoter (third : Bool) : Ballot Ossl.toy KeyRing.toy.nodeList 3 sampleProposer.copy where
  keys := KeyRing.toy
  context := DevcashContext.sample (if third then 2 else 1)
  voter := Address.sampleNode (if third then 3 else 2)
  copy := signedBy (if third then 2 else 1) sampleProposer.copy
  nodeList := rfl
  peers := rfl
  votes := by cases third <;> rfl
  signed := by cases third <;> decide +kernel

end Ballot

theorem votes_counted_sampleVoter :
    Counted Ballot.sampleProposer Ballot.sampleVoter [true, false, true]
        (received (DevcashContext.sample 0) Ballot.sampleProposer Ballot.sampleVoter
          [true, false, true]) ∧
      (voters Ballot.sampleProposer Ballot.sampleVoter [true, false, true]).card = 3 := by
  have hother : ∀ third, (Ballot.sampleVoter third).voter ≠ Ballot.sampleProposer.voter := by
    decide
  have hinj : ∀ x y, (Ballot.sampleVoter x).voter = (Ballot.sampleVoter y).voter → x = y := by
    decide +kernel
  have hcounted := votes_counted (ProposedBlock.unsigned_ofTransactions _ _ _ _) (by decide)
    (by decide) hother (fun x y => hinj x y) (by decide)
    (show (DevcashContext.sample 0).getPeerCount = 3 from rfl)
  exact ⟨hcounted.1 [true, false, true], by decide +kernel⟩

end Devcash
