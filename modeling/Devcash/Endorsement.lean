import Devcash.Lib.Run
import Devcash.Node
import Devcash.Proposal
import Devcash.Quorum

/-! What `isValid` accepts, in terms of sums over the transfers, and what a validator
endorses. -/
namespace Devcash
open Postings Transaction

/-- The funds check lets every spending of a series pass: the amount, which is negative,
is not above what the sender has after the transfers before it. -/
def ChainState.Allows (s : ChainState) (fs : List Flow) : Prop :=
  ∀ l1 f l2, fs = l1 ++ f :: l2 → f.amount < 0 → ∃ available,
    (s.addCoins (l1.map Flow.smartCoin)).getAmount f.coin f.addr = .ok available ∧
      f.amount ≤ available

theorem ChainState.allows_cons (s : ChainState) (f : Flow) (fs : List Flow) :
    s.Allows (f :: fs) ↔
      (f.amount < 0 → ∃ available, s.getAmount f.coin f.addr = .ok available ∧
        f.amount ≤ available) ∧ (s.addCoin f.smartCoin).Allows fs := by
  constructor
  · intro h
    refine ⟨h [] f fs rfl, fun l1 g l2 hfs => ?_⟩
    exact h (f :: l1) g l2 (by rw [hfs]; rfl)
  · intro h l1 g l2 hfs
    cases l1 with
    | nil =>
      cases hfs
      exact h.1
    | cons e l1 =>
      obtain ⟨rfl, hfs'⟩ := List.cons.inj hfs
      exact h.2 l1 g l2 hfs'

/-- The check of a spending by `isValid`; a tier-1 transaction has no operation. -/
def spendFor (oper : Option Byte) : Spend :=
  match oper with
  | none => spendFreely
  | some oper => spendAvailable oper spendFreely

theorem allow_spendFor (oper : Option Byte) (b : Books) (a : Address) (c : Nat) (x : Int) :
    (∃ g, allow (spendFor oper) b a c x = .ok (some g)) ↔
      (oper = some OpType.exchange.toByte → x < 0 →
        ∃ available, b.state.getAmount c a = .ok available ∧ x ≤ available) := by
  by_cases hx : x < 0
  · simp only [allow, hx, if_true, true_imp_iff]
    cases oper with
    | none => simp [spendFor, spendFreely]
    | some oper =>
      by_cases ho : oper = OpType.exchange.toByte
      · subst ho
        simp only [spendFor, spendAvailable, availableFunds, if_true, true_imp_iff]
        cases hg : b.state.getAmount c a with
        | error e => simp
        | ok available =>
          by_cases hle : x ≤ available
          · simp [spendFreely, hle, Int.not_lt.mpr hle]
          · simp [hle, Int.not_le.mp hle]
      · simp [spendFor, spendAvailable, availableFunds, ho, spendFreely]
  · simp [allow, hx]

theorem postTransfers_true_iff (oper : Option Byte) (ts : List Transfer) (b : Books) :
    (postTransfers Transfer.amountCoinAddr (spendFor oper) ts b).1 = .ok true ↔
      ∃ fs, ts.mapM Transfer.flow = .ok fs ∧
        (oper = some OpType.exchange.toByte → b.state.Allows fs) := by
  induction ts generalizing b with
  | nil =>
    refine ⟨fun _ => ⟨[], rfl, fun _ l1 f l2 h => ?_⟩, fun _ => rfl⟩
    simp at h
  | cons t ts ih =>
    rw [List.mapM_cons]
    constructor
    · intro h
      obtain ⟨r, hr, ht, -⟩ | ⟨a, c, x, g, hf, hg, ⟨e, -, ht, -⟩ | ⟨d, hd, ht, -⟩⟩ :=
        postTransfer_cases Transfer.amountCoinAddr (spendFor oper) t b
      · rw [postTransfers_stop (by rw [ht]; exact hr), ht] at h
        exact absurd h hr
      · rw [postTransfers_stop (by rw [ht]; simp), ht] at h
        cases h
      · rw [postTransfers_step ht, ih] at h
        obtain ⟨fs, hfs, hall⟩ := h
        have hflow : t.flow = .ok ⟨a, c, x, d⟩ := Transfer.flow_ok_iff.mpr ⟨hf, hd⟩
        refine ⟨⟨a, c, x, d⟩ :: fs, by rw [hflow, Result.bind_ok, hfs]; rfl, fun ho => ?_⟩
        exact (ChainState.allows_cons _ _ _).mpr
          ⟨(allow_spendFor oper b a c x).mp ⟨g, hg⟩ ho, hall ho⟩
    · rintro ⟨fs, hfs, hall⟩
      obtain ⟨f, hf, hfs⟩ := Result.bind_eq_ok hfs
      obtain ⟨fs', hfs', hfs⟩ := Result.bind_eq_ok hfs
      cases hfs
      obtain ⟨hfields, hd⟩ := Transfer.flow_ok_iff.mp hf
      have hcons := fun ho => (ChainState.allows_cons _ _ _).mp (hall ho)
      obtain ⟨g, hg⟩ := (allow_spendFor oper b _ _ _).mpr (fun ho => (hcons ho).1)
      have ht : postTransfer Transfer.amountCoinAddr (spendFor oper) t b =
          (.ok true, ⟨b.state.addCoin f.smartCoin, b.summary.addFlow f, g⟩) := by
        simp [postTransfer, hfields, hg, hd, Flow.smartCoin]
      rw [postTransfers_step ht, ih]
      exact ⟨fs', hfs', fun ho => (hcons ho).2⟩

theorem allow_spendFor_same {oper : Option Byte} {b : Books} {a : Address} {c : Nat} {x : Int}
    {g : OrdMap Address SmartCoin} (h : allow (spendFor oper) b a c x = .ok (some g)) :
    g = b.aggregate := by
  rw [allow] at h
  split_ifs at h
  · cases oper with
    | none =>
      cases h
      rfl
    | some oper =>
      obtain ⟨enough, -, h⟩ := Result.bind_eq_ok h
      split_ifs at h
      · cases h
        rfl
      · cases h
  · cases h
    rfl

namespace Transaction
variable {o : Ossl} {keys : KeyRing o}

/-- The operation of a tier-2 transaction. -/
def operation : Transaction → Result (Option Byte)
  | .tier1 _ => .ok none
  | .tier2 tx => do
    let oper ← tx.getOperation
    .ok (some oper)

theorem isValid_eq (keys : KeyRing o) (tx : Transaction) (b : Books) :
    tx.isValid keys b = validateWith (tx.isSound keys)
      (do
        let oper ← tx.operation
        let xfers ← tx.getTransfers
        .ok (xfers, spendFor oper)) Transfer.amountCoinAddr b := by
  cases tx with
  | tier1 tx => rfl
  | tier2 tx =>
    change validateWith _ _ _ _ = validateWith _ _ _ _
    rw [operation, bind_assoc]
    rfl

/-- Validation as a step on the books. -/
def validate (keys : KeyRing o) (b : Books) (tx : Transaction) : Books := (tx.isValid keys b).2

/-- Everything that `isValid` reads of a sound transaction can be read. -/
def Readable (tx : Transaction) : Prop :=
  (∃ oper, tx.operation = .ok oper) ∧ tx.readFlows = .ok tx.flows

theorem isValid_true_iff (tx : Transaction) (b : Books) :
    (tx.isValid keys b).1 = .ok true ↔ tx.isSound keys = .ok true ∧ tx.Readable ∧
      (tx.operation = .ok (some OpType.exchange.toByte) → b.state.Allows tx.flows) := by
  rw [isValid_eq]
  constructor
  · intro h
    obtain ⟨hs, ts, spend, hb, hp⟩ := validateWith_true h
    obtain ⟨oper, ho, hb⟩ := Result.bind_eq_ok hb
    obtain ⟨xfers, hx, hb⟩ := Result.bind_eq_ok hb
    cases hb
    obtain ⟨fs, hfs, hall⟩ := (postTransfers_true_iff oper ts b).mp (congrArg Prod.fst hp)
    have hread : tx.readFlows = .ok fs := by
      rw [readFlows, hx]
      exact hfs
    rw [flows_of_readFlows hread, Readable, flows_of_readFlows hread]
    refine ⟨hs, ⟨⟨oper, ho⟩, hread⟩, fun he => hall ?_⟩
    exact Except.ok.inj (ho.symm.trans he)
  · rintro ⟨hs, ⟨⟨oper, ho⟩, hread⟩, hall⟩
    obtain ⟨ts, hx, hfs⟩ := Result.bind_eq_ok hread
    have hp := (postTransfers_true_iff oper ts b).mpr
      ⟨tx.flows, hfs, fun he => hall (by rw [ho, he])⟩
    simp only [validateWith, hs, ho, hx, Result.bind_ok, hp]
    rfl

theorem validate_after {tx : Transaction} {b : Books} (h : (tx.isValid keys b).1 = .ok true) :
    b.After (.whole tx.flows) (validate keys b tx) := by
  rw [validate]
  rw [isValid_eq] at h ⊢
  rw [flows, ← postedWith_true (fun _ _ h => h) ?_ h]
  · exact validateWith_after _ _ _ _
  · intro ts spend hb
    obtain ⟨oper, -, hb⟩ := Result.bind_eq_ok hb
    obtain ⟨xfers, hx, hb⟩ := Result.bind_eq_ok hb
    cases hb
    exact hx

end Transaction

variable {o : Ossl} {keys : KeyRing o}

/-- The exchanges of a block pass the funds check, each in the state after the
transactions before it. -/
def ChainState.Funds (s : ChainState) (l : List Transaction) : Prop :=
  ∀ l1 tx l2, l = l1 ++ tx :: l2 → tx.operation = .ok (some OpType.exchange.toByte) →
    (s.addCoins ((l1.flatMap Transaction.flows).map Flow.smartCoin)).Allows tx.flows

theorem ChainState.funds_cons (s : ChainState) (tx : Transaction) (l : List Transaction) :
    s.Funds (tx :: l) ↔
      (tx.operation = .ok (some OpType.exchange.toByte) → s.Allows tx.flows) ∧
        (s.addCoins (tx.flows.map Flow.smartCoin)).Funds l := by
  constructor
  · intro h
    refine ⟨h [] tx l rfl, fun l1 tx' l2 hl ho => ?_⟩
    have h' := h (tx :: l1) tx' l2 (by rw [hl]; rfl) ho
    rwa [List.flatMap_cons, List.map_append, addCoins_append] at h'
  · intro h l1 tx' l2 hl ho
    cases l1 with
    | nil =>
      cases hl
      exact h.1 ho
    | cons e l1 =>
      obtain ⟨rfl, hl'⟩ := List.cons.inj hl
      rw [List.flatMap_cons, List.map_append, addCoins_append]
      exact h.2 l1 tx' l2 hl' ho

/-- A replay accepts every transaction exactly when each is sound, can be read and is
funded. -/
theorem each_isValid_iff (l : List Transaction) (b : Books) :
    Run.Each (validate keys) (fun b tx => (tx.isValid keys b).1 = .ok true) b l ↔
      (∀ tx ∈ l, tx.isSound keys = .ok true) ∧ (∀ tx ∈ l, tx.Readable) ∧ b.state.Funds l := by
  induction l generalizing b with
  | nil =>
    simp only [Run.each_nil, List.not_mem_nil, false_imp_iff, implies_true, true_and, true_iff]
    intro l1 tx l2 h
    simp at h
  | cons tx l ih =>
    rw [Run.each_cons, ih, ChainState.funds_cons, List.forall_mem_cons, List.forall_mem_cons]
    constructor
    · rintro ⟨h, hs, hr, hf⟩
      rw [(validate_after h).1] at hf
      obtain ⟨h1, h2, h3⟩ := (isValid_true_iff tx b).mp h
      exact ⟨⟨h1, hs⟩, ⟨h2, hr⟩, h3, hf⟩
    · rintro ⟨⟨h1, hs⟩, ⟨h2, hr⟩, h3, hf⟩
      have h := (isValid_true_iff tx b).mpr ⟨h1, h2, h3⟩
      refine ⟨h, hs, hr, ?_⟩
      rw [(validate_after h).1]
      exact hf

theorem summary_of_each {l : List Transaction} {b : Books}
    (h : Run.Each (validate keys) (fun b tx => (tx.isValid keys b).1 = .ok true) b l) :
    (Run.after (validate keys) b l).summary =
      b.summary.addFlows (l.flatMap Transaction.flows) := by
  induction l generalizing b with
  | nil => rfl
  | cons tx l ih =>
    rw [Run.each_cons] at h
    rw [Run.after_cons, ih h.2, (validate_after h.1).2, List.flatMap_cons, Summary.addFlows_append]
    rfl

namespace ProposedBlock

/-- Every transaction is sound and valid in a replay from the state `prior`, which ends
in the summary of the block. -/
structure Correct (keys : KeyRing o) (prior : ChainState) (p : ProposedBlock) : Prop where
  sound : ∀ tx ∈ p.transactionVector, tx.isSound keys = .ok true
  valid : Run.Each (Transaction.validate keys) (fun b tx => (tx.isValid keys b).1 = .ok true)
    { Books.empty with state := prior } p.transactionVector
  summary : (Run.after (Transaction.validate keys) { Books.empty with state := prior }
    p.transactionVector).summary = p.summary

/-- What the proposer has to get right by itself. -/
structure Endorsable (keys : KeyRing o) (prior : ChainState) (p : ProposedBlock) : Prop where
  sound : ∀ tx ∈ p.transactionVector, tx.isSound keys = .ok true
  readable : ∀ tx ∈ p.transactionVector, tx.Readable
  funded : prior.Funds p.transactionVector
  sums : p.summary.Sums (p.transactionVector.flatMap Transaction.flows)

theorem correct_iff (prior : ChainState) (p : ProposedBlock) :
    p.Correct keys prior ↔ p.Endorsable keys prior := by
  constructor
  · rintro ⟨hs, hv, hsum⟩
    obtain ⟨-, hr, hf⟩ := (each_isValid_iff p.transactionVector _).mp hv
    refine ⟨hs, hr, hf, (Summary.eq_addFlows_iff _ _).mp ?_⟩
    rw [← hsum, summary_of_each hv]
    rfl
  · rintro ⟨hs, hr, hf, hsum⟩
    have hv := (each_isValid_iff p.transactionVector { Books.empty with state := prior }).mpr
      ⟨hs, hr, hf⟩
    refine ⟨hs, hv, ?_⟩
    rw [summary_of_each hv, (Summary.eq_addFlows_iff _ _).mpr hsum]
    rfl

end ProposedBlock

namespace ProposedBlock

/-- What the handler looks at: the block has a transaction, its summary is sane, the votes
in it verify, and the node can sign it. -/
structure Approved (keys : KeyRing o) (context : DevcashContext) (p : ProposedBlock) : Prop where
  nonempty : p.transactionVector ≠ []
  sane : p.summary.isSane = true
  votes : ∀ vote ∈ p.vals.sigs.entries, ∃ eckey, keys.getKey vote.1 = .ok eckey ∧
    o.verifyByteSig eckey (o.devcashHash p.summary.getCanonical) vote.2 = true
  signs : ∃ signed, p.signBlock keys context = .ok signed

theorem verifyVals_true_iff (md : Hash) (l : List (Address × Signature)) :
    verifyVals keys md l = .ok true ↔ ∀ vote ∈ l, ∃ eckey, keys.getKey vote.1 = .ok eckey ∧
      o.verifyByteSig eckey md vote.2 = true := by
  induction l with
  | nil => simp [verifyVals]
  | cons vote l ih =>
    rw [List.forall_mem_cons, ← ih, verifyVals]
    cases keys.getKey vote.1 with
    | error e => simp
    | ok eckey =>
      cases hv : o.verifyByteSig eckey md vote.2 with
      | false => simp [hv]
      | true => simp [hv]

theorem validate_true_iff (p : ProposedBlock) :
    p.validate keys = .ok true ↔ p.transactionVector ≠ [] ∧ p.summary.isSane = true ∧
      ∀ vote ∈ p.vals.sigs.entries, ∃ eckey, keys.getKey vote.1 = .ok eckey ∧
        o.verifyByteSig eckey (o.devcashHash p.summary.getCanonical) vote.2 = true := by
  have hlen : p.transactionVector.length < 1 ↔ p.transactionVector = [] := by
    rw [Nat.lt_one_iff, List.length_eq_zero_iff]
  rw [← verifyVals_true_iff, validate]
  split_ifs with hempty hsane
  · simp [hlen.mp hempty]
  · simp [hsane]
  · simp [mt hlen.mpr hempty, Bool.eq_true_of_not_eq_false hsane]

end ProposedBlock

theorem handleProposalBlock_valid_iff {context : DevcashContext} {mode : AppMode}
    {finalChain : Blockchain} {data : Bytes} {p : ProposedBlock}
    (h : decodeProposal keys mode finalChain data = .ok p) :
    (∃ vote, handleProposalBlock keys context mode finalChain data = .ok [.valid vote]) ↔
      p.Approved keys context := by
  have hval := @ProposedBlock.validate_true_iff o keys p
  rw [handleProposalBlock, h, Result.bind_ok]
  constructor
  · rintro ⟨vote, hv⟩
    obtain ⟨ok, hok, hv⟩ := Result.bind_eq_ok hv
    split_ifs at hv with htrue
    · obtain ⟨signed, hs, -⟩ := Result.bind_eq_ok hv
      rw [htrue] at hok
      obtain ⟨h1, h2, h3⟩ := hval.mp hok
      exact ⟨h1, h2, h3, signed, hs⟩
    · cases hv
  · rintro ⟨h1, h2, h3, signed, hs⟩
    rw [hval.mpr ⟨h1, h2, h3⟩, hs]
    exact ⟨_, rfl⟩

/-- A node votes only for a correct proposal exactly when the proposer has made correct
what the checks do not look at. -/
theorem handleProposalBlock_correct_iff (keys : KeyRing o) (context : DevcashContext)
    (mode : AppMode) (finalChain : Blockchain) (data : Bytes) :
    (∀ p vote, decodeProposal keys mode finalChain data = .ok p →
        handleProposalBlock keys context mode finalChain data = .ok [.valid vote] →
          p.Correct keys finalChain.getHighestChainState) ↔
      (∀ p, decodeProposal keys mode finalChain data = .ok p → p.Approved keys context →
        p.Endorsable keys finalChain.getHighestChainState) := by
  constructor
  · intro h p hd hp
    obtain ⟨vote, hv⟩ := (handleProposalBlock_valid_iff hd).mpr hp
    exact (ProposedBlock.correct_iff _ p).mp (h p vote hd hv)
  · intro h p vote hd hv
    exact (ProposedBlock.correct_iff _ p).mpr
      (h p hd ((handleProposalBlock_valid_iff hd).mp ⟨vote, hv⟩))

/-- A transaction with zeros for a signature. -/
def unsignedMove : Tier1Transaction :=
  let tx := Tier1Transaction.sampleMove 1 2 5
  { tx with canonical := tx.canonical.take (tx.canonical.length - kNodeSigBufSize) ++
      105 :: List.replicate 105 0 }

/-- The message of a proposer that puts it into its block. -/
def unsignedProposal : Bytes :=
  { ProposedBlock.sample with transactionVector := [.tier1 unsignedMove] }.getCanonical

/-- The vote that a handler sends. -/
def voteIn : Result (List Message) → Option Bytes
  | .ok [.valid vote] => some vote
  | _ => none

theorem eq_of_voteIn {r : Result (List Message)} {vote : Bytes} (h : voteIn r = some vote) :
    r = .ok [.valid vote] := by
  unfold voteIn at h
  split at h
  · rw [Option.some.inj h]
  · cases h

/-- The second node votes for a block whose transaction is not sound. -/
theorem unsignedProposal_endorsed :
    ∃ p vote, decodeProposal KeyRing.toy .t1 [] unsignedProposal = .ok p ∧
      handleProposalBlock KeyRing.toy (DevcashContext.sample 1) .t1 [] unsignedProposal =
        .ok [.valid vote] ∧ ¬ p.Correct KeyRing.toy ChainState.empty := by
  have hrun : (decodeProposal KeyRing.toy .t1 [] unsignedProposal).toOption.any (fun p =>
        p.transactionVector.any (fun tx => decide (tx.isSound KeyRing.toy = .ok false))) = true ∧
      (voteIn (handleProposalBlock KeyRing.toy (DevcashContext.sample 1) .t1 []
        unsignedProposal)).isSome = true := by decide +kernel
  obtain ⟨hsound, hvote⟩ := hrun
  cases hd : decodeProposal KeyRing.toy .t1 [] unsignedProposal with
  | error e =>
    rw [hd] at hsound
    cases hsound
  | ok p =>
    rw [hd] at hsound
    obtain ⟨vote, hv⟩ := Option.isSome_iff_exists.mp hvote
    refine ⟨p, vote, rfl, eq_of_voteIn hv, fun hc => ?_⟩
    obtain ⟨tx, htx, hf⟩ := List.any_eq_true.mp hsound
    cases (of_decide_eq_true hf).symm.trans (hc.sound tx htx)

end Devcash
