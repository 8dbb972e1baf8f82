import Devcash.DataOracle
import Devcash.Serialization

/-! The oracles and the envelopes that the announcer for protocol buffers takes. A proposal is
checked against an empty chain, and what comes of it is never sound. -/
namespace Devcash
open Endian Reader InputBuffer

/-- The members of the classes `dcash` and `dnero`, whose data is a transaction. -/
structure TransactionOracle where
  rawData : Bytes
  errorMsg : String

/-- Where the two classes differ. -/
structure OracleRules where
  delayRefused : Nat → Bool
  delayMsg : String
  senderRefused : ChainState → Address → Result Bool
  senderMsg : String

namespace TransactionOracle

/-- The transfers of `QuickCreate` on the data. -/
def getTransfers (d : TransactionOracle) : Result (List Transfer) := do
  let (tx, _) ← Tier2Transaction.quickCreate (ofBytes d.rawData)
  tx.getTransfers

/-- The loop of `isSound`. -/
def anyDelay (refused : Nat → Bool) : List Transfer → Result Bool
  | [] => .ok false
  | xfer :: xfers => do
    let delay ← xfer.getDelay
    if refused delay then .ok true else anyDelay refused xfers

/-- The loop of `isValid`, which stops at the first transfer that sends. -/
def anySender (refused : Address → Result Bool) : List Transfer → Result Bool
  | [] => .ok false
  | xfer :: xfers => do
    let amount ← xfer.getAmount
    if amount < 0 then
      let addr ← xfer.getAddress
      refused addr
    else anySender refused xfers

section
variable (rules : OracleRules)

def isSound (d : TransactionOracle) : Result (Bool × TransactionOracle) := do
  let xfers ← d.getTransfers
  let delayed ← anyDelay rules.delayRefused xfers
  if delayed then .ok (false, { d with errorMsg := rules.delayMsg }) else .ok (true, d)

def isValid (d : TransactionOracle) (context : Blockchain) : Result (Bool × TransactionOracle) := do
  let (sound, d) ← d.isSound rules
  if !sound then .ok (false, d)
  else
    let xfers ← d.getTransfers
    let refused ← anySender (rules.senderRefused context.getHighestChainState) xfers
    if refused then .ok (false, { d with errorMsg := rules.senderMsg }) else .ok (true, d)

def getTransactions (d : TransactionOracle) (context : Blockchain) :
    Result (OrdMap Nat (List Tier2Transaction) × TransactionOracle) := do
  let (valid, d) ← d.isValid rules context
  if !valid then .ok (OrdMap.empty, d)
  else
    let (tx, _) ← Tier2Transaction.quickCreate (ofBytes d.rawData)
    .ok (OrdMap.empty.insert 0 [tx], d)

end
end TransactionOracle

namespace Dnerowallet

def getCoinIndex : Nat := 2

end Dnerowallet

namespace Dneroavailable

def getCoinIndex : Nat := 1

end Dneroavailable

namespace Dcash

def rules : OracleRules where
  delayRefused := fun delay => delay != 0
  delayMsg := "Dcash transactions may not have a delay."
  senderRefused := fun lastState addr => do
    let amount ← lastState.getAmount Dnerowallet.getCoinIndex addr
    .ok (decide (0 < amount))
  senderMsg := "Error: Dnerowallets may not send dcash."

def isSound : TransactionOracle → Result (Bool × TransactionOracle) := TransactionOracle.isSound rules

def isValid : TransactionOracle → Blockchain → Result (Bool × TransactionOracle) :=
  TransactionOracle.isValid rules

def getTransactions : TransactionOracle → Blockchain →
    Result (OrdMap Nat (List Tier2Transaction) × TransactionOracle) :=
  TransactionOracle.getTransactions rules

end Dcash

namespace Dnero

def rules : OracleRules where
  delayRefused := fun delay => decide (delay < 1)
  delayMsg := "Dnero transactions must have a delay."
  senderRefused := fun lastState addr => do
    let wallet ← lastState.getAmount Dnerowallet.getCoinIndex addr
    if wallet < 1 then
      let available ← lastState.getAmount Dneroavailable.getCoinIndex addr
      .ok (decide (available < 1))
    else .ok false
  senderMsg := "Error: Dnerowallets or dneroavailable required."

def isSound : TransactionOracle → Result (Bool × TransactionOracle) := TransactionOracle.isSound rules

def isValid : TransactionOracle → Blockchain → Result (Bool × TransactionOracle) :=
  TransactionOracle.isValid rules

def getTransactions : TransactionOracle → Blockchain →
    Result (OrdMap Nat (List Tier2Transaction) × TransactionOracle) :=
  TransactionOracle.getTransactions rules

end Dnero

/-- The oracles `api`, `dneroavailable`, `dnerowallet`, `id` and `vote` refuse every proposal. -/
structure StubOracle where
  rawData : Bytes

namespace StubOracle

def isValid (d : StubOracle) (_ : Blockchain) : Result (Bool × StubOracle) := .ok (false, d)

def getTransactions (d : StubOracle) (_ : Blockchain) :
    Result (OrdMap Nat (List Tier2Transaction) × StubOracle) := .ok (OrdMap.empty, d)

end StubOracle

namespace Pbuf

/-- `validateOracle`, with the two virtual functions that it calls. -/
def validateOracle {ω : Type} (isValid : ω → Blockchain → Result (Bool × ω))
    (getTransactions : ω → Blockchain → Result (OrdMap Nat (List Tier2Transaction) × ω))
    (oracle : ω) (chain : Blockchain) : Result (List Tier2Transaction) := do
  let (valid, oracle) ← isValid oracle chain
  if valid then
    let (oracleActions, _) ← getTransactions oracle chain
    .ok ((oracleActions.entries.flatMap Prod.snd).map Tier2Transaction.clone)
  else .ok []

/-- `DecomposeProposal`. The name of an unknown oracle is logged. -/
def decomposeProposal (proposal : Proposal) (chain : Blockchain) : Result (List Tier2Transaction) :=
  let stub := validateOracle StubOracle.isValid StubOracle.getTransactions ⟨proposal.data⟩ chain
  if proposal.oracleName = "io.devv.api" then stub
  else if proposal.oracleName = "io.devv.data" then
    validateOracle DataOracle.isValid DataOracle.getTransactions ⟨proposal.data, ""⟩ chain
  else if proposal.oracleName = "io.devv.dcash" then
    validateOracle Dcash.isValid Dcash.getTransactions ⟨proposal.data, ""⟩ chain
  else if proposal.oracleName = "io.devv.dnero" then
    validateOracle Dnero.isValid Dnero.getTransactions ⟨proposal.data, ""⟩ chain
  else if proposal.oracleName = "io.devv.dneroavailable" then stub
  else if proposal.oracleName = "io.devv.dnerowallet" then stub
  else if proposal.oracleName = "io.devv.id" then stub
  else if proposal.oracleName = "io.devv.vote" then stub
  else .ok []

/-- `DeserializeEnvelopeProtobufString` on what was parsed; the chain is a new one. -/
def deserializeEnvelope {o : Ossl} (keys : KeyRing o) (envelope : Envelope) :
    Result (List Tier2Transaction) := do
  let ptrs ← envelope.txs.mapM (fun transaction => createTransaction keys transaction false)
  let actions ← envelope.proposals.mapM (fun proposal => decomposeProposal proposal [])
  .ok (ptrs ++ actions.flatten)

end Pbuf

theorem Result.forall₂_mapM {α β : Type} {f : α → Result β} {l : List α} {l' : List β}
    (h : l.mapM f = .ok l') : List.Forall₂ (fun a b => f a = .ok b) l l' := by
  induction l generalizing l' with
  | nil =>
    cases h
    exact .nil
  | cons a l ih =>
    rw [List.mapM_cons] at h
    obtain ⟨b, hb, h⟩ := Result.bind_eq_ok h
    obtain ⟨m, hm, h⟩ := Result.bind_eq_ok h
    cases h
    exact .cons hb (ih hm)

section
variable {o : Ossl} {keys : KeyRing o}

theorem Transfer.getAmount_of_flow {t : Transfer} {f : Flow} (h : t.flow = .ok f) :
    t.getAmount = .ok f.amount :=
  (amountCoinAddr_ok (flow_ok_iff.mp h).1).1

/-- Data that costs nothing is stored by nobody. -/
theorem DataOracle.isSound_storing {client : Address} (hclient : client.IsWallet ∨ client.IsNode)
    {data : Bytes} {sig : Signature} (hkeys : keys.Proper) (hdata : data.length < 2 ^ 64)
    (hsize : (storing client data sig).canonical.length < 2 ^ 64)
    (hfree : coinsNeeded data.length = 0) : (storing client data sig).isSound keys ≠ .ok true := by
  intro hs
  have hchecked : (storing client data sig).unflagged.isSound keys = .ok true := hs
  obtain ⟨a, hauth⟩ := Tier2Transaction.isSound_unflagged hkeys hchecked
  obtain ⟨xfers, hxfers, ⟨t, ht, x, hx, hneg⟩, -⟩ := hauth.debits
  obtain ⟨pay, settle, hget, hpay, hsettle⟩ := moves_storing hclient sig hdata hsize
  obtain rfl := Except.ok.inj (hxfers.symm.trans hget)
  rw [hfree] at hpay hsettle
  -- Neither transfer has a negative amount.
  obtain rfl | ht := List.mem_cons.mp ht
  · rw [Transfer.getAmount_of_flow hpay] at hx
    cases hx
    simp at hneg
  · obtain rfl := List.mem_singleton.mp ht
    rw [Transfer.getAmount_of_flow hsettle] at hx
    cases hx
    simp at hneg

end

theorem ChainState.getAmount_empty (c : Nat) (a : Address) : ChainState.empty.getAmount c a = .ok 0 :=
  rfl

namespace DataOracle

theorem isSound_true {d d' : DataOracle} (h : d.isSound = .ok (true, d')) : d' = d := by
  obtain ⟨t, -, h⟩ := Result.bind_eq_ok h
  dsimp only at h
  split_ifs at h
  · cases h
  · obtain ⟨s, -, h⟩ := Result.bind_eq_ok h
    split_ifs at h
    · cases h
    · cases h
    · cases h
      rfl

theorem isValid_empty {d d' : DataOracle} (hlen : d.rawData.length < 2 ^ 63)
    (h : d.isValid [] = .ok (true, d')) :
    d' = d ∧ ∃ (a : Address) (sig : Signature) (data : Bytes), (a.IsWallet ∨ a.IsNode) ∧
      (sig.IsWallet ∨ sig.IsNode) ∧ d.rawData = a.canonical ++ (sig.canonical ++ data) ∧
      coinsNeeded data.length = 0 := by
  obtain ⟨⟨sound, d1⟩, hsound, hrest⟩ := Result.bind_eq_ok h
  cases sound with
  | false => cases hrest
  | true =>
    obtain rfl := isSound_true hsound
    obtain ⟨a, s, part, hparts⟩ := parts_of_isSound hsound
    obtain ⟨t, ht, -, hsub, hs, hsize⟩ := hparts.reads
    have hsome := (hparts.isSound rfl).mp ⟨d1, hsound⟩
    have hpart : part.length < 2 ^ 63 := by
      rw [hparts.bytes, List.length_append, List.length_cons] at hlen
      omega
    have hamount : (Blockchain.getHighestChainState []).getAmount getCoinIndex
        (Address.ofBytes a.canonical) = .ok 0 := ChainState.getAmount_empty _ _
    simp only [Bool.not_true, Bool.false_eq_true, if_false, ht, hsub, hs, hsize, hamount,
      Result.bind_ok] at hrest
    have hcost : ¬ 0 < coinsNeeded (toUint64 (part.length - s.toNat)) := by
      intro hcost
      rw [if_pos hcost] at hrest
      cases hrest
    -- A size that has wrapped around is more than the client has.
    have hlt : s.toNat < part.length := by
      have hbyte := s.toNat_lt
      rw [coinsNeeded, kBytesPerCoin] at hcost
      rw [toUint64] at hsome hcost
      omega
    obtain ⟨a', sig, data, ha, hsig, hne, hraw⟩ := hparts.isProposal_iff.mpr hlt
    rw [isValid_proposal ha hsig hraw (by omega) hne] at h
    obtain ⟨available, havailable, h⟩ := Result.bind_eq_ok h
    cases (ChainState.getAmount_empty _ _).symm.trans havailable
    split_ifs at h with hfew
    · cases h
    · cases h
      exact ⟨rfl, a', sig, data, ha, hsig, hraw,
        Int.le_antisymm (Int.not_lt.mp hfew) (Int.natCast_nonneg _)⟩

theorem getTransactions_empty {d d' : DataOracle} {actions : OrdMap Nat (List Tier2Transaction)}
    (hlen : d.rawData.length < 2 ^ 63) (h : d.getTransactions [] = .ok (actions, d'))
    {e : Nat × List Tier2Transaction} (he : e ∈ actions.entries) {tx : Tier2Transaction}
    (htx : tx ∈ e.2) {o : Ossl} {keys : KeyRing o} (hkeys : keys.Proper) :
    tx.isSound keys ≠ .ok true := by
  obtain ⟨⟨valid, d1⟩, hvalid, hrest⟩ := Result.bind_eq_ok h
  cases valid with
  | false =>
    cases hrest
    exact absurd he List.not_mem_nil
  | true =>
    obtain ⟨rfl, a, sig, data, ha, hsig, hraw, hfree⟩ := isValid_empty hlen hvalid
    rw [getTransactions_proposal ha hsig hraw (by omega) hvalid] at h
    cases h
    obtain rfl := List.mem_singleton.mp he
    obtain rfl := List.mem_singleton.mp htx
    rw [hraw, List.length_append, List.length_append] at hlen
    exact isSound_storing ha hkeys (by omega) (by rw [length_storing]; omega) hfree

end DataOracle

namespace Pbuf

theorem mem_validateOracle {ω : Type} {isValid : ω → Blockchain → Result (Bool × ω)}
    {getTransactions : ω → Blockchain → Result (OrdMap Nat (List Tier2Transaction) × ω)}
    {oracle : ω} {chain : Blockchain} {txs : List Tier2Transaction}
    (h : validateOracle isValid getTransactions oracle chain = .ok txs) {tx : Tier2Transaction}
    (htx : tx ∈ txs) : ∃ oracle' actions oracle'', isValid oracle chain = .ok (true, oracle') ∧
      getTransactions oracle' chain = .ok (actions, oracle'') ∧
      ∃ e ∈ actions.entries, tx ∈ e.2 := by
  obtain ⟨⟨valid, oracle'⟩, hvalid, h⟩ := Result.bind_eq_ok h
  cases valid with
  | false =>
    cases h
    exact absurd htx List.not_mem_nil
  | true =>
    obtain ⟨⟨actions, oracle''⟩, hget, h⟩ := Result.bind_eq_ok h
    cases h
    obtain ⟨tx', htx', rfl⟩ := List.mem_map.mp htx
    exact ⟨oracle', actions, oracle'', hvalid, hget, List.mem_flatMap.mp htx'⟩

section
variable {o : Ossl} {keys : KeyRing o}

/-- The proposal goes to one of the two oracles that pass on a transaction as it is. -/
def Proposal.Pays (proposal : Proposal) : Prop :=
  proposal.oracleName = "io.devv.dcash" ∨ proposal.oracleName = "io.devv.dnero"

instance (proposal : Proposal) : Decidable proposal.Pays := inferInstanceAs (Decidable (_ ∨ _))

theorem decomposeProposal_unsound {proposal : Proposal} (hlen : proposal.data.length < 2 ^ 63)
    (hpays : ¬ proposal.Pays) {txs : List Tier2Transaction} (h : decomposeProposal proposal [] = .ok txs)
    {tx : Tier2Transaction} (htx : tx ∈ txs) (hkeys : keys.Proper) : tx.isSound keys ≠ .ok true := by
  have hstub (h : validateOracle StubOracle.isValid StubOracle.getTransactions ⟨proposal.data⟩ [] =
      .ok txs) : tx.isSound keys ≠ .ok true := by
    obtain ⟨d, actions, d', hvalid, -⟩ := mem_validateOracle h htx
    cases hvalid
  rw [Proposal.Pays, not_or] at hpays
  simp only [decomposeProposal, if_neg hpays.1, if_neg hpays.2] at h
  split_ifs at h
  · exact hstub h
  · obtain ⟨d, actions, d', hvalid, hget, e, he, htx⟩ := mem_validateOracle h htx
    obtain ⟨rfl, -⟩ := DataOracle.isValid_empty hlen hvalid
    exact DataOracle.getTransactions_empty hlen hget he htx hkeys
  · exact hstub h
  · exact hstub h
  · exact hstub h
  · exact hstub h
  · cases h
    exact absurd htx List.not_mem_nil

theorem isSound_createTransaction {pb : Transaction} {tx : Tier2Transaction}
    (h : createTransaction keys pb false = .ok tx) : tx.unflagged.isSound keys = .ok true := by
  obtain ⟨⟨ts, key⟩, -, h⟩ := Result.bind_eq_ok h
  cases key with
  | none => cases h
  | some k =>
    obtain ⟨signature, -, h⟩ := Result.bind_eq_ok h
    obtain ⟨tx', hdemand, h⟩ := Result.bind_eq_ok h
    cases h
    obtain ⟨sound, hsound, hdemand⟩ := Result.bind_eq_ok hdemand
    split_ifs at hdemand with htrue
    cases hdemand
    rw [htrue] at hsound
    exact hsound

/-- Of the transactions that come of an envelope the first ones, which it holds as such, are
sound. Those of its proposals to store data are sound for nobody. -/
theorem proposals_unsound {envelope : Envelope}
    (hlen : ∀ proposal ∈ envelope.proposals, proposal.data.length < 2 ^ 63)
    (hpays : ∀ proposal ∈ envelope.proposals, ¬ proposal.Pays)
    {ptrs : List Tier2Transaction} (h : deserializeEnvelope keys envelope = .ok ptrs) :
    (∀ tx ∈ ptrs.take envelope.txs.length, tx.unflagged.isSound keys = .ok true) ∧
      ∀ keys' : KeyRing o, keys'.Proper →
        ∀ tx ∈ ptrs.drop envelope.txs.length, tx.isSound keys' ≠ .ok true := by
  obtain ⟨made, hmade, h⟩ := Result.bind_eq_ok h
  obtain ⟨actions, hactions, h⟩ := Result.bind_eq_ok h
  cases h
  have hcount : made.length = envelope.txs.length := (Result.forall₂_mapM hmade).length_eq.symm
  rw [← hcount, List.take_left, List.drop_left]
  constructor
  · intro tx htx
    obtain ⟨pb, -, hpb⟩ := Result.mem_mapM hmade htx
    exact isSound_createTransaction hpb
  · intro keys' hkeys tx htx
    obtain ⟨txs, htxs, htx⟩ := List.mem_flatten.mp htx
    obtain ⟨proposal, hmem, hproposal⟩ := Result.mem_mapM hactions htxs
    exact decomposeProposal_unsound (hlen proposal hmem) (hpays proposal hmem) hproposal htx hkeys

end

/-- A payment, data to store, and a vote. -/
def sampleEnvelope : Envelope where
  txs := [sample [-5, 5] sampleNonce]
  proposals := [⟨"io.devv.data", (DataOracle.sampleProposal 1).rawData⟩, ⟨"io.devv.vote", [1]⟩]

theorem proposals_unsound_sampleEnvelope : ∃ ptrs,
    deserializeEnvelope KeyRing.toy sampleEnvelope = .ok ptrs ∧ ptrs.length = 2 ∧
      (∀ tx ∈ ptrs.take 1, tx.unflagged.isSound KeyRing.toy = .ok true) ∧
      ∀ tx ∈ ptrs.drop 1, tx.isSound KeyRing.toy ≠ .ok true := by
  have hmade : (∀ proposal ∈ sampleEnvelope.proposals,
        proposal.data.length < 2 ^ 63 ∧ ¬ proposal.Pays) ∧
      ∃ ptrs, deserializeEnvelope KeyRing.toy sampleEnvelope = .ok ptrs ∧ ptrs.length = 2 := by
    decide +kernel
  obtain ⟨hmade, ptrs, hptrs, hcount⟩ := hmade
  obtain ⟨hsound, hunsound⟩ := proposals_unsound (fun proposal h => (hmade proposal h).1)
    (fun proposal h => (hmade proposal h).2) hptrs
  exact ⟨ptrs, hptrs, hcount, hsound, hunsound KeyRing.toy (by decide)⟩

end Pbuf
end Devcash
