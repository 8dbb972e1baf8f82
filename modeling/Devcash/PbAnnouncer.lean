import Mathlib
import Devcash.DevcashMessage
import Devcash.Lib.Run
import Devcash.Oracles
import Devcash.Progress
import Devcash.Topics

/-! The loop of the announcer for protocol buffers: an envelope comes in, its transactions go to
the server one by one, and the client gets an answer. -/
namespace Devcash
open Endian Reader InputBuffer

/-- `what()` of an exception that is a `std::runtime_error`. -/
def Error.runtimeWhat : Error → Option String
  | .deserialization what | .message what | .runtime what | .rangeError what => some what
  | .logic _ | .outOfRange | .thrown _ | .badAccess | .diverges | .deadlock => none

/-- What the loop has done: the messages queued at the server and the answers. `ended` is what
has reached the handler around the loop. -/
structure PbAnnouncer where
  keepRunning : Bool
  queued : List DevcashMessage
  replies : List String
  ended : Option Error

namespace PbAnnouncer

/-- What a turn of the loop meets: the envelope that is parsed, unless `recv` fails, and whether
the stop file exists after each of the transactions. -/
structure Turn where
  received : Option Pbuf.Envelope
  stopFile : Nat → Bool

/-- When `recv` fails, the message is empty, and so is the envelope. -/
def Turn.envelope (t : Turn) : Pbuf.Envelope := t.received.getD ⟨[], []⟩

def debugTransactionIndex (processed : Nat) : UInt32 := UInt32.ofNat (processed + 11000000)

/-- A transaction announcement to the own node. -/
def announcement (context : DevcashContext) (processed : Nat) (data : Bytes) : DevcashMessage :=
  ⟨context.getUri, EMessageType.transactionAnnouncement.word, data, debugTransactionIndex processed⟩

def published (count : Nat) : String :=
  "Successfully published " ++ toString (u32 count) ++ " transactions."

def refused (what : String) : String := "Deserialization error: " ++ what

section
variable {o : Ossl} (keys : KeyRing o) (context : DevcashContext)

/-- One turn of the loop in `main`. -/
def serve (s : PbAnnouncer) (t : Turn) : PbAnnouncer :=
  if s.keepRunning then
    match Pbuf.deserializeEnvelope keys t.envelope with
    | .error e =>
      match e.runtimeWhat with
      | some what =>
        { s with keepRunning := t.received.isSome, replies := s.replies ++ [refused what] }
      | none => { s with keepRunning := false, ended := some e }
    | .ok ptrs =>
      { s with
        keepRunning := t.received.isSome && !(List.range ptrs.length).any t.stopFile
        queued := s.queued ++
          (ptrs.map Tier2Transaction.getCanonical).mapIdx (announcement context)
        replies := s.replies ++ [published ptrs.length] }
  else s

end
end PbAnnouncer

/-- What the loop answers. -/
abbrev AtRuntime (e : Error) : Prop := e.runtimeWhat.isSome = true

/-- Loading a public key throws nothing but a `std::runtime_error`. -/
def Ossl.LoadsAtRuntime (o : Ossl) : Prop := ∀ a, (o.setPublicKey a).Throws AtRuntime

variable {o : Ossl} {keys : KeyRing o}

theorem atRuntime_getKey (hload : o.LoadsAtRuntime) (a : Address) :
    (keys.getKey a).Throws AtRuntime := by
  rw [KeyRing.getKey]
  split
  · exact .ok _
  · exact .ite (hload a) (.ite (hload a) (.error rfl))

theorem atRuntime_signature (vec : Bytes) : (Signature.ofBytes vec).Throws AtRuntime :=
  .ite (.ok _) (.ite (.ite (.ok _) (.error rfl)) (.ite (.ok _) (.ite (.ite (.ok _) (.error rfl))
    (.error rfl))))

namespace Pbuf

/-- The fields are in their types, and there are as many bytes of a signature as the operation
asks for. -/
structure Transaction.Suited (pb : Transaction) : Prop where
  operation : 0 ≤ pb.operation ∧ pb.operation < OpType.numOperations
  xfers : ∀ x ∈ pb.xfers, x.flow.Typed ∧ i64 x.amount = x.amount
  signature : ∀ sig, Signature.ofBytes pb.sig = .ok sig →
    (pb.oper = OpType.exchange.toByte ∨ sig.IsNode) ∧ (pb.binary sig).canonical.length < 2 ^ 64

theorem Transaction.Suited.typed {pb : Transaction} (h : pb.Suited) {sig : Signature}
    (hsig : Signature.ofBytes pb.sig = .ok sig) : pb.Typed sig :=
  ⟨h.operation, h.xfers, hsig⟩

/-- One transfer sends, and the transaction with its signature is sound. -/
def Transaction.Accepted (keys : KeyRing o) (pb : Transaction) : Prop :=
  ∃ sig, Signature.ofBytes pb.sig = .ok sig ∧
    (sends pb.xfers).length = 1 ∧ (pb.binary sig).isSound keys = .ok true

instance (keys : KeyRing o) (pb : Transaction) : Decidable (pb.Accepted keys) :=
  inferInstanceAs (Decidable (∃ sig, Signature.ofBytes pb.sig = .ok sig ∧ _ ∧ _))

/-- The transaction laid out with its signature. -/
def Transaction.bytes (pb : Transaction) : Bytes :=
  match Signature.ofBytes pb.sig with
  | .ok sig => (pb.binary sig).canonical
  | .error _ => []

theorem atRuntime_readXfers (hload : o.LoadsAtRuntime) (l : List Transfer) (key : Option o.EcKey) :
    (readXfers keys l key).Throws AtRuntime := by
  induction l generalizing key with
  | nil => exact .ok _
  | cons x l ih =>
    cases key with
    | some k =>
      rw [readXfers]
      exact .ite (.error rfl) ((ih (some k)).bind (fun _ _ => .ok _))
    | none =>
      rw [readXfers]
      refine .ite ?_ ((ih none).bind (fun _ _ => .ok _))
      exact (atRuntime_getKey hload _).bind (fun k _ => (ih (some k)).bind (fun _ _ => .ok _))

theorem atRuntime_scanTransfers {l : List Transfer}
    (h : ∀ x ∈ l, x.flow.Typed ∧ i64 x.amount = x.amount) (total : Int) (sender : Option Address) :
    (Tier2Transaction.scanTransfers (transfers l) total sender).Throws AtRuntime := by
  induction l generalizing total sender with
  | nil => exact .ok _
  | cons x l ih =>
    obtain ⟨⟨htyped, hrange⟩, hl⟩ := List.forall_mem_cons.mp h
    rw [transfers, List.map_cons, ← transfers, Tier2Transaction.scanTransfers,
      Devcash.Transfer.getAmount_ofFlow htyped hrange, Devcash.Transfer.getAddress_ofFlow htyped]
    refine .ite ?_ (ih hl _ _)
    cases sender with
    | none => exact ih hl _ _
    | some s => exact .ite (.error rfl) (ih hl _ _)

/-- The accessors find what the layout has, so the check only throws what it means to. -/
theorem atRuntime_isSound (hload : o.LoadsAtRuntime) {pb : Transaction} (h : pb.Suited)
    {sig : Signature} (hsig : Signature.ofBytes pb.sig = .ok sig) :
    ((pb.binary sig).isSound keys).Throws AtRuntime := by
  obtain ⟨hkind, hsize⟩ := h.signature sig hsig
  have hframes := Tier2Transaction.frames_ofSignature hsize
  have hget : ((pb.binary sig).getSignature).Throws AtRuntime := by
    have hfits : 0 + (if pb.oper = OpType.exchange.toByte then kWalletSigBufSize
        else kNodeSigBufSize) ≤ sig.canonical.length := by
      split_ifs with hoper
      · obtain hwallet | hnode := Signature.ofBytes_kind hsig
        · exact hwallet.1.ge
        · rw [hnode.1]
          decide
      · exact (hkind.resolve_left hoper).1.ge
    rw [Transaction.binary, hframes.getSignature, slice, if_pos hfits]
    exact atRuntime_signature _
  rw [Tier2Transaction.isSound, if_neg (show ¬ (pb.binary sig).isSoundFlag = true from
    Bool.false_ne_true), getTransfers_binary (h.typed hsig) hsize]
  rw [Transaction.binary] at hget ⊢
  rw [hframes.getOperation, hframes.getMessageDigest]
  simp only [Result.bind_ok]
  refine (atRuntime_scanTransfers h.xfers 0 none).bind (fun p _ => ?_)
  refine .ite (.error rfl) (.ite (.error rfl) (.ite (.error rfl) ?_))
  refine (atRuntime_getKey hload _).bind (fun k _ => ?_)
  exact hget.bind (fun s _ => .ite (.ok _) (.error rfl))

theorem atRuntime_createTransaction (hload : o.LoadsAtRuntime) {pb : Transaction} (h : pb.Suited) :
    (createTransaction keys pb false).Throws AtRuntime := by
  refine (atRuntime_readXfers hload _ _).bind (fun r hr => ?_)
  obtain ⟨ts, key⟩ := r
  cases key with
  | none => exact .error rfl
  | some k =>
    obtain ⟨x, -, -, rfl⟩ := (readXfers_none_iff _ _ _).mp hr
    refine (atRuntime_signature _).bind (fun sig hsig => ?_)
    refine ((atRuntime_isSound hload h hsig).bind (fun sound _ => ?_)).bind (fun _ _ => .ok _)
    exact .ite (.ok _) (.error rfl)

variable (keys) in
theorem createTransaction_accepted {pb : Transaction} (h : pb.Suited) :
    ((∃ tx, createTransaction keys pb false = .ok tx) ↔ pb.Accepted keys) ∧
      ∀ tx, createTransaction keys pb false = .ok tx → tx.getCanonical = pb.bytes := by
  cases hsig : Signature.ofBytes pb.sig with
  | error e =>
    have hnone (tx : Tier2Transaction) : createTransaction keys pb false ≠ .ok tx := by
      intro htx
      obtain ⟨⟨ts, key⟩, -, htx⟩ := Result.bind_eq_ok htx
      cases key with
      | none => cases htx
      | some k =>
        simp only [hsig, Bool.false_eq_true, if_false] at htx
        cases htx
    refine ⟨iff_of_false (fun hmade => hmade.elim hnone) ?_, fun tx htx => absurd htx (hnone tx)⟩
    rintro ⟨sig, hok, -⟩
    rw [hsig] at hok
    cases hok
  | ok sig =>
    have htyped := h.typed hsig
    have hbytes : pb.bytes = (pb.binary sig).canonical := by
      rw [Transaction.bytes, hsig]
    refine ⟨?_, fun tx htx => ?_⟩
    · rw [createTransaction_iff htyped (h.signature sig hsig).2, Transaction.Accepted]
      constructor
      · intro hsound
        exact ⟨sig, hsig, hsound⟩
      · rintro ⟨sig', hsig', hsound⟩
        cases hsig.symm.trans hsig'
        exact hsound
    · rw [(createTransaction_ok htyped htx).2.2, hbytes]

theorem mapM_canonical {txs : List Transaction} (h : ∀ pb ∈ txs, pb.Suited)
    {ptrs : List Tier2Transaction}
    (hall : List.Forall₂ (fun pb tx => createTransaction keys pb false = .ok tx) txs ptrs) :
    ptrs.map Tier2Transaction.getCanonical = txs.map Transaction.bytes ∧
      ∀ pb ∈ txs, pb.Accepted keys := by
  induction hall with
  | nil => exact ⟨rfl, by simp⟩
  | cons htx _ ih =>
    obtain ⟨hpb, hl⟩ := List.forall_mem_cons.mp h
    obtain ⟨hmap, haccepted⟩ := ih hl
    obtain ⟨hiff, hcan⟩ := createTransaction_accepted keys hpb
    rw [List.map_cons, List.map_cons, hcan _ htx, hmap]
    exact ⟨rfl, List.forall_mem_cons.mpr ⟨hiff.mp ⟨_, htx⟩, haccepted⟩⟩

variable (keys) in
theorem mapM_createTransaction (hload : o.LoadsAtRuntime) {txs : List Transaction}
    (h : ∀ pb ∈ txs, pb.Suited) :
    ((∀ pb ∈ txs, pb.Accepted keys) ∧
      ∃ ptrs, txs.mapM (fun pb => createTransaction keys pb false) = .ok ptrs ∧
        ptrs.map Tier2Transaction.getCanonical = txs.map Transaction.bytes) ∨
    (¬ ∀ pb ∈ txs, pb.Accepted keys) ∧
      ∃ e what, txs.mapM (fun pb => createTransaction keys pb false) = .error e ∧
        e.runtimeWhat = some what := by
  cases hmap : txs.mapM (fun pb => createTransaction keys pb false) with
  | ok ptrs =>
    obtain ⟨hcan, haccepted⟩ := mapM_canonical h (Result.forall₂_mapM hmap)
    exact Or.inl ⟨haccepted, ptrs, rfl, hcan⟩
  | error e =>
    have hthrows := Except.Throws.mapM (fun pb hpb => atRuntime_createTransaction hload (h pb hpb)) e hmap
    obtain ⟨what, hwhat⟩ := Option.isSome_iff_exists.mp hthrows
    refine Or.inr ⟨fun haccepted => ?_, e, what, rfl, hwhat⟩
    obtain ⟨ptrs, hptrs⟩ := Result.exists_mapM
      (fun pb hpb => (createTransaction_accepted keys (h pb hpb)).1.mpr (haccepted pb hpb))
    rw [hptrs] at hmap
    cases hmap

end Pbuf

namespace PbAnnouncer

/-- The envelope has come in, it holds transactions only, and there is no stop file. -/
structure Turn.Suited (t : Turn) : Prop where
  received : t.received.isSome = true
  txs : ∀ pb ∈ t.envelope.txs, pb.Suited
  proposals : t.envelope.proposals = []
  stopFile : ∀ i, t.stopFile i = false

section
variable (keys : KeyRing o) (context : DevcashContext)

/-- What is to be announced for an envelope: all of it or nothing. -/
def announced (envelope : Pbuf.Envelope) : List DevcashMessage :=
  if ∀ pb ∈ envelope.txs, pb.Accepted keys then
    (envelope.txs.map Pbuf.Transaction.bytes).mapIdx (announcement context)
  else []

/-- What is to be answered. -/
def Answers (envelope : Pbuf.Envelope) (reply : String) : Prop :=
  if ∀ pb ∈ envelope.txs, pb.Accepted keys then reply = published envelope.txs.length
  else ∃ what, reply = refused what

theorem serve_suited (hload : o.LoadsAtRuntime) {s : PbAnnouncer} (hs : s.keepRunning = true)
    {t : Turn} (ht : t.Suited) : ∃ reply, Answers keys t.envelope reply ∧
      s.serve keys context t = { s with
        queued := s.queued ++ announced keys context t.envelope
        replies := s.replies ++ [reply] } := by
  obtain ⟨haccepted, ptrs, hmap, hcan⟩ | ⟨hrefused, e, what, hmap, hwhat⟩ :=
    Pbuf.mapM_createTransaction keys hload ht.txs
  · have hcount : ptrs.length = t.envelope.txs.length := by
      simpa using congrArg List.length hcan
    refine ⟨published ptrs.length, ?_, ?_⟩
    · rw [Answers, if_pos haccepted, hcount]
    · have hd : Pbuf.deserializeEnvelope keys t.envelope = .ok ptrs := by
        rw [Pbuf.deserializeEnvelope, hmap, ht.proposals]
        simp
      simp [serve, hs, hd, ht.received, ht.stopFile, announced, if_pos haccepted, hcan]
  · refine ⟨refused what, ?_, ?_⟩
    · rw [Answers, if_neg hrefused]
      exact ⟨what, rfl⟩
    · have hd : Pbuf.deserializeEnvelope keys t.envelope = .error e := by
        rw [Pbuf.deserializeEnvelope, hmap]
        rfl
      simp [serve, hs, hd, hwhat, ht.received, announced, if_neg hrefused]

/-- In a run on envelopes of transactions the loop goes on and answers each of them, and what
has been queued at the end is, for each envelope in its turn, all of its transactions if they
are accepted and none of them otherwise. -/
theorem published_exact (hload : o.LoadsAtRuntime) {s : PbAnnouncer} (hs : s.keepRunning = true)
    {turns : List Turn} (h : ∀ t ∈ turns, t.Suited) :
    ∃ answers, List.Forall₂ (fun t reply => Answers keys t.envelope reply) turns answers ∧
      Run.after (serve keys context) s turns = { s with
        queued := s.queued ++ turns.flatMap (fun t => announced keys context t.envelope)
        replies := s.replies ++ answers } := by
  induction turns generalizing s with
  | nil => exact ⟨[], .nil, by simp⟩
  | cons t turns ih =>
    obtain ⟨ht, hturns⟩ := List.forall_mem_cons.mp h
    obtain ⟨reply, hreply, hserve⟩ := serve_suited keys context hload hs ht
    obtain ⟨answers, hanswers, hrun⟩ := ih (s := s.serve keys context t) (by rw [hserve]; exact hs)
      hturns
    refine ⟨reply :: answers, .cons hreply hanswers, ?_⟩
    rw [Run.after_cons, hrun, hserve]
    simp

end

theorem loadsAtRuntime_toy : Ossl.toy.LoadsAtRuntime := fun _ => .ok _

def start : PbAnnouncer := ⟨true, [], [], none⟩

/-- An envelope comes in. -/
def sampleTurn (envelope : Pbuf.Envelope) : Turn := ⟨some envelope, fun _ => false⟩

/-- A payment, and the same one without its signature. -/
def sampleTurns : List Turn :=
  [sampleTurn ⟨[Pbuf.sample [-5, 5] Pbuf.sampleNonce], []⟩,
    sampleTurn ⟨[{ Pbuf.sample [-5, 5] Pbuf.sampleNonce with sig := [] }], []⟩]

theorem suited_sampleTurns : ∀ t ∈ sampleTurns, t.Suited := by
  have htyped := Pbuf.typed_sample
  have hsize : ((Pbuf.sample [-5, 5] Pbuf.sampleNonce).binary
      (Pbuf.sampleSig [-5, 5] Pbuf.sampleNonce)).canonical.length < 2 ^ 64 := by
    decide +kernel
  intro t ht
  obtain rfl | ht := List.mem_cons.mp ht
  · refine ⟨rfl, List.forall_mem_singleton.mpr ⟨htyped.operation, htyped.xfers, ?_⟩, rfl, fun _ => rfl⟩
    intro sig hsig
    cases htyped.signature.symm.trans hsig
    exact ⟨Or.inl rfl, hsize⟩
  · obtain rfl := List.mem_singleton.mp ht
    have hnone : Signature.ofBytes [] = .error (.runtime "Invalid Signature size: 0") := rfl
    refine ⟨rfl, List.forall_mem_singleton.mpr ⟨htyped.operation, htyped.xfers, ?_⟩, rfl, fun _ => rfl⟩
    intro sig hsig
    cases hnone.symm.trans hsig

theorem published_exact_sampleTurns :
    let s := Run.after (serve KeyRing.toy (DevcashContext.sample 0)) start sampleTurns
    s.keepRunning = true ∧ s.replies.length = 2 ∧ s.queued =
      [announcement (DevcashContext.sample 0) 0 (Pbuf.sample [-5, 5] Pbuf.sampleNonce).bytes] := by
  have hannounced : sampleTurns.flatMap
      (fun t => announced KeyRing.toy (DevcashContext.sample 0) t.envelope) =
      [announcement (DevcashContext.sample 0) 0 (Pbuf.sample [-5, 5] Pbuf.sampleNonce).bytes] := by
    decide +kernel
  obtain ⟨answers, hanswers, hrun⟩ := published_exact KeyRing.toy (DevcashContext.sample 0)
    loadsAtRuntime_toy (s := start) rfl suited_sampleTurns
  rw [hannounced] at hrun
  simp only [hrun]
  exact ⟨rfl, hanswers.length_eq.symm, rfl⟩

end PbAnnouncer

/-- The bytes pass the checks of `QuickFill` and end before the type byte of the signature. -/
def Tier2Transaction.CutBeforeType (raw : Bytes) : Prop :=
  kTxMinSize ≤ raw.length ∧
    (∃ op, byteAt raw kOperationOffset = .ok op ∧ op.toNat < OpType.numOperations) ∧
    ∃ x, binToUint64 raw 0 = .ok x ∧ ∃ n, binToUint64 raw 8 = .ok n ∧
      kMinNonceSize ≤ n ∧ raw.length ≤ u64 (kTransferOffset + x + n)

instance (raw : Bytes) : Decidable (Tier2Transaction.CutBeforeType raw) :=
  inferInstanceAs (Decidable (_ ∧ (∃ op, byteAt raw kOperationOffset = .ok op ∧ _) ∧
    ∃ x, binToUint64 raw 0 = .ok x ∧ ∃ n, binToUint64 raw 8 = .ok n ∧ _))

theorem byteAt_of_le {bytes : Bytes} {loc : Nat} (h : bytes.length ≤ loc) :
    byteAt bytes loc = .error .outOfRange := by
  rw [byteAt, List.getElem?_eq_none h]

theorem Tier2Transaction.quickCreate_cut {raw : Bytes} (h : CutBeforeType raw) :
    quickCreate (ofBytes raw) = .error .outOfRange := by
  obtain ⟨hsize, ⟨op, hop, hoper⟩, x, hx, n, hn, hmin, hcut⟩ := h
  have hlen : ¬ InputBuffer.size (ofBytes raw) < (ofBytes raw).offset + kTxMinSize :=
    Nat.not_lt.mpr ((Nat.zero_add kTxMinSize).le.trans hsize)
  have h1 : getNextUint64 false (ofBytes raw) = .ok (x, ofBytes raw) := getWord_of_ok hx
  have h2 : getSecondUint64 false (ofBytes raw) = .ok (n, ofBytes raw) := getWord_of_ok hn
  have h3 : offsetAt kOperationOffset (ofBytes raw) = .ok (op, ofBytes raw) := offsetAt_of_ok hop
  have h4 : offsetAt (u64 (kTransferOffset + x + n)) (ofBytes raw) = .error .outOfRange := by
    rw [offsetAt, ofBytes, Nat.add_zero, u64_of_lt (u64_lt _), byteAt_of_le hcut]
    rfl
  simp only [quickCreate, quickFill, if_neg hlen]
  rw [bind_of_ok h1, bind_of_ok h2, if_neg (Nat.not_lt.mpr hmin), bind_of_ok h3,
    if_neg (Nat.not_le.mpr hoper), bind_of_error h4]

/-- The bytes end within the address or before the signature. -/
def DataOracle.CutInAddress (raw : Bytes) : Prop :=
  raw = [] ∨ ∃ t, byteAt raw 0 = .ok t ∧ 1 ≤ Address.getSizeByType t ∧
    raw.length ≤ Address.getSizeByType t + 1

instance (raw : Bytes) : Decidable (DataOracle.CutInAddress raw) :=
  inferInstanceAs (Decidable (_ ∨ ∃ t, byteAt raw 0 = .ok t ∧ _ ∧ _))

theorem DataOracle.isSound_cutInAddress {d : DataOracle} (h : CutInAddress d.rawData) :
    d.isSound = .error .outOfRange := by
  rw [isSound]
  obtain hnil | ⟨t, ht, hpos, hcut⟩ := h
  · rw [hnil]
    rfl
  · rw [ht, Result.bind_ok]
    simp only [if_neg (Nat.not_lt.mpr hpos), byteAt_of_le hcut]
    rfl

namespace Pbuf

/-- A proposal of data that ends within the address or before the signature, or a payment that
passes the first checks and ends before the type byte of its signature. -/
def Proposal.Cut (proposal : Proposal) : Prop :=
  proposal.oracleName = "io.devv.data" ∧ DataOracle.CutInAddress proposal.data ∨
    (proposal.oracleName = "io.devv.dcash" ∨ proposal.oracleName = "io.devv.dnero") ∧
      Tier2Transaction.CutBeforeType proposal.data

theorem isValid_cut {rules : OracleRules} {raw : Bytes} (h : Tier2Transaction.CutBeforeType raw)
    (msg : String) (chain : Blockchain) :
    TransactionOracle.isValid rules ⟨raw, msg⟩ chain = .error .outOfRange := by
  rw [TransactionOracle.isValid, TransactionOracle.isSound, TransactionOracle.getTransfers,
    Tier2Transaction.quickCreate_cut h]
  rfl

theorem decomposeProposal_cut {proposal : Proposal} (h : proposal.Cut) (chain : Blockchain) :
    decomposeProposal proposal chain = .error .outOfRange := by
  obtain ⟨hname, hcut⟩ | ⟨hname | hname, hcut⟩ := h
  · have hvalid : DataOracle.isValid ⟨proposal.data, ""⟩ chain = .error .outOfRange := by
      rw [DataOracle.isValid, DataOracle.isSound_cutInAddress hcut]
      rfl
    rw [decomposeProposal, hname]
    simp [validateOracle, hvalid]
  · rw [decomposeProposal, hname]
    simp [validateOracle, Dcash.isValid, isValid_cut hcut]
  · rw [decomposeProposal, hname]
    simp [validateOracle, Dnero.isValid, isValid_cut hcut]

end Pbuf

namespace PbAnnouncer
variable {context : DevcashContext}

theorem after_stopped {s : PbAnnouncer} (hs : s.keepRunning = false) (turns : List Turn) :
    Run.after (serve keys context) s turns = s := by
  induction turns with
  | nil => rfl
  | cons t turns ih =>
    have hserve : s.serve keys context t = s := by
      rw [serve, hs]
      rfl
    rw [Run.after_cons, hserve, ih]

/-- An envelope whose transactions are accepted and whose first proposal is cut off before its
signature ends the process, whatever it has done before: nothing of the envelope is queued, and
neither it nor any later one is answered. -/
theorem cut_proposal_ends {s : PbAnnouncer} (hs : s.keepRunning = true) {t : Turn}
    (htxs : ∀ pb ∈ t.envelope.txs, ∃ tx, Pbuf.createTransaction keys pb false = .ok tx)
    {proposal : Pbuf.Proposal} {rest : List Pbuf.Proposal}
    (hproposals : t.envelope.proposals = proposal :: rest) (hcut : proposal.Cut)
    (later : List Turn) :
    Run.after (serve keys context) s (t :: later) =
      { s with keepRunning := false, ended := some .outOfRange } := by
  obtain ⟨ptrs, hptrs⟩ := Result.exists_mapM htxs
  have hd : Pbuf.deserializeEnvelope keys t.envelope = .error .outOfRange := by
    rw [Pbuf.deserializeEnvelope, hptrs, Result.bind_ok, hproposals, List.mapM_cons,
      Pbuf.decomposeProposal_cut hcut]
    rfl
  have hserve : s.serve keys context t =
      { s with keepRunning := false, ended := some .outOfRange } := by
    rw [serve, if_pos hs, hd]
    rfl
  rw [Run.after_cons, hserve, after_stopped rfl]

/-- The sizes of a transaction of 125 bytes before its signature, and 91 bytes of it. -/
def sampleCut : Bytes := leBytes 8 100 ++ leBytes 8 8 ++ 2 :: List.replicate 74 0

theorem cut_proposal_ends_sampleCut :
    Run.after (serve KeyRing.toy (DevcashContext.sample 0)) start
        (sampleTurn ⟨[], [⟨"io.devv.dcash", sampleCut⟩]⟩ :: sampleTurns) =
      { start with keepRunning := false, ended := some .outOfRange } :=
  cut_proposal_ends rfl (by simp [sampleTurn, Turn.envelope]) rfl
    (Or.inr ⟨Or.inl rfl, by decide +kernel⟩) sampleTurns

end PbAnnouncer
end Devcash
