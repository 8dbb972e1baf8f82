import Devcash.Construction
import Devcash.KeyLoading
import Devcash.Lib.Quota
import Devcash.Overspend
import Devcash.SectionCodec

/-! The programs that generate transactions for tests: the first one gives each wallet its coins,
then the wallets pay each other in rounds until enough has been generated. -/
namespace Devcash

theorem Address.IsNode.isNodeAddress {a : Address} (h : a.IsNode) : a.isNodeAddress = true := by
  obtain ⟨hlen, hhead⟩ := h
  rw [Address.isNodeAddress, hhead, Address.isNull]
  cases hc : a.canonical with
  | nil => rw [hc] at hhead; cases hhead
  | cons b l =>
    rw [hc] at hhead
    cases hhead
    rfl

/-- The transaction has been found sound, with this operation and these transfers. -/
structure Tier2Transaction.Settled (tx : Tier2Transaction) (oper : Byte) (fs : List Flow) : Prop where
  sound : tx.isSoundFlag = true
  operation : tx.getOperation = .ok oper
  transfers : tx.getTransfers = .ok (fs.map Transfer.ofFlow)

namespace Tier2Transaction
variable {o : Ossl} {keys : KeyRing o}

theorem scanTransfers_receive {fs : List Flow}
    (htyped : ∀ f ∈ fs, f.Typed ∧ i64 f.amount = f.amount) (hpos : ∀ f ∈ fs, 0 ≤ f.amount)
    {total : Int} (htotal : i64 total = total) (sender : Option Address) :
    scanTransfers (fs.map Transfer.ofFlow) total sender =
      .ok (i64 (total + (fs.map Flow.amount).sum), sender) := by
  induction fs generalizing total with
  | nil =>
    rw [List.map_nil, List.map_nil, List.sum_nil, Int.add_zero, htotal]
    rfl
  | cons f fs ih =>
    obtain ⟨⟨hf, hx⟩, hrest⟩ := List.forall_mem_cons.mp htyped
    obtain ⟨hfpos, hrestpos⟩ := List.forall_mem_cons.mp hpos
    rw [List.map_cons, scanTransfers, Transfer.getAmount_ofFlow hf hx, Result.bind_ok]
    simp only [if_neg (Int.not_lt.mpr hfpos)]
    rw [ih hrest hrestpos (i64_i64 _), i64_add_i64, List.map_cons, List.sum_cons, Int.add_assoc]

theorem length_transfers_le {fs : List Flow} (h : ∀ f ∈ fs, f.Typed) :
    ((fs.map Transfer.ofFlow).flatMap Transfer.getCanonical).length ≤ 74 * fs.length := by
  induction fs with
  | nil => exact Nat.le_refl 0
  | cons f fs ih =>
    obtain ⟨hf, hrest⟩ := List.forall_mem_cons.mp h
    have hone : (Transfer.ofFlow f).getCanonical.length ≤ 74 := by
      obtain hw | hn := Transfer.onAccount_ofFlow hf
      · exact hw.1.trans_le (by decide)
      · exact hn.1.le
    have htail := ih hrest
    rw [List.map_cons, List.flatMap_cons, List.length_append, List.length_cons]
    omega

/-- One flow sends what the others receive, and the sender may do the operation. -/
structure Moves (oper : Byte) (f : Flow) (rest : List Flow) : Prop where
  typed : ∀ g ∈ f :: rest, g.Typed ∧ i64 g.amount = g.amount
  sends : f.amount < 0
  receive : ∀ g ∈ rest, 0 ≤ g.amount
  sum : f.amount + (rest.map Flow.amount).sum = 0
  rule : oper = OpType.exchange.toByte ∧ f.addr.IsWallet ∨
    oper ≠ OpType.exchange.toByte ∧ f.addr.IsNode

section
variable {oper : Byte} {f : Flow} {rest : List Flow} {nonce : Bytes} {key : o.EcKey} {sig : Signature}

theorem Moves.scanTransfers (h : Moves oper f rest) :
    scanTransfers ((f :: rest).map Transfer.ofFlow) 0 none = .ok (0, some f.addr) := by
  obtain ⟨⟨hf, hx⟩, hrest⟩ := List.forall_mem_cons.mp h.typed
  rw [List.map_cons, Tier2Transaction.scanTransfers, Transfer.getAmount_ofFlow hf hx, Result.bind_ok]
  simp only [if_pos h.sends, Transfer.getAddress_ofFlow hf, Result.bind_ok]
  rw [scanTransfers_receive hrest h.receive (i64_i64 _), i64_add_i64, Int.zero_add, h.sum]
  rfl

theorem Moves.isINN (h : Moves oper f rest) (hoper : oper ≠ OpType.exchange.toByte) :
    keys.isINN f.addr = true := by
  obtain ⟨hexchange, -⟩ | ⟨-, hn⟩ := h.rule
  · exact absurd hexchange hoper
  · exact hn.isNodeAddress

theorem Moves.slice (h : Moves oper f rest) (hkind : sig.OfKey f.addr) :
    (Devcash.slice sig.canonical 0
      (if oper = OpType.exchange.toByte then kWalletSigBufSize else kNodeSigBufSize) >>=
        Signature.ofBytes) = .ok sig := by
  obtain ⟨hoper, hw⟩ | ⟨hoper, hn⟩ := h.rule
  · rw [if_pos hoper]
    exact slice_signature (Or.inl (hkind.1 hw)) (hkind.1 hw).1.symm
  · rw [if_neg hoper]
    exact slice_signature (Or.inr (hkind.2 hn)) (hkind.2 hn).1.symm

theorem Moves.length_layout (h : Moves oper f rest)
    (hsize : nonce.length + 74 * rest.length < 2 ^ 63) :
    (layout oper ((f :: rest).map Transfer.ofFlow) nonce).length < 2 ^ 63 + 99 := by
  have hlen := length_transfers_le (fun g hg => (h.typed g hg).1)
  rw [List.length_cons] at hlen
  rw [layout_eq]
  simp only [List.length_append, List.length_cons, Endian.length_leBytes]
  omega

theorem Moves.frames (h : Moves oper f rest) (hkind : sig.OfKey f.addr)
    (hsize : nonce.length + 74 * rest.length < 2 ^ 63) :
    (ofSignature oper ((f :: rest).map Transfer.ofFlow) nonce sig).Frames oper
      (((f :: rest).map Transfer.ofFlow).flatMap Transfer.getCanonical) nonce sig.canonical := by
  have hlayout := h.length_layout hsize
  have hsig : sig.canonical.length ≤ kNodeSigBufSize := by
    obtain ⟨-, hw⟩ | ⟨-, hn⟩ := h.rule
    · rw [(hkind.1 hw).1]
      decide
    · rw [(hkind.2 hn).1]
  refine frames_ofSignature ?_
  have hcan : (ofSignature oper ((f :: rest).map Transfer.ofFlow) nonce sig).canonical.length =
      (layout oper ((f :: rest).map Transfer.ofFlow) nonce).length + sig.canonical.length :=
    List.length_append
  rw [kNodeSigBufSize, kNodeSigSize] at hsig
  omega

theorem Moves.getTransfers {tx : Tier2Transaction} (h : Moves oper f rest)
    (hframes : tx.Frames oper (((f :: rest).map Transfer.ofFlow).flatMap Transfer.getCanonical) nonce
      sig.canonical) : tx.getTransfers = .ok ((f :: rest).map Transfer.ofFlow) := by
  refine hframes.getTransfers (fun t ht => ?_)
  obtain ⟨g, hg, rfl⟩ := List.mem_map.mp ht
  exact Transfer.onAccount_ofFlow (h.typed g hg).1

theorem Moves.isSound (h : Moves oper f rest) (hkey : keys.keyMap.find? f.addr = some key)
    (hkind : sig.OfKey f.addr) (hsize : nonce.length + 74 * rest.length < 2 ^ 63)
    (hverify : o.verifyByteSig key (o.devcashHash (head oper
      (((f :: rest).map Transfer.ofFlow).flatMap Transfer.getCanonical) nonce)) sig = true) :
    (ofSignature oper ((f :: rest).map Transfer.ofFlow) nonce sig).isSound keys = .ok true := by
  have hframes := h.frames hkind hsize
  have hgetSig := hframes.getSignature.trans (h.slice hkind)
  have hprivileged : ¬ ((oper = OpType.create.toByte ∨ oper = OpType.delete.toByte ∨
      oper = OpType.modify.toByte) ∧ keys.isINN f.addr = false) := by
    rintro ⟨hoper, hno⟩
    have hne : oper ≠ OpType.exchange.toByte := by
      obtain rfl | rfl | rfl := hoper <;> decide
    rw [h.isINN hne] at hno
    cases hno
  have hinn : ¬ (oper ≠ OpType.exchange.toByte ∧ keys.isINN f.addr = false) := by
    rintro ⟨hoper, hno⟩
    rw [h.isINN hoper] at hno
    cases hno
  have hflag : ¬ (ofSignature oper ((f :: rest).map Transfer.ofFlow) nonce sig).isSoundFlag = true :=
    Bool.false_ne_true
  rw [Tier2Transaction.isSound, if_neg hflag, hframes.getOperation, Result.bind_ok,
    h.getTransfers hframes, Result.bind_ok, h.scanTransfers, Result.bind_ok]
  simp only [Option.getD_some, if_neg hprivileged, if_neg hinn, ne_eq, not_true_eq_false, if_false,
    KeyRing.getKey_of_find? hkey, hframes.getMessageDigest, hgetSig, Result.bind_ok, hverify, if_true]

theorem Moves.signSound (h : Moves oper f rest) (hkey : keys.keyMap.find? f.addr = some key)
    (hsigns : ∀ h, ∃ sig, o.signBinary key h = .ok sig ∧ sig.OfKey f.addr ∧
      o.verifyByteSig key h sig = true)
    (hnonce : kMinNonceSize ≤ nonce.length) (hsize : nonce.length + 74 * rest.length < 2 ^ 63) :
    ∃ tx, signSound keys oper ((f :: rest).map Transfer.ofFlow) nonce key = .ok tx ∧
      tx.Settled oper (f :: rest) := by
  obtain ⟨sig, hsig, hkind, hverify⟩ := hsigns (o.devcashHash (head oper
    (((f :: rest).map Transfer.ofFlow).flatMap Transfer.getCanonical) nonce))
  have hlayout : (layout oper ((f :: rest).map Transfer.ofFlow) nonce).length < 2 ^ 64 := by
    have := h.length_layout hsize
    omega
  have hdigest := (frames_unsigned hlayout).getMessageDigest
  have hsound := h.isSound hkey hkind hsize hverify
  have hframes := h.frames hkind hsize
  rw [Tier2Transaction.signSound, if_neg (Nat.not_lt.mpr hnonce), sign, hdigest, Result.bind_ok, hsig,
    Result.bind_ok, Result.bind_ok, demandSound, hsound, Result.bind_ok, if_pos rfl]
  have hflagged : ({ ofSignature oper ((f :: rest).map Transfer.ofFlow) nonce sig with
      isSoundFlag := true } : Tier2Transaction).Frames oper
      (((f :: rest).map Transfer.ofFlow).flatMap Transfer.getCanonical) nonce sig.canonical :=
    ⟨hframes.bytes, hframes.xferSize, hframes.nonceSize, hframes.fits⟩
  exact ⟨_, rfl, rfl, hflagged.getOperation, h.getTransfers hflagged⟩

end

section
variable {tx : Tier2Transaction} {b : Books}

theorem Settled.isValid {oper : Byte} {fs : List Flow} (h : tx.Settled oper fs) :
    tx.isValid keys b = (catchFalse (postTransfers Transfer.amountCoinAddr
      (spendAvailable oper spendFreely) (fs.map Transfer.ofFlow) b).1,
      (postTransfers Transfer.amountCoinAddr (spendAvailable oper spendFreely)
        (fs.map Transfer.ofFlow) b).2) := by
  rw [Tier2Transaction.isValid, isSound, if_pos h.sound, h.operation, h.transfers]
  rfl

theorem Settled.flows {oper : Byte} {fs : List Flow} (h : tx.Settled oper fs)
    (htyped : ∀ f ∈ fs, f.Typed ∧ i64 f.amount = f.amount) : tx.flows = fs := by
  have hflows : tx.flows = flowsOf tx.getTransfers := rfl
  rw [hflows, flowsOf, h.transfers, Result.bind_ok, Transfer.mapM_flow_ofFlow htyped]

theorem postTransfer_ofFlow {spend : Spend} {f : Flow} (hf : f.Typed) (hx : i64 f.amount = f.amount)
    {aggregate : OrdMap Address SmartCoin}
    (hallow : allow spend b f.addr f.coin f.amount = .ok (some aggregate)) :
    ∃ summary, postTransfer Transfer.amountCoinAddr spend (Transfer.ofFlow f) b =
      (.ok true, ⟨b.state.addCoin f.smartCoin, summary, aggregate⟩) := by
  obtain ⟨hfields, hdelay⟩ := Transfer.flow_ok_iff.mp (Transfer.flow_ofFlow hf hx)
  rw [postTransfer, hfields]
  simp only [hallow, hdelay]
  exact ⟨_, rfl⟩

theorem postTransfers_receive (spend : Spend) {fs : List Flow}
    (htyped : ∀ f ∈ fs, f.Typed ∧ i64 f.amount = f.amount) (hpos : ∀ f ∈ fs, 0 ≤ f.amount) :
    (postTransfers Transfer.amountCoinAddr spend (fs.map Transfer.ofFlow) b).1 = .ok true := by
  induction fs generalizing b with
  | nil => rfl
  | cons f fs ih =>
    obtain ⟨⟨hf, hx⟩, hrest⟩ := List.forall_mem_cons.mp htyped
    obtain ⟨hfpos, hrestpos⟩ := List.forall_mem_cons.mp hpos
    have hallow : allow spend b f.addr f.coin f.amount = .ok (some b.aggregate) := by
      rw [allow, if_neg (Int.not_lt.mpr hfpos)]
    obtain ⟨summary, hpost⟩ := postTransfer_ofFlow hf hx hallow
    rw [List.map_cons, postTransfers_step hpost]
    exact ih hrest hrestpos

theorem Settled.validate {oper : Byte} {f : Flow} {rest : List Flow} (h : tx.Settled oper (f :: rest))
    (hm : Moves oper f rest) (hspend : oper = OpType.exchange.toByte →
      ∃ available, b.state.getAmount f.coin f.addr = .ok available ∧ f.amount ≤ available) :
    (tx.isValid keys b).1 = .ok true ∧
      (tx.validate keys b).state = b.state.addCoins ((f :: rest).map Flow.smartCoin) := by
  obtain ⟨⟨hf, hx⟩, hrest⟩ := List.forall_mem_cons.mp hm.typed
  have hallow : allow (spendAvailable oper spendFreely) b f.addr f.coin f.amount =
      .ok (some b.aggregate) := by
    rw [allow, if_pos hm.sends, spendAvailable, availableFunds]
    by_cases hoper : oper = OpType.exchange.toByte
    · obtain ⟨available, hget, hle⟩ := hspend hoper
      rw [if_pos hoper, hget, Result.bind_ok, Result.bind_ok, if_pos (by simpa using hle)]
      rfl
    · rw [if_neg hoper]
      rfl
  have hvalid : (tx.isValid keys b).1 = .ok true := by
    obtain ⟨summary, hpost⟩ := postTransfer_ofFlow hf hx hallow
    rw [h.isValid, List.map_cons, postTransfers_step hpost]
    simp only [postTransfers_receive _ hrest hm.receive]
    rfl
  refine ⟨hvalid, ?_⟩
  rw [state_validate hvalid, h.flows hm.typed]

end

end Tier2Transaction

namespace KeyDirectory
variable {o : Ossl}

theorem getWalletKey_eq {keys : KeyDirectory o} {i : Nat} {a : Address} {key : o.EcKey}
    (ha : keys.walletList[i]? = some a) (hkey : keys.keyMap.find? a = some key) :
    keys.getWalletKey i = .ok key := by
  simp only [getWalletKey, ha, hkey]

def countWallets (keys : KeyDirectory o) : Nat := keys.walletList.length

def getWalletAddr (keys : KeyDirectory o) (index : Nat) : Result Address :=
  match keys.walletList[index]? with
  | some addr => .ok addr
  | none => .error .outOfRange

end KeyDirectory

/-- The options that the generators read; `clearState` is one of `circuit` alone. -/
structure GeneratorOptions where
  nodeIndex : Nat
  generateCount : Nat
  txAmount : Nat
  clearState : Bool

/-- The transactions whose bytes are in `out`, and the local variables of `main`. -/
structure Generator where
  out : List Tier2Transaction
  nonceBin : Bytes
  counter : Nat

/-- What one turn of a loop pays: one wallet to another, or a wallet to the INN. -/
inductive Payment where
  | peer (i j : Nat)
  | back (i : Nat)

namespace Generator
variable {o : Ossl}

section
variable (keys : KeyDirectory o) (options : GeneratorOptions) (millis : Nat → Nat)

/-- The root of a number of 32 bits is precise enough for its integer part. -/
def addrCount : Nat := min keys.countWallets (options.generateCount - 1).sqrt

/-- The product starts with two 32-bit factors. -/
def nonce (now factor : Nat) : Nat :=
  u64 (now + u32 (1000000 * u32 (options.nodeIndex + 1)) * factor)

/-- `laminar` asks again whether a transaction is sound. -/
def recheckSound (recheck : Bool) (tx : Tier2Transaction) : Result Bool :=
  if recheck then tx.isSound keys.toKeyRing else .ok true

/-- One transaction between a wallet and a receiver. -/
def send (recheck : Bool) (s : Generator) (i : Nat) (receiver : Result Address) (amount : Nat)
    (nonceBin : Bytes) : Result Generator := do
  let sender ← keys.getWalletAddr i
  let receiver ← receiver
  let key ← keys.getWalletKey i
  let tx ← Tier2Transaction.signSound keys.toKeyRing OpType.exchange.toByte
    [Transfer.make sender 0 (-amount) 0, Transfer.make receiver 0 amount 0] nonceBin key
  let sound ← recheckSound keys recheck tx
  if sound then .ok ⟨s.out ++ [tx], nonceBin, s.counter + 1⟩
  else .error (.runtime "Transaction is not sound!")

/-- `nonce_bin` is cleared for a payment between wallets only. `millis` has the time at which each
transaction is made. -/
def pay (recheck : Bool) (innAddr : Address) (s : Generator) : Payment → Result Generator
  | .peer i j =>
    send keys recheck s i (keys.getWalletAddr j) options.txAmount
      (uint64ToBin (nonce options (millis s.counter) ((i + 1) * (j + 1))) [])
  | .back i =>
    send keys recheck s i (.ok innAddr) ((addrCount keys options - 1) * options.txAmount)
      (uint64ToBin (nonce options (millis s.counter) ((i + 1) * (addrCount keys options + 2)))
        s.nonceBin)

/-- The transaction of the INN. -/
def fund (innAddr : Address) : Result Generator := do
  let n := addrCount keys options
  let wallets ← (List.range n).mapM keys.getWalletAddr
  let xfers := Transfer.make innAddr 0 (-(n * (n - 1) * options.txAmount : Nat)) 0 ::
    wallets.map (fun wallet => Transfer.make wallet 0 ((n - 1) * options.txAmount : Nat) 0)
  let nonceBin := uint64ToBin (nonce options (millis 0) (options.txAmount + 1)) []
  let key ← keys.getKey innAddr
  let tx ← Tier2Transaction.signSound keys.toKeyRing OpType.create.toByte xfers nonceBin key
  .ok ⟨[tx], nonceBin, 1⟩

/-- `counter >= options->generate_count`. -/
def full (s : Generator) : Bool := decide (options.generateCount ≤ s.counter)

/-- The body of the `while` loop: each wallet pays its partners, and where `closing` is set the
wallets then pay back. -/
def round (partners : Nat → List Nat) (closing recheck : Bool) (innAddr : Address)
    (s : Generator) : Result Generator := do
  let s ← Quota.forEach (full options) (fun s i =>
    Quota.forEach (full options) (fun s j => pay keys options millis recheck innAddr s (.peer i j))
      (partners i) s) (List.range (addrCount keys options)) s
  if full options s then .ok s
  else if closing then
    Quota.forEach (full options) (fun s i => pay keys options millis recheck innAddr s (.back i))
      (List.range (addrCount keys options)) s
  else .ok s

def generate (partners : Nat → List Nat) (closing recheck : Bool) : Result Generator := do
  let innAddr ← keys.getInnAddr
  if options.generateCount < 2 then
    .error (.thrown "Invalid number of transactions to generate.")
  else
    let s ← fund keys options millis innAddr
    Quota.repeatUntil (full options) .diverges
      (round keys options millis partners closing recheck innAddr) options.generateCount s

/-- `main` of `circuit.cpp`. -/
def circuit : Result Generator :=
  generate keys options millis
    (fun i => (List.range (addrCount keys options)).filter (fun j => i ≠ j)) options.clearState false

/-- `main` of `laminar.cpp`: the loop over `j` starts at `i`. -/
def laminar : Result Generator :=
  generate keys options millis
    (fun i => (List.range (addrCount keys options)).filter (fun j => i < j)) false true

end

/-- The payments of a round, in order. -/
def payments (n : Nat) (partners : Nat → List Nat) (closing : Bool) : List Payment :=
  (List.range n).flatMap (fun i => (partners i).map (Payment.peer i)) ++
    if closing then (List.range n).map Payment.back else []

section
variable {keys : KeyDirectory o} {options : GeneratorOptions} {millis : Nat → Nat}

theorem round_eq (partners : Nat → List Nat) (closing recheck : Bool) (innAddr : Address)
    {s : Generator} (hs : full options s = false) :
    round keys options millis partners closing recheck innAddr s =
      Quota.forEach (full options) (pay keys options millis recheck innAddr)
        (payments (addrCount keys options) partners closing) s := by
  rw [payments, Quota.forEach_append _ _ hs, ← Quota.forEach_flatMap _ _ hs, round]
  simp only [Quota.forEach_map]
  congr 1
  funext s
  split_ifs
  · rfl
  · rw [Quota.forEach_map]
  · rfl

theorem counter_pay {recheck : Bool} {innAddr : Address} {s s' : Generator} {p : Payment}
    (h : pay keys options millis recheck innAddr s p = .ok s') : s'.counter = s.counter + 1 := by
  have hsend : ∀ i receiver amount nonceBin,
      send keys recheck s i receiver amount nonceBin = .ok s' → s'.counter = s.counter + 1 := by
    intro i receiver amount nonceBin h
    obtain ⟨sender, -, h⟩ := Result.bind_eq_ok h
    obtain ⟨receiver, -, h⟩ := Result.bind_eq_ok h
    obtain ⟨key, -, h⟩ := Result.bind_eq_ok h
    obtain ⟨tx, -, h⟩ := Result.bind_eq_ok h
    obtain ⟨sound, -, h⟩ := Result.bind_eq_ok h
    split_ifs at h
    cases h
    rfl
  cases p with
  | peer i j => exact hsend _ _ _ _ h
  | back i => exact hsend _ _ _ _ h

theorem generate_eq {partners : Nat → List Nat} {closing recheck : Bool} {innAddr : Address}
    {s : Generator} (hinn : keys.getInnAddr = .ok innAddr) (hcount : 2 ≤ options.generateCount)
    (hfund : fund keys options millis innAddr = .ok s)
    (hround : payments (addrCount keys options) partners closing ≠ []) :
    generate keys options millis partners closing recheck =
      (((List.replicate options.generateCount
        (payments (addrCount keys options) partners closing)).flatten.take
          (options.generateCount - 1)).foldlM (pay keys options millis recheck innAddr) s) := by
  have hone : s.counter = 1 := by
    obtain ⟨wallets, -, hfund⟩ := Result.bind_eq_ok hfund
    obtain ⟨key, -, hfund⟩ := Result.bind_eq_ok hfund
    obtain ⟨tx, -, hfund⟩ := Result.bind_eq_ok hfund
    cases hfund
    rfl
  have hfull : ∀ s : Generator, full options s = decide (options.generateCount ≤ s.counter) :=
    fun _ => rfl
  have hturn : ∀ s p s', pay keys options millis recheck innAddr s p = .ok s' →
      s'.counter = s.counter + 1 := fun _ _ _ => counter_pay
  have hbody : ∀ fuel s, Quota.repeatUntil (full options) Error.diverges
      (round keys options millis partners closing recheck innAddr) fuel s =
      Quota.repeatUntil (full options) Error.diverges (Quota.forEach (full options)
        (pay keys options millis recheck innAddr)
        (payments (addrCount keys options) partners closing)) fuel s :=
    fun fuel s => Quota.repeatUntil_congr (fun s hs => round_eq _ _ _ _ hs) fuel s
  rw [generate, hinn, Result.bind_ok, if_neg (by omega), hfund, Result.bind_ok, hbody,
    Quota.repeatUntil_forEach hfull hturn _ hround _ (by omega) (by omega),
    Quota.forEach_eq_take hfull hturn _ (by omega), hone]

end

end Generator

/-- The INN and the wallets have keys that sign for them. -/
structure KeyDirectory.Equipped {o : Ossl} (keys : KeyDirectory o) : Prop where
  inn : keys.innAddr.IsNode
  wallets : ∀ a ∈ keys.walletList, a.IsWallet
  signs : ∀ a, a = keys.innAddr ∨ a ∈ keys.walletList → ∃ key, keys.keyMap.find? a = some key ∧
    ∀ h, ∃ sig, o.signBinary key h = .ok sig ∧ sig.OfKey a ∧ o.verifyByteSig key h sig = true

namespace Payment
variable {o : Ossl}

def sender : Payment → Nat
  | peer i _ => i
  | back i => i

def receiver (keys : KeyDirectory o) : Payment → Address
  | peer _ j => keys.walletList.getD j Address.null
  | back _ => keys.innAddr

def amount (n txAmount : Nat) : Payment → Nat
  | peer _ _ => txAmount
  | back _ => (n - 1) * txAmount

/-- The flow that sends. -/
def outflow (keys : KeyDirectory o) (n txAmount : Nat) (p : Payment) : Flow :=
  ⟨keys.walletList.getD p.sender Address.null, 0, -(p.amount n txAmount), 0⟩

def inflow (keys : KeyDirectory o) (n txAmount : Nat) (p : Payment) : Flow :=
  ⟨p.receiver keys, 0, p.amount n txAmount, 0⟩

/-- The wallets of the payment are among the first `n`. -/
def Within (n : Nat) : Payment → Prop
  | peer i j => i < n ∧ j < n
  | back i => i < n

end Payment

namespace Generator
variable {o : Ossl} {keys : KeyDirectory o} {options : GeneratorOptions} {millis : Nat → Nat}

theorem getWalletAddr_eq {i : Nat} (h : i < keys.walletList.length) :
    keys.getWalletAddr i = .ok (keys.walletList.getD i Address.null) ∧
      keys.walletList.getD i Address.null ∈ keys.walletList := by
  rw [KeyDirectory.getWalletAddr, List.getD_eq_getElem?_getD, List.getElem?_eq_getElem h]
  exact ⟨rfl, List.getElem_mem h⟩

theorem moves_transfer {sender receiver : Address} {amount : Nat} (hsender : sender.IsWallet)
    (hreceiver : receiver.IsWallet ∨ receiver.IsNode) (hpos : 0 < amount) (hfit : amount < 2 ^ 63) :
    Tier2Transaction.Moves OpType.exchange.toByte ⟨sender, 0, -amount, 0⟩ [⟨receiver, 0, amount, 0⟩] := by
  refine ⟨?_, by simpa using hpos, by simp, by simp, Or.inl ⟨rfl, hsender⟩⟩
  simp only [List.forall_mem_cons, List.not_mem_nil, false_imp_iff, implies_true, and_true]
  exact ⟨⟨⟨Or.inl hsender, Nat.two_pow_pos 64, Nat.two_pow_pos 64⟩, i64_of_bounds (by omega) (by omega)⟩,
    ⟨hreceiver, Nat.two_pow_pos 64, Nat.two_pow_pos 64⟩, i64_of_bounds (by omega) (by omega)⟩

theorem send_eq (hkeys : keys.Equipped) (recheck : Bool) (s : Generator) {i : Nat}
    (hi : i < keys.walletList.length) {receiver : Address}
    (hreceiver : receiver.IsWallet ∨ receiver.IsNode) {amount : Nat} (hpos : 0 < amount)
    (hfit : amount < 2 ^ 63) {nonceBin : Bytes} (hmin : kMinNonceSize ≤ nonceBin.length)
    (hmax : nonceBin.length < 2 ^ 62) :
    ∃ tx, send keys recheck s i (.ok receiver) amount nonceBin =
        .ok ⟨s.out ++ [tx], nonceBin, s.counter + 1⟩ ∧
      tx.Settled OpType.exchange.toByte [⟨keys.walletList.getD i Address.null, 0, -amount, 0⟩,
        ⟨receiver, 0, amount, 0⟩] := by
  obtain ⟨haddr, hmem⟩ := getWalletAddr_eq hi
  have hwallet := hkeys.wallets _ hmem
  obtain ⟨key, hfind, hsigns⟩ := hkeys.signs _ (Or.inr hmem)
  have hkey : keys.getWalletKey i = .ok key := by
    rw [List.getD_eq_getElem?_getD, List.getElem?_eq_getElem hi] at hfind
    exact KeyDirectory.getWalletKey_eq (List.getElem?_eq_getElem hi) hfind
  have hmoves := moves_transfer hwallet hreceiver hpos hfit
  obtain ⟨tx, htx, hsettled⟩ := hmoves.signSound hfind hsigns hmin (by
    rw [List.length_singleton]
    omega)
  have hsound : recheckSound keys recheck tx = .ok true := by
    rw [recheckSound, Tier2Transaction.isSound, if_pos hsettled.sound]
    exact ite_self _
  have hsign : Tier2Transaction.signSound keys.toKeyRing OpType.exchange.toByte
      [Transfer.make (keys.walletList.getD i Address.null) 0 (-amount) 0,
        Transfer.make receiver 0 amount 0] nonceBin key = .ok tx := htx
  refine ⟨tx, ?_, hsettled⟩
  rw [send, haddr, Result.bind_ok, Result.bind_ok, hkey, Result.bind_ok, hsign, Result.bind_ok, hsound,
    Result.bind_ok, if_pos rfl]

/-- Keys and options with which a generator can do its work: two wallets at least, and amounts whose
sum is in the range of their type. -/
structure Ready (keys : KeyDirectory o) (options : GeneratorOptions) : Prop where
  equipped : keys.Equipped
  wallets : 2 ≤ addrCount keys options
  amount : 0 < options.txAmount
  fits : addrCount keys options * (addrCount keys options - 1) * options.txAmount < 2 ^ 63
  count : options.generateCount < 2 ^ 32

theorem addrCount_le : addrCount keys options ≤ keys.walletList.length := Nat.min_le_left _ _

theorem addrCount_sq_lt (h : 2 ≤ addrCount keys options) :
    addrCount keys options * addrCount keys options < options.generateCount := by
  have hroot : addrCount keys options ≤ (options.generateCount - 1).sqrt := Nat.min_le_right _ _
  have hsq : addrCount keys options * addrCount keys options ≤ options.generateCount - 1 :=
    (Nat.mul_le_mul hroot hroot).trans (Nat.sqrt_le _)
  have hfour : 2 * 2 ≤ addrCount keys options * addrCount keys options := Nat.mul_le_mul h h
  omega

section
variable (h : Ready keys options)
include h

theorem Ready.amount_bounds (p : Payment) :
    0 < p.amount (addrCount keys options) options.txAmount ∧
      p.amount (addrCount keys options) options.txAmount < 2 ^ 63 := by
  have hn := h.wallets
  have ha := h.amount
  have hone : 1 * options.txAmount ≤ (addrCount keys options - 1) * options.txAmount :=
    Nat.mul_le_mul_right _ (by omega)
  have hall : 1 * ((addrCount keys options - 1) * options.txAmount) ≤
      addrCount keys options * ((addrCount keys options - 1) * options.txAmount) :=
    Nat.mul_le_mul_right _ (by omega)
  have hfits := h.fits
  rw [Nat.mul_assoc] at hfits
  cases p with
  | peer i j => exact ⟨ha, by simp only [Payment.amount]; omega⟩
  | back i => exact ⟨by simp only [Payment.amount]; omega, by simp only [Payment.amount]; omega⟩

theorem Ready.moves_pay {p : Payment} (hp : p.Within (addrCount keys options)) :
    Tier2Transaction.Moves OpType.exchange.toByte
      (p.outflow keys (addrCount keys options) options.txAmount)
      [p.inflow keys (addrCount keys options) options.txAmount] := by
  have hle : addrCount keys options ≤ keys.walletList.length := addrCount_le
  have hwallet : ∀ i < addrCount keys options, (keys.walletList.getD i Address.null).IsWallet :=
    fun i hi => h.equipped.wallets _ (getWalletAddr_eq (Nat.lt_of_lt_of_le hi hle)).2
  obtain ⟨hpos, hfit⟩ := h.amount_bounds p
  cases p with
  | peer i j => exact moves_transfer (hwallet i hp.1) (Or.inl (hwallet j hp.2)) hpos hfit
  | back i => exact moves_transfer (hwallet i hp) (Or.inr h.equipped.inn) hpos hfit

theorem Ready.pay_eq (millis : Nat → Nat) (recheck : Bool) {s : Generator} {p : Payment}
    (hp : p.Within (addrCount keys options)) (hnonce : s.nonceBin.length + 8 < 2 ^ 62) :
    ∃ tx nonceBin, pay keys options millis recheck keys.innAddr s p =
        .ok ⟨s.out ++ [tx], nonceBin, s.counter + 1⟩ ∧ nonceBin.length ≤ s.nonceBin.length + 8 ∧
      tx.Settled OpType.exchange.toByte [p.outflow keys (addrCount keys options) options.txAmount,
        p.inflow keys (addrCount keys options) options.txAmount] := by
  have hle : addrCount keys options ≤ keys.walletList.length := addrCount_le
  obtain ⟨hpos, hfit⟩ := h.amount_bounds p
  cases p with
  | peer i j =>
    obtain ⟨hi, hj⟩ := hp
    obtain ⟨hreceiver, hmem⟩ := getWalletAddr_eq (Nat.lt_of_lt_of_le hj hle)
    have hlen : (uint64ToBin (nonce options (millis s.counter) ((i + 1) * (j + 1))) []).length = 8 := by
      rw [uint64ToBin_eq, List.nil_append, Endian.length_leBytes]
    obtain ⟨tx, hsend, hsettled⟩ := send_eq h.equipped recheck s (Nat.lt_of_lt_of_le hi hle)
      (Or.inl (h.equipped.wallets _ hmem)) hpos hfit hlen.ge (by rw [hlen]; omega)
    refine ⟨tx, _, ?_, hlen.le.trans (Nat.le_add_left 8 _), hsettled⟩
    rw [pay, hreceiver]
    exact hsend
  | back i =>
    have hlen : (uint64ToBin (nonce options (millis s.counter)
        ((i + 1) * (addrCount keys options + 2))) s.nonceBin).length = s.nonceBin.length + 8 := by
      rw [uint64ToBin_eq, List.length_append, Endian.length_leBytes]
    have hmin : kMinNonceSize ≤ s.nonceBin.length + 8 := Nat.le_add_left 8 _
    rw [← hlen] at hnonce hmin
    obtain ⟨tx, hsend, hsettled⟩ := send_eq h.equipped recheck s (Nat.lt_of_lt_of_le hp hle)
      (Or.inr h.equipped.inn) hpos hfit hmin hnonce
    exact ⟨tx, _, hsend, hlen.le, hsettled⟩

theorem Ready.foldlM_pay (millis : Nat → Nat) (recheck : Bool) {l : List Payment}
    (hl : ∀ p ∈ l, p.Within (addrCount keys options)) {s : Generator}
    (hnonce : s.nonceBin.length + 8 * l.length < 2 ^ 62) :
    ∃ s' txs, l.foldlM (pay keys options millis recheck keys.innAddr) s = .ok s' ∧
      s'.out = s.out ++ txs ∧ List.Forall₂ (fun tx p => tx.Settled OpType.exchange.toByte
        [Payment.outflow keys (addrCount keys options) options.txAmount p,
          Payment.inflow keys (addrCount keys options) options.txAmount p]) txs l := by
  induction l generalizing s with
  | nil => exact ⟨s, [], rfl, (List.append_nil _).symm, .nil⟩
  | cons p l ih =>
    obtain ⟨hp, hrest⟩ := List.forall_mem_cons.mp hl
    rw [List.length_cons] at hnonce
    obtain ⟨tx, nonceBin, hpay, hlen, hsettled⟩ := h.pay_eq millis recheck hp (s := s) (by omega)
    obtain ⟨s', txs, hfold, hout, hall⟩ := ih hrest (s := ⟨s.out ++ [tx], nonceBin, s.counter + 1⟩)
      (by change nonceBin.length + _ < _; omega)
    refine ⟨s', tx :: txs, ?_, ?_, .cons hsettled hall⟩
    · rw [List.foldlM_cons, hpay]
      exact hfold
    · rw [hout, List.append_assoc, List.singleton_append]

end

/-- What the INN gives, and what each wallet gets. -/
def grant (keys : KeyDirectory o) (options : GeneratorOptions) : Flow :=
  ⟨keys.innAddr, 0, -(addrCount keys options * (addrCount keys options - 1) *
    options.txAmount : Nat), 0⟩

def shares (keys : KeyDirectory o) (options : GeneratorOptions) : List Flow :=
  (keys.walletList.take (addrCount keys options)).map
    (fun wallet => ⟨wallet, 0, ((addrCount keys options - 1) * options.txAmount : Nat), 0⟩)

theorem mapM_getWalletAddr (n : Nat) (hn : n ≤ keys.walletList.length) :
    (List.range n).mapM keys.getWalletAddr = .ok (keys.walletList.take n) := by
  have hone : ∀ i ∈ List.range n, keys.getWalletAddr i =
      .ok (keys.walletList.getD i Address.null) := fun i hi =>
    (getWalletAddr_eq (Nat.lt_of_lt_of_le (List.mem_range.mp hi) hn)).1
  rw [Result.mapM_ok hone]
  refine congrArg Except.ok (List.ext_getElem (by simp [hn]) (fun i hi _ => ?_))
  have hi' : i < n := by simpa using hi
  rw [List.getElem_map, List.getElem_range, List.getElem_take, List.getD_eq_getElem _ _ (by omega)]

theorem length_take_walletList :
    (keys.walletList.take (addrCount keys options)).length = addrCount keys options := by
  rw [List.length_take, Nat.min_eq_left addrCount_le]

section
variable (h : Ready keys options) (millis : Nat → Nat)
include h

theorem Ready.moves_fund :
    Tier2Transaction.Moves OpType.create.toByte (grant keys options) (shares keys options) := by
  obtain ⟨hpos, hshare⟩ := h.amount_bounds (.back 0)
  have hn := h.wallets
  have hfits := h.fits
  have hgrant : 0 < addrCount keys options * (addrCount keys options - 1) * options.txAmount := by
    rw [Nat.mul_assoc]
    exact Nat.mul_pos (by omega) hpos
  simp only [Payment.amount] at hpos hshare
  refine ⟨?_, by simp only [grant]; omega, ?_, ?_, Or.inr ⟨by decide, h.equipped.inn⟩⟩
  · refine List.forall_mem_cons.mpr ⟨⟨⟨Or.inr h.equipped.inn, Nat.two_pow_pos 64, Nat.two_pow_pos 64⟩,
      i64_of_bounds ?_ ?_⟩, ?_⟩
    · simp only [grant]
      omega
    · simp only [grant]
      omega
    · intro f hf
      obtain ⟨wallet, hmem, rfl⟩ := List.mem_map.mp hf
      exact ⟨⟨Or.inl (h.equipped.wallets wallet (List.mem_of_mem_take hmem)), Nat.two_pow_pos 64,
        Nat.two_pow_pos 64⟩, i64_of_bounds (by dsimp only; omega) (by dsimp only; omega)⟩
  · intro f hf
    obtain ⟨wallet, -, rfl⟩ := List.mem_map.mp hf
    exact Int.natCast_nonneg _
  · simp only [grant, shares, List.map_map, Function.comp_def, List.map_const', List.sum_replicate,
      length_take_walletList]
    push_cast
    ring

theorem Ready.fund_eq : ∃ tx nonceBin, fund keys options millis keys.innAddr = .ok ⟨[tx], nonceBin, 1⟩ ∧
    nonceBin.length = 8 ∧
    tx.Settled OpType.create.toByte (grant keys options :: shares keys options) := by
  obtain ⟨key, hfind, hsigns⟩ := h.equipped.signs _ (Or.inl rfl)
  have hlen : (uint64ToBin (nonce options (millis 0) (options.txAmount + 1)) []).length = 8 := by
    rw [uint64ToBin_eq, List.nil_append, Endian.length_leBytes]
  have hcount : (shares keys options).length < 2 ^ 32 := by
    have hsq := addrCount_sq_lt h.wallets
    have hle : addrCount keys options * 1 ≤ addrCount keys options * addrCount keys options :=
      Nat.mul_le_mul_left _ (by have := h.wallets; omega)
    have := h.count
    rw [shares, List.length_map, length_take_walletList]
    omega
  obtain ⟨tx, htx, hsettled⟩ := h.moves_fund.signSound hfind hsigns hlen.ge (by rw [hlen]; omega)
  have hsign : Tier2Transaction.signSound keys.toKeyRing OpType.create.toByte
      (Transfer.make keys.innAddr 0 (-(addrCount keys options * (addrCount keys options - 1) *
        options.txAmount : Nat)) 0 :: (keys.walletList.take (addrCount keys options)).map
          (fun wallet => Transfer.make wallet 0
            ((addrCount keys options - 1) * options.txAmount : Nat) 0))
      (uint64ToBin (nonce options (millis 0) (options.txAmount + 1)) []) key = .ok tx := by
    rw [← htx, List.map_cons, shares, List.map_map]
    rfl
  refine ⟨tx, _, ?_, hlen, hsettled⟩
  rw [fund]
  simp only [mapM_getWalletAddr _ addrCount_le, KeyRing.getKey_of_find? hfind, hsign, Result.bind_ok]

theorem Ready.generate_makes {partners : Nat → List Nat} {closing : Bool} (recheck : Bool)
    (hwithin : ∀ p ∈ payments (addrCount keys options) partners closing,
      p.Within (addrCount keys options))
    (hround : payments (addrCount keys options) partners closing ≠ []) :
    ∃ s tx txs, generate keys options millis partners closing recheck = .ok s ∧ s.out = tx :: txs ∧
      tx.Settled OpType.create.toByte (grant keys options :: shares keys options) ∧
      List.Forall₂ (fun tx p => tx.Settled OpType.exchange.toByte
        [Payment.outflow keys (addrCount keys options) options.txAmount p,
          Payment.inflow keys (addrCount keys options) options.txAmount p]) txs
        ((List.replicate options.generateCount
          (payments (addrCount keys options) partners closing)).flatten.take
            (options.generateCount - 1)) := by
  obtain ⟨tx, nonceBin, hfund, hlen, hsettled⟩ := h.fund_eq millis
  have hinn : keys.getInnAddr = .ok keys.innAddr := by
    rw [KeyDirectory.getInnAddr, KeyRing.isINN, if_pos h.equipped.inn.isNodeAddress]
  have hcount : 2 ≤ options.generateCount := by
    have hsq := addrCount_sq_lt h.wallets
    have hfour : 2 * 2 ≤ addrCount keys options * addrCount keys options :=
      Nat.mul_le_mul h.wallets h.wallets
    omega
  have hlength : ((List.replicate options.generateCount
      (payments (addrCount keys options) partners closing)).flatten.take
        (options.generateCount - 1)).length ≤ options.generateCount := by
    rw [List.length_take]
    omega
  obtain ⟨s, txs, hfold, hout, hall⟩ := h.foldlM_pay millis recheck
    (l := (List.replicate options.generateCount
      (payments (addrCount keys options) partners closing)).flatten.take (options.generateCount - 1))
    (s := ⟨[tx], nonceBin, 1⟩)
    (fun p hp => by
      obtain ⟨l, hl, hpl⟩ := List.mem_flatten.mp (List.mem_of_mem_take hp)
      rw [List.eq_of_mem_replicate hl] at hpl
      exact hwithin p hpl)
    (by
      have := h.count
      change nonceBin.length + _ < _
      omega)
  refine ⟨s, tx, txs, ?_, hout, hsettled, hall⟩
  rw [generate_eq hinn hcount hfund hround]
  exact hfold

end

end Generator
end Devcash
