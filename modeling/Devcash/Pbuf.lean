import Devcash.Authorization
import Devcash.Construction
import Devcash.SectionCodec

/-! Transactions that come as protocol buffers, next to the same transactions as bytes. -/
namespace Devcash
open Endian Reader InputBuffer

namespace Pbuf

/-- `Devv::proto::Transfer`. -/
structure Transfer where
  address : Bytes
  coin : Nat
  amount : Int
  delay : Nat

/-- `Devv::proto::Transaction`. An enumeration of this format holds any number. -/
structure Transaction where
  operation : Int
  xfers : List Transfer
  nonce : Bytes
  sig : Bytes

/-- The fields as the constructor of a transfer takes them. -/
def Transfer.flow (x : Transfer) : Flow := ⟨Address.ofBytes x.address, x.coin, x.amount, x.delay⟩

/-- The operation is converted to a byte. -/
def Transaction.oper (pb : Transaction) : Byte := UInt8.ofInt pb.operation

section
variable {o : Ossl} (keys : KeyRing o)

/-- The loop of `CreateTransaction`: the transfers, and the key of the one that sends. -/
def readXfers : List Transfer → Option o.EcKey → Result (List Devcash.Transfer × Option o.EcKey)
  | [], key => .ok ([], key)
  | x :: l, key =>
    if x.amount < 0 then
      match key with
      | some _ => .error (.runtime "More than one send transfer not supported.")
      | none => do
        let sendKey ← keys.getKey x.flow.addr
        let (transfers, key) ← readXfers l (some sendKey)
        .ok (Devcash.Transfer.ofFlow x.flow :: transfers, key)
    else do
      let (transfers, key) ← readXfers l key
      .ok (Devcash.Transfer.ofFlow x.flow :: transfers, key)

/-- `CreateTransaction(transaction, keys, do_sign)`. -/
def createTransaction (pb : Transaction) (doSign : Bool) : Result Tier2Transaction := do
  let (transfers, key) ← readXfers keys pb.xfers none
  match key with
  | none =>
    .error (.runtime "Exchange transactions must have one transfer with a negative amount.")
  | some key =>
    if doSign then do
      let tx ← Tier2Transaction.signSound keys pb.oper transfers pb.nonce key
      .ok tx.clone
    else do
      let signature ← Signature.ofBytes pb.sig
      let tx ← Tier2Transaction.ofSignatureSound keys pb.oper transfers pb.nonce signature
      .ok tx.clone

end

/-- The transfers that send. -/
def sends (l : List Transfer) : List Transfer := l.filter (fun x => x.amount < 0)

def transfers (l : List Transfer) : List Devcash.Transfer :=
  l.map (fun x => Devcash.Transfer.ofFlow x.flow)

variable {o : Ossl} {keys : KeyRing o}

theorem readXfers_some_iff (l : List Transfer) (k : o.EcKey)
    (r : List Devcash.Transfer × Option o.EcKey) :
    readXfers keys l (some k) = .ok r ↔ sends l = [] ∧ r = (transfers l, some k) := by
  induction l generalizing r with
  | nil =>
    rw [readXfers, Except.ok.injEq, eq_comm]
    exact (and_iff_right rfl).symm
  | cons x l ih =>
    rw [readXfers]
    by_cases hx : x.amount < 0
    · have hs : sends (x :: l) = x :: sends l := List.filter_cons_of_pos (by simpa using hx)
      rw [if_pos hx, hs]
      exact iff_of_false (fun h => by cases h) (fun h => List.cons_ne_nil _ _ h.1)
    · have hs : sends (x :: l) = sends l := List.filter_cons_of_neg (by simpa using hx)
      rw [if_neg hx, hs]
      constructor
      · intro h
        obtain ⟨⟨ts, key⟩, hl, h⟩ := Result.bind_eq_ok h
        obtain ⟨hnone, hr⟩ := (ih _).mp hl
        cases hr
        cases h
        exact ⟨hnone, rfl⟩
      · rintro ⟨hnone, rfl⟩
        rw [(ih _).mpr ⟨hnone, rfl⟩]
        rfl

theorem readXfers_none_iff (l : List Transfer) (k : o.EcKey) (ts : List Devcash.Transfer) :
    readXfers keys l none = .ok (ts, some k) ↔
      ∃ x, sends l = [x] ∧ keys.getKey x.flow.addr = .ok k ∧ ts = transfers l := by
  induction l generalizing ts with
  | nil => simp [readXfers, sends]
  | cons x l ih =>
    rw [readXfers]
    by_cases hx : x.amount < 0
    · have hs : sends (x :: l) = x :: sends l := List.filter_cons_of_pos (by simpa using hx)
      rw [if_pos hx, hs]
      constructor
      · intro h
        obtain ⟨sendKey, hkey, h⟩ := Result.bind_eq_ok h
        obtain ⟨⟨ts', key⟩, hl, h⟩ := Result.bind_eq_ok h
        obtain ⟨hnone, hr⟩ := (readXfers_some_iff l sendKey _).mp hl
        cases hr
        cases h
        exact ⟨x, by rw [hnone], hkey, rfl⟩
      · rintro ⟨x', hone, hkey, rfl⟩
        obtain ⟨rfl, hnone⟩ := List.cons.inj hone
        rw [hkey, Result.bind_ok, (readXfers_some_iff l k _).mpr ⟨hnone, rfl⟩]
        rfl
    · have hs : sends (x :: l) = sends l := List.filter_cons_of_neg (by simpa using hx)
      rw [if_neg hx, hs]
      constructor
      · intro h
        obtain ⟨⟨ts', key⟩, hl, h⟩ := Result.bind_eq_ok h
        cases h
        obtain ⟨x', hone, hkey, rfl⟩ := (ih _).mp hl
        exact ⟨x', hone, hkey, rfl⟩
      · rintro ⟨x', hone, hkey, rfl⟩
        rw [(ih _).mpr ⟨x', hone, hkey, rfl⟩]
        rfl

/-- The same transaction as the constructor from a signature lays it out. -/
def Transaction.binary (pb : Transaction) (sig : Signature) : Tier2Transaction :=
  Tier2Transaction.ofSignature pb.oper (transfers pb.xfers) pb.nonce sig

/-- The fields are in their types: one of the four operations, wallet or node addresses, and
a signature of one of the two kinds. -/
structure Transaction.Typed (pb : Transaction) (sig : Signature) : Prop where
  operation : 0 ≤ pb.operation ∧ pb.operation < OpType.numOperations
  xfers : ∀ x ∈ pb.xfers, x.flow.Typed ∧ i64 x.amount = x.amount
  signature : Signature.ofBytes pb.sig = .ok sig

section
variable {pb : Transaction} {sig : Signature} (h : pb.Typed sig)
  (hsize : (pb.binary sig).canonical.length < 2 ^ 64)
include h

theorem Transaction.Typed.oper_lt : pb.oper.toNat < OpType.numOperations := by
  obtain ⟨hlow, hhigh⟩ := h.operation
  rw [oper, UInt8.ofInt, UInt8.toNat_ofNat']
  simp only [OpType.numOperations] at hhigh ⊢
  omega

include hsize

theorem getTransfers_binary : (pb.binary sig).getTransfers = .ok (transfers pb.xfers) := by
  refine (Tier2Transaction.frames_ofSignature hsize).getTransfers (fun t ht => ?_)
  obtain ⟨x, hx, rfl⟩ := List.mem_map.mp ht
  exact Devcash.Transfer.onAccount_ofFlow (h.xfers x hx).1

theorem exists_key {x : Transfer} (hx : x ∈ pb.xfers) (hneg : x.amount < 0)
    (hs : (pb.binary sig).isSound keys = .ok true) : ∃ k, keys.getKey x.flow.addr = .ok k := by
  rw [Tier2Transaction.isSound, if_neg (show ¬ (pb.binary sig).isSoundFlag = true from
    Bool.false_ne_true)] at hs
  obtain ⟨oper, -, hs⟩ := Result.bind_eq_ok hs
  rw [getTransfers_binary h hsize, Result.bind_ok] at hs
  obtain ⟨⟨total, sender⟩, hscan, hs⟩ := Result.bind_eq_ok hs
  obtain ⟨-, hall, -⟩ := Tier2Transaction.scanTransfers_ok hscan
  simp only at hs
  split_ifs at hs
  obtain ⟨eckey, hkey, -⟩ := Result.bind_eq_ok hs
  -- The loop has found the address of this transfer.
  obtain ⟨htyped, hrange⟩ := h.xfers x hx
  have hamount := Devcash.Transfer.getAmount_ofFlow htyped hrange
  have haddr := Devcash.Transfer.getAddress_ofFlow htyped
  obtain ⟨y, hy, hsender⟩ := hall _ (List.mem_map_of_mem hx)
  obtain rfl : x.amount = y := Except.ok.inj (hamount.symm.trans hy)
  obtain ⟨a, ha, rfl⟩ := hsender hneg
  rw [Except.ok.inj (haddr.symm.trans ha)]
  exact ⟨eckey, hkey⟩

omit hsize in
/-- What the constructor asks for: one transfer sends, and the transaction is sound. The
bytes are the layout. -/
theorem createTransaction_ok {tx : Tier2Transaction}
    (htx : createTransaction keys pb false = .ok tx) :
    (sends pb.xfers).length = 1 ∧ (pb.binary sig).isSound keys = .ok true ∧
      tx.getCanonical = (pb.binary sig).canonical := by
  obtain ⟨⟨ts, key⟩, hread, htx⟩ := Result.bind_eq_ok htx
  cases key with
  | none => cases htx
  | some k =>
    obtain ⟨x, hone, -, rfl⟩ := (readXfers_none_iff _ _ _).mp hread
    simp only [h.signature, Result.bind_ok, Bool.false_eq_true, if_false] at htx
    obtain ⟨tx', hsound, htx⟩ := Result.bind_eq_ok htx
    cases htx
    exact ⟨by rw [hone]; rfl, (Tier2Transaction.demandSound_iff _).mp ⟨tx', hsound⟩,
      Tier2Transaction.demandSound_canonical hsound⟩

theorem createTransaction_iff : (∃ tx, createTransaction keys pb false = .ok tx) ↔
    (sends pb.xfers).length = 1 ∧ (pb.binary sig).isSound keys = .ok true := by
  constructor
  · rintro ⟨tx, htx⟩
    obtain ⟨hone, hs, -⟩ := createTransaction_ok h htx
    exact ⟨hone, hs⟩
  · rintro ⟨hone, hs⟩
    obtain ⟨x, hone⟩ := List.length_eq_one_iff.mp hone
    have hx : x ∈ sends pb.xfers := by
      rw [hone]
      exact List.mem_singleton_self x
    obtain ⟨hmem, hneg⟩ := List.mem_filter.mp hx
    obtain ⟨k, hkey⟩ := exists_key h hsize hmem (of_decide_eq_true hneg) hs
    obtain ⟨tx, htx⟩ := (Tier2Transaction.demandSound_iff _).mpr hs
    refine ⟨tx.clone, ?_⟩
    rw [createTransaction, (readXfers_none_iff _ _ _).mpr ⟨x, hone, hkey, rfl⟩]
    simp only [Result.bind_ok, h.signature, Bool.false_eq_true, if_false]
    rw [Tier2Transaction.ofSignatureSound, ← Transaction.binary, htx]
    rfl

theorem quickFill_binary_iff :
    (∃ r, Tier2Transaction.quickFill (ofBytes (pb.binary sig).canonical) = .ok r) ↔
      kMinNonceSize ≤ pb.nonce.length := by
  constructor
  · rintro ⟨⟨tx, b'⟩, hfill⟩
    obtain ⟨-, hsecond, t, -, -, -, -, hmin, -⟩ := Tier2Transaction.quickFill_ok hfill
    have hnonce := (Tier2Transaction.frames_ofSignature hsize).secondWord
    rw [← Transaction.binary] at hnonce
    obtain ⟨hlen, -⟩ := Prod.mk.inj (Except.ok.inj (hnonce.symm.trans hsecond))
    rwa [hlen]
  · intro hmin
    have hfill := Tier2Transaction.quickFill_layout h.oper_lt hmin
      (Signature.ofBytes_kind h.signature) rfl [] hsize
    rw [List.append_nil] at hfill
    exact ⟨_, hfill⟩

/-- The two paths accept the same transactions exactly if, among the sound ones, one transfer
sends where the nonce has the least size and only there. The decoder refuses the announced
transactions with a smaller nonce. -/
theorem paths_agree_iff :
    (((∃ tx, createTransaction keys pb false = .ok tx) ↔
        (∃ r, Tier2Transaction.quickFill (ofBytes (pb.binary sig).canonical) = .ok r) ∧
          (pb.binary sig).isSound keys = .ok true) ↔
      ((pb.binary sig).isSound keys = .ok true →
        ((sends pb.xfers).length = 1 ↔ kMinNonceSize ≤ pb.nonce.length))) ∧
    ∀ tx, createTransaction keys pb false = .ok tx →
      ((∃ r, Tier2Transaction.quickFill (ofBytes tx.getCanonical) = .ok r) ↔
        kMinNonceSize ≤ pb.nonce.length) := by
  refine ⟨?_, fun tx htx => ?_⟩
  · rw [createTransaction_iff h hsize, quickFill_binary_iff h hsize]
    exact and_congr_left_iff
  · rw [(createTransaction_ok h htx).2.2]
    exact quickFill_binary_iff h hsize

end

/-- Wallet 1 pays wallet 2 in coins of type 1. -/
def sampleXfers (amounts : List Int) : List Transfer :=
  amounts.map fun x => ⟨(Address.sample (if x < 0 then 1 else 2)).canonical, 1, x, 0⟩

/-- The signature of wallet 1 in the toy scheme. -/
def sampleSig (amounts : List Int) (nonce : Bytes) : Signature :=
  Ossl.toySignature (Address.sample 1) (Ossl.toyHash
    (Tier2Transaction.layout OpType.exchange.toByte (transfers (sampleXfers amounts)) nonce))

def sample (amounts : List Int) (nonce : Bytes) : Transaction :=
  ⟨OpType.exchange.toByte.toNat, sampleXfers amounts, nonce, (sampleSig amounts nonce).canonical⟩

def sampleBinary (amounts : List Int) (nonce : Bytes) : Tier2Transaction :=
  (sample amounts nonce).binary (sampleSig amounts nonce)

def sampleNonce : Bytes := [0, 1, 2, 3, 4, 5, 6, 7]

theorem typed_sample : (sample [-5, 5] sampleNonce).Typed (sampleSig [-5, 5] sampleNonce) :=
  ⟨by decide, by decide, by decide +kernel⟩

theorem paths_agree_iff_sample :
    createTransaction KeyRing.toy (sample [-5, 5] sampleNonce) false =
        .ok { sampleBinary [-5, 5] sampleNonce with isSoundFlag := true } ∧
      (∃ r, Tier2Transaction.quickFill
        (ofBytes (sampleBinary [-5, 5] sampleNonce).canonical) = .ok r) ∧
      (sampleBinary [-5, 5] sampleNonce).isSound KeyRing.toy = .ok true := by
  have h : createTransaction KeyRing.toy (sample [-5, 5] sampleNonce) false =
        .ok { sampleBinary [-5, 5] sampleNonce with isSoundFlag := true } ∧
      (sampleBinary [-5, 5] sampleNonce).canonical.length < 2 ^ 64 ∧
      ((sends (sampleXfers [-5, 5])).length = 1 ↔ kMinNonceSize ≤ sampleNonce.length) := by
    decide +kernel
  exact ⟨h.1, ((paths_agree_iff typed_sample h.2.1).1.mpr (fun _ => h.2.2)).mp ⟨_, h.1⟩⟩

/-- A nonce of one byte passes the announcer and not the decoder; two transfers that send
pass the decoder and not the announcer. -/
theorem sample_refused :
    createTransaction KeyRing.toy (sample [-5, 5] [7]) false =
      .ok { sampleBinary [-5, 5] [7] with isSoundFlag := true } ∧
    Tier2Transaction.quickFill (ofBytes (sampleBinary [-5, 5] [7]).canonical) =
      .error (Tier2Transaction.sizeError "bad nonce size" 1
        (ofBytes (sampleBinary [-5, 5] [7]).canonical)) ∧
    createTransaction KeyRing.toy (sample [-2, -3, 5] sampleNonce) false =
      .error (.runtime "More than one send transfer not supported.") ∧
    (Tier2Transaction.quickFill
      (ofBytes (sampleBinary [-2, -3, 5] sampleNonce).canonical)).isOk = true ∧
    (sampleBinary [-2, -3, 5] sampleNonce).isSound KeyRing.toy = .ok true := by
  decide +kernel

end Pbuf
end Devcash
