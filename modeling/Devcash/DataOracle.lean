import Devcash.Construction
import Devcash.Node
import Devcash.SectionCodec

/-! The data oracle: a proposal is an address, a signature and the data to store, which
coins of type 6 pay for. -/
namespace Devcash
open Endian

/-- `std::string::substr`. -/
def substr (s : Bytes) (pos len : Nat) : Result Bytes :=
  if s.length < pos then .error .outOfRange else .ok ((s.drop pos).take len)

def Address.getSizeByType (addrType : Byte) : Nat :=
  if addrType.toNat = kWalletAddrSize then kWalletAddrSize
  else if addrType.toNat = kNodeAddrSize then kNodeAddrSize
  else 0

def Signature.getSizeByType (sigType : Byte) : Nat :=
  if sigType.toNat = kWalletSigSize then kWalletSigSize
  else if sigType.toNat = kNodeSigSize then kNodeSigSize
  else 0

/-- The class `data`. -/
structure DataOracle where
  rawData : Bytes
  errorMsg : String
  deriving DecidableEq, Repr

namespace DataOracle

def kBytesPerCoin : Nat := 10240

def getDataSinkAddress : Address := Address.ofBytes (List.replicate kNodeAddrSize 0)

def getShardIndex : Nat := 6

def getCoinIndex : Nat := 6

/-- The division is one of integers, so that `ceil` has nothing left to round. -/
def coinsNeeded (dataSize : Nat) : Int := (dataSize / kBytesPerCoin : Nat)

/-- `raw_data_.size()-addr_size-sig_size-2` as a `size_t`. -/
def sizeBehind (raw : Bytes) (addrSize sigSize : Nat) : Nat :=
  toUint64 (raw.length - addrSize - sigSize - 2)

def isSound (d : DataOracle) : Result (Bool × DataOracle) := do
  let addrType ← byteAt d.rawData 0
  let addrSize := Address.getSizeByType addrType
  if addrSize < 1 then .ok (false, { d with errorMsg := "Bad address size." })
  else
    let sigType ← byteAt d.rawData (addrSize + 1)
    let sigSize := Signature.getSizeByType sigType
    if sigSize < 1 then .ok (false, { d with errorMsg := "Bad signature size." })
    else
      let dataSize := sizeBehind d.rawData addrSize sigSize
      if dataSize ≤ 0 then .ok (false, { d with errorMsg := "Bad data size." })
      else .ok (true, d)

def isValid (d : DataOracle) (context : Blockchain) : Result (Bool × DataOracle) := do
  let (sound, d) ← d.isSound
  if !sound then .ok (false, d)
  else
    let addrType ← byteAt d.rawData 0
    let addrSize := Address.getSizeByType addrType
    let addr ← substr d.rawData 0 (addrSize + 1)
    let client := Address.ofBytes addr
    let sigType ← byteAt d.rawData (addrSize + 1)
    let sigSize := Signature.getSizeByType sigType
    let dataSize := sizeBehind d.rawData addrSize sigSize
    let available ← context.getHighestChainState.getAmount getCoinIndex client
    if available < coinsNeeded dataSize then
      .ok (false, { d with errorMsg := "Data too large for coins provided" })
    else .ok (true, d)

/-- The transfers that pay for the data. -/
def payment (client : Address) (coins : Int) : List Transfer :=
  [Transfer.make client getCoinIndex (-1 * coins) 0,
    Transfer.make getDataSinkAddress getCoinIndex coins 0]

def getTransactions (d : DataOracle) (context : Blockchain) :
    Result (OrdMap Nat (List Tier2Transaction) × DataOracle) := do
  let (valid, d) ← d.isValid context
  if !valid then .ok (OrdMap.empty, d)
  else
    let addrType ← byteAt d.rawData 0
    let addrSize := Address.getSizeByType addrType
    let addr ← substr d.rawData 0 (addrSize + 1)
    let client := Address.ofBytes addr
    let sigType ← byteAt d.rawData (addrSize + 1)
    let sigSize := Signature.getSizeByType sigType
    let sigBin ← substr d.rawData (addrSize + 1) (sigSize + 1)
    let sig ← Signature.ofBytes sigBin
    let dataSize := sizeBehind d.rawData addrSize sigSize
    let pos := toUint64 (d.rawData.length - dataSize)
    let nonce ← substr d.rawData pos d.rawData.length
    let theTx := Tier2Transaction.ofSignature OpType.exchange.toByte
      (payment client (coinsNeeded dataSize)) nonce sig
    .ok (OrdMap.empty.insert getShardIndex [theTx], d)

/-- The transaction that pays for data of its own size. -/
def storing (client : Address) (data : Bytes) (sig : Signature) : Tier2Transaction :=
  Tier2Transaction.ofSignature OpType.exchange.toByte (payment client (coinsNeeded data.length))
    data sig

/-- The bytes are a whole address, the type of a signature and what follows. -/
structure Parts (raw : Bytes) (a : Address) (sigType : Byte) (part : Bytes) : Prop where
  addr : a.IsWallet ∨ a.IsNode
  type : sigType.toNat = kWalletSigSize ∨ sigType.toNat = kNodeSigSize
  bytes : raw = a.canonical ++ sigType :: part

theorem getSizeByType_address {t : Byte} (h : ¬ Address.getSizeByType t < 1) :
    t = UInt8.ofNat kWalletAddrSize ∧ Address.getSizeByType t = kWalletAddrSize ∨
      t = UInt8.ofNat kNodeAddrSize ∧ Address.getSizeByType t = kNodeAddrSize := by
  rw [Address.getSizeByType] at h ⊢
  split_ifs at h ⊢ with hw hn
  · exact .inl ⟨UInt8.toNat_inj.mp hw, rfl⟩
  · exact .inr ⟨UInt8.toNat_inj.mp hn, rfl⟩
  · exact absurd Nat.zero_lt_one h

theorem getSizeByType_signature {s : Byte} (h : ¬ Signature.getSizeByType s < 1) :
    (s.toNat = kWalletSigSize ∨ s.toNat = kNodeSigSize) ∧
      Signature.getSizeByType s = s.toNat := by
  rw [Signature.getSizeByType] at h ⊢
  split_ifs at h ⊢ with hw hn
  · exact ⟨.inl hw, hw.symm⟩
  · exact ⟨.inr hn, hn.symm⟩
  · exact absurd Nat.zero_lt_one h

theorem parts_of_reads {raw : Bytes} {t s : Byte} (ht : byteAt raw 0 = .ok t)
    (haddr : ¬ Address.getSizeByType t < 1)
    (hs : byteAt raw (Address.getSizeByType t + 1) = .ok s)
    (hsig : ¬ Signature.getSizeByType s < 1) : ∃ a part, Parts raw a s part := by
  obtain ⟨hlt, hs⟩ := byteAt_ok hs
  obtain ⟨hne, ht⟩ := byteAt_ok ht
  have hlen : (raw.take (Address.getSizeByType t + 1)).length = Address.getSizeByType t + 1 := by
    rw [List.length_take]
    omega
  have hhead : (raw.take (Address.getSizeByType t + 1)).head? = some t := by
    rw [List.head?_take, if_neg (Nat.succ_ne_zero _), List.head?_eq_getElem?, ht]
  refine ⟨⟨raw.take (Address.getSizeByType t + 1)⟩, raw.drop (Address.getSizeByType t + 2), ?_,
    (getSizeByType_signature hsig).1, ?_⟩
  · cases getSizeByType_address haddr with
    | inl h =>
      refine .inl ⟨?_, ?_⟩
      · rw [hlen, h.2, kWalletAddrBufSize]
      · rw [hhead, h.1]
    | inr h =>
      refine .inr ⟨?_, ?_⟩
      · rw [hlen, h.2, kNodeAddrBufSize]
      · rw [hhead, h.1]
  · have hget : raw[Address.getSizeByType t + 1] = s := by
      rw [List.getElem?_eq_getElem hlt] at hs
      exact Option.some.inj hs
    rw [← hget, ← List.drop_eq_getElem_cons hlt, List.take_append_drop]

namespace Parts
variable {raw : Bytes} {a : Address} {s : Byte} {part : Bytes} (h : Parts raw a s part)
include h

theorem sigSize : Signature.getSizeByType s = s.toNat ∧ 1 ≤ s.toNat := by
  rw [Signature.getSizeByType]
  cases h.type with
  | inl h =>
    rw [h]
    decide
  | inr h =>
    rw [h]
    decide

theorem addrType : ∃ t, byteAt raw 0 = .ok t ∧ 1 ≤ Address.getSizeByType t ∧
    Address.getSizeByType t + 1 = a.canonical.length := by
  have hbyte : ∀ t, a.canonical.head? = some t → byteAt raw 0 = .ok t := by
    intro t ht
    obtain ⟨rest, hrest⟩ := List.head?_eq_some_iff.mp ht
    rw [h.bytes, hrest]
    rfl
  cases h.addr with
  | inl h => exact ⟨_, hbyte _ h.2, by decide, by rw [h.1]; rfl⟩
  | inr h => exact ⟨_, hbyte _ h.2, by decide, by rw [h.1]; rfl⟩

theorem addrLength {t : Byte} (ht : byteAt raw 0 = .ok t) :
    Address.getSizeByType t + 1 = a.canonical.length := by
  obtain ⟨t', ht', -, hlen⟩ := h.addrType
  cases Except.ok.inj (ht.symm.trans ht')
  exact hlen

theorem reads : ∃ t, byteAt raw 0 = .ok t ∧ ¬ Address.getSizeByType t < 1 ∧
    substr raw 0 (Address.getSizeByType t + 1) = .ok a.canonical ∧
    byteAt raw (Address.getSizeByType t + 1) = .ok s ∧
    sizeBehind raw (Address.getSizeByType t) (Signature.getSizeByType s) =
      toUint64 (part.length - s.toNat) := by
  obtain ⟨t, ht, hpos, hlen⟩ := h.addrType
  refine ⟨t, ht, by omega, ?_, ?_, ?_⟩
  · rw [substr, if_neg (Nat.not_lt_zero _), List.drop_zero, hlen, h.bytes, List.take_left]
  · rw [hlen, h.bytes]
    exact byteAt_append _ _ _
  · rw [sizeBehind, h.sigSize.1, h.bytes, List.length_append, List.length_cons]
    congr 1
    omega

/-- The parts decide soundness: the size of the data is their difference as a `size_t`. -/
theorem isSound {d : DataOracle} (hraw : d.rawData = raw) : (∃ d', d.isSound = .ok (true, d')) ↔
    toUint64 (part.length - s.toNat) ≠ 0 := by
  obtain ⟨t, ht, haddr, -, hs, hsize⟩ := h.reads
  have hsig : ¬ Signature.getSizeByType s < 1 := by
    have := h.sigSize
    omega
  rw [DataOracle.isSound, hraw, ht]
  simp only [Result.bind_ok, if_neg haddr, hs, if_neg hsig, hsize]
  split_ifs with hzero
  · exact iff_of_false (by simp) (not_not.mpr (Nat.le_zero.mp hzero))
  · exact iff_of_true ⟨d, rfl⟩ (fun heq => hzero (Nat.le_of_eq heq))

theorem unique {a' : Address} {s' : Byte} {part' : Bytes} (h' : Parts raw a' s' part') :
    a' = a ∧ s' = s ∧ part' = part := by
  obtain ⟨t, ht, -, hlen⟩ := h.addrType
  obtain ⟨t', ht', -, hlen'⟩ := h'.addrType
  cases Except.ok.inj (ht.symm.trans ht')
  obtain ⟨hcan, hrest⟩ := List.append_inj (h'.bytes.symm.trans h.bytes) (hlen'.symm.trans hlen)
  obtain ⟨hs, hpart⟩ := List.cons.inj hrest
  refine ⟨?_, hs, hpart⟩
  cases a
  cases a'
  exact congrArg Address.mk hcan

end Parts

/-- The format of a proposal. -/
def IsProposal (raw : Bytes) : Prop :=
  ∃ (a : Address) (sig : Signature) (data : Bytes), (a.IsWallet ∨ a.IsNode) ∧
    (sig.IsWallet ∨ sig.IsNode) ∧ data ≠ [] ∧ raw = a.canonical ++ (sig.canonical ++ data)

/-- The bytes end before the signature does. -/
def CutInSignature (raw : Bytes) : Prop :=
  ∃ a s part, Parts raw a s part ∧ part.length < s.toNat

theorem parts_proposal {a : Address} {sig : Signature} (data : Bytes)
    (ha : a.IsWallet ∨ a.IsNode) (hsig : sig.IsWallet ∨ sig.IsNode) :
    ∃ s rest, sig.canonical = s :: rest ∧ rest.length = s.toNat ∧
      Parts (a.canonical ++ (sig.canonical ++ data)) a s (rest ++ data) := by
  obtain ⟨s, rest, hcan, hlen, -⟩ := Signature.ofBytes_tail hsig
  refine ⟨s, rest, hcan, hlen, ha, ?_, by rw [hcan]; rfl⟩
  cases hsig with
  | inl h =>
    rw [Signature.IsWallet, hcan] at h
    exact .inl (by rw [← hlen]; exact Nat.succ.inj h.1)
  | inr h =>
    rw [Signature.IsNode, hcan] at h
    exact .inr (by rw [← hlen]; exact Nat.succ.inj h.1)

theorem Parts.isProposal_iff {raw : Bytes} {a : Address} {s : Byte} {part : Bytes}
    (h : Parts raw a s part) : IsProposal raw ↔ s.toNat < part.length := by
  constructor
  · rintro ⟨a', sig, data, ha, hsig, hne, hraw⟩
    obtain ⟨s', rest, -, hlen, h'⟩ := parts_proposal data ha hsig
    rw [← hraw] at h'
    obtain ⟨-, rfl, rfl⟩ := h.unique h'
    have hpos := List.length_pos_iff.mpr hne
    rw [List.length_append, hlen]
    omega
  · intro hlt
    refine ⟨a, ⟨s :: part.take s.toNat⟩, part.drop s.toNat, h.addr, ?_, ?_, ?_⟩
    · have hlen : (part.take s.toNat).length = s.toNat := by
        rw [List.length_take]
        omega
      cases h.type with
      | inl ht =>
        exact .inl ⟨by rw [List.length_cons, hlen, ht]; rfl, congrArg some (UInt8.toNat_inj.mp ht)⟩
      | inr ht =>
        exact .inr ⟨by rw [List.length_cons, hlen, ht]; rfl, congrArg some (UInt8.toNat_inj.mp ht)⟩
    · exact List.ne_nil_of_length_pos (by rw [List.length_drop]; omega)
    · rw [h.bytes, List.cons_append, List.take_append_drop]

theorem parts_of_isSound {d d' : DataOracle} (h : d.isSound = .ok (true, d')) :
    ∃ a s part, Parts d.rawData a s part := by
  obtain ⟨t, ht, h⟩ := Result.bind_eq_ok h
  dsimp only at h
  split_ifs at h with haddr
  · cases h
  · obtain ⟨s, hs, h⟩ := Result.bind_eq_ok h
    by_cases hsig : Signature.getSizeByType s < 1
    · rw [if_pos hsig] at h
      cases h
    · obtain ⟨a, part, hparts⟩ := parts_of_reads ht haddr hs hsig
      exact ⟨a, s, part, hparts⟩

section
variable {d : DataOracle} {a : Address} {sig : Signature} {data : Bytes}
  (ha : a.IsWallet ∨ a.IsNode) (hsig : sig.IsWallet ∨ sig.IsNode)
  (hraw : d.rawData = a.canonical ++ (sig.canonical ++ data))
  (hlen : d.rawData.length < 2 ^ 64) (hne : data ≠ [])
include ha hsig hraw hlen

/-- The reads of a proposal: its address, its signature and the size of its data. -/
theorem reads_proposal : ∃ t s, byteAt d.rawData 0 = .ok t ∧ ¬ Address.getSizeByType t < 1 ∧
    substr d.rawData 0 (Address.getSizeByType t + 1) = .ok a.canonical ∧
    byteAt d.rawData (Address.getSizeByType t + 1) = .ok s ∧ ¬ Signature.getSizeByType s < 1 ∧
    substr d.rawData (Address.getSizeByType t + 1) (Signature.getSizeByType s + 1) =
      .ok sig.canonical ∧
    sizeBehind d.rawData (Address.getSizeByType t) (Signature.getSizeByType s) = data.length := by
  obtain ⟨s, rest, hcan, hrest, hparts⟩ := parts_proposal data ha hsig
  rw [← hraw] at hparts
  obtain ⟨t, ht, haddr, hsub, hs, hsize⟩ := hparts.reads
  obtain ⟨hs1, hs2⟩ := hparts.sigSize
  have hend := hparts.addrLength ht
  refine ⟨t, s, ht, haddr, hsub, hs, by omega, ?_, ?_⟩
  · have hlen : s.toNat + 1 = sig.canonical.length := by
      rw [hcan, List.length_cons, hrest]
    rw [substr, hend, if_neg (by rw [hraw, List.length_append]; omega), hs1, hlen, hraw,
      List.drop_left, List.take_left]
  · have hdata : data.length < 2 ^ 64 := by
      rw [hraw, List.length_append, List.length_append] at hlen
      omega
    rw [hsize, List.length_append, hrest, toUint64]
    omega

include hne in
theorem isSound_proposal : d.isSound = .ok (true, d) := by
  obtain ⟨t, s, ht, haddr, -, hs, hsize, -, hdata⟩ := reads_proposal ha hsig hraw hlen
  have hpos := List.length_pos_iff.mpr hne
  rw [isSound, ht]
  simp only [Result.bind_ok, if_neg haddr, hs, if_neg hsize, hdata,
    if_neg (Nat.not_le.mpr hpos)]

include hne in
theorem isValid_proposal (context : Blockchain) : d.isValid context = (do
    let available ← context.getHighestChainState.getAmount getCoinIndex a
    if available < coinsNeeded data.length then
      .ok (false, { d with errorMsg := "Data too large for coins provided" })
    else .ok (true, d)) := by
  obtain ⟨t, s, ht, -, hsub, hs, -, -, hdata⟩ := reads_proposal ha hsig hraw hlen
  rw [isValid, isSound_proposal ha hsig hraw hlen hne]
  simp only [Result.bind_ok, ht, hsub, hs, hdata, Address.ofBytes_canonical ha]
  rfl

theorem getTransactions_proposal {context : Blockchain}
    (hvalid : d.isValid context = .ok (true, d)) : d.getTransactions context =
      .ok (OrdMap.empty.insert getShardIndex [storing a data sig], d) := by
  obtain ⟨t, s, ht, -, hsub, hs, -, hsub2, hdata⟩ := reads_proposal ha hsig hraw hlen
  have hpos : toUint64 (d.rawData.length - data.length) = (a.canonical ++ sig.canonical).length := by
    rw [hraw] at hlen ⊢
    simp only [List.length_append] at hlen ⊢
    rw [toUint64]
    omega
  have hnonce : substr d.rawData (toUint64 (d.rawData.length - data.length)) d.rawData.length =
      .ok data := by
    rw [hpos, substr, if_neg (by rw [hraw]; simp), hraw, ← List.append_assoc, List.drop_left,
      List.take_of_length_le (by simp only [List.length_append]; omega)]
  rw [getTransactions, hvalid]
  simp only [Result.bind_ok, ht, hsub, hs, hsub2, hdata, hnonce, Address.ofBytes_canonical ha,
    Signature.ofBytes_canonical hsig]
  rfl

end

/-- Soundness is the format except for bytes that end within the signature. -/
theorem isSound_iff_proposal {d : DataOracle} (hlen : d.rawData.length < 2 ^ 64) :
    ((∃ d', d.isSound = .ok (true, d')) ↔ IsProposal d.rawData) ↔
      ¬ CutInSignature d.rawData := by
  by_cases hparts : ∃ a s part, Parts d.rawData a s part
  · obtain ⟨a, s, part, h⟩ := hparts
    have hpart : part.length < 2 ^ 64 := by
      rw [h.bytes, List.length_append, List.length_cons] at hlen
      omega
    have hcut : CutInSignature d.rawData ↔ part.length < s.toNat := by
      constructor
      · rintro ⟨a', s', part', h', hlt⟩
        obtain ⟨-, rfl, rfl⟩ := h.unique h'
        exact hlt
      · intro hlt
        exact ⟨a, s, part, h, hlt⟩
    have hzero : toUint64 (part.length - s.toNat) ≠ 0 ↔ part.length ≠ s.toNat := by
      have hs := s.toNat_lt
      rw [toUint64]
      omega
    rw [h.isSound rfl, h.isProposal_iff, hcut, hzero]
    omega
  · refine iff_of_true (iff_of_false ?_ ?_) ?_
    · rintro ⟨d', hsound⟩
      exact hparts (parts_of_isSound hsound)
    · rintro ⟨a, sig, data, ha, hsig, _, hraw⟩
      obtain ⟨s, rest, -, -, h⟩ := parts_proposal data ha hsig
      exact hparts ⟨a, s, rest ++ data, hraw ▸ h⟩
    · rintro ⟨a, s, part, h, _⟩
      exact hparts ⟨a, s, part, h⟩

/-- A proposal of a wallet with zeros for data. -/
def sampleProposal (n : Nat) : DataOracle where
  rawData := (Address.sample 1).canonical ++
    ((Ossl.toySignature (Address.sample 1) Hash.zero).canonical ++ List.replicate n 0)
  errorMsg := ""

theorem isSound_iff_proposal_sample : (∃ d', (sampleProposal 1).isSound = .ok (true, d')) ∧
    IsProposal (sampleProposal 1).rawData ∧ ¬ CutInSignature (sampleProposal 1).rawData := by
  have hsound : ∃ d', (sampleProposal 1).isSound = .ok (true, d') :=
    ⟨_, isSound_proposal (.inl (by decide)) (.inl (by decide)) rfl (by decide)
      (List.cons_ne_nil _ _)⟩
  have hformat : IsProposal (sampleProposal 1).rawData :=
    ⟨_, _, [0], .inl (by decide), .inl (by decide), List.cons_ne_nil _ _, rfl⟩
  exact ⟨hsound, hformat, (isSound_iff_proposal (by decide)).mp (iff_of_true hsound hformat)⟩

/-- The type of a signature without the signature is accepted. -/
theorem isSound_cut : (∃ d', (DataOracle.mk ((Address.sample 1).canonical ++ [73]) "").isSound =
      .ok (true, d')) ∧ ¬ IsProposal ((Address.sample 1).canonical ++ [73]) := by
  have hparts : Parts ((Address.sample 1).canonical ++ [73]) (Address.sample 1) 73 [] :=
    ⟨.inl (by decide), .inl (by decide), rfl⟩
  refine ⟨⟨_, rfl⟩, ?_⟩
  rw [hparts.isProposal_iff]
  decide

theorem isNode_dataSink : getDataSinkAddress.IsNode := by decide

theorem payment_ofFlow (client : Address) (k : Int) :
    payment client k = [Transfer.ofFlow ⟨client, getCoinIndex, -k, 0⟩,
      Transfer.ofFlow ⟨getDataSinkAddress, getCoinIndex, k, 0⟩] := by
  rw [payment, neg_one_mul]
  rfl

theorem typed_payment {client : Address} (h : client.IsWallet ∨ client.IsNode) (k : Int) :
    Flow.Typed ⟨client, getCoinIndex, -k, 0⟩ ∧
      Flow.Typed ⟨getDataSinkAddress, getCoinIndex, k, 0⟩ := by
  have hcoin : getCoinIndex < 2 ^ 64 := by decide
  have hdelay : 0 < 2 ^ 64 := by decide
  exact ⟨⟨h, hcoin, hdelay⟩, ⟨.inr isNode_dataSink, hcoin, hdelay⟩⟩

theorem onAccount_payment {client : Address} (h : client.IsWallet ∨ client.IsNode) (k : Int) :
    ∀ t ∈ payment client k, t.OnAccount := by
  have htyped := typed_payment h k
  rw [payment_ofFlow]
  intro t ht
  simp only [List.mem_cons, List.not_mem_nil, or_false] at ht
  cases ht with
  | inl ht => exact ht ▸ Transfer.onAccount_ofFlow htyped.1
  | inr ht => exact ht ▸ Transfer.onAccount_ofFlow htyped.2

/-- A transaction moves coins of type 6 from the client to the data sink. -/
def Moves (tx : Tier2Transaction) (client : Address) (k : Int) : Prop :=
  ∃ pay settle, tx.getTransfers = .ok [pay, settle] ∧
    pay.flow = .ok ⟨client, getCoinIndex, -k, 0⟩ ∧
    settle.flow = .ok ⟨getDataSinkAddress, getCoinIndex, k, 0⟩

theorem Moves.unique {tx : Tier2Transaction} {client : Address} {k k' : Int}
    (h : Moves tx client k) (h' : Moves tx client k') : k = k' := by
  obtain ⟨pay, settle, hget, -, hsettle⟩ := h
  obtain ⟨pay', settle', hget', -, hsettle'⟩ := h'
  cases hget.symm.trans hget'
  exact congrArg Flow.amount (Except.ok.inj (hsettle.symm.trans hsettle'))

theorem coinsNeeded_bounds {n : Nat} (h : n < 2 ^ 64) :
    0 ≤ coinsNeeded n ∧ coinsNeeded n < 2 ^ 63 := by
  rw [coinsNeeded, kBytesPerCoin]
  omega

theorem frames_storing {client : Address} {data : Bytes} {sig : Signature}
    (hsize : (storing client data sig).canonical.length < 2 ^ 64) :
    (storing client data sig).Frames OpType.exchange.toByte
      ((payment client (coinsNeeded data.length)).flatMap Transfer.getCanonical) data
      sig.canonical :=
  Tier2Transaction.frames_ofSignature hsize

theorem moves_storing {client : Address} (hclient : client.IsWallet ∨ client.IsNode)
    {data : Bytes} (sig : Signature) (hdata : data.length < 2 ^ 64)
    (hsize : (storing client data sig).canonical.length < 2 ^ 64) :
    Moves (storing client data sig) client (coinsNeeded data.length) := by
  obtain ⟨hpos, hlt⟩ := coinsNeeded_bounds hdata
  have htyped := typed_payment hclient (coinsNeeded data.length)
  have hget := (frames_storing hsize).getTransfers
    (onAccount_payment hclient (coinsNeeded data.length))
  have hpay : i64 (-coinsNeeded data.length) = -coinsNeeded data.length :=
    i64_of_bounds (by omega) (by omega)
  have hsettle : i64 (coinsNeeded data.length) = coinsNeeded data.length :=
    i64_of_bounds (by omega) (by omega)
  refine ⟨_, _, hget.trans (congrArg _ (payment_ofFlow client _)), ?_, ?_⟩
  · exact Transfer.flow_ofFlow htyped.1 hpay
  · exact Transfer.flow_ofFlow htyped.2 hsettle

theorem length_storing (client : Address) (data : Bytes) (sig : Signature) :
    (storing client data sig).canonical.length =
      client.canonical.length + sig.canonical.length + data.length + 115 := by
  have hx : ((payment client (coinsNeeded data.length)).flatMap Transfer.getCanonical).length =
      client.canonical.length + 98 := by
    rw [payment_ofFlow]
    simp only [List.flatMap_cons, List.flatMap_nil, Transfer.getCanonical,
      Transfer.ofFlow_canonical, List.length_append, length_leBytes, List.length_nil,
      isNode_dataSink.1]
    rfl
  have hcan : (storing client data sig).canonical = Tier2Transaction.layout OpType.exchange.toByte
      (payment client (coinsNeeded data.length)) data ++ sig.canonical := rfl
  rw [hcan, Tier2Transaction.layout_eq]
  simp only [List.length_append, List.length_cons, length_leBytes, hx]
  omega

/-- What is stored is paid for exactly if it fills its last coin. -/
theorem storage_paid_iff {d : DataOracle} {a : Address} {sig : Signature} {data : Bytes}
    (ha : a.IsWallet ∨ a.IsNode) (hsig : sig.IsWallet ∨ sig.IsNode) (hne : data ≠ [])
    (hraw : d.rawData = a.canonical ++ (sig.canonical ++ data))
    (hlen : d.rawData.length < 2 ^ 63) {context : Blockchain} {d' : DataOracle}
    (hvalid : d.isValid context = .ok (true, d')) :
    (∃ (k : Int) (tx : Tier2Transaction) (d'' : DataOracle),
      d.getTransactions context = .ok (OrdMap.empty.insert getShardIndex [tx], d'') ∧
      Moves tx a k ∧ data.length ≤ k * kBytesPerCoin ∧
      k ≤ context.getHighestChainState.balance a getCoinIndex) ↔
    kBytesPerCoin ∣ data.length := by
  have hlen64 : d.rawData.length < 2 ^ 64 := by omega
  have hsizes : a.canonical.length + sig.canonical.length + data.length < 2 ^ 63 := by
    rw [hraw, List.length_append, List.length_append] at hlen
    omega
  obtain ⟨rfl, hbalance⟩ : d' = d ∧
      coinsNeeded data.length ≤ context.getHighestChainState.balance a getCoinIndex := by
    rw [isValid_proposal ha hsig hraw hlen64 hne] at hvalid
    obtain ⟨available, hamount, hvalid⟩ := Result.bind_eq_ok hvalid
    rw [ChainState.getAmount_eq] at hamount
    split_ifs at hamount hvalid with hknown hfew
    · cases hvalid
    · cases hamount
      cases hvalid
      exact ⟨rfl, Int.not_lt.mp hfew⟩
  have hget := getTransactions_proposal ha hsig hraw hlen64 hvalid
  have hmoves := moves_storing ha sig (by omega : data.length < 2 ^ 64)
    (by rw [length_storing]; omega)
  constructor
  · rintro ⟨k, tx, d'', hget', hmoves', hpaid, _⟩
    have hmap := (Prod.mk.inj (Except.ok.inj (hget.symm.trans hget'))).1
    have hfind := congrArg (OrdMap.find? · getShardIndex) hmap
    simp only [OrdMap.find?_insert_new (OrdMap.find?_empty _), Option.some.injEq, List.cons.injEq,
      and_true] at hfind
    subst hfind
    rw [← hmoves.unique hmoves', coinsNeeded] at hpaid
    have hpaid : data.length ≤ data.length / kBytesPerCoin * kBytesPerCoin := by
      exact_mod_cast hpaid
    exact Dvd.intro_left _ (Nat.le_antisymm (Nat.div_mul_le_self _ _) hpaid)
  · intro hdvd
    refine ⟨_, _, _, hget, hmoves, ?_, hbalance⟩
    rw [coinsNeeded]
    exact_mod_cast (Nat.div_mul_cancel hdvd).ge

/-- A chain whose state gives the client a coin. -/
def sampleContext : Blockchain :=
  [{ BlockFields.default with
    blockState := ChainState.empty.addCoin (SmartCoin.make (Address.sample 1) getCoinIndex 1) }]

theorem storage_paid_iff_sample : ∃ (k : Int) (tx : Tier2Transaction) (d : DataOracle),
    (sampleProposal kBytesPerCoin).getTransactions sampleContext =
      .ok (OrdMap.empty.insert getShardIndex [tx], d) ∧
    Moves tx (Address.sample 1) k ∧
    (List.replicate kBytesPerCoin (0 : Byte)).length ≤ k * kBytesPerCoin ∧
    k ≤ sampleContext.getHighestChainState.balance (Address.sample 1) getCoinIndex := by
  have hlen : (sampleProposal kBytesPerCoin).rawData.length = 108 + kBytesPerCoin := by
    rw [sampleProposal, List.length_append, List.length_append, List.length_replicate]
    rfl
  have hne : List.replicate kBytesPerCoin (0 : Byte) ≠ [] := by
    rw [kBytesPerCoin]
    exact List.cons_ne_nil _ _
  have ha : (Address.sample 1).IsWallet := by decide
  have hsig : (Ossl.toySignature (Address.sample 1) Hash.zero).IsWallet := by decide
  have hvalid : (sampleProposal kBytesPerCoin).isValid sampleContext =
      .ok (true, sampleProposal kBytesPerCoin) := by
    rw [isValid_proposal (.inl ha) (.inl hsig) rfl (by rw [hlen]; decide) hne,
      List.length_replicate]
    rfl
  refine (storage_paid_iff (.inl ha) (.inl hsig) hne rfl (by rw [hlen]; decide) hvalid).mpr ?_
  rw [List.length_replicate]

/-- A byte is stored for nothing by a client the chain does not know. -/
theorem sampleProposal_free : (sampleProposal 1).isValid [] = .ok (true, sampleProposal 1) ∧
    ∃ tx, (sampleProposal 1).getTransactions [] =
        .ok (OrdMap.empty.insert getShardIndex [tx], sampleProposal 1) ∧
      Moves tx (Address.sample 1) 0 := by
  refine ⟨rfl, storing (Address.sample 1) [0] (Ossl.toySignature (Address.sample 1) Hash.zero),
    rfl, ?_⟩
  exact moves_storing (.inl (by decide)) _ (by decide) (by rw [length_storing]; decide)

end DataOracle
end Devcash
