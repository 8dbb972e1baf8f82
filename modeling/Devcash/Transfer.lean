import Devcash.InputBuffer

/-! One coin transfer, kept as its canonical bytes and read back field by field. -/
namespace Devcash
open Endian Reader InputBuffer

structure Transfer where
  canonical : Bytes
  deriving DecidableEq, Repr

/-- The fields of a transfer. -/
structure Flow where
  addr : Address
  coin : Nat
  amount : Int
  delay : Nat

/-- The account a transfer is posted to. -/
def Flow.slot (f : Flow) : Address × Nat := (f.addr, f.coin)

namespace Transfer

/-- `Transfer(addr, coin, amount, delay)`. -/
def make (addr : Address) (coin : Nat) (amount : Int) (delay : Nat) : Transfer :=
  ⟨uint64ToBin delay (int64ToBin amount (uint64ToBin coin addr.getCanonical))⟩

/-- `Transfer(InputBuffer&)`. -/
def ofBuffer : BufReader Transfer := do
  let addr ← copyAddress
  let rest ← copy kTransferNonaddrDataSize
  pure ⟨addr.getCanonical ++ rest⟩

def size (t : Transfer) : Nat := t.canonical.length

def getCanonical (t : Transfer) : Bytes := t.canonical

/- Every accessor first finds the end of the address from the type byte. -/
def addrBufSize (err : String) (t : Transfer) : Result Nat := do
  let b ← byteAt t.canonical 0
  if b.toNat = kWalletAddrSize then .ok kWalletAddrBufSize
  else if b.toNat = kNodeAddrSize then .ok kNodeAddrBufSize
  else .error (.runtime err)

def getAddress (t : Transfer) : Result Address := do
  let n ← t.addrBufSize "Transfer Address has invalid type prefix."
  let addr ← slice t.canonical 0 n
  .ok (Address.ofBytes addr)

def getCoin (t : Transfer) : Result Nat := do
  let n ← t.addrBufSize "Transfer has invalid type prefix."
  binToUint64 t.canonical n

def getAmount (t : Transfer) : Result Int := do
  let n ← t.addrBufSize "Transfer has invalid type prefix."
  binToInt64 t.canonical (n + kUint64Size)

def getDelay (t : Transfer) : Result Nat := do
  let n ← t.addrBufSize "Transfer has invalid type prefix."
  binToUint64 t.canonical (n + kUint64Size * 2)

theorem make_canonical (addr : Address) (coin : Nat) (amount : Int) (delay : Nat) :
    (make addr coin amount delay).canonical = addr.canonical ++
      (leBytes 8 coin ++ leBytes 8 (toUint64 amount) ++ leBytes 8 delay) := by
  simp [make, uint64ToBin_eq, int64ToBin_eq, Address.getCanonical]

theorem getAmount_range {t : Transfer} {x : Int} (h : t.getAmount = .ok x) : i64 x = x := by
  obtain ⟨n, -, h⟩ := Result.bind_eq_ok h
  obtain ⟨lsb, -, h⟩ := Result.bind_eq_ok h
  obtain ⟨msb, -, h⟩ := Result.bind_eq_ok h
  rw [← Except.ok.inj h, i64_i64]

/-- The address of a wallet or of a node and three words. -/
def OnAccount (t : Transfer) : Prop :=
  (t.canonical.length = kWalletAddrBufSize + kTransferNonaddrDataSize ∧
    t.canonical.head? = some (UInt8.ofNat kWalletAddrSize)) ∨
  (t.canonical.length = kNodeAddrBufSize + kTransferNonaddrDataSize ∧
    t.canonical.head? = some (UInt8.ofNat kNodeAddrSize))

instance (t : Transfer) : Decidable t.OnAccount := inferInstanceAs (Decidable (_ ∨ _))

theorem addrBufSize_of_head {t : Transfer} {b : Byte} (err : String)
    (h : t.canonical.head? = some b) :
    (b = UInt8.ofNat kWalletAddrSize → t.addrBufSize err = .ok kWalletAddrBufSize) ∧
      (b = UInt8.ofNat kNodeAddrSize → t.addrBufSize err = .ok kNodeAddrBufSize) := by
  rw [List.head?_eq_getElem?] at h
  constructor
  · rintro rfl
    simp only [addrBufSize, byteAt, h, Result.bind_ok]
    rfl
  · rintro rfl
    simp only [addrBufSize, byteAt, h, Result.bind_ok]
    rfl

section
variable {t : Transfer} {a : Address} {rest : Bytes} (ha : a.IsWallet ∨ a.IsNode)
  (ht : t.canonical = a.canonical ++ rest)
include ha ht

theorem addrBufSize_append (err : String) : t.addrBufSize err = .ok a.canonical.length := by
  have hhead : ∀ b, a.canonical.head? = some b → t.canonical.head? = some b := by
    intro b hb
    rw [ht, List.head?_append, hb]
    rfl
  cases ha with
  | inl hw =>
    rw [hw.1]
    exact (addrBufSize_of_head err (hhead _ hw.2)).1 rfl
  | inr hn =>
    rw [hn.1]
    exact (addrBufSize_of_head err (hhead _ hn.2)).2 rfl

theorem getAddress_append : t.getAddress = .ok a := by
  have hs := slice_append [] a.canonical rest
  rw [List.nil_append, ← ht, List.length_nil] at hs
  rw [getAddress, addrBufSize_append ha ht, Result.bind_ok, hs, Result.bind_ok,
    Address.ofBytes_canonical ha]

end

theorem OnAccount.getDelay {t : Transfer} (h : t.OnAccount) : ∃ d, t.getDelay = .ok d := by
  rw [Transfer.getDelay]
  cases h with
  | inl h =>
    rw [(addrBufSize_of_head _ h.2).1 rfl, Result.bind_ok, binToUint64_eq (by rw [h.1]; decide)]
    exact ⟨_, rfl⟩
  | inr h =>
    rw [(addrBufSize_of_head _ h.2).2 rfl, Result.bind_ok, binToUint64_eq (by rw [h.1]; decide)]
    exact ⟨_, rfl⟩

theorem addrBufSize_ok {err : String} {t : Transfer} {n : Nat} (h : t.addrBufSize err = .ok n) :
    ∃ b, t.canonical.head? = some b ∧
      (b = UInt8.ofNat kWalletAddrSize ∧ n = kWalletAddrBufSize ∨
        b = UInt8.ofNat kNodeAddrSize ∧ n = kNodeAddrBufSize) := by
  obtain ⟨b, hb, h⟩ := Result.bind_eq_ok h
  refine ⟨b, by rw [List.head?_eq_getElem?]; exact (byteAt_ok hb).2, ?_⟩
  split_ifs at h with hw hn
  · cases h
    exact Or.inl ⟨UInt8.toNat_inj.mp hw, rfl⟩
  · cases h
    exact Or.inr ⟨UInt8.toNat_inj.mp hn, rfl⟩

theorem getAddress_kind {t : Transfer} {a : Address} (h : t.getAddress = .ok a) :
    a.IsWallet ∨ a.IsNode := by
  obtain ⟨n, hn, h⟩ := Result.bind_eq_ok h
  obtain ⟨addr, haddr, h⟩ := Result.bind_eq_ok h
  cases h
  obtain ⟨b, hb, hkind⟩ := addrBufSize_ok hn
  obtain ⟨hle, rfl, hlen⟩ := slice_ok haddr
  have hhead : ((t.canonical.drop 0).take n).head? = some b := by
    rw [List.drop_zero, List.head?_take, if_neg, hb]
    obtain ⟨-, rfl⟩ | ⟨-, rfl⟩ := hkind <;> decide
  obtain ⟨rfl, rfl⟩ | ⟨rfl, rfl⟩ := hkind
  · left
    rw [Address.ofBytes, if_neg (by rw [hlen]; decide), if_pos ⟨hlen, hhead⟩]
    exact ⟨hlen, hhead⟩
  · right
    rw [Address.ofBytes, if_neg (by rw [hlen]; decide),
      if_neg (fun h => absurd (hlen.symm.trans h.1) (by decide)), if_neg (by rw [hlen]; decide),
      if_pos ⟨hlen, hhead⟩]
    exact ⟨hlen, hhead⟩

theorem OnAccount.split {t : Transfer} (h : t.OnAccount) : ∃ (a : Address) (rest : Bytes),
    (a.IsWallet ∨ a.IsNode) ∧ rest.length = kTransferNonaddrDataSize ∧
      t.canonical = a.canonical ++ rest := by
  have key : ∀ n, 0 < n → t.canonical.length = n + kTransferNonaddrDataSize →
      (t.canonical.take n).length = n ∧ (t.canonical.take n).head? = t.canonical.head? ∧
        (t.canonical.drop n).length = kTransferNonaddrDataSize := by
    intro n hpos hlen
    rw [List.length_take, List.length_drop, List.head?_take, if_neg (by omega), hlen]
    exact ⟨by omega, rfl, by omega⟩
  cases h with
  | inl h =>
    obtain ⟨hl, hh, hr⟩ := key kWalletAddrBufSize (by decide) h.1
    exact ⟨⟨t.canonical.take kWalletAddrBufSize⟩, t.canonical.drop kWalletAddrBufSize,
      Or.inl ⟨hl, hh.trans h.2⟩, hr, (List.take_append_drop _ _).symm⟩
  | inr h =>
    obtain ⟨hl, hh, hr⟩ := key kNodeAddrBufSize (by decide) h.1
    exact ⟨⟨t.canonical.take kNodeAddrBufSize⟩, t.canonical.drop kNodeAddrBufSize,
      Or.inr ⟨hl, hh.trans h.2⟩, hr, (List.take_append_drop _ _).symm⟩

theorem OnAccount.reads {t : Transfer} (h : t.OnAccount) : Reads ofBuffer t.canonical t := by
  obtain ⟨a, rest, ha, hrest, hcan⟩ := h.split
  have ht : t = ⟨a.getCanonical ++ rest⟩ := by
    cases t
    exact congrArg Transfer.mk hcan
  rw [hcan, ht]
  refine (reads_copyAddress ha).bind ?_
  rw [← hrest]
  exact (reads_copy rest).bind_done (Reads.pure _)

theorem OnAccount.size_pos {t : Transfer} (h : t.OnAccount) : 0 < t.size := by
  obtain ⟨a, rest, -, hrest, hcan⟩ := h.split
  rw [size, hcan, List.length_append, hrest]
  exact Nat.add_pos_right _ (by decide)

end Transfer
end Devcash
