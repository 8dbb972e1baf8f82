import Devcash.Address
import Devcash.Lib.Reader

/-! `InputBuffer`: a byte vector with an offset, and the reads the decoders use. -/
namespace Devcash
open Endian Reader

abbrev InputBuffer := Cursor Byte
abbrev BufReader (α : Type) := Reader Error Byte α

namespace InputBuffer

def ofBytes (input : Bytes) : InputBuffer := ⟨input, 0⟩

def size (b : InputBuffer) : Nat := b.buffer.length

/-- The byte `loc` places after the offset; the sum is a `size_t`. -/
def offsetAt (loc : Nat) : BufReader Byte := fun b =>
  lift (byteAt b.buffer (u64 (loc + b.offset))) b

/-- `copy(out_iter, length)`: `copy_n` from the offset, then increment it. -/
def copy (length : Nat) : BufReader Bytes := fun b =>
  match slice b.buffer b.offset length with
  | .ok out => .ok (out, { b with offset := b.offset + length })
  | .error e => .error e

/-- `copy` into a `std::array` of 32 bytes. -/
def copyHash : BufReader Hash := fun b =>
  if h : b.offset + 32 ≤ b.buffer.length then
    .ok (⟨(b.buffer.drop b.offset).take 32, by simp; omega⟩, { b with offset := b.offset + 32 })
  else .error .badAccess

def getNextByte : BufReader Byte := fun b =>
  match byteAt b.buffer b.offset with
  | .ok ret => .ok (ret, { b with offset := b.offset + 1 })
  | .error e => .error e

/- The three word readers differ in the word they read and in whether they move. -/
def getWord (read : Bytes → Nat → Result Nat) (skip width : Nat)
    (incrementBuffer : Bool) : BufReader Nat := fun b =>
  match read b.buffer (b.offset + skip) with
  | .ok ret => .ok (ret, if incrementBuffer then { b with offset := b.offset + width } else b)
  | .error e => .error e

def getNextUint32 (incrementBuffer : Bool) : BufReader Nat :=
  getWord binToUint32 0 4 incrementBuffer

def getNextUint64 (incrementBuffer : Bool) : BufReader Nat :=
  getWord binToUint64 0 8 incrementBuffer

def getSecondUint64 (incrementBuffer : Bool) : BufReader Nat :=
  getWord binToUint64 8 8 incrementBuffer

/-- `copy(Address&)`: the type byte is a length. -/
def copyAddress : BufReader Address := do
  let t ← getNextByte
  let binAddr ← copy t.toNat
  pure (Address.ofBytes binAddr)

def copySignature : BufReader Signature := do
  let t ← getNextByte
  let binSig ← copy t.toNat
  lift (Signature.ofBytes binSig)

/-- `getNextT1Transaction`: what does not fit gives no bytes and no error. -/
def getNextT1Transaction : BufReader Bytes := fun b =>
  (do
    let sumSize ← getNextUint64 false
    let txSize := u64 (sumSize + kNodeSigBufSize + kUint64Size + kNodeAddrBufSize)
    if InputBuffer.size b < u64 (b.offset + txSize) then pure []
    else copy txSize) b

/-- `getNextTransaction`: what is not a Tier-2 transaction is taken for a Tier-1 one. -/
def getNextTransaction : BufReader Bytes := fun b =>
  if InputBuffer.size b < b.offset + kTxMinSize then getNextT1Transaction b
  else
    (do
      let xferSize ← getNextUint64 false
      let nonceSize ← getSecondUint64 false
      if nonceSize < kMinNonceSize then getNextT1Transaction
      else
        let oper ← offsetAt kOperationOffset
        if oper.toNat ≥ OpType.numOperations then getNextT1Transaction
        else
          let typeByte ← offsetAt (u64 (kTransferOffset + xferSize + nonceSize))
          let txSize := u64 (typeByte.toNat + kTransferOffset + xferSize + nonceSize + 1)
          if InputBuffer.size b < u64 (b.offset + txSize) then getNextT1Transaction
          else copy txSize) b

theorem reads_copy (l : Bytes) : Reads (copy l.length) l l := by
  intro pre post
  simp only [copy, slice_append]

theorem reads_getNextByte (t : Byte) : Reads getNextByte [t] t := by
  intro pre post
  have h := byteAt_append pre post t
  simp only [List.append_assoc, List.cons_append, List.nil_append] at h ⊢
  simp only [getNextByte, h, List.length_cons, List.length_nil]

theorem reads_copyHash (h : Hash) : Reads copyHash h.1 h := by
  intro pre post
  have hl : pre.length + 32 ≤ (pre ++ h.1 ++ post).length := by
    simp [h.2]
  have ht : ((pre ++ h.1 ++ post).drop pre.length).take 32 = h.1 := by
    rw [List.append_assoc, List.drop_left]
    exact List.take_left' h.2
  simp only [copyHash, dif_pos hl, ht, h.2]

theorem reads_getNextUint64 {v : Nat} (h : v < 2 ^ 64) :
    Reads (getNextUint64 true) (leBytes 8 v) v := by
  intro pre post
  simp only [getNextUint64, getWord, Nat.add_zero, binToUint64_append pre post v h,
    length_leBytes, if_true]

theorem reads_getNextUint32 {v : Nat} (h : v < 2 ^ 32) :
    Reads (getNextUint32 true) (leBytes 4 v) v := by
  intro pre post
  simp only [getNextUint32, getWord, Nat.add_zero, binToUint32_append pre post v h,
    length_leBytes, if_true]

theorem getNextUint64_peek (pre post : Bytes) {v : Nat} (h : v < 2 ^ 64) :
    getNextUint64 false ⟨pre ++ leBytes 8 v ++ post, pre.length⟩ =
      .ok (v, ⟨pre ++ leBytes 8 v ++ post, pre.length⟩) := by
  simp [getNextUint64, getWord, binToUint64_append pre post v h, -List.append_assoc]

theorem getSecondUint64_peek (pre first post : Bytes) {v : Nat} (hf : first.length = 8)
    (h : v < 2 ^ 64) :
    getSecondUint64 false ⟨pre ++ first ++ leBytes 8 v ++ post, pre.length⟩ =
      .ok (v, ⟨pre ++ first ++ leBytes 8 v ++ post, pre.length⟩) := by
  have hr := binToUint64_append (pre ++ first) post v h
  have hl : (pre ++ first).length = pre.length + 8 := by simp [hf]
  rw [hl] at hr
  simp only [getSecondUint64, getWord, hr]
  rfl

theorem offsetAt_append (pre mid post : Bytes) (t : Byte)
    (h : (pre ++ mid).length < 2 ^ 64) :
    offsetAt mid.length ⟨pre ++ mid ++ t :: post, pre.length⟩ =
      .ok (t, ⟨pre ++ mid ++ t :: post, pre.length⟩) := by
  have hs : u64 (mid.length + pre.length) = (pre ++ mid).length := by
    rw [u64_of_lt (by simpa [Nat.add_comm] using h)]
    simp [Nat.add_comm]
  simp only [offsetAt, hs, byteAt_append, lift]

theorem reads_copyAddress {a : Address} (h : a.IsWallet ∨ a.IsNode) :
    Reads copyAddress a.canonical a := by
  obtain ⟨t, raw, hc, hl, ha⟩ := Address.ofBytes_tail h
  rw [hc, ← ha, ← List.singleton_append]
  refine (reads_getNextByte t).bind ?_
  rw [← hl]
  exact (reads_copy raw).bind_done (Reads.pure _)

theorem reads_copySignature {s : Signature} (h : s.IsWallet ∨ s.IsNode) :
    Reads copySignature s.canonical s := by
  obtain ⟨t, raw, hc, hl, hs⟩ := Signature.ofBytes_tail h
  rw [hc, ← List.singleton_append]
  refine (reads_getNextByte t).bind ?_
  rw [← hl]
  exact (reads_copy raw).bind_done (Reads.lift hs)

theorem getWord_stay {read : Bytes → Nat → Result Nat} {skip width : Nat} {b b' : InputBuffer}
    {v : Nat} (h : getWord read skip width false b = .ok (v, b')) :
    b' = b ∧ read b.buffer (b.offset + skip) = .ok v := by
  simp only [getWord] at h
  split at h
  · rename_i ret hr
    cases h
    exact ⟨rfl, hr⟩
  · cases h

theorem offsetAt_ok {loc : Nat} {b b' : InputBuffer} {t : Byte}
    (h : offsetAt loc b = .ok (t, b')) :
    b' = b ∧ byteAt b.buffer (u64 (loc + b.offset)) = .ok t := by
  obtain ⟨h1, h2⟩ := lift_eq_ok h
  exact ⟨h2, h1⟩

theorem copy_ok {n : Nat} {b b' : InputBuffer} {out : Bytes} (h : copy n b = .ok (out, b')) :
    out = (b.buffer.drop b.offset).take n ∧ out.length = n ∧
      b' = { b with offset := b.offset + n } := by
  simp only [copy] at h
  split at h
  · rename_i out' hs
    cases h
    obtain ⟨-, h1, h2⟩ := slice_ok hs
    exact ⟨h1, h2, rfl⟩
  · cases h

theorem copy_bound {n : Nat} {b b' : InputBuffer} {out : Bytes} (h : copy n b = .ok (out, b')) :
    out.length = n ∧ b'.buffer = b.buffer ∧ b'.offset = b.offset + n ∧
      b'.offset ≤ b.buffer.length := by
  simp only [copy] at h
  split at h
  · rename_i out' hs
    cases h
    obtain ⟨hle, -, hlen⟩ := slice_ok hs
    exact ⟨hlen, rfl, rfl, hle⟩
  · cases h

end InputBuffer
end Devcash
