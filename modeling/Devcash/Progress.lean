import Devcash.ChainDump
import Devcash.Failures
import Devcash.Lib.Progress

/-! The transaction loops of the block decoders: the bytes at which a turn neither fails
nor moves the offset, and so keeps its loop running. -/
namespace Devcash
open Endian Reader InputBuffer

namespace InputBuffer

theorem getWord_of_ok {read : Bytes → Nat → Result Nat} {skip width v : Nat} {b : InputBuffer}
    (h : read b.buffer (b.offset + skip) = .ok v) : getWord read skip width false b = .ok (v, b) := by
  simp only [getWord, h]
  rfl

theorem offsetAt_of_ok {loc : Nat} {b : InputBuffer} {t : Byte}
    (h : byteAt b.buffer (u64 (loc + b.offset)) = .ok t) : offsetAt loc b = .ok (t, b) := by
  simp only [offsetAt, h, lift]

/-- The words, the operation and the type byte of a Tier-2 transaction at the offset. -/
structure Framed (b : InputBuffer) (x n : Nat) (t : Byte) : Prop where
  size : b.offset + kTxMinSize ≤ InputBuffer.size b
  xfer : binToUint64 b.buffer b.offset = .ok x
  nonce : binToUint64 b.buffer (b.offset + 8) = .ok n
  nonce_min : kMinNonceSize ≤ n
  oper : ∃ op, byteAt b.buffer (u64 (kOperationOffset + b.offset)) = .ok op ∧
    op.toNat < OpType.numOperations
  typeByte : byteAt b.buffer (u64 (u64 (kTransferOffset + x + n) + b.offset)) = .ok t

theorem Framed.unique {b : InputBuffer} {x n x' n' : Nat} {t t' : Byte} (h : Framed b x n t)
    (h' : Framed b x' n' t') : x = x' ∧ n = n' ∧ t = t' := by
  cases h.xfer.symm.trans h'.xfer
  cases h.nonce.symm.trans h'.nonce
  cases h.typeByte.symm.trans h'.typeByte
  exact ⟨rfl, rfl, rfl⟩

theorem Framed.inside {b : InputBuffer} {x n : Nat} {t : Byte} (h : Framed b x n t) :
    b.offset ≤ b.buffer.length := Nat.le_trans (Nat.le_add_right _ _) h.size

end InputBuffer

namespace FinalBlock

end FinalBlock

namespace Tier1Transaction
variable {o : Ossl} {keys : KeyRing o}

theorem ofBuffer_ok {sound : Bool} {b b' : InputBuffer} {tx : Tier1Transaction}
    (h : ofBuffer keys sound b = .ok (tx, b')) : ∃ w c, binToUint64 b.buffer b.offset = .ok w ∧
      copy (wholeSize w) b = .ok (c, b') ∧
      (InputBuffer.size b' < u64 (b'.offset + wholeSize w) ∨ sound = false ∨
        setIsSound keys ⟨c, false, w⟩ = .ok tx) := by
  rw [ofBuffer] at h
  obtain ⟨w, b1, h1, hrest⟩ := bind_eq_ok h
  obtain ⟨hb1, hw⟩ := getWord_stay h1
  obtain ⟨c, b2, h2, hcheck⟩ := bind_eq_ok hrest
  rw [hb1] at h2
  split_ifs at hcheck with hs hsound
  · cases hcheck
    exact ⟨w, c, hw, h2, Or.inl hs⟩
  · obtain ⟨hset, hb2⟩ := lift_eq_ok hcheck
    cases hb2
    exact ⟨w, c, hw, h2, Or.inr (Or.inr hset)⟩
  · cases hcheck
    exact ⟨w, c, hw, h2, Or.inr (Or.inl (by simpa using hsound))⟩

end Tier1Transaction

namespace Tier2Transaction
variable {o : Ossl} {keys : KeyRing o}

end Tier2Transaction
namespace Tier1Transaction
variable {o : Ossl} (hload : o.LoadsPlainly) (keys : KeyRing o)
include hload

end Tier1Transaction

namespace Tier2Transaction
variable {o : Ossl} (hload : o.LoadsPlainly) (keys : KeyRing o)

end Tier2Transaction

namespace FinalBlock

end FinalBlock
end Devcash
