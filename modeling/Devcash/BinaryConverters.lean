import Devcash.Basic
import Devcash.Lib.Endian
import Devcash.Lib.Loop

/-! The integer and hex converters. Each spec below says which little-endian
word of the vector a converter reads or appends. -/
namespace Devcash
open Endian

def kBytesPerInt : Nat := 4

/-- The bits that `BinToInt32` ors together. A byte is promoted to `int` before it is shifted,
and the top byte of a negative value is shifted into the sign. -/
def int32Bits (bytes : Bytes) (start : Nat) : Result (BitVec 32) :=
  (List.range kBytesPerInt).foldlM (fun dest i => do
    let b ← byteAt bytes (start + i)
    pure (dest ||| (BitVec.ofNat 32 b.toNat <<< (i * 8)))) 0#32

def binToInt32 (bytes : Bytes) (start : Nat) : Result Int := do
  let dest ← int32Bits bytes start
  pure dest.toInt

/- The shift of a negative source is arithmetic, and the mask takes a residue. -/
def int32ToBin (source : Int) (dest : Bytes) : Bytes :=
  (List.range kBytesPerInt).foldl
    (fun dest (i : Nat) => dest ++ [UInt8.ofNat ((source >>> (i * 8)) % 256).toNat]) dest

def binToUint32 (bytes : Bytes) (start : Nat) : Result Nat :=
  (List.range kBytesPerInt).foldlM (fun dest i => do
    let b ← byteAt bytes (start + i)
    pure (dest ||| (b.toNat <<< (i * 8)))) 0

def uint32ToBin (source : Nat) (dest : Bytes) : Bytes :=
  (List.range kBytesPerInt).foldl
    (fun dest i => dest ++ [UInt8.ofNat ((source >>> (i * 8)) &&& 0xFF)]) dest

def binToUint64 (bytes : Bytes) (start : Nat) : Result Nat := do
  let lsb ← binToUint32 bytes start
  let msb ← binToUint32 bytes (start + kBytesPerInt)
  pure ((msb <<< 32) ||| lsb)

def uint64ToBin (source : Nat) (dest : Bytes) : Bytes :=
  let lsb := source &&& 0xffffffff
  let msb := u32 (source >>> 32)
  uint32ToBin msb (uint32ToBin lsb dest)

def binToInt64 (bytes : Bytes) (start : Nat) : Result Int := do
  let lsb ← binToUint32 bytes start
  let msb ← binToUint32 bytes (start + kBytesPerInt)
  pure (i64 ((msb <<< 32) ||| lsb : Nat))

/- The mask and the arithmetic shift of a negative source act on its two's
   complement, so both are residues of the integer. -/
def int64ToBin (source : Int) (dest : Bytes) : Bytes :=
  let lsb := (source % 2 ^ 32).toNat
  let msb := ((source / 2 ^ 32) % 2 ^ 32).toNat
  uint32ToBin msb (uint32ToBin lsb dest)

def hexDigit (n : Nat) : Char := "0123456789ABCDEF".toList.getD n '0'

def toHex (input : Bytes) : String :=
  String.ofList (input.flatMap fun c =>
    [hexDigit ((c.toNat >>> 4) &&& 0xF), hexDigit (c.toNat &&& 0xF)])

theorem uint32ToBin_eq (source : Nat) (dest : Bytes) :
    uint32ToBin source dest = dest ++ leBytes 4 source := by
  have h : List.range kBytesPerInt = [0, 1, 2, 3] := rfl
  simp only [uint32ToBin, h, List.foldl_cons, List.foldl_nil, ofNat_shiftRight_and,
    leBytes_four, Nat.pow_zero, Nat.div_one, Nat.pow_one, List.append_assoc,
    List.cons_append, List.nil_append]

theorem ofNat_shiftRight_emod (source : Int) {i : Nat} (hi : i < kBytesPerInt) :
    UInt8.ofNat ((source >>> (i * 8)) % 256).toNat = UInt8.ofNat (toUint32 source / 256 ^ i) := by
  apply UInt8.toNat_inj.mp
  rw [Int.shiftRight_eq_div_pow, UInt8.toNat_ofNat', UInt8.toNat_ofNat', toUint32]
  obtain rfl | rfl | rfl | rfl : i = 0 ∨ i = 1 ∨ i = 2 ∨ i = 3 := by
    rw [kBytesPerInt] at hi
    omega
  all_goals
    norm_num
    omega

theorem int32ToBin_eq (source : Int) (dest : Bytes) :
    int32ToBin source dest = dest ++ leBytes 4 (toUint32 source) := by
  have h : List.range kBytesPerInt = [0, 1, 2, 3] := rfl
  have h0 := ofNat_shiftRight_emod source (by decide : 0 < kBytesPerInt)
  have h1 := ofNat_shiftRight_emod source (by decide : 1 < kBytesPerInt)
  have h2 := ofNat_shiftRight_emod source (by decide : 2 < kBytesPerInt)
  have h3 := ofNat_shiftRight_emod source (by decide : 3 < kBytesPerInt)
  simp only [int32ToBin, h, List.foldl_cons, List.foldl_nil, h0, h1, h2, h3, leBytes_four,
    Nat.pow_zero, Nat.div_one, Nat.pow_one, List.append_assoc, List.cons_append, List.nil_append]

theorem uint64ToBin_eq (source : Nat) (dest : Bytes) :
    uint64ToBin source dest = dest ++ leBytes 8 source := by
  have hl : leBytes 4 (source &&& 0xffffffff) = leBytes 4 source := by
    have hm : source &&& 0xffffffff = source % 256 ^ 4 :=
      Nat.and_two_pow_sub_one_eq_mod source 32
    rw [hm, leBytes_mod]
  have hh : leBytes 4 (u32 (source >>> 32)) = leBytes 4 (source / 2 ^ 32) := by
    rw [Nat.shiftRight_eq_div_pow]
    exact leBytes_mod 4 _
  simp only [uint64ToBin, uint32ToBin_eq, hl, hh, leBytes_eight, List.append_assoc]

theorem int64ToBin_eq (source : Int) (dest : Bytes) :
    int64ToBin source dest = dest ++ leBytes 8 (toUint64 source) := by
  have hl : (source % 2 ^ 32).toNat = toUint64 source % 256 ^ 4 := by
    rw [toUint64]; omega
  have hh : ((source / 2 ^ 32) % 2 ^ 32).toNat = toUint64 source / 2 ^ 32 % 256 ^ 4 := by
    rw [toUint64]; omega
  simp only [int64ToBin, uint32ToBin_eq, hl, hh, leBytes_mod, leBytes_eight,
    List.append_assoc]

theorem byteAt_of_lt {bytes : Bytes} {loc : Nat} (h : loc < bytes.length) :
    byteAt bytes loc = .ok bytes[loc] := by
  simp [byteAt, h]

theorem binToUint32_eq {bytes : Bytes} {start : Nat} (h : start + 4 ≤ bytes.length) :
    binToUint32 bytes start = .ok (leValue ((bytes.drop start).take 4)) := by
  have h0 := byteAt_of_lt (by omega : start + 0 < bytes.length)
  have h1 := byteAt_of_lt (by omega : start + 1 < bytes.length)
  have h2 := byteAt_of_lt (by omega : start + 2 < bytes.length)
  have h3 := byteAt_of_lt (by omega : start + 3 < bytes.length)
  have hd : (bytes.drop start).take 4 = [bytes[start + 0], bytes[start + 1],
      bytes[start + 2], bytes[start + 3]] := by
    apply List.ext_getElem
    · simp; omega
    · intro i hi hi'
      simp only [List.length_cons, List.length_nil] at hi'
      rw [List.getElem_take, List.getElem_drop]
      rcases i with _ | _ | _ | _ | i
      · rfl
      · rfl
      · rfl
      · rfl
      · omega
  have hr : List.range kBytesPerInt = [0, 1, 2, 3] := rfl
  rw [binToUint32, hr, hd]
  simp only [List.foldlM_cons, List.foldlM_nil, h0, h1, h2, h3, pure, Except.pure, bind,
    Except.bind]
  have hor := or_four bytes[start + 0].toNat bytes[start + 1].toNat
    bytes[start + 2].toNat bytes[start + 3].toNat
    (UInt8.toNat_lt _) (UInt8.toNat_lt _) (UInt8.toNat_lt _)
  simpa [leValue] using hor

theorem toNat_or_shiftLeft (dest : BitVec 32) (b : Byte) {i : Nat} (hi : i < kBytesPerInt) :
    (dest ||| (BitVec.ofNat 32 b.toNat <<< (i * 8))).toNat =
      dest.toNat ||| (b.toNat <<< (i * 8)) := by
  have hb := b.toNat_lt
  have hpow : 2 ^ (i * 8) ≤ 2 ^ 24 := Nat.pow_le_pow_right (by decide) (by rw [kBytesPerInt] at hi; omega)
  have hshift : b.toNat <<< (i * 8) < 2 ^ 32 := by
    rw [Nat.shiftLeft_eq]
    calc b.toNat * 2 ^ (i * 8) ≤ 255 * 2 ^ 24 := Nat.mul_le_mul (by omega) hpow
      _ < 2 ^ 32 := by decide
  rw [BitVec.toNat_or, BitVec.toNat_shiftLeft, BitVec.toNat_ofNat,
    Nat.mod_eq_of_lt (by omega : b.toNat < 2 ^ 32), Nat.mod_eq_of_lt hshift]

theorem map_int32Bits (bytes : Bytes) (start : Nat) :
    (int32Bits bytes start).map BitVec.toNat = binToUint32 bytes start := by
  refine Loop.map_foldlM ?_ 0#32
  intro dest i hi
  cases byteAt bytes (start + i) with
  | error e => rfl
  | ok b => exact congrArg Except.ok (toNat_or_shiftLeft dest b (List.mem_range.mp hi))

theorem binToInt32_eq (bytes : Bytes) (start : Nat) :
    binToInt32 bytes start = (binToUint32 bytes start).map (fun word : Nat => i32 word) := by
  rw [binToInt32, ← map_int32Bits]
  cases int32Bits bytes start with
  | error e => rfl
  | ok dest => exact congrArg Except.ok (BitVec.toInt_eq_toNat_bmod dest)

theorem binToUint32_error {bytes : Bytes} {start : Nat} (h : bytes.length < start + 4) :
    binToUint32 bytes start = .error .outOfRange := by
  have hr : List.range kBytesPerInt = [0, 1, 2, 3] := rfl
  have key : ∀ i, byteAt bytes (start + i) = .error .outOfRange ∨
      ∃ b, byteAt bytes (start + i) = .ok b := by
    intro i
    rw [byteAt]
    cases bytes[start + i]? with
    | none => exact .inl rfl
    | some b => exact .inr ⟨b, rfl⟩
  have h3 : byteAt bytes (start + 3) = .error .outOfRange := by
    simp [byteAt, List.getElem?_eq_none (by omega : bytes.length ≤ start + 3)]
  rw [binToUint32, hr]
  simp only [List.foldlM_cons, List.foldlM_nil, pure, Except.pure, bind, Except.bind]
  rcases key 0 with h0 | ⟨b0, h0⟩ <;> rcases key 1 with h1 | ⟨b1, h1⟩ <;>
    rcases key 2 with h2 | ⟨b2, h2⟩ <;> simp only [h0, h1, h2, h3]

theorem leValue_take_eight (l : Bytes) (h : 8 ≤ l.length) :
    leValue (l.take 8) = leValue (l.take 4) + 2 ^ 32 * leValue ((l.drop 4).take 4) := by
  have hs : l.take 8 = l.take 4 ++ (l.drop 4).take 4 := by
    rw [← List.take_add]
  have hl : (l.take 4).length = 4 := by simp; omega
  rw [hs, leValue_append, hl]
  norm_num

theorem words_at {bytes : Bytes} {start : Nat} (h : start + 8 ≤ bytes.length) :
    ∃ lsb msb, binToUint32 bytes start = .ok lsb ∧
      binToUint32 bytes (start + kBytesPerInt) = .ok msb ∧
      (msb <<< 32) ||| lsb = leValue ((bytes.drop start).take 8) := by
  refine ⟨_, _, binToUint32_eq (by omega),
    binToUint32_eq (by simp only [kBytesPerInt]; omega), ?_⟩
  have hlt : leValue ((bytes.drop start).take 4) < 2 ^ 32 := by
    have h' := leValue_lt ((bytes.drop start).take 4)
    have hl : ((bytes.drop start).take 4).length = 4 := by simp; omega
    rw [hl] at h'
    exact h'
  rw [or_shift_32 _ _ hlt, leValue_take_eight _ (by simp; omega), List.drop_drop]
  rfl

theorem binToUint64_eq {bytes : Bytes} {start : Nat} (h : start + 8 ≤ bytes.length) :
    binToUint64 bytes start = .ok (leValue ((bytes.drop start).take 8)) := by
  obtain ⟨lsb, msb, hl, hm, hv⟩ := words_at h
  simp [binToUint64, hl, hm, bind, Except.bind, pure, Except.pure, hv]

theorem binToInt64_eq {bytes : Bytes} {start : Nat} (h : start + 8 ≤ bytes.length) :
    binToInt64 bytes start = .ok (i64 (leValue ((bytes.drop start).take 8))) := by
  obtain ⟨lsb, msb, hl, hm, hv⟩ := words_at h
  simp [binToInt64, hl, hm, bind, Except.bind, pure, Except.pure, hv]

theorem binToUint64_ok {bytes : Bytes} {start v : Nat}
    (h : binToUint64 bytes start = .ok v) :
    start + 8 ≤ bytes.length ∧ v = leValue ((bytes.drop start).take 8) := by
  by_cases hl : start + 8 ≤ bytes.length
  · rw [binToUint64_eq hl] at h
    cases h
    exact ⟨hl, rfl⟩
  · have he : binToUint32 bytes (start + kBytesPerInt) = .error .outOfRange :=
      binToUint32_error (by simp only [kBytesPerInt]; omega)
    exfalso
    rw [binToUint64] at h
    rw [he] at h
    cases hb : binToUint32 bytes start <;> simp [hb, bind, Except.bind] at h

theorem binToUint64_lt {bytes : Bytes} {start v : Nat} (h : binToUint64 bytes start = .ok v) :
    v < 2 ^ 64 := by
  obtain ⟨hl, rfl⟩ := binToUint64_ok h
  have hlen : ((bytes.drop start).take 8).length = 8 := by
    rw [List.length_take, List.length_drop]
    omega
  have hlt := leValue_lt ((bytes.drop start).take 8)
  rw [hlen] at hlt
  exact hlt

theorem take_drop_leBytes (pre post : Bytes) (w v : Nat) :
    ((pre ++ leBytes w v ++ post).drop pre.length).take w = leBytes w v := by
  have h : (leBytes w v ++ post).take w = leBytes w v := by
    rw [List.take_append_of_le_length (by simp), List.take_of_length_le (by simp)]
  rwa [List.append_assoc, List.drop_left]

theorem binToUint64_append (pre post : Bytes) (v : Nat) (h : v < 2 ^ 64) :
    binToUint64 (pre ++ leBytes 8 v ++ post) pre.length = .ok v := by
  rw [binToUint64_eq (by simp), take_drop_leBytes, leValue_leBytes,
    Nat.mod_eq_of_lt (show v < 256 ^ 8 from h)]

theorem binToInt64_append (pre post : Bytes) (x : Int) :
    binToInt64 (pre ++ leBytes 8 (toUint64 x) ++ post) pre.length = .ok (i64 x) := by
  have hv : toUint64 x < 256 ^ 8 := by unfold toUint64; omega
  rw [binToInt64_eq (by simp), take_drop_leBytes, leValue_leBytes, Nat.mod_eq_of_lt hv,
    i64_toUint64]

theorem binToUint32_append (pre post : Bytes) (v : Nat) (h : v < 2 ^ 32) :
    binToUint32 (pre ++ leBytes 4 v ++ post) pre.length = .ok v := by
  rw [binToUint32_eq (by simp), take_drop_leBytes, leValue_leBytes,
    Nat.mod_eq_of_lt (show v < 256 ^ 4 from h)]

theorem binToInt32_append (pre post : Bytes) (x : Int) :
    binToInt32 (pre ++ leBytes 4 (toUint32 x) ++ post) pre.length = .ok (i32 x) := by
  rw [binToInt32_eq, binToUint32_append pre post _ (toUint32_lt x)]
  exact congrArg Except.ok (i32_toUint32 x)

/-- `toBin` appends a word of `width` bytes to any vector, and `ofBin` reads the value back where
the word stands, whatever follows it. -/
def ReadsBack {α : Type} (width : Nat) (toBin : α → Bytes → Bytes)
    (ofBin : Bytes → Nat → Result α) (v : α) : Prop :=
  ∃ word : Bytes, word.length = width ∧
    ∀ p q, toBin v p = p ++ word ∧ ofBin (p ++ word ++ q) p.length = .ok v

theorem readsBack_int32 {v : Int} (hlow : -2 ^ 31 ≤ v) (hhigh : v < 2 ^ 31) :
    ReadsBack 4 int32ToBin binToInt32 v := by
  refine ⟨leBytes 4 (toUint32 v), length_leBytes 4 _, fun p q => ⟨int32ToBin_eq v p, ?_⟩⟩
  rw [binToInt32_append, i32_of_bounds hlow hhigh]

theorem readsBack_uint32 {v : Nat} (h : v < 2 ^ 32) : ReadsBack 4 uint32ToBin binToUint32 v :=
  ⟨leBytes 4 v, length_leBytes 4 v, fun p q => ⟨uint32ToBin_eq v p, binToUint32_append p q v h⟩⟩

theorem readsBack_uint64 {v : Nat} (h : v < 2 ^ 64) : ReadsBack 8 uint64ToBin binToUint64 v :=
  ⟨leBytes 8 v, length_leBytes 8 v, fun p q => ⟨uint64ToBin_eq v p, binToUint64_append p q v h⟩⟩

theorem readsBack_int64 {v : Int} (hlow : -2 ^ 63 ≤ v) (hhigh : v < 2 ^ 63) :
    ReadsBack 8 int64ToBin binToInt64 v := by
  refine ⟨leBytes 8 (toUint64 v), length_leBytes 8 _, fun p q => ⟨int64ToBin_eq v p, ?_⟩⟩
  rw [binToInt64_append, i64_of_bounds hlow hhigh]

/-- Each converter is undone by the reader of its type at any position, and a signed value leaves
the bytes of its residue, which the unsigned reader finds there. -/
theorem converters_inverse :
    (∀ v : Int32, ReadsBack 4 int32ToBin binToInt32 v.toInt) ∧
    (∀ v : UInt32, ReadsBack 4 uint32ToBin binToUint32 v.toNat) ∧
    (∀ v : UInt64, ReadsBack 8 uint64ToBin binToUint64 v.toNat) ∧
    (∀ v : Int64, ReadsBack 8 int64ToBin binToInt64 v.toInt) ∧
    ∀ (x : Int64) (p q : Bytes),
      int64ToBin x.toInt p = uint64ToBin (x.toInt % 2 ^ 64).toNat p ∧
        binToUint64 (int64ToBin x.toInt p ++ q) p.length = .ok (x.toInt % 2 ^ 64).toNat := by
  refine ⟨fun v => readsBack_int32 v.le_toInt v.toInt_lt, fun v => readsBack_uint32 v.toNat_lt,
    fun v => readsBack_uint64 v.toNat_lt, fun v => readsBack_int64 v.le_toInt v.toInt_lt, ?_⟩
  intro x p q
  have hsigned := int64ToBin_eq x.toInt p
  rw [hsigned]
  exact ⟨(uint64ToBin_eq _ p).symm, binToUint64_append p q _ (toUint64_lt x.toInt)⟩

end Devcash
