import Mathlib.Data.Int.ModEq
import Mathlib.Data.List.Basic
import Mathlib.Tactic.Ring

/-! Bytes, machine integers, errors and constants shared by every module. -/
namespace Devcash

abbrev Byte := UInt8
abbrev Bytes := List Byte

/-- Ways a call of the source does not return. The exception classes keep their
texts, and `logic` stands for the classes under `std::logic_error` that carry one; `badAccess`
is a read outside a vector through an iterator or `[]`, where
the source has no defined behaviour; `diverges` is a loop that never ends and
`deadlock` the second lock of a mutex by its owner. -/
inductive Error where
  | deserialization (what : String)
  | message (what : String)
  | runtime (what : String)
  | rangeError (what : String)
  | logic (what : String)
  | outOfRange
  | thrown (what : String)
  | badAccess
  | diverges
  | deadlock
  deriving DecidableEq, Repr

/-- What a handler for `std::exception` catches. -/
def Error.isException : Error → Bool
  | .thrown _ | .badAccess | .diverges | .deadlock => false
  | _ => true

abbrev Result := Except Error

@[simp] theorem Result.bind_ok {α β : Type} (a : α) (f : α → Result β) :
    ((.ok a : Result α) >>= f) = f a := rfl

@[simp] theorem Result.bind_error {α β : Type} (e : Error) (f : α → Result β) :
    ((.error e : Result α) >>= f) = .error e := rfl

theorem Result.bind_eq_ok {α β : Type} {x : Result α} {f : α → Result β} {b : β}
    (h : (x >>= f) = .ok b) : ∃ a, x = .ok a ∧ f a = .ok b := by
  cases x with
  | error e => cases h
  | ok a => exact ⟨a, rfl, h⟩

instance Result.decidableForallOk {α : Type} {P : α → Prop} [∀ a, Decidable (P a)] :
    ∀ x : Result α, Decidable (∀ a, x = .ok a → P a)
  | .error _ => isTrue (fun _ h => nomatch h)
  | .ok a => decidable_of_iff (P a) ⟨fun h _ ha => Except.ok.inj ha ▸ h, fun h => h a rfl⟩

instance Result.decidableExistsOk {α : Type} {P : α → Prop} [∀ a, Decidable (P a)] :
    ∀ x : Result α, Decidable (∃ a, x = .ok a ∧ P a)
  | .error _ => isFalse (fun h => h.elim fun _ hx => nomatch hx.1)
  | .ok a => decidable_of_iff (P a)
      ⟨fun h => ⟨a, rfl, h⟩, fun h => h.elim fun _ hx => (Except.ok.inj hx.1).symm ▸ hx.2⟩

theorem Result.exists_ok {α : Type} {x : Result α} (h : x.toOption.isSome = true) :
    ∃ a, x = .ok a := by
  cases x with
  | error e => cases h
  | ok a => exact ⟨a, rfl⟩

theorem Result.mapM_ok {α β : Type} {f : α → Result β} {g : α → β} {l : List α}
    (h : ∀ a ∈ l, f a = .ok (g a)) : l.mapM f = .ok (l.map g) := by
  induction l with
  | nil => rfl
  | cons a l ih =>
    obtain ⟨ha, hl⟩ := List.forall_mem_cons.mp h
    rw [List.mapM_cons, ha, Result.bind_ok, ih hl]
    rfl

theorem Result.exists_mapM {α β : Type} {f : α → Result β} {l : List α}
    (h : ∀ a ∈ l, ∃ b, f a = .ok b) : ∃ l', l.mapM f = .ok l' := by
  induction l with
  | nil => exact ⟨[], rfl⟩
  | cons a l ih =>
    obtain ⟨⟨b, hb⟩, hl⟩ := List.forall_mem_cons.mp h
    obtain ⟨l', hl'⟩ := ih hl
    refine ⟨b :: l', ?_⟩
    rw [List.mapM_cons, hb, Result.bind_ok, hl']
    rfl

theorem Result.mem_mapM {α β : Type} {f : α → Result β} {l : List α} {l' : List β}
    (h : l.mapM f = .ok l') {y : β} (hy : y ∈ l') : ∃ x ∈ l, f x = .ok y := by
  induction l generalizing l' with
  | nil =>
    cases h
    cases hy
  | cons x l ih =>
    rw [List.mapM_cons] at h
    obtain ⟨y', hx, h⟩ := Result.bind_eq_ok h
    obtain ⟨ys, hl, h⟩ := Result.bind_eq_ok h
    cases h
    cases List.mem_cons.mp hy with
    | inl hy => exact ⟨x, List.mem_cons_self, hy ▸ hx⟩
    | inr hy =>
      obtain ⟨z, hz, hfz⟩ := ih hl hy
      exact ⟨z, List.mem_cons_of_mem x hz, hfz⟩

/-- `size_t` and `uint64_t` arithmetic. -/
def u64 (n : Nat) : Nat := n % 2 ^ 64

/-- `uint32_t` and `unsigned int` arithmetic. -/
def u32 (n : Nat) : Nat := n % 2 ^ 32

/-- `int64_t` and `long` arithmetic, two's complement. -/
def i64 (x : Int) : Int := x.bmod (2 ^ 64)

/-- The conversion to `int`. -/
def i32 (x : Int) : Int := x.bmod (2 ^ 32)

/-- The conversion of a signed to an unsigned 64-bit value. -/
def toUint64 (x : Int) : Nat := (x % 2 ^ 64).toNat

/-- The conversion of a signed to an unsigned 32-bit value. -/
def toUint32 (x : Int) : Nat := (x % 2 ^ 32).toNat

theorem u64_of_lt {n : Nat} (h : n < 2 ^ 64) : u64 n = n := Nat.mod_eq_of_lt h

theorem u32_of_lt {n : Nat} (h : n < 2 ^ 32) : u32 n = n := Nat.mod_eq_of_lt h

theorem u64_lt (n : Nat) : u64 n < 2 ^ 64 := Nat.mod_lt _ (by decide)

theorem toUint64_lt (x : Int) : toUint64 x < 2 ^ 64 := by
  rw [toUint64]
  omega

theorem toUint32_lt (x : Int) : toUint32 x < 2 ^ 32 := by
  rw [toUint32]
  omega

theorem u64_modEq (n : Nat) : ((u64 n : Nat) : Int) ≡ n [ZMOD 2 ^ 64] := by
  rw [u64, Int.ModEq]
  omega

theorem toUint64_modEq (x : Int) : (toUint64 x : Int) ≡ x [ZMOD 2 ^ 64] := by
  rw [toUint64, Int.toNat_of_nonneg (Int.emod_nonneg _ (by decide))]
  exact Int.mod_modEq x (2 ^ 64)

theorem i64_of_bounds {x : Int} (h1 : -2 ^ 63 ≤ x) (h2 : x < 2 ^ 63) : i64 x = x := by
  rw [i64]
  exact Int.bmod_eq_of_le (by simpa using h1) (by simpa using h2)

theorem i32_of_bounds {x : Int} (h1 : -2 ^ 31 ≤ x) (h2 : x < 2 ^ 31) : i32 x = x := by
  rw [i32]
  exact Int.bmod_eq_of_le (by simpa using h1) (by simpa using h2)

theorem i32_bounds (x : Int) : -2 ^ 31 ≤ i32 x ∧ i32 x < 2 ^ 31 := by
  simp only [i32, Int.bmod]
  omega

theorem i32_le (n : Nat) : i32 n ≤ n := by
  simp only [i32, Int.bmod]
  omega

@[simp] theorem i64_add_i64 (x y : Int) : i64 (i64 x + y) = i64 (x + y) := by
  simp [i64]

@[simp] theorem add_i64 (x y : Int) : i64 (x + i64 y) = i64 (x + y) := by
  simp [i64]

@[simp] theorem i64_i64 (x : Int) : i64 (i64 x) = i64 x := by
  simp [i64]

theorem i64_modEq (x : Int) : i64 x ≡ x [ZMOD 2 ^ 64] := by
  rw [i64]
  exact Int.bmod_emod

theorem i64_add_eq_iff (x y : Int) : i64 (x + y) = i64 x ↔ i64 y = 0 := by
  simp only [i64, Int.bmod]
  omega

theorem i64_add_right_cancel {x y d : Int} (h : i64 (x + d) = i64 (y + d)) : i64 x = i64 y := by
  simp only [i64, Int.bmod] at h ⊢
  omega

/-- Reading an unsigned word back as a signed one loses nothing. -/
theorem bmod_toNat_emod (x : Int) {n : Nat} (h : 0 < n) :
    ((x % n).toNat : Int).bmod n = x.bmod n := by
  have hcast : ((x % n).toNat : Int) = x % n := Int.toNat_of_nonneg (Int.emod_nonneg _ (by omega))
  rw [hcast]
  exact Int.emod_bmod x n

theorem i64_toUint64 (x : Int) : i64 (toUint64 x : Int) = i64 x :=
  bmod_toNat_emod x (Nat.two_pow_pos 64)

theorem i32_toUint32 (x : Int) : i32 (toUint32 x : Int) = i32 x :=
  bmod_toNat_emod x (Nat.two_pow_pos 32)

theorem toUint64_i64 {n : Nat} (h : n < 2 ^ 64) : toUint64 (i64 n) = n := by
  have hmod : i64 (n : Int) % 2 ^ 64 = (n : Int) % 2 ^ 64 := i64_modEq n
  rw [toUint64, hmod]
  omega

/-- `Hash` is a 32-byte array. -/
abbrev Hash := {b : Bytes // b.length = 32}

/-- The array of zeros a `Hash` starts as. -/
def Hash.zero : Hash := ⟨List.replicate 32 0, rfl⟩

inductive OpType where
  | create | modify | exchange | delete
  deriving DecidableEq, Repr

def OpType.toByte : OpType → Byte
  | .create => 0
  | .modify => 1
  | .exchange => 2
  | .delete => 3

def OpType.numOperations : Nat := 4

inductive AppMode where
  | t1 | t2 | scan
  deriving DecidableEq, Repr

def kWalletAddrSize : Nat := 33
def kNodeAddrSize : Nat := 49
def kWalletAddrBufSize : Nat := kWalletAddrSize + 1
def kNodeAddrBufSize : Nat := kNodeAddrSize + 1
def kWalletSigSize : Nat := 73
def kNodeSigSize : Nat := 105
def kWalletSigBufSize : Nat := kWalletSigSize + 1
def kNodeSigBufSize : Nat := kNodeSigSize + 1
def kTxMinSize : Nat := 89 + 2
def kEnvelopeSize : Nat := 17
def kOperationOffset : Nat := 16
def kTransferOffset : Nat := 17
def kMinNonceSize : Nat := 8
def kUint64Size : Nat := 8
def kTransferNonaddrDataSize : Nat := kUint64Size * 3

/-- `reserve` of a vector of bytes. Up to its `max_size()` the memory is there. -/
def reserve (n : Nat) : Result Unit :=
  if n < 2 ^ 63 then .ok () else .error (.logic "vector::reserve")

/-- A vector built from the range of `length` bytes at `start`. -/
def slice (bytes : Bytes) (start length : Nat) : Result Bytes :=
  if start + length ≤ bytes.length then .ok ((bytes.drop start).take length)
  else .error .badAccess

/-- `vector::at`. -/
def byteAt (bytes : Bytes) (loc : Nat) : Result Byte :=
  match bytes[loc]? with
  | some b => .ok b
  | none => .error .outOfRange

theorem slice_append (pre mid post : Bytes) :
    slice (pre ++ mid ++ post) pre.length mid.length = .ok mid := by
  simp [slice]

theorem slice_ok {bytes out : Bytes} {start length : Nat}
    (h : slice bytes start length = .ok out) :
    start + length ≤ bytes.length ∧ out = (bytes.drop start).take length ∧
      out.length = length := by
  rw [slice] at h
  split_ifs at h with hl
  cases h
  refine ⟨hl, rfl, ?_⟩
  simp only [List.length_take, List.length_drop]
  omega

theorem byteAt_append (pre post : Bytes) (b : Byte) :
    byteAt (pre ++ b :: post) pre.length = .ok b := by
  simp [byteAt]

theorem byteAt_ok {bytes : Bytes} {loc : Nat} {b : Byte}
    (h : byteAt bytes loc = .ok b) : loc < bytes.length ∧ bytes[loc]? = some b := by
  rw [byteAt] at h
  split at h
  · rename_i b' hb
    cases h
    exact ⟨(List.getElem?_eq_some_iff.mp hb).1, hb⟩
  · cases h

end Devcash
