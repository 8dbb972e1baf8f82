import Devcash.BinaryConverters
import Mathlib.Data.List.Lex
import Mathlib.Order.Basic

/-! Addresses and signatures: byte strings with a type prefix equal to the length
of the remainder. -/
namespace Devcash

structure Address where
  canonical : Bytes
  deriving Repr

structure Signature where
  canonical : Bytes
  deriving Repr

theorem toNat_map_injective : Function.Injective (List.map UInt8.toNat) :=
  List.map_injective_iff.mpr (fun _ _ h => UInt8.toNat_inj.mp h)

/-- `operator<` compares the canonical vectors lexicographically. -/
instance : LinearOrder Address :=
  LinearOrder.lift' (fun a => a.canonical.map UInt8.toNat) (by
    intro a b h
    cases a; cases b
    exact congrArg Address.mk (toNat_map_injective h))

instance : LinearOrder Signature :=
  LinearOrder.lift' (fun s => s.canonical.map UInt8.toNat) (by
    intro a b h
    cases a; cases b
    exact congrArg Signature.mk (toNat_map_injective h))

namespace Address

/-- The default constructor: the null address. -/
def null : Address := ⟨[0]⟩

/-- `Address(vec)`. A vector of another size is kept as it is, with an error in
the log only. -/
def ofBytes (vec : Bytes) : Address :=
  if vec.length = kWalletAddrSize then ⟨UInt8.ofNat kWalletAddrSize :: vec⟩
  else if vec.length = kWalletAddrBufSize ∧ vec.head? = some (UInt8.ofNat kWalletAddrSize) then ⟨vec⟩
  else if vec.length = kNodeAddrSize then ⟨UInt8.ofNat kNodeAddrSize :: vec⟩
  else if vec.length = kNodeAddrBufSize ∧ vec.head? = some (UInt8.ofNat kNodeAddrSize) then ⟨vec⟩
  else ⟨vec⟩

def size (a : Address) : Nat := a.canonical.length

def getCanonical (a : Address) : Bytes := a.canonical

def isNull (a : Address) : Bool :=
  match a.canonical with
  | [] => true
  | b :: _ => b == 0

def isWalletAddress (a : Address) : Bool :=
  !a.isNull && a.canonical.head? == some (UInt8.ofNat kWalletAddrSize)

def isNodeAddress (a : Address) : Bool :=
  !a.isNull && a.canonical.head? == some (UInt8.ofNat kNodeAddrSize)

/-- A type byte followed by the key of that type. -/
def IsWallet (a : Address) : Prop :=
  a.canonical.length = kWalletAddrBufSize ∧ a.canonical.head? = some (UInt8.ofNat kWalletAddrSize)

def IsNode (a : Address) : Prop :=
  a.canonical.length = kNodeAddrBufSize ∧ a.canonical.head? = some (UInt8.ofNat kNodeAddrSize)

instance (a : Address) : Decidable a.IsWallet := inferInstanceAs (Decidable (_ ∧ _))
instance (a : Address) : Decidable a.IsNode := inferInstanceAs (Decidable (_ ∧ _))

end Address

namespace Signature

def null : Signature := ⟨[0]⟩

/-- `Signature(vec)`. -/
def ofBytes (vec : Bytes) : Result Signature :=
  if vec.length = kWalletSigSize then .ok ⟨UInt8.ofNat kWalletSigSize :: vec⟩
  else if vec.length = kWalletSigBufSize then
    if vec.head? = some (UInt8.ofNat kWalletSigSize) then .ok ⟨vec⟩
    else .error (.runtime "Invalid Signature - size == 74 but byte(0) != 73")
  else if vec.length = kNodeSigSize then .ok ⟨UInt8.ofNat kNodeSigSize :: vec⟩
  else if vec.length = kNodeSigBufSize then
    if vec.head? = some (UInt8.ofNat kNodeSigSize) then .ok ⟨vec⟩
    else .error (.runtime "Invalid Signature - size == 106 but byte(0) != 105")
  else .error (.runtime ("Invalid Signature size: " ++ toString vec.length))

def size (s : Signature) : Nat := s.canonical.length

def getCanonical (s : Signature) : Bytes := s.canonical

def IsWallet (s : Signature) : Prop :=
  s.canonical.length = kWalletSigBufSize ∧ s.canonical.head? = some (UInt8.ofNat kWalletSigSize)

def IsNode (s : Signature) : Prop :=
  s.canonical.length = kNodeSigBufSize ∧ s.canonical.head? = some (UInt8.ofNat kNodeSigSize)

instance (s : Signature) : Decidable s.IsWallet := inferInstanceAs (Decidable (_ ∧ _))
instance (s : Signature) : Decidable s.IsNode := inferInstanceAs (Decidable (_ ∧ _))

end Signature

theorem Address.ofBytes_tail {a : Address} (h : a.IsWallet ∨ a.IsNode) :
    ∃ t raw, a.canonical = t :: raw ∧ raw.length = t.toNat ∧ Address.ofBytes raw = a := by
  cases a with
  | mk c =>
    cases c with
    | nil => simp [IsWallet, IsNode, kWalletAddrBufSize, kNodeAddrBufSize] at h
    | cons t raw =>
      refine ⟨t, raw, rfl, ?_⟩
      cases h with
      | inl h =>
        obtain ⟨hl, ht⟩ := h
        simp only [List.length_cons, kWalletAddrBufSize] at hl
        simp only [List.head?_cons, Option.some.injEq] at ht
        subst ht
        have hr : raw.length = kWalletAddrSize := by omega
        exact ⟨by rw [hr]; rfl, by simp [ofBytes, hr]⟩
      | inr h =>
        obtain ⟨hl, ht⟩ := h
        simp only [List.length_cons, kNodeAddrBufSize] at hl
        simp only [List.head?_cons, Option.some.injEq] at ht
        subst ht
        have hr : raw.length = kNodeAddrSize := by omega
        exact ⟨by rw [hr]; rfl,
          by simp [ofBytes, hr, kNodeAddrSize, kWalletAddrSize, kWalletAddrBufSize]⟩

theorem Address.size_ofBytes (raw : Bytes) : (Address.ofBytes raw).size =
    if raw.length = kWalletAddrSize ∨ raw.length = kNodeAddrSize then raw.length + 1
    else raw.length := by
  rw [ofBytes]
  by_cases hw : raw.length = kWalletAddrSize
  · rw [if_pos hw, if_pos (Or.inl hw)]
    rfl
  · by_cases hn : raw.length = kNodeAddrSize
    · rw [if_neg hw, if_neg (by simp [hn, kNodeAddrSize, kWalletAddrBufSize, kWalletAddrSize]),
        if_pos hn, if_pos (Or.inr hn)]
      rfl
    · rw [if_neg hw, if_neg hn, if_neg (not_or.mpr ⟨hw, hn⟩)]
      split_ifs <;> rfl

theorem Signature.ofBytes_kind {vec : Bytes} {s : Signature} (h : Signature.ofBytes vec = .ok s) :
    s.IsWallet ∨ s.IsNode := by
  rw [ofBytes] at h
  split_ifs at h with hw hwb hwt hn hnb hnt
  · cases h
    exact Or.inl ⟨congrArg Nat.succ hw, rfl⟩
  · cases h
    exact Or.inl ⟨hwb, hwt⟩
  · cases h
    exact Or.inr ⟨congrArg Nat.succ hn, rfl⟩
  · cases h
    exact Or.inr ⟨hnb, hnt⟩

theorem Signature.ofBytes_tail {s : Signature} (h : s.IsWallet ∨ s.IsNode) :
    ∃ t raw, s.canonical = t :: raw ∧ raw.length = t.toNat ∧ Signature.ofBytes raw = .ok s := by
  cases s with
  | mk c =>
    cases c with
    | nil => simp [IsWallet, IsNode, kWalletSigBufSize, kNodeSigBufSize] at h
    | cons t raw =>
      refine ⟨t, raw, rfl, ?_⟩
      cases h with
      | inl h =>
        obtain ⟨hl, ht⟩ := h
        simp only [List.length_cons, kWalletSigBufSize] at hl
        simp only [List.head?_cons, Option.some.injEq] at ht
        subst ht
        have hr : raw.length = kWalletSigSize := by omega
        exact ⟨by rw [hr]; rfl, by simp [ofBytes, hr]⟩
      | inr h =>
        obtain ⟨hl, ht⟩ := h
        simp only [List.length_cons, kNodeSigBufSize] at hl
        simp only [List.head?_cons, Option.some.injEq] at ht
        subst ht
        have hr : raw.length = kNodeSigSize := by omega
        exact ⟨by rw [hr]; rfl,
          by simp [ofBytes, hr, kNodeSigSize, kWalletSigSize, kWalletSigBufSize]⟩

theorem Address.ofBytes_canonical {a : Address} (h : a.IsWallet ∨ a.IsNode) :
    Address.ofBytes a.canonical = a := by
  obtain h | h := h
  · simp [ofBytes, h.1, h.2, kWalletAddrBufSize, kWalletAddrSize]
  · simp [ofBytes, h.1, h.2, kNodeAddrBufSize, kNodeAddrSize, kWalletAddrSize, kWalletAddrBufSize]

theorem Signature.ofBytes_canonical {s : Signature} (h : s.IsWallet ∨ s.IsNode) :
    Signature.ofBytes s.canonical = .ok s := by
  obtain h | h := h
  · simp [ofBytes, h.1, h.2, kWalletSigBufSize, kWalletSigSize]
  · simp [ofBytes, h.1, h.2, kNodeSigBufSize, kNodeSigSize, kWalletSigSize, kWalletSigBufSize]

theorem Address.length_le {a : Address} (h : a.IsWallet ∨ a.IsNode) :
    0 < a.canonical.length ∧ a.canonical.length ≤ kNodeAddrBufSize := by
  obtain h | h := h
  · rw [h.1]
    decide
  · rw [h.1]
    decide

theorem Signature.length_le {s : Signature} (h : s.IsWallet ∨ s.IsNode) :
    0 < s.canonical.length ∧ s.canonical.length ≤ kNodeSigBufSize := by
  obtain h | h := h
  · rw [h.1]
    decide
  · rw [h.1]
    decide

theorem Address.isNull_of_kind {a : Address} (h : a.IsWallet ∨ a.IsNode) : a.isNull = false := by
  obtain ⟨c⟩ := a
  cases c with
  | nil => exact absurd h (by decide)
  | cons t raw =>
    cases h with
    | inl h =>
      rw [isNull, Option.some.inj h.2]
      rfl
    | inr h =>
      rw [isNull, Option.some.inj h.2]
      rfl

end Devcash
