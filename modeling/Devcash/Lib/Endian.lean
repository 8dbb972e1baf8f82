import Mathlib.Data.Nat.Bitwise
import Mathlib.Tactic.Ring

/-! Little-endian words over bytes: the bytes of a value, the value of some
bytes, and the two bitwise spellings of them (shift and mask, shift and or). -/
namespace Endian

/-- The lowest `w` bytes of `n`, least significant first. -/
def leBytes : Nat → Nat → List UInt8
  | 0, _ => []
  | w+1, n => UInt8.ofNat n :: leBytes w (n / 256)

def leValue : List UInt8 → Nat
  | [] => 0
  | b :: l => b.toNat + 256 * leValue l

@[simp] theorem length_leBytes (w n : Nat) : (leBytes w n).length = w := by
  induction w generalizing n with
  | zero => rfl
  | succ w ih => simp [leBytes, ih]

theorem leValue_leBytes (w n : Nat) : leValue (leBytes w n) = n % 256 ^ w := by
  induction w generalizing n with
  | zero => simp [leBytes, leValue, Nat.mod_one]
  | succ w ih =>
    have h : (UInt8.ofNat n).toNat = n % 256 := by simp
    rw [leBytes, leValue, ih, h, Nat.pow_succ, Nat.mul_comm (256 ^ w) 256, Nat.mod_mul]

theorem leValue_lt (l : List UInt8) : leValue l < 256 ^ l.length := by
  induction l with
  | nil => simp [leValue]
  | cons b l ih =>
    have hb := b.toNat_lt
    rw [leValue, List.length_cons, Nat.pow_succ]
    omega

theorem leBytes_append (w v m n : Nat) :
    leBytes w m ++ leBytes v n = leBytes (w + v) (m % 256 ^ w + 256 ^ w * n) := by
  induction w generalizing m with
  | zero => simp [leBytes, Nat.mod_one]
  | succ w ih =>
    have hpow : 256 ^ (w + 1) = 256 * 256 ^ w := Nat.pow_succ'
    have hmod : m % 256 ^ (w + 1) = m % 256 + 256 * (m / 256 % 256 ^ w) := by
      rw [hpow, Nat.mod_mul]
    have hsum : m % 256 ^ (w + 1) + 256 ^ (w + 1) * n =
        m % 256 + 256 * (m / 256 % 256 ^ w + 256 ^ w * n) := by
      rw [hmod, hpow]
      ring
    have hdiv : (m % 256 + 256 * (m / 256 % 256 ^ w + 256 ^ w * n)) / 256 =
        m / 256 % 256 ^ w + 256 ^ w * n := by
      omega
    have hbyte : UInt8.ofNat (m % 256 + 256 * (m / 256 % 256 ^ w + 256 ^ w * n)) =
        UInt8.ofNat m := by
      apply UInt8.toNat_inj.mp
      simp only [UInt8.toNat_ofNat']
      omega
    rw [leBytes, List.cons_append, ih, hsum, Nat.succ_add, leBytes, hdiv, hbyte]

theorem drop_leBytes (w v n : Nat) : (leBytes (w + v) n).drop w = leBytes v (n / 256 ^ w) := by
  induction w generalizing n with
  | zero => simp
  | succ w ih =>
    rw [Nat.succ_add, leBytes, List.drop_succ_cons, ih, Nat.div_div_eq_div_mul, Nat.pow_succ']

theorem take_leBytes (w v n : Nat) : (leBytes (w + v) n).take w = leBytes w n := by
  induction w generalizing n with
  | zero => rfl
  | succ w ih => rw [Nat.succ_add, leBytes, List.take_succ_cons, ih, leBytes]

theorem leBytes_leValue (l : List UInt8) : leBytes l.length (leValue l) = l := by
  induction l with
  | nil => rfl
  | cons b l ih =>
    have hb := b.toNat_lt
    have h1 : (b.toNat + 256 * leValue l) / 256 = leValue l := by omega
    have h2 : UInt8.ofNat (b.toNat + 256 * leValue l) = b := by
      apply UInt8.toNat_inj.mp
      simp only [UInt8.toNat_ofNat']
      omega
    rw [List.length_cons, leBytes, leValue, h1, h2, ih]

theorem ofNat_shiftRight_and (n i : Nat) :
    UInt8.ofNat ((n >>> (i * 8)) &&& 0xFF) = UInt8.ofNat (n / 256 ^ i) := by
  apply UInt8.toNat_inj.mp
  have h : (2:Nat) ^ (i * 8) = 256 ^ i := by rw [Nat.mul_comm, Nat.pow_mul]
  have hm : (n >>> (i * 8)) &&& 0xFF = (n / 256 ^ i) % 256 := by
    rw [Nat.shiftRight_eq_div_pow, h]
    exact Nat.and_two_pow_sub_one_eq_mod _ 8
  rw [hm]
  simp

theorem leBytes_four (n : Nat) : leBytes 4 n =
    [UInt8.ofNat n, UInt8.ofNat (n / 256), UInt8.ofNat (n / 256 ^ 2),
      UInt8.ofNat (n / 256 ^ 3)] := by
  simp [leBytes, Nat.div_div_eq_div_mul]

theorem leBytes_eight (n : Nat) :
    leBytes 8 n = leBytes 4 n ++ leBytes 4 (n / 2 ^ 32) := by
  simp [leBytes, Nat.div_div_eq_div_mul]

theorem leBytes_mod (w n : Nat) : leBytes w (n % 256 ^ w) = leBytes w n := by
  have h := leBytes_leValue (leBytes w n)
  rwa [length_leBytes, leValue_leBytes] at h

theorem or_four (a b c d : Nat) (ha : a < 256) (hb : b < 256) (hc : c < 256) :
    a ||| (b <<< 8) ||| (c <<< 16) ||| (d <<< 24) =
      a + 256 * (b + 256 * (c + 256 * d)) := by
  have h1 : a ||| (b <<< 8) = b * 256 + a := by
    rw [Nat.or_comm, ← Nat.shiftLeft_add_eq_or_of_lt (by omega : a < 2 ^ 8),
      Nat.shiftLeft_eq]
  have h2 : (b * 256 + a) ||| (c <<< 16) = c * 65536 + (b * 256 + a) := by
    rw [Nat.or_comm, ← Nat.shiftLeft_add_eq_or_of_lt (by omega : b * 256 + a < 2 ^ 16),
      Nat.shiftLeft_eq]
  have h3 : (c * 65536 + (b * 256 + a)) ||| (d <<< 24) =
      d * 16777216 + (c * 65536 + (b * 256 + a)) := by
    rw [Nat.or_comm, ← Nat.shiftLeft_add_eq_or_of_lt
      (by omega : c * 65536 + (b * 256 + a) < 2 ^ 24), Nat.shiftLeft_eq]
  rw [h1, h2, h3]
  ring

theorem or_shift_32 (hi lo : Nat) (h : lo < 2 ^ 32) :
    (hi <<< 32) ||| lo = lo + 2 ^ 32 * hi := by
  rw [← Nat.shiftLeft_add_eq_or_of_lt h, Nat.shiftLeft_eq]
  ring

theorem leValue_append (l l' : List UInt8) :
    leValue (l ++ l') = leValue l + 256 ^ l.length * leValue l' := by
  induction l with
  | nil => simp [leValue]
  | cons b l ih =>
    rw [List.cons_append, leValue, ih, leValue, List.length_cons, Nat.pow_succ]
    ring

end Endian
