import Devcash.Address
import Mathlib.Data.List.DropRight

/-! Strings: trimming, decimal and hex numbers. A `std::string` is the list of its
characters. -/
namespace Devcash

abbrev Text := List Char

/-- `Str2Bin`. -/
def str2Bin (s : Text) : Bytes := s.map (fun c => UInt8.ofNat c.toNat)

/-- The characters that `trim` removes and `strtoul` skips. -/
def isSpace (c : Char) : Bool := c ∈ [' ', '\t', '\n', '\r', '\x0c', '\x0b']

def ltrim (s : Text) : Text := s.dropWhile isSpace

def rtrim (s : Text) : Text := s.rdropWhile isSpace

def trim (s : Text) : Text := rtrim (ltrim s)

/-- `std::to_string` of an unsigned number. -/
def toText (n : Nat) : Text := Nat.toDigits 10 n

/-- `std::stoul` to base 10. Text without a number is an `std::invalid_argument`; a minus
sign negates the value as an `unsigned long`. -/
def stoul (s : Text) : Result Nat :=
  let s := s.dropWhile isSpace
  let digits := if s.head? = some '-' ∨ s.head? = some '+' then s.tail else s
  let number := digits.takeWhile Char.isDigit
  let value := Nat.ofDigitChars 10 number 0
  if number = [] then .error (.logic "stoul")
  else if 2 ^ 64 ≤ value then .error .outOfRange
  else if s.head? = some '-' then .ok (toUint64 (-value))
  else .ok value

def char2Int (c : Char) : Int :=
  if '0' ≤ c ∧ c ≤ '9' then c.toNat - '0'.toNat
  else if 'A' ≤ c ∧ c ≤ 'F' then c.toNat - 'A'.toNat + 10
  else if 'a' ≤ c ∧ c ≤ 'f' then c.toNat - 'a'.toNat + 10
  else -1

/-- `(byte)Char2Int(a) * 16 + Char2Int(b)`, stored in a byte. -/
def hexByte (a b : Char) : Byte := UInt8.ofNat (((char2Int a % 256) * 16 + char2Int b) % 256).toNat

def hexBytes : Text → Bytes
  | a :: b :: rest => hexByte a b :: hexBytes rest
  | _ => []

/-- `Hex2Bin`. The length is an `int`, and the buffer has room for a terminator that is
taken off again. -/
def hex2Bin (hex : Text) : Result Bytes :=
  let len := i32 hex.length
  let size := len.tdiv 2 + 1
  if size < 0 then .error (.runtime "cannot create std::vector larger than max_size()")
  else if size = 0 then .error .badAccess
  else .ok (hexBytes (hex.take len.toNat))

/-- `getJSON` of an address or a signature that is not null. -/
def hexText (bytes : Bytes) : Text := (toHex bytes).toList

def Address.getJSON (a : Address) : Text := if a.isNull then [] else hexText a.canonical

def Signature.isNull (s : Signature) : Bool :=
  match s.canonical with
  | [] => true
  | b :: _ => b == 0

def Signature.getJSON (s : Signature) : Text := if s.isNull then [] else hexText s.canonical

/-- Neither the first nor the last character is white space. -/
def Trimmed (s : Text) : Prop :=
  ∀ c, s.head? = some c ∨ s.getLast? = some c → isSpace c = false

theorem Trimmed.dropWhile {s : Text} (h : Trimmed s) : s.dropWhile isSpace = s := by
  cases s with
  | nil => rfl
  | cons c s => rw [List.dropWhile_cons_of_neg (by rw [h c (.inl rfl)]; exact Bool.false_ne_true)]

theorem Trimmed.trim_eq {s : Text} (h : Trimmed s) : trim s = s := by
  rw [trim, ltrim, h.dropWhile, rtrim, List.rdropWhile_eq_self_iff]
  intro hne
  rw [h _ (.inr (List.getLast?_eq_some_getLast hne))]
  exact Bool.false_ne_true

theorem trimmed_of_forall {s : Text} (h : ∀ c ∈ s, isSpace c = false) : Trimmed s := by
  intro c hc
  cases hc with
  | inl hc => exact h c (List.mem_of_head? hc)
  | inr hc => exact h c (List.mem_of_getLast? hc)

theorem isDigit_toText {n : Nat} {c : Char} (h : c ∈ toText n) : c.isDigit = true :=
  Nat.isDigit_of_mem_toDigits (by decide) (by decide) h

theorem trimmed_toText (n : Nat) : Trimmed (toText n) := by
  refine trimmed_of_forall (fun c hc => ?_)
  have hdigit := isDigit_toText hc
  by_contra hspace
  simp only [isSpace, Bool.not_eq_false, decide_eq_true_eq, List.mem_cons, List.not_mem_nil,
    or_false] at hspace
  rcases hspace with rfl | rfl | rfl | rfl | rfl | rfl <;> exact absurd hdigit (by decide)

theorem stoul_toText {n : Nat} (h : n < 2 ^ 64) : stoul (toText n) = .ok n := by
  have hne : toText n ≠ [] := Nat.toDigits_ne_nil
  have hhead : ∀ c, (toText n).head? = some c → c.isDigit = true :=
    fun c hc => isDigit_toText (List.mem_of_head? hc)
  have hminus : (toText n).head? ≠ some '-' := fun hc => absurd (hhead _ hc) (by decide)
  have hplus : (toText n).head? ≠ some '+' := fun hc => absurd (hhead _ hc) (by decide)
  have hnumber : (toText n).takeWhile Char.isDigit = toText n :=
    List.takeWhile_eq_self_iff.mpr (fun c hc => isDigit_toText hc)
  have hvalue : Nat.ofDigitChars 10 (toText n) 0 = n := Nat.ofDigitChars_ten_toDigits
  simp only [stoul, (trimmed_toText n).dropWhile, hminus, hplus, or_self, if_false, hnumber, hne,
    hvalue, if_neg (Nat.not_le.mpr h)]

theorem char2Int_hexDigit {n : Nat} (h : n < 16) : char2Int (hexDigit n) = n := by
  have hall : ∀ n < 16, char2Int (hexDigit n) = n := by decide
  exact hall n h

theorem hexByte_of_digits {x y : Nat} (hx : x < 16) (hy : y < 16) :
    hexByte (hexDigit x) (hexDigit y) = UInt8.ofNat (16 * x + y) := by
  rw [hexByte, char2Int_hexDigit hx, char2Int_hexDigit hy]
  congr 1
  omega

theorem hexByte_hexDigit (c : Byte) :
    hexByte (hexDigit ((c.toNat >>> 4) &&& 0xF)) (hexDigit (c.toNat &&& 0xF)) = c := by
  have hc := c.toNat_lt
  have hhigh : (c.toNat >>> 4) &&& 0xF = c.toNat / 16 := by
    rw [Nat.shiftRight_eq_div_pow, Nat.and_two_pow_sub_one_eq_mod _ 4]
    omega
  have hlow : c.toNat &&& 0xF = c.toNat % 16 := Nat.and_two_pow_sub_one_eq_mod _ 4
  rw [hhigh, hlow, hexByte_of_digits (by omega) (Nat.mod_lt _ (by decide)), Nat.div_add_mod,
    UInt8.ofNat_toNat]

theorem hexText_cons (c : Byte) (bytes : Bytes) : hexText (c :: bytes) =
    hexDigit ((c.toNat >>> 4) &&& 0xF) :: hexDigit (c.toNat &&& 0xF) :: hexText bytes := by
  simp [hexText, toHex]

theorem hexBytes_hexText (bytes : Bytes) : hexBytes (hexText bytes) = bytes := by
  induction bytes with
  | nil => rfl
  | cons c bytes ih => rw [hexText_cons, hexBytes, hexByte_hexDigit, ih]

theorem length_hexText (bytes : Bytes) : (hexText bytes).length = 2 * bytes.length := by
  induction bytes with
  | nil => rfl
  | cons c bytes ih =>
    rw [hexText_cons, List.length_cons, List.length_cons, ih, List.length_cons]
    omega

theorem hex2Bin_even {s : Text} {k : Nat} (hlen : s.length = 2 * k) (hint : s.length < 2 ^ 31) :
    hex2Bin s = .ok (hexBytes s) := by
  have hlength : i32 s.length = ((2 * k : Nat) : Int) := by
    rw [i32_of_bounds (by omega) (by omega), hlen]
  have hsize : ¬ (((2 * k : Nat) : Int).tdiv 2 + 1 < 0) ∧ ((2 * k : Nat) : Int).tdiv 2 + 1 ≠ 0 := by
    rw [Int.tdiv_eq_ediv_of_nonneg (Int.natCast_nonneg _)]
    omega
  simp only [hex2Bin, hlength, if_neg hsize.1, if_neg hsize.2, Int.toNat_natCast]
  rw [List.take_of_length_le (Nat.le_of_eq hlen)]

theorem hex2Bin_hexText {bytes : Bytes} (h : bytes.length < 2 ^ 30) :
    hex2Bin (hexText bytes) = .ok bytes := by
  have hint : (hexText bytes).length < 2 ^ 31 := by
    rw [length_hexText]
    omega
  rw [hex2Bin_even (length_hexText bytes) hint, hexBytes_hexText]

theorem hexDigit_mem (n : Nat) : hexDigit (n &&& 0xF) ∈ "0123456789ABCDEF".toList := by
  have hall : ∀ n < 16, hexDigit n ∈ "0123456789ABCDEF".toList := by decide
  exact hall _ (Nat.lt_succ_of_le Nat.and_le_right)

theorem hexText_mem {bytes : Bytes} {c : Char} (h : c ∈ hexText bytes) :
    c ∈ "0123456789ABCDEF".toList := by
  induction bytes with
  | nil => cases h
  | cons b bytes ih =>
    rw [hexText_cons] at h
    simp only [List.mem_cons] at h
    rcases h with rfl | rfl | h
    · exact hexDigit_mem _
    · exact hexDigit_mem _
    · exact ih h

theorem trimmed_hexText (bytes : Bytes) : Trimmed (hexText bytes) := by
  have hall : "0123456789ABCDEF".toList.all (fun c => isSpace c = false) = true := by decide
  refine trimmed_of_forall (fun c hc => ?_)
  exact of_decide_eq_true (List.all_eq_true.mp hall c (hexText_mem hc))

end Devcash
