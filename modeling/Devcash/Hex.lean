import Devcash.Lib.Loop
import Devcash.Text

/-! The two loops of the hex converters. `Hex2Bin` fills a buffer with one place more than it
needs, `ToHex` writes two digits for each byte; each of them undoes the other. -/
namespace Devcash

namespace Hex

/-- The digits `ToHex` writes. -/
def alpha : Text := "0123456789ABCDEF".toList

/-- `string::at`. -/
def charAt (s : Text) (loc : Nat) : Result Char :=
  match s[loc]? with
  | some c => .ok c
  | none => .error .outOfRange

/-- `buf.at(loc) = b`. -/
def setAt (buf : Bytes) (loc : Nat) (b : Byte) : Result Bytes :=
  if loc < buf.length then .ok (buf.set loc b) else .error .outOfRange

/-- `vector<uint8_t> buf(size)`: a negative `int` is a size no vector has. -/
def newBuffer (size : Int) : Result Bytes :=
  if size < 0 then .error (.runtime "cannot create std::vector larger than max_size()")
  else .ok (List.replicate size.toNat 0)

def popBack (buf : Bytes) : Result Bytes :=
  if buf = [] then .error .badAccess else .ok buf.dropLast

/-- One turn of the loop of `Hex2Bin`. -/
def hex2BinTurn (hex : Text) (buf : Bytes) (i : Nat) : Result Bytes := do
  let high ← charAt hex (i * 2)
  let low ← charAt hex (1 + i * 2)
  setAt buf i (hexByte high low)

/-- `Hex2Bin`, with its buffer. -/
def hex2Bin (hex : Text) : Result Bytes := do
  let len := i32 hex.length
  let buf ← newBuffer (len.tdiv 2 + 1)
  let buf ← (List.range (len.tdiv 2).toNat).foldlM (hex2BinTurn hex) buf
  popBack buf

/-- One turn of the loop of `ToHex`. -/
def toHexTurn (input : Bytes) (ss : Text) (j : Nat) : Result Text := do
  let c ← byteAt input j
  pure (ss ++ [hexDigit ((c.toNat >>> 4) &&& 0xF), hexDigit (c.toNat &&& 0xF)])

/-- `ToHex(input, num_bytes)`. -/
def toHex (input : Bytes) (numBytes : Nat) : Result Text :=
  (List.range (min numBytes input.length)).foldlM (toHexTurn input) []

/-- The number of bytes `ToHex` takes if it is given none. -/
def defaultNumBytes : Nat := 2 ^ 32 - 1

theorem charAt_of_lt {s : Text} {loc : Nat} (h : loc < s.length) : charAt s loc = .ok s[loc] := by
  simp [charAt, h]

theorem pair_of_length {s : Text} {k : Nat} (h : s.length = 2 * (k + 1)) :
    ∃ a b rest, s = a :: b :: rest ∧ rest.length = 2 * k := by
  cases s with
  | nil => simp at h
  | cons a s =>
    cases s with
    | nil => simp at h; omega
    | cons b rest =>
      simp only [List.length_cons] at h
      exact ⟨a, b, rest, rfl, by omega⟩

theorem length_hexBytes {s : Text} {k : Nat} (h : s.length = 2 * k) : (hexBytes s).length = k := by
  induction k generalizing s with
  | zero =>
    rw [List.length_eq_zero_iff.mp h]
    rfl
  | succ k ih =>
    obtain ⟨a, b, rest, rfl, hrest⟩ := pair_of_length h
    rw [hexBytes, List.length_cons, ih hrest]

theorem hexBytes_append {s : Text} {k : Nat} (h : s.length = 2 * k) (s' : Text) :
    hexBytes (s ++ s') = hexBytes s ++ hexBytes s' := by
  induction k generalizing s with
  | zero =>
    rw [List.length_eq_zero_iff.mp h]
    rfl
  | succ k ih =>
    obtain ⟨a, b, rest, rfl, hrest⟩ := pair_of_length h
    rw [List.cons_append, List.cons_append, hexBytes, ih hrest, hexBytes, List.cons_append]

/-- The buffer after `i` turns of `n`: the bytes so far and the places left. -/
def filled (hex : Text) (n i : Nat) : Bytes :=
  hexBytes (hex.take (2 * i)) ++ List.replicate (n + 1 - i) 0

theorem hexBytes_take_succ {hex : Text} {i : Nat} (h : 2 * i + 1 < hex.length) :
    hexBytes (hex.take (2 * (i + 1))) =
      hexBytes (hex.take (2 * i)) ++ [hexByte hex[2 * i] hex[2 * i + 1]] := by
  have hpair : hex.take (2 * (i + 1)) = hex.take (2 * i) ++ [hex[2 * i], hex[2 * i + 1]] := by
    rw [Nat.mul_succ, List.take_succ_eq_append_getElem h,
      List.take_succ_eq_append_getElem (by omega : 2 * i < hex.length), List.append_assoc]
    rfl
  rw [hpair, hexBytes_append (k := i) (by rw [List.length_take]; omega)]
  rfl

theorem hex2BinTurn_filled {hex : Text} {n i : Nat} (hi : i < n) (hn : 2 * n ≤ hex.length) :
    hex2BinTurn hex (filled hex n i) i = .ok (filled hex n (i + 1)) := by
  have hhigh : charAt hex (i * 2) = .ok hex[2 * i] := by
    rw [charAt_of_lt (by omega)]
    simp only [Nat.mul_comm]
  have hlow : charAt hex (1 + i * 2) = .ok hex[2 * i + 1] := by
    rw [charAt_of_lt (by omega)]
    simp only [Nat.mul_comm, Nat.add_comm]
  have hlen : (hexBytes (hex.take (2 * i))).length = i :=
    length_hexBytes (by rw [List.length_take]; omega)
  have hplaces : List.replicate (n + 1 - i) (0 : Byte) = 0 :: List.replicate (n + 1 - (i + 1)) 0 := by
    rw [← List.replicate_succ]
    congr 1
    omega
  rw [hex2BinTurn, hhigh, Result.bind_ok, hlow, Result.bind_ok, setAt, if_pos, filled, filled,
    hexBytes_take_succ (by omega), hplaces]
  · rw [List.set_append_right _ _ (by omega), hlen, Nat.sub_self, List.set_cons_zero,
      List.append_assoc]
    rfl
  · rw [filled, List.length_append, hlen, List.length_replicate]
    omega

theorem hex2BinTurn_fills {hex : Text} {n : Nat} (hn : 2 * n ≤ hex.length) :
    (List.range n).foldlM (hex2BinTurn hex) (List.replicate (n + 1) 0) =
      .ok (hexBytes (hex.take (2 * n)) ++ [0]) := by
  have hloop : (List.range n).foldlM (hex2BinTurn hex) (filled hex n 0) = .ok (filled hex n n) :=
    Loop.foldlM_range (fun i hi => hex2BinTurn_filled hi hn)
  have hlast : filled hex n n = hexBytes (hex.take (2 * n)) ++ [0] := by
    rw [filled, Nat.add_sub_cancel_left]
    rfl
  rwa [hlast] at hloop

/-- A digit without a partner is ignored. -/
theorem hexBytes_take_odd {hex : Text} {n : Nat} (hn : 2 * n ≤ hex.length) :
    hexBytes (hex.take (2 * n + 1)) = hexBytes (hex.take (2 * n)) := by
  have hone : hexBytes ((hex.drop (2 * n)).take 1) = [] := by
    cases hex.drop (2 * n) with
    | nil => rfl
    | cons c rest => rfl
  rw [List.take_add, hexBytes_append (k := n) (by rw [List.length_take]; omega), hone,
    List.append_nil]

theorem hex2Bin_of_len {hex : Text} {len : Int} (hle : len ≤ hex.length) :
    (newBuffer (len.tdiv 2 + 1) >>= fun buf =>
      (List.range (len.tdiv 2).toNat).foldlM (hex2BinTurn hex) buf >>= popBack) =
    if len.tdiv 2 + 1 < 0 then .error (.runtime "cannot create std::vector larger than max_size()")
    else if len.tdiv 2 + 1 = 0 then .error .badAccess
    else .ok (hexBytes (hex.take len.toNat)) := by
  rw [newBuffer]
  by_cases hneg : len.tdiv 2 + 1 < 0
  · rw [if_pos hneg, if_pos hneg, Result.bind_error]
  rw [if_neg hneg, if_neg hneg, Result.bind_ok]
  by_cases hzero : len.tdiv 2 + 1 = 0
  · have hnone : (len.tdiv 2).toNat = 0 := by omega
    rw [if_pos hzero, hzero, hnone]
    rfl
  · obtain ⟨n, hn⟩ : ∃ n : Nat, len.tdiv 2 = n := ⟨(len.tdiv 2).toNat, by omega⟩
    have hbuf : (len.tdiv 2 + 1).toNat = n + 1 := by omega
    have hlen : len.toNat = 2 * n ∨ len.toNat = 2 * n + 1 := by
      by_cases hpos : 0 ≤ len
      · rw [Int.tdiv_eq_ediv_of_nonneg hpos] at hn
        omega
      · have hdiv := Int.tmod_add_mul_tdiv len 2
        have hlower := Int.lt_tmod_of_pos len (by decide : (0 : Int) < 2)
        omega
    have hfit : 2 * n ≤ hex.length := by omega
    rw [if_neg hzero, hbuf, hn, Int.toNat_natCast, hex2BinTurn_fills hfit, Result.bind_ok, popBack,
      if_neg (List.append_ne_nil_of_right_ne_nil _ (List.cons_ne_nil _ _)), List.dropLast_concat]
    obtain heven | hodd := hlen
    · rw [heven]
    · rw [hodd, hexBytes_take_odd hfit]

/-- The loop gives the bytes of the pairs of digits, for every text, and fails where the length
does not fit an `int`. -/
theorem hex2Bin_eq (hex : Text) : hex2Bin hex = Devcash.hex2Bin hex :=
  hex2Bin_of_len (i32_le hex.length)

theorem hexText_append (l m : Bytes) : hexText (l ++ m) = hexText l ++ hexText m := by
  simp [hexText, Devcash.toHex]

/-- The stream after `j` turns. -/
def written (input : Bytes) (j : Nat) : Text := hexText (input.take j)

theorem toHexTurn_written {input : Bytes} {j : Nat} (h : j < input.length) :
    toHexTurn input (written input j) j = .ok (written input (j + 1)) := by
  rw [toHexTurn, byteAt_of_lt h, Result.bind_ok, written, written,
    List.take_succ_eq_append_getElem h, hexText_append, hexText_cons]
  rfl

theorem toHex_eq (input : Bytes) (numBytes : Nat) :
    toHex input numBytes = .ok (hexText (input.take numBytes)) := by
  have hloop : (List.range (min numBytes input.length)).foldlM (toHexTurn input)
      (written input 0) = .ok (written input (min numBytes input.length)) :=
    Loop.foldlM_range (fun j hj => toHexTurn_written (by omega))
  have htake : input.take (min numBytes input.length) = input.take numBytes := by
    rw [← List.take_take, List.take_length]
  rw [written, written, htake] at hloop
  exact hloop

theorem toHex_whole {input : Bytes} (h : input.length < 2 ^ 32) :
    toHex input defaultNumBytes = .ok (hexText input) := by
  rw [toHex_eq, List.take_of_length_le]
  rw [defaultNumBytes]
  omega

theorem eq_hexDigit_of_mem {c : Char} (h : c ∈ alpha) : ∃ n < 16, c = hexDigit n := by
  obtain ⟨n, hn, rfl⟩ := List.mem_iff_getElem.mp h
  exact ⟨n, hn, (List.getD_eq_getElem _ _ hn).symm⟩

theorem hexText_hexByte {a b : Char} (ha : a ∈ alpha) (hb : b ∈ alpha) (bytes : Bytes) :
    hexText (hexByte a b :: bytes) = a :: b :: hexText bytes := by
  obtain ⟨x, hx, rfl⟩ := eq_hexDigit_of_mem ha
  obtain ⟨y, hy, rfl⟩ := eq_hexDigit_of_mem hb
  have hbyte : (hexByte (hexDigit x) (hexDigit y)).toNat = 16 * x + y := by
    rw [hexByte_of_digits hx hy, UInt8.toNat_ofNat']
    omega
  have hhigh : (16 * x + y) >>> 4 &&& 0xF = x := by
    rw [Nat.shiftRight_eq_div_pow, Nat.and_two_pow_sub_one_eq_mod _ 4]
    omega
  have hlow : (16 * x + y) &&& 0xF = y := by
    rw [Nat.and_two_pow_sub_one_eq_mod _ 4]
    omega
  rw [hexText_cons, hbyte, hhigh, hlow]

theorem hexText_hexBytes {s : Text} {k : Nat} (hlen : s.length = 2 * k)
    (hdigits : ∀ c ∈ s, c ∈ alpha) : hexText (hexBytes s) = s := by
  induction k generalizing s with
  | zero =>
    rw [List.length_eq_zero_iff.mp hlen]
    rfl
  | succ k ih =>
    obtain ⟨a, b, rest, rfl, hrest⟩ := pair_of_length hlen
    obtain ⟨ha, hdigits⟩ := List.forall_mem_cons.mp hdigits
    obtain ⟨hb, hdigits⟩ := List.forall_mem_cons.mp hdigits
    rw [hexBytes, hexText_hexByte ha hb, ih hrest hdigits]

theorem toHex_hex2Bin {b : Bytes} (h : b.length < 2 ^ 30) :
    toHex b defaultNumBytes >>= hex2Bin = .ok b := by
  rw [toHex_whole (by omega), Result.bind_ok, hex2Bin_eq, hex2Bin_hexText h]

theorem hex2Bin_toHex {s : Text} {k : Nat} (hlen : s.length = 2 * k)
    (hdigits : ∀ c ∈ s, c ∈ alpha) (hint : s.length < 2 ^ 31) :
    (hex2Bin s >>= fun b => toHex b defaultNumBytes) = .ok s := by
  have hbytes : (hexBytes s).length < 2 ^ 32 := by
    rw [length_hexBytes hlen]
    omega
  rw [hex2Bin_eq, hex2Bin_even hlen hint, Result.bind_ok, toHex_whole hbytes,
    hexText_hexBytes hlen hdigits]

end Hex

/-- `getJSON` without the digits of the type byte. -/
def Address.getHexString (a : Address) : Result Text :=
  if a.isNull then .error (.runtime "Address is not initialized!") else .ok (a.getJSON.drop 2)

namespace Hex

theorem ofBytes_getJSON {a : Address} (h : a.IsWallet ∨ a.IsNode) :
    (hex2Bin a.getJSON).map Address.ofBytes = .ok a := by
  have hlen := (Address.length_le h).2
  rw [Address.getJSON, if_neg (by rw [Address.isNull_of_kind h]; exact Bool.false_ne_true),
    hex2Bin_eq, hex2Bin_hexText (Nat.lt_of_le_of_lt hlen (by decide))]
  exact congrArg Except.ok (Address.ofBytes_canonical h)

theorem hex2Bin_getHexString {a : Address} {t : Byte} {raw : Bytes} (hcan : a.canonical = t :: raw)
    (hnull : a.isNull = false) (hshort : raw.length < 2 ^ 30) :
    a.getHexString >>= hex2Bin = .ok raw := by
  rw [Address.getHexString, Address.getJSON, hnull, if_neg Bool.false_ne_true,
    if_neg Bool.false_ne_true, hcan, hexText_cons, Result.bind_ok, List.drop_succ_cons,
    List.drop_succ_cons, List.drop_zero, hex2Bin_eq, hex2Bin_hexText hshort]

theorem ofBytes_getHexString {a : Address} (h : a.IsWallet ∨ a.IsNode) :
    (a.getHexString >>= hex2Bin).map Address.ofBytes = .ok a := by
  have hlen := (Address.length_le h).2
  obtain ⟨t, raw, hcan, -, hraw⟩ := Address.ofBytes_tail h
  rw [hcan, List.length_cons] at hlen
  have hshort : raw.length < 2 ^ 30 := Nat.lt_of_le_of_lt (Nat.le_of_succ_le hlen) (by decide)
  rw [hex2Bin_getHexString hcan (Address.isNull_of_kind h) hshort]
  exact congrArg Except.ok hraw

/-- Without the type byte the constructor goes by the size, so an address with the type of one
kind and the size of another does not come back. -/
theorem ofBytes_getHexString_iff {a : Address} (hnull : a.isNull = false)
    (hlen : a.canonical.length < 2 ^ 30) :
    (a.getHexString >>= hex2Bin).map Address.ofBytes = .ok a ↔ a.IsWallet ∨ a.IsNode := by
  refine ⟨fun hback => ?_, ofBytes_getHexString⟩
  obtain ⟨c⟩ := a
  cases c with
  | nil => cases hnull
  | cons t raw =>
    rw [hex2Bin_getHexString rfl hnull (Nat.lt_of_succ_lt hlen)] at hback
    have hraw : Address.ofBytes raw = ⟨t :: raw⟩ := Except.ok.inj hback
    have hsize := Address.size_ofBytes raw
    rw [hraw, Address.size, List.length_cons] at hsize
    split_ifs at hsize with hkind
    · rw [Address.ofBytes] at hraw
      cases hkind with
      | inl hw =>
        rw [if_pos hw] at hraw
        cases hraw
        exact .inl ⟨congrArg Nat.succ hw, rfl⟩
      | inr hn =>
        have hsizes : raw.length ≠ kWalletAddrSize ∧ raw.length ≠ kWalletAddrBufSize := by
          rw [hn]
          decide
        rw [if_neg hsizes.1, if_neg (fun h => hsizes.2 h.1), if_pos hn] at hraw
        cases hraw
        exact .inr ⟨congrArg Nat.succ hn, rfl⟩
    · omega

/-- Bytes come back from their digits and digits from their bytes, and an address comes back from
its digits with and without those of the type byte. -/
theorem hex_inverse :
    (∀ b : Bytes, b.length < 2 ^ 30 → toHex b defaultNumBytes >>= hex2Bin = .ok b) ∧
    (∀ s : Text, Even s.length → (∀ c ∈ s, c ∈ alpha) → s.length < 2 ^ 31 →
      (hex2Bin s >>= fun b => toHex b defaultNumBytes) = .ok s) ∧
    ∀ a : Address, a.IsWallet ∨ a.IsNode →
      (a.getHexString >>= hex2Bin).map Address.ofBytes = .ok a ∧
        (hex2Bin a.getJSON).map Address.ofBytes = .ok a := by
  refine ⟨fun b hb => toHex_hex2Bin hb, ?_, fun a ha => ⟨ofBytes_getHexString ha, ofBytes_getJSON ha⟩⟩
  intro s heven hdigits hint
  obtain ⟨k, hk⟩ := heven.two_dvd
  exact hex2Bin_toHex hk hdigits hint

/-- Four digits, and a wallet address of equal bytes. -/
theorem hex_inverse_digits :
    (hex2Bin "1FA0".toList >>= fun b => toHex b defaultNumBytes) = .ok "1FA0".toList ∧
    (hex2Bin (Address.mk (33 :: List.replicate 33 7)).getJSON).map Address.ofBytes =
      .ok ⟨33 :: List.replicate 33 7⟩ := by
  have hdigits : "1FA0".toList.all (fun c => decide (c ∈ alpha)) = true := by decide
  refine ⟨hex_inverse.2.1 _ ⟨2, rfl⟩ (fun c hc => ?_) (by decide),
    (hex_inverse.2.2 _ (.inl ⟨rfl, rfl⟩)).2⟩
  exact of_decide_eq_true (List.all_eq_true.mp hdigits c hc)

end Hex
end Devcash
