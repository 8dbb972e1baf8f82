import Devcash.DataOracle
import Devcash.KeyLoading

/-! `Sign` of the data oracle. It loads a key by the hex digits of its address and then takes
the digits for the address, so that nothing it returns is sound. -/
namespace Devcash
namespace DataOracle
variable {o : Ossl}

/-- `Sign`. The characters of the address become its bytes. -/
def sign (readKey : Text → Text → Text → Result o.EcKey) (d : DataOracle)
    (address key aesPassword : Text) : Result DataOracle := do
  let keyPtr ← KeyDirectory.loadEcKey readKey address key aesPassword
  let client := Address.ofBytes (str2Bin address)
  let theTx ← Tier2Transaction.sign OpType.exchange.toByte
    (payment client (coinsNeeded d.rawData.length)) d.rawData keyPtr
  let sig ← theTx.getSignature
  .ok { d with rawData := client.getCanonical ++ (sig.getCanonical ++ d.rawData) }

def IsHexDigit (c : Char) : Prop :=
  48 ≤ c.toNat ∧ c.toNat ≤ 57 ∨ 65 ≤ c.toNat ∧ c.toNat ≤ 70 ∨ 97 ≤ c.toNat ∧ c.toNat ≤ 102

/-- A key whose signatures are those of a wallet. -/
def SignsAsWallet (key : o.EcKey) : Prop := ∀ h, ∃ sig, o.signBinary key h = .ok sig ∧ sig.IsWallet

theorem types_of_hexDigit {c : Char} (h : IsHexDigit c) :
    (Address.getSizeByType (UInt8.ofNat c.toNat) < 1 ∨
        Address.getSizeByType (UInt8.ofNat c.toNat) = kNodeAddrSize) ∧
      Signature.getSizeByType (UInt8.ofNat c.toNat) < 1 := by
  have hbyte : (UInt8.ofNat c.toNat).toNat = c.toNat := by
    rw [UInt8.toNat_ofNat']
    unfold IsHexDigit at h
    omega
  simp only [Address.getSizeByType, Signature.getSizeByType, hbyte, kWalletAddrSize, kNodeAddrSize,
    kWalletSigSize, kNodeSigSize]
  unfold IsHexDigit at h
  refine ⟨?_, ?_⟩
  · rw [if_neg (by omega)]
    split_ifs
    · exact .inr rfl
    · exact .inl Nat.zero_lt_one
  · rw [if_neg (by omega), if_neg (by omega)]
    exact Nat.zero_lt_one

section
variable {readKey : Text → Text → Text → Result o.EcKey} {d : DataOracle}
  {text key aesPassword : Text} {eckey : o.EcKey}

theorem byteAt_str2Bin {rest : Bytes} {i : Nat} (h : i < text.length) :
    ∃ c ∈ text, byteAt (str2Bin text ++ rest) i = .ok (UInt8.ofNat c.toNat) := by
  refine ⟨text.get ⟨i, h⟩, List.get_mem _ _, ?_⟩
  have hi : i < (str2Bin text).length := by
    rw [str2Bin, List.length_map]
    exact h
  have hlen : i < (str2Bin text ++ rest).length := by
    rw [List.length_append]
    omega
  rw [byteAt_of_lt hlen, List.getElem_append_left hi]
  simp only [str2Bin, List.getElem_map]
  rfl

/-- A proposal that begins with the digits of an address is refused: the first digit is no type
of an address, or the 51st stands where the type of a signature is read. -/
theorem isSound_digits {rest : Bytes} (hhex : ∀ c ∈ text, IsHexDigit c)
    (hlen : kWalletAddrSize * 2 ≤ text.length) (hraw : d.rawData = str2Bin text ++ rest) :
    ∃ refused, d.isSound = .ok (false, refused) := by
  have hlen : 66 ≤ text.length := hlen
  obtain ⟨c, hc, hfirst⟩ := @byteAt_str2Bin text rest 0 (by omega)
  rw [isSound, hraw, hfirst, Result.bind_ok]
  dsimp only
  obtain haddr | haddr := (types_of_hexDigit (hhex c hc)).1
  · rw [if_pos haddr]
    exact ⟨_, rfl⟩
  · obtain ⟨c', hc', hsig⟩ := @byteAt_str2Bin text rest (kNodeAddrSize + 1)
      (by simp only [kNodeAddrSize]; omega)
    rw [haddr, if_neg (by decide), hsig, Result.bind_ok, if_pos (types_of_hexDigit (hhex c' hc')).2]
    exact ⟨_, rfl⟩

theorem length_of_loadEcKey (h : KeyDirectory.loadEcKey readKey text key aesPassword = .ok eckey) :
    text.length = kWalletAddrSize * 2 ∨ text.length = kNodeAddrSize * 2 := by
  rw [KeyDirectory.loadEcKey] at h
  split_ifs at h with _ hsize
  exact hsize

/-- The digits of an address are twice as many as an address has bytes, and are kept as
they are. -/
theorem ofBytes_str2Bin
    (h : text.length = kWalletAddrSize * 2 ∨ text.length = kNodeAddrSize * 2) :
    Address.ofBytes (str2Bin text) = ⟨str2Bin text⟩ := by
  have hlen : (str2Bin text).length = text.length := List.length_map _
  simp only [Address.ofBytes, hlen, kWalletAddrSize, kWalletAddrBufSize, kNodeAddrSize,
    kNodeAddrBufSize] at h ⊢
  rw [if_neg (by omega), if_neg (by omega), if_neg (by omega), if_neg (by omega)]

/-- Whatever `Sign` returns begins with the text it took for the address. -/
theorem sign_ok {signed : DataOracle} (h : d.sign readKey text key aesPassword = .ok signed) :
    (text.length = kWalletAddrSize * 2 ∨ text.length = kNodeAddrSize * 2) ∧
      ∃ sig : Signature, signed.rawData = str2Bin text ++ (sig.canonical ++ d.rawData) := by
  obtain ⟨keyPtr, hload, h⟩ := Result.bind_eq_ok h
  obtain ⟨tx, -, h⟩ := Result.bind_eq_ok h
  obtain ⟨sig, -, h⟩ := Result.bind_eq_ok h
  cases h
  have hlen := length_of_loadEcKey hload
  refine ⟨hlen, sig, ?_⟩
  dsimp only
  rw [ofBytes_str2Bin hlen]
  rfl

/-- A key that signs makes the transaction that pays for the data, and its signature is read
back. -/
theorem sign_storing {client : Address} {data : Bytes} (hsigns : SignsAsWallet eckey)
    (hclient : client.canonical.length ≤ kNodeAddrSize * 2) (hlen : data.length < 2 ^ 62) :
    ∃ sig, Tier2Transaction.sign OpType.exchange.toByte
        (payment client (coinsNeeded data.length)) data eckey = .ok (storing client data sig) ∧
      (storing client data sig).getSignature = .ok sig := by
  have hsize : ∀ sig : Signature, sig.canonical.length ≤ kNodeSigBufSize →
      (storing client data sig).canonical.length < 2 ^ 64 := by
    intro sig hsig
    rw [length_storing]
    simp only [kNodeSigBufSize, kNodeSigSize, kNodeAddrSize] at hsig hclient ⊢
    omega
  have hlayout : (Tier2Transaction.layout OpType.exchange.toByte
      (payment client (coinsNeeded data.length)) data).length < 2 ^ 64 := by
    have h := hsize ⟨[]⟩ (Nat.zero_le _)
    rwa [show (storing client data ⟨[]⟩).canonical = _ from List.append_nil _] at h
  have hdigest := (Tier2Transaction.frames_unsigned hlayout).getMessageDigest
  obtain ⟨sig, hsign, hsig⟩ := hsigns (o.devcashHash (Tier2Transaction.head
    OpType.exchange.toByte ((payment client (coinsNeeded data.length)).flatMap
      Transfer.getCanonical) data))
  refine ⟨sig, ?_, ?_⟩
  · rw [Tier2Transaction.sign, hdigest]
    simp only [Result.bind_ok, hsign]
    rfl
  · rw [(frames_storing (hsize sig (by rw [hsig.1]; decide))).getSignature, if_pos rfl,
      Tier2Transaction.slice_signature (.inl hsig) hsig.1.symm]

theorem sign_returns (hload : KeyDirectory.loadEcKey readKey text key aesPassword = .ok eckey)
    (hsigns : SignsAsWallet eckey) (hlen : d.rawData.length < 2 ^ 62) :
    ∃ signed, d.sign readKey text key aesPassword = .ok signed := by
  have hclient : (Address.ofBytes (str2Bin text)).canonical.length ≤ kNodeAddrSize * 2 := by
    have htext := length_of_loadEcKey hload
    rw [ofBytes_str2Bin htext]
    simp only [str2Bin, List.length_map, kWalletAddrSize, kNodeAddrSize] at htext ⊢
    omega
  obtain ⟨sig, htx, hget⟩ := sign_storing hsigns hclient hlen
  rw [sign, hload]
  simp only [Result.bind_ok, htx, hget]
  exact ⟨_, rfl⟩

end

/-- Whatever the data and the key, a proposal signed for an address in hex is refused: `Sign`
returns for every key that loads and signs, and what it returns is not sound. -/
theorem sign_refused (readKey : Text → Text → Text → Result o.EcKey) (d : DataOracle)
    (text key aesPassword : Text) (hhex : ∀ c ∈ text, IsHexDigit c) :
    (∀ signed, d.sign readKey text key aesPassword = .ok signed →
      ∃ refused, signed.isSound = .ok (false, refused)) ∧
    ∀ eckey, KeyDirectory.loadEcKey readKey text key aesPassword = .ok eckey →
      SignsAsWallet eckey → d.rawData.length < 2 ^ 62 →
        ∃ signed, d.sign readKey text key aesPassword = .ok signed := by
  refine ⟨?_, fun eckey => sign_returns⟩
  intro signed hsign
  obtain ⟨hlen, sig, hraw⟩ := sign_ok hsign
  refine isSound_digits hhex ?_ hraw
  simp only [kWalletAddrSize, kNodeAddrSize] at hlen ⊢
  omega

/-- A library that reads the key of the first wallet. -/
def toyReadKey : Text → Text → Text → Result Ossl.toy.EcKey := fun _ _ _ => .ok (Address.sample 1)

/-- The address of zeros. -/
def hexZeros : Text := List.replicate (kWalletAddrSize * 2) '0'

theorem hexDigits_hexZeros : ∀ c ∈ hexZeros, IsHexDigit c := by
  intro c hc
  rw [List.eq_of_mem_replicate hc]
  exact .inl (by decide)

theorem sign_refused_hexZeros : ∃ signed refused,
    (DataOracle.mk [1, 2, 3] "").sign toyReadKey hexZeros ['k'] ['p'] = .ok signed ∧
      signed.isSound = .ok (false, refused) := by
  have hrefused := sign_refused toyReadKey (DataOracle.mk [1, 2, 3] "") hexZeros ['k'] ['p']
    hexDigits_hexZeros
  obtain ⟨signed, hsigned⟩ := hrefused.2 (Address.sample 1) rfl
    (fun h => ⟨_, rfl, Ossl.isWallet_toySignature rfl h⟩) (by decide)
  obtain ⟨refused, hsound⟩ := hrefused.1 signed hsigned
  exact ⟨signed, refused, hsigned, hsound⟩

/-- The first of the digits is taken for the type of the address. -/
theorem sign_hexZeros : ∃ signed,
    (DataOracle.mk [1, 2, 3] "").sign toyReadKey hexZeros ['k'] ['p'] = .ok signed ∧
      ∃ r, signed.isSound = .ok r ∧ r = (false, { signed with errorMsg := "Bad address size." }) := by
  decide +kernel

end DataOracle
end Devcash
