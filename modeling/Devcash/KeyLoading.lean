import Devcash.Authorization
import Devcash.CatchUp
import Devcash.Failures
import Devcash.Hex
import Devcash.Lib.Loop
import Devcash.Lib.Places

/-! The key directory as a process builds it from its files. A file is a row of records of one
size; a record whose key cannot be loaded is passed over, and the ones behind it move up. -/
namespace Devcash
open Except

def kFileKeySize : Nat := 379

def kFileNodekeySize : Nat := 448

/-- The class `KeyRing` with all of its members. -/
structure KeyDirectory (o : Ossl) extends WalletRing o where
  innAddr : Address

namespace KeyDirectory
variable {o : Ossl}

def empty : KeyDirectory o where
  keyMap := OrdMap.empty
  nodeList := []
  walletList := []
  innAddr := Address.null

def getInnAddr (keys : KeyDirectory o) : Result Address :=
  if keys.isINN keys.innAddr then .ok keys.innAddr
  else .error (.runtime "INN Address is not initialized")

def getWalletKey (keys : KeyDirectory o) (index : Nat) : Result o.EcKey :=
  match keys.walletList[index]? with
  | none => .error .outOfRange
  | some walletAddr =>
    match keys.keyMap.find? walletAddr with
    | some key => .ok key
    | none => .error (.thrown ("Wallet[" ++ toString index ++ "] key is missing!"))

/-- `InsertAddress`. A key that is there stays. -/
def insertAddress (keys : KeyDirectory o) (hex : Text) (key : o.EcKey) :
    Result (Address × KeyDirectory o) := do
  let addr ← hex2Bin hex
  let toInsert := Address.ofBytes addr
  .ok (toInsert, { keys with keyMap := keys.keyMap.insert toInsert key })

/-- The characters `hello`. -/
def testMessage : Bytes := [104, 101, 108, 108, 111]

/-- A key is tried out before it is stored. -/
def verifiesTest (key : o.EcKey) : Result Bool := do
  let testHash := o.devcashHash testMessage
  let sig ← o.signBinary key testHash
  .ok (o.verifyByteSig key testHash sig)

/-- A record of a file: an address in hexadecimal digits and an encrypted key. -/
structure Record where
  addr : Text
  key : Text

/-- `std::string::substr` on characters. -/
def textSubstr (s : Text) (pos len : Nat) : Result Text :=
  if s.length < pos then .error .outOfRange else .ok ((s.drop pos).take len)

section
variable (readKey : Text → Text → Text → Result o.EcKey)

/-- `LoadEcKey`: what stands before the call into the library. -/
def loadEcKey (publicKey privKey aesPassword : Text) : Result o.EcKey :=
  if aesPassword.length < 1 then .error (.runtime "aes_password cannot be zero-length")
  else if publicKey.length = kWalletAddrSize * 2 ∨ publicKey.length = kNodeAddrSize * 2 then
    readKey publicKey privKey aesPassword
  else .error (.runtime "Invalid public key!")

/-- `addWalletKeyPair` and `addNodeKeyPair` differ in their message and their list. -/
def addKeyPair (what : String) (store : Address → KeyDirectory o → KeyDirectory o)
    (password : Text) (keys : KeyDirectory o) (r : Record) : Result (KeyDirectory o) := do
  let key ← loadEcKey readKey r.addr r.key password
  let valid ← verifiesTest key
  if valid then
    let (addr, keys) ← keys.insertAddress r.addr key
    .ok (store addr keys)
  else .error (.runtime ("Invalid " ++ what ++ "[" ++ String.ofList r.addr ++ "] key!"))

def addWalletKeyPair : Text → KeyDirectory o → Record → Result (KeyDirectory o) :=
  addKeyPair readKey "address" (fun addr keys => { keys with walletList := keys.walletList ++ [addr] })

def addNodeKeyPair : Text → KeyDirectory o → Record → Result (KeyDirectory o) :=
  addKeyPair readKey "node" (fun addr keys => { keys with nodeList := keys.nodeList ++ [addr] })

/-- A key that fails its test is only logged here. -/
def setInnKeyPair (password : Text) (keys : KeyDirectory o) (r : Record) :
    Result (KeyDirectory o) := do
  let innKey ← loadEcKey readKey r.addr r.key password
  let valid ← verifiesTest innKey
  if valid then
    let (addr, keys) ← keys.insertAddress r.addr innKey
    .ok { keys with innAddr := addr }
  else .ok keys

end

/-- The `try` around a record. -/
def attempt (add : KeyDirectory o → Record → Result (KeyDirectory o)) (keys : KeyDirectory o)
    (r : Record) : Result (KeyDirectory o) :=
  match add keys r with
  | .ok keys => .ok keys
  | .error e => if e.isException then .ok keys else .error e

/-- `while (counter < (size-1))`. -/
def forRecords (addrSize keySize : Nat) (file : Text)
    (add : KeyDirectory o → Record → Result (KeyDirectory o)) :
    Nat → Nat → KeyDirectory o → Result (KeyDirectory o)
  | 0, counter, keys => if counter < file.length - 1 then .error .diverges else .ok keys
  | fuel+1, counter, keys =>
    if counter < file.length - 1 then do
      let addr ← textSubstr file counter addrSize
      let key ← textSubstr file (counter + addrSize) keySize
      let keys ← attempt add keys ⟨addr, key⟩
      forRecords addrSize keySize file add fuel (counter + addrSize + keySize) keys
    else .ok keys

/-- The records of a file, or nothing if its size is wrong. An empty file has no records. -/
def loadFile (addrSize keySize : Nat) (file : Text)
    (add : KeyDirectory o → Record → Result (KeyDirectory o)) (keys : KeyDirectory o) :
    Option (Result (KeyDirectory o)) :=
  if file = [] then some (.ok keys)
  else if file.length % (keySize + addrSize) = 0 then
    some (forRecords addrSize keySize file add file.length 0 keys)
  else none

section
variable (readKey : Text → Text → Text → Result o.EcKey)

def loadNodeFile (file : Text)
    (add : KeyDirectory o → Record → Result (KeyDirectory o)) (keys : KeyDirectory o) :
    Option (Result (KeyDirectory o)) :=
  loadFile (kNodeAddrSize * 2) kFileNodekeySize file add keys

/-- The constructor: behind a file of the wrong size nothing is read. -/
def ofFiles (innKeys nodeKeys password : Text) : Result (KeyDirectory o) :=
  match loadNodeFile innKeys (setInnKeyPair readKey password) empty with
  | none => .ok empty
  | some inn => do
    let keys ← inn
    match loadNodeFile nodeKeys (addNodeKeyPair readKey password) keys with
    | none => .ok keys
    | some nodes => nodes

def loadWallets (keys : KeyDirectory o) (walletKeys password : Text) :
    Result (Bool × KeyDirectory o) :=
  if walletKeys = [] then .ok (false, keys)
  else match loadFile (kWalletAddrSize * 2) kFileKeySize walletKeys
      (addWalletKeyPair readKey password) keys with
    | none => .ok (false, keys)
    | some wallets => do
      let keys ← wallets
      .ok (true, keys)

end

/-- The records of a file whose size is a multiple of theirs. -/
def recordAt (addrSize keySize : Nat) (file : Text) (i : Nat) : Record where
  addr := (file.drop (i * (keySize + addrSize))).take addrSize
  key := (file.drop (i * (keySize + addrSize) + addrSize)).take keySize

def records (addrSize keySize : Nat) (file : Text) : List Record :=
  (List.range (file.length / (keySize + addrSize))).map (recordAt addrSize keySize file)

section
variable {addrSize keySize : Nat} {file : Text}

theorem drop_records {i : Nat} (hi : i < file.length / (keySize + addrSize)) :
    (records addrSize keySize file).drop i =
      recordAt addrSize keySize file i :: (records addrSize keySize file).drop (i + 1) := by
  rw [List.drop_eq_getElem_cons (by rwa [records, List.length_map, List.length_range])]
  simp [records]

theorem getElem?_records {i : Nat} (hi : i < file.length / (keySize + addrSize)) :
    (records addrSize keySize file)[i]? = some (recordAt addrSize keySize file i) := by
  rw [records, List.getElem?_map, List.getElem?_range hi, Option.map_some]

theorem forRecords_eq (hsize : file.length % (keySize + addrSize) = 0)
    (hrecord : 1 < keySize + addrSize) (add : KeyDirectory o → Record → Result (KeyDirectory o))
    (fuel i : Nat) (hfuel : file.length / (keySize + addrSize) ≤ i + fuel)
    (keys : KeyDirectory o) :
    forRecords addrSize keySize file add fuel (i * (keySize + addrSize)) keys =
      ((records addrSize keySize file).drop i).foldlM (attempt add) keys := by
  set n := file.length / (keySize + addrSize) with hn
  have hlen : file.length = n * (keySize + addrSize) :=
    (Nat.div_mul_cancel (Nat.dvd_of_mod_eq_zero hsize)).symm
  have hdone : ∀ i, n ≤ i → ¬ i * (keySize + addrSize) < file.length - 1 ∧
      (records addrSize keySize file).drop i = [] := by
    intro i hi
    have hle := Nat.mul_le_mul_right (keySize + addrSize) hi
    refine ⟨by omega, List.drop_eq_nil_of_le ?_⟩
    rwa [records, List.length_map, List.length_range]
  induction fuel generalizing i keys with
  | zero =>
    obtain ⟨hstop, hnil⟩ := hdone i hfuel
    rw [forRecords, if_neg hstop, hnil]
    rfl
  | succ fuel ih =>
    obtain hi | hi := Nat.lt_or_ge i n
    · have hnext := Nat.mul_le_mul_right (keySize + addrSize) (Nat.succ_le_of_lt hi)
      rw [Nat.succ_mul] at hnext
      have haddr : textSubstr file (i * (keySize + addrSize)) addrSize =
          .ok (recordAt addrSize keySize file i).addr := if_neg (by omega)
      have hkey : textSubstr file (i * (keySize + addrSize) + addrSize) keySize =
          .ok (recordAt addrSize keySize file i).key := if_neg (by omega)
      have hcounter : i * (keySize + addrSize) + addrSize + keySize =
          (i + 1) * (keySize + addrSize) := by rw [Nat.succ_mul]; omega
      rw [forRecords, if_pos (by omega), haddr, Result.bind_ok, hkey, Result.bind_ok,
        drop_records hi, List.foldlM_cons, hcounter]
      congr 1
      funext keys
      exact ih (i + 1) keys (by omega)
    · obtain ⟨hstop, hnil⟩ := hdone i hi
      rw [forRecords, if_neg hstop, hnil]
      rfl

theorem length_addr (hsize : file.length % (keySize + addrSize) = 0) {r : Record}
    (hr : r ∈ records addrSize keySize file) : r.addr.length = addrSize := by
  obtain ⟨i, hi, rfl⟩ := List.mem_map.mp hr
  rw [List.mem_range] at hi
  have hlen := Nat.div_mul_cancel (Nat.dvd_of_mod_eq_zero hsize)
  have hnext := Nat.mul_le_mul_right (keySize + addrSize) (Nat.succ_le_of_lt hi)
  rw [Nat.succ_mul, hlen] at hnext
  rw [recordAt, List.length_take, List.length_drop]
  omega

theorem loadFile_eq (hrecord : 1 < keySize + addrSize)
    (add : KeyDirectory o → Record → Result (KeyDirectory o)) (keys : KeyDirectory o) :
    loadFile addrSize keySize file add keys =
      if file.length % (keySize + addrSize) = 0 then
        some ((records addrSize keySize file).foldlM (attempt add) keys)
      else none := by
  rw [loadFile]
  by_cases hfile : file = []
  · subst hfile
    simp [records]
    rfl
  · rw [if_neg hfile]
    split_ifs with hsize
    · have hloop := forRecords_eq hsize hrecord add file.length 0
        (by rw [Nat.zero_add]; exact Nat.div_le_self _ _) keys
      rw [Nat.zero_mul, List.drop_zero] at hloop
      rw [hloop]
    · rfl

end

/-- The address of a record. -/
def Record.address (r : Record) : Address := Address.ofBytes (hexBytes r.addr)

/-- The key of a record that can be read and passes its test. -/
def Record.Loads (readKey : Text → Text → Text → Result o.EcKey) (password : Text) (r : Record)
    (key : o.EcKey) : Prop :=
  loadEcKey readKey r.addr r.key password = .ok key ∧ verifiesTest key = .ok true

def Record.loads (readKey : Text → Text → Text → Result o.EcKey) (password : Text) (r : Record) :
    Bool :=
  match loadEcKey readKey r.addr r.key password >>= verifiesTest with
  | .ok valid => valid
  | .error _ => false

theorem loads_iff {readKey : Text → Text → Text → Result o.EcKey} {password : Text} {r : Record} :
    r.loads readKey password = true ↔ ∃ key, r.Loads readKey password key := by
  rw [Record.loads]
  cases hkey : loadEcKey readKey r.addr r.key password with
  | error e => simp [Record.Loads, hkey]
  | ok key =>
    simp only [Result.bind_ok, Record.Loads, hkey, Except.ok.injEq, exists_eq_left']
    cases verifiesTest key <;> simp

theorem hex2Bin_wide {hex : Text} {k : Nat} (hlen : hex.length = k * 2) (hk : k < 2 ^ 30) :
    hex2Bin hex = .ok (hexBytes hex) ∧ (hexBytes hex).length = k :=
  ⟨hex2Bin_even (k := k) (by omega) (by omega), Hex.length_hexBytes (by omega)⟩

theorem isNode_address {r : Record} (hlen : r.addr.length = kNodeAddrSize * 2) :
    r.address.IsNode := by
  obtain ⟨-, hbytes⟩ := hex2Bin_wide hlen (by decide)
  rw [Record.address, Address.ofBytes, if_neg (by rw [hbytes]; decide),
    if_neg (fun h => absurd h.1 (by rw [hbytes]; decide)), if_pos hbytes]
  exact ⟨by rw [List.length_cons, hbytes]; rfl, rfl⟩

theorem isWallet_address {r : Record} (hlen : r.addr.length = kWalletAddrSize * 2) :
    r.address.IsWallet := by
  obtain ⟨-, hbytes⟩ := hex2Bin_wide hlen (by decide)
  rw [Record.address, Address.ofBytes, if_pos hbytes]
  exact ⟨by rw [List.length_cons, hbytes]; rfl, rfl⟩

section
variable {readKey : Text → Text → Text → Result o.EcKey}
  (hread : ∀ addr key password, (readKey addr key password).Throws Caught)
  (hsign : ∀ key hash, (o.signBinary key hash).Throws Caught)
include hread hsign

theorem loadEcKey_cases (password : Text) (r : Record) :
    (∃ key, r.Loads readKey password key) ∨ (∀ key, ¬ r.Loads readKey password key) ∧
      ((∃ e, Caught e ∧ loadEcKey readKey r.addr r.key password = .error e) ∨
        ∃ key, loadEcKey readKey r.addr r.key password = .ok key ∧
          ((∃ e, Caught e ∧ verifiesTest key = .error e) ∨ verifiesTest key = .ok false)) := by
  have hload : (loadEcKey readKey r.addr r.key password).Throws Caught :=
    .ite (.error rfl) (.ite (hread _ _ _) (.error rfl))
  cases hkey : loadEcKey readKey r.addr r.key password with
  | error e =>
    refine .inr ⟨fun key h => ?_, .inl ⟨e, hload e hkey, rfl⟩⟩
    cases hkey.symm.trans h.1
  | ok key =>
    have htest : (verifiesTest key).Throws Caught := (hsign _ _).bind (fun _ _ => .ok _)
    have hother : verifiesTest key ≠ .ok true → ∀ key', ¬ r.Loads readKey password key' := by
      intro hne key' h
      cases hkey.symm.trans h.1
      exact hne h.2
    cases hvalid : verifiesTest key with
    | error e =>
      exact .inr ⟨hother (by rw [hvalid]; simp), .inr ⟨key, rfl, .inl ⟨e, htest e hvalid, hvalid⟩⟩⟩
    | ok valid =>
      cases valid with
      | false => exact .inr ⟨hother (by rw [hvalid]; simp), .inr ⟨key, rfl, .inr hvalid⟩⟩
      | true => exact .inl ⟨key, hkey, hvalid⟩

theorem attempt_addKeyPair (what : String) (store : Address → KeyDirectory o → KeyDirectory o)
    (password : Text) (keys : KeyDirectory o) {r : Record} {k : Nat} (hlen : r.addr.length = k * 2)
    (hk : k < 2 ^ 30) :
    (∃ key, r.Loads readKey password key ∧
        attempt (addKeyPair readKey what store password) keys r =
          .ok (store r.address { keys with keyMap := keys.keyMap.insert r.address key })) ∨
      (∀ key, ¬ r.Loads readKey password key) ∧
        attempt (addKeyPair readKey what store password) keys r = .ok keys := by
  obtain ⟨key, hloads⟩ | ⟨hnone, hfails⟩ := loadEcKey_cases hread hsign password r
  · refine .inl ⟨key, hloads, ?_⟩
    rw [attempt, addKeyPair, hloads.1, Result.bind_ok, hloads.2, Result.bind_ok, if_pos rfl,
      insertAddress, (hex2Bin_wide hlen hk).1]
    rfl
  · refine .inr ⟨hnone, ?_⟩
    obtain ⟨e, he, hload⟩ | ⟨key, hload, ⟨e, he, htest⟩ | htest⟩ := hfails
    · rw [attempt, addKeyPair, hload]
      exact if_pos he
    · rw [attempt, addKeyPair, hload, Result.bind_ok, htest]
      exact if_pos he
    · rw [attempt, addKeyPair, hload, Result.bind_ok, htest]
      rfl

theorem attempt_setInnKeyPair (password : Text) (keys : KeyDirectory o) {r : Record}
    (hlen : r.addr.length = kNodeAddrSize * 2) :
    (∃ key, r.Loads readKey password key ∧ attempt (setInnKeyPair readKey password) keys r =
        .ok { keys with keyMap := keys.keyMap.insert r.address key, innAddr := r.address }) ∨
      attempt (setInnKeyPair readKey password) keys r = .ok keys := by
  obtain ⟨key, hloads⟩ | ⟨hnone, hfails⟩ := loadEcKey_cases hread hsign password r
  · refine .inl ⟨key, hloads, ?_⟩
    rw [attempt, setInnKeyPair, hloads.1, Result.bind_ok, hloads.2, Result.bind_ok, if_pos rfl,
      insertAddress, (hex2Bin_wide hlen (by decide)).1]
    rfl
  · refine .inr ?_
    obtain ⟨e, he, hload⟩ | ⟨key, hload, ⟨e, he, htest⟩ | htest⟩ := hfails
    · rw [attempt, setInnKeyPair, hload]
      exact if_pos he
    · rw [attempt, setInnKeyPair, hload, Result.bind_ok, htest]
      exact if_pos he
    · rw [attempt, setInnKeyPair, hload, Result.bind_ok, htest]
      rfl

end

/-- Every key in the directory has passed its test, and every listed address has one. -/
structure Keyed (keys : KeyDirectory o) : Prop where
  stored : ∀ a key, keys.keyMap.find? a = some key →
    (a.IsWallet ∨ a.IsNode) ∧ verifiesTest key = .ok true
  nodes : ∀ a ∈ keys.nodeList, a ∈ keys.keyMap.keys
  wallets : ∀ a ∈ keys.walletList, a ∈ keys.keyMap.keys
  inn : keys.isINN keys.innAddr = true → keys.innAddr ∈ keys.keyMap.keys

theorem keyed_empty : Keyed (empty : KeyDirectory o) where
  stored := fun _ _ h => nomatch h
  nodes := fun _ h => nomatch h
  wallets := fun _ h => nomatch h
  inn := fun h => nomatch h

namespace Keyed
variable {keys : KeyDirectory o} (h : keys.Keyed) {a : Address} {key : o.EcKey}
include h

theorem insert (ha : a.IsWallet ∨ a.IsNode) (hkey : verifiesTest key = .ok true) :
    Keyed { keys with keyMap := keys.keyMap.insert a key } where
  stored := by
    intro b key' hfind
    rw [OrdMap.find?_insert] at hfind
    split_ifs at hfind with hb
    · subst hb
      refine ⟨ha, ?_⟩
      cases hold : keys.keyMap.find? b with
      | none =>
        rw [hold] at hfind
        cases hfind
        exact hkey
      | some old =>
        rw [hold] at hfind
        cases hfind
        exact (h.stored b _ hold).2
    · exact h.stored b key' hfind
  nodes := fun b hb => OrdMap.mem_keys_insert.mpr (.inr (h.nodes b hb))
  wallets := fun b hb => OrdMap.mem_keys_insert.mpr (.inr (h.wallets b hb))
  inn := fun hinn => OrdMap.mem_keys_insert.mpr (.inr (h.inn hinn))

theorem proper : keys.Proper := by
  intro a ha
  obtain ⟨key, hkey⟩ := Option.isSome_iff_exists.mp (OrdMap.mem_keys.mp ha)
  exact (h.stored a key hkey).1

theorem exists_key (ha : a ∈ keys.keyMap.keys) :
    ∃ key, keys.keyMap.find? a = some key ∧ verifiesTest key = .ok true := by
  obtain ⟨key, hkey⟩ := Option.isSome_iff_exists.mp (OrdMap.mem_keys.mp ha)
  exact ⟨key, hkey, (h.stored a key hkey).2⟩

theorem getNodeKey {i : Nat} (hi : i < keys.nodeList.length) :
    ∃ key, keys.getNodeKey i = .ok key ∧ verifiesTest key = .ok true := by
  obtain ⟨key, hkey, htest⟩ := h.exists_key (h.nodes _ (List.getElem_mem hi))
  refine ⟨key, ?_, htest⟩
  simp only [KeyRing.getNodeKey, KeyRing.getNodeAddr, List.getElem?_eq_getElem hi, Result.bind_ok,
    hkey]

theorem getWalletKey {i : Nat} (hi : i < keys.walletList.length) :
    ∃ key, keys.getWalletKey i = .ok key ∧ verifiesTest key = .ok true := by
  obtain ⟨key, hkey, htest⟩ := h.exists_key (h.wallets _ (List.getElem_mem hi))
  refine ⟨key, ?_, htest⟩
  simp only [KeyDirectory.getWalletKey, List.getElem?_eq_getElem hi, hkey]

theorem getInnAddr (hinn : keys.getInnAddr = .ok a) :
    ∃ key, keys.getKey a = .ok key ∧ verifiesTest key = .ok true := by
  rw [KeyDirectory.getInnAddr] at hinn
  split_ifs at hinn with hnode
  cases hinn
  obtain ⟨key, hkey, htest⟩ := h.exists_key (h.inn hnode)
  exact ⟨key, KeyRing.getKey_of_find? hkey, htest⟩

end Keyed

section
variable {readKey : Text → Text → Text → Result o.EcKey}
  (hread : ∀ addr key password, (readKey addr key password).Throws Caught)
  (hsign : ∀ key hash, (o.signBinary key hash).Throws Caught) (password : Text)
include hread hsign

theorem keyed_addNode {keys : KeyDirectory o} (h : keys.Keyed) {r : Record}
    (hlen : r.addr.length = kNodeAddrSize * 2) :
    ∃ keys', attempt (addNodeKeyPair readKey password) keys r = .ok keys' ∧ keys'.Keyed ∧
      keys'.nodeList = keys.nodeList ++ ([r].filter (Record.loads readKey password)).map Record.address := by
  obtain ⟨key, hloads, hadd⟩ | ⟨hnone, hadd⟩ := attempt_addKeyPair hread hsign "node" (fun addr keys =>
    { keys with nodeList := keys.nodeList ++ [addr] }) password keys hlen (by decide)
  · have hins := h.insert (.inr (isNode_address hlen)) hloads.2
    refine ⟨_, hadd, ⟨hins.stored, ?_, hins.wallets, hins.inn⟩, ?_⟩
    · intro a ha
      obtain ha | ha := List.mem_append.mp ha
      · exact hins.nodes a ha
      · rw [List.mem_singleton.mp ha]
        exact OrdMap.mem_keys_insert.mpr (.inl rfl)
    · rw [List.filter_cons_of_pos (loads_iff.mpr ⟨key, hloads⟩)]
      rfl
  · refine ⟨keys, hadd, h, ?_⟩
    rw [List.filter_cons_of_neg (fun hl => ?_)]
    · simp
    · obtain ⟨key, hloads⟩ := loads_iff.mp hl
      exact hnone key hloads

theorem keyed_addWallet {keys : KeyDirectory o} (h : keys.Keyed) {r : Record}
    (hlen : r.addr.length = kWalletAddrSize * 2) :
    ∃ keys', attempt (addWalletKeyPair readKey password) keys r = .ok keys' ∧ keys'.Keyed := by
  obtain ⟨key, hloads, hadd⟩ | ⟨-, hadd⟩ := attempt_addKeyPair hread hsign "address"
    (fun addr keys => { keys with walletList := keys.walletList ++ [addr] }) password keys hlen
    (by decide)
  · have hins := h.insert (.inl (isWallet_address hlen)) hloads.2
    refine ⟨_, hadd, hins.stored, hins.nodes, ?_, hins.inn⟩
    intro a ha
    obtain ha | ha := List.mem_append.mp ha
    · exact hins.wallets a ha
    · rw [List.mem_singleton.mp ha]
      exact OrdMap.mem_keys_insert.mpr (.inl rfl)
  · exact ⟨keys, hadd, h⟩

theorem keyed_setInn {keys : KeyDirectory o} (h : keys.Keyed) {r : Record}
    (hlen : r.addr.length = kNodeAddrSize * 2) :
    ∃ keys', attempt (setInnKeyPair readKey password) keys r = .ok keys' ∧ keys'.Keyed ∧
      keys'.nodeList = keys.nodeList := by
  obtain ⟨key, hloads, hset⟩ | hset := attempt_setInnKeyPair hread hsign password keys hlen
  · have hins := h.insert (.inr (isNode_address hlen)) hloads.2
    exact ⟨_, hset, ⟨hins.stored, hins.nodes, hins.wallets,
      fun _ => OrdMap.mem_keys_insert.mpr (.inl rfl)⟩, rfl⟩
  · exact ⟨keys, hset, h, rfl⟩

theorem keyed_addNodes {l : List Record} (hl : ∀ r ∈ l, r.addr.length = kNodeAddrSize * 2)
    {keys : KeyDirectory o} (h : keys.Keyed) :
    ∃ keys', l.foldlM (attempt (addNodeKeyPair readKey password)) keys = .ok keys' ∧ keys'.Keyed ∧
      keys'.nodeList = keys.nodeList ++ (l.filter (Record.loads readKey password)).map Record.address := by
  induction l generalizing keys with
  | nil => exact ⟨keys, rfl, h, by simp⟩
  | cons r l ih =>
    obtain ⟨hr, hl⟩ := List.forall_mem_cons.mp hl
    obtain ⟨keys1, hfirst, h1, hlist1⟩ := keyed_addNode hread hsign password h hr
    obtain ⟨keys2, hrest, h2, hlist2⟩ := ih hl h1
    refine ⟨keys2, ?_, h2, ?_⟩
    · rw [List.foldlM_cons, hfirst]
      exact hrest
    · rw [hlist2, hlist1, List.append_assoc, ← List.map_append, ← List.filter_append]
      rfl

theorem keyed_ofFiles (innKeys nodeKeys : Text) :
    ∃ keys, ofFiles readKey innKeys nodeKeys password = .ok keys ∧ keys.Keyed ∧
      (innKeys.length % (kFileNodekeySize + kNodeAddrSize * 2) = 0 →
        nodeKeys.length % (kFileNodekeySize + kNodeAddrSize * 2) = 0 → keys.nodeList =
          ((records (kNodeAddrSize * 2) kFileNodekeySize nodeKeys).filter
            (Record.loads readKey password)).map Record.address) := by
  have hrecord : 1 < kFileNodekeySize + kNodeAddrSize * 2 := by decide
  rw [ofFiles, loadNodeFile, loadFile_eq hrecord]
  split_ifs with hinn
  · obtain ⟨keys1, hload, h1, hlist⟩ := Loop.foldlM_keeps
      (fun keys : KeyDirectory o => keys.Keyed ∧ keys.nodeList = [])
      (fun keys r hr hinv => by
        obtain ⟨keys', hset, hkeyed, hlist⟩ :=
          keyed_setInn hread hsign password hinv.1 (length_addr hinn hr)
        exact ⟨keys', hset, hkeyed, hlist.trans hinv.2⟩)
      (s := KeyDirectory.empty) ⟨keyed_empty, rfl⟩
    simp only [hload, Result.bind_ok, loadNodeFile, loadFile_eq hrecord]
    split_ifs with hnode
    · obtain ⟨keys2, hnodes, h2, hlist2⟩ :=
        keyed_addNodes hread hsign password (fun r hr => length_addr hnode hr) h1
      refine ⟨keys2, hnodes, h2, fun _ _ => ?_⟩
      rw [hlist2, hlist, List.nil_append]
    · exact ⟨keys1, rfl, h1, fun _ hsize => absurd hsize hnode⟩
  · exact ⟨empty, rfl, keyed_empty, fun hsize => absurd hsize hinn⟩

theorem keyed_loadWallets (walletKeys : Text) {keys : KeyDirectory o} (h : keys.Keyed) :
    ∃ r, keys.loadWallets readKey walletKeys password = .ok r ∧ r.2.Keyed := by
  have hrecord : 1 < kFileKeySize + kWalletAddrSize * 2 := by decide
  rw [loadWallets]
  split_ifs with hempty
  · exact ⟨(false, keys), rfl, h⟩
  · rw [loadFile_eq hrecord]
    split_ifs with hsize
    · obtain ⟨keys', hload, h'⟩ := Loop.foldlM_keeps KeyDirectory.Keyed
        (fun keys r hr hinv =>
          keyed_addWallet hread hsign password hinv (length_addr hsize hr)) h
      simp only [hload, Result.bind_ok]
      exact ⟨(true, keys'), rfl, h'⟩
    · exact ⟨(false, keys), rfl, h⟩

end

/-- The start of a process: the constructor and the files of wallets. -/
def load (readKey : Text → Text → Text → Result o.EcKey) (innKeys nodeKeys password : Text)
    (wallets : List (Text × Text)) : Result (KeyDirectory o) := do
  let keys ← ofFiles readKey innKeys nodeKeys password
  wallets.foldlM (fun keys file => do
    let r ← keys.loadWallets readKey file.1 file.2
    .ok r.2) keys

/-- Whatever the files hold, a process starts with a directory of wallet and node addresses in
which every number of a node and of a wallet has a key that signs. -/
theorem loaded_keys_sign {readKey : Text → Text → Text → Result o.EcKey}
    (hread : ∀ addr key password, (readKey addr key password).Throws Caught)
    (hsign : ∀ key hash, (o.signBinary key hash).Throws Caught) (innKeys nodeKeys password : Text)
    (wallets : List (Text × Text)) :
    ∃ keys, load readKey innKeys nodeKeys password wallets = .ok keys ∧ keys.Proper ∧
      (∀ i < keys.nodeList.length,
        ∃ key, keys.getNodeKey i = .ok key ∧ verifiesTest key = .ok true) ∧
      (∀ i < keys.walletList.length,
        ∃ key, keys.getWalletKey i = .ok key ∧ verifiesTest key = .ok true) ∧
      ∀ a, keys.getInnAddr = .ok a →
        ∃ key, keys.getKey a = .ok key ∧ verifiesTest key = .ok true := by
  obtain ⟨keys1, hfiles, h1, -⟩ := keyed_ofFiles hread hsign password innKeys nodeKeys
  obtain ⟨keys2, hwallets, h2⟩ := Loop.foldlM_keeps KeyDirectory.Keyed (l := wallets)
    (f := fun keys file => do
      let r ← keys.loadWallets readKey file.1 file.2
      .ok r.2)
    (fun keys file _ hinv => by
      obtain ⟨r, hload, hr⟩ := keyed_loadWallets hread hsign file.2 file.1 hinv
      exact ⟨r.2, by rw [hload]; rfl, hr⟩) h1
  refine ⟨keys2, ?_, h2.proper, fun i hi => h2.getNodeKey hi, fun i hi => h2.getWalletKey hi,
    fun a ha => h2.getInnAddr ha⟩
  rw [load, hfiles]
  exact hwallets

/-- A library without secrets that refuses the keys that begin with `!`. -/
def sampleRead (addr key _ : Text) : Result Ossl.toy.EcKey :=
  if key.head? = some '!' then .error (.runtime "PEM_read_bio_PrivateKey returned nullptr: ")
  else .ok (Address.ofBytes (hexBytes addr))

theorem caught_sampleRead (addr key password : Text) : (sampleRead addr key password).Throws Caught :=
  .ite (.error rfl) (.ok _)

theorem caught_toySign (key : Ossl.toy.EcKey) (hash : Hash) :
    (Ossl.toy.signBinary key hash).Throws Caught :=
  .ok _

def sampleRecord (digit key : Char) : Text :=
  List.replicate (kNodeAddrSize * 2) digit ++ List.replicate kFileNodekeySize key

/-- Two records, the first one with a key that cannot be read. -/
def sampleFile : Text := sampleRecord '1' '!' ++ sampleRecord '2' 'k'

theorem loaded_keys_sign_sampleFile : ∃ keys : KeyDirectory Ossl.toy,
    load sampleRead [] sampleFile ['p'] [] = .ok keys ∧ keys.Proper := by
  obtain ⟨keys, hload, hproper, -⟩ := loaded_keys_sign caught_sampleRead
    caught_toySign [] sampleFile ['p'] []
  exact ⟨keys, hload, hproper⟩

/-- A node has the number of its record exactly if the records up to its own all load. -/
theorem node_number_iff {readKey : Text → Text → Text → Result o.EcKey}
    (hread : ∀ addr key password, (readKey addr key password).Throws Caught)
    (hsign : ∀ key hash, (o.signBinary key hash).Throws Caught) {innKeys nodeKeys : Text}
    (password : Text) (hinn : innKeys.length % (kFileNodekeySize + kNodeAddrSize * 2) = 0)
    (hnode : nodeKeys.length % (kFileNodekeySize + kNodeAddrSize * 2) = 0)
    (hdistinct : ((records (kNodeAddrSize * 2) kFileNodekeySize nodeKeys).map
      Record.address).Nodup) :
    ∃ keys, ofFiles readKey innKeys nodeKeys password = .ok keys ∧
      ∀ i r, (records (kNodeAddrSize * 2) kFileNodekeySize nodeKeys)[i]? = some r →
        (keys.getNodeAddr i = .ok r.address ↔
          ∀ j ≤ i, ∀ r', (records (kNodeAddrSize * 2) kFileNodekeySize nodeKeys)[j]? = some r' →
            ∃ key, r'.Loads readKey password key) := by
  obtain ⟨keys, hfiles, -, hlist⟩ := keyed_ofFiles hread hsign password innKeys nodeKeys
  refine ⟨keys, hfiles, fun i r hr => ?_⟩
  have haddr : keys.getNodeAddr i = .ok r.address ↔ keys.nodeList[i]? = some r.address := by
    rw [KeyRing.getNodeAddr]
    cases keys.nodeList[i]? <;> simp
  -- No two records have one address, so that the lists can be compared record by record.
  have hrecord : keys.nodeList[i]? = some r.address ↔
      ((records (kNodeAddrSize * 2) kFileNodekeySize nodeKeys).filter
        (Record.loads readKey password))[i]? = some r := by
    rw [hlist hinn hnode, List.getElem?_map, Option.map_eq_some_iff]
    constructor
    · rintro ⟨r', hr', hsame⟩
      have hmem := (List.mem_filter.mp (List.mem_of_getElem? hr')).1
      rwa [List.inj_on_of_nodup_map hdistinct (List.mem_of_getElem? hr) hmem hsame.symm]
    · intro hr'
      exact ⟨r, hr', rfl⟩
  rw [haddr, hrecord, List.getElem?_filter_eq_iff hdistinct.of_map hr]
  simp only [loads_iff]

/-- The second node of the file is the first one of the directory. -/
theorem node_number_iff_sampleFile : ∃ keys : KeyDirectory Ossl.toy,
    ofFiles sampleRead [] sampleFile ['p'] = .ok keys ∧
      keys.getNodeAddr 1 ≠ .ok (recordAt (kNodeAddrSize * 2) kFileNodekeySize sampleFile 1).address := by
  have hfile : sampleFile.length % (kFileNodekeySize + kNodeAddrSize * 2) = 0 ∧
      1 < sampleFile.length / (kFileNodekeySize + kNodeAddrSize * 2) ∧
      ((records (kNodeAddrSize * 2) kFileNodekeySize sampleFile).map Record.address).Nodup ∧
      (recordAt (kNodeAddrSize * 2) kFileNodekeySize sampleFile 0).loads sampleRead ['p'] = false := by
    decide +kernel
  obtain ⟨keys, hload, hiff⟩ := node_number_iff caught_sampleRead caught_toySign ['p']
    (show ([] : Text).length % _ = 0 from rfl) hfile.1 hfile.2.2.1
  refine ⟨keys, hload, fun haddr => ?_⟩
  have hloads := (hiff 1 _ (getElem?_records hfile.2.1)).mp haddr 0 (Nat.zero_le 1) _
    (getElem?_records (Nat.lt_of_succ_lt hfile.2.1))
  have hfirst := loads_iff.mpr hloads
  rw [hfile.2.2.2] at hfirst
  cases hfirst

end KeyDirectory
end Devcash
