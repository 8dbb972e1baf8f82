import Devcash.Tier2Codec

/-! Whom a sound Tier-2 transaction debits: one address, and that address has signed. -/
namespace Devcash
open Endian Reader InputBuffer

namespace Transfer

/-- A transfer takes coins from its address. -/
def Debits (t : Transfer) : Prop := ∃ x, t.getAmount = .ok x ∧ x < 0

end Transfer

theorem Address.IsWallet.not_isNodeAddress {a : Address} (h : a.IsWallet) :
    a.isNodeAddress = false := by
  rw [Address.isNodeAddress, h.2]
  cases a.isNull <;> decide

/-- A key directory holds only wallet and node addresses. -/
def KeyRing.Proper {o : Ossl} (keys : KeyRing o) : Prop :=
  ∀ a ∈ keys.keyMap.keys, a.IsWallet ∨ a.IsNode

instance {o : Ossl} (keys : KeyRing o) : Decidable keys.Proper :=
  inferInstanceAs (Decidable (∀ a ∈ keys.keyMap.keys, a.IsWallet ∨ a.IsNode))

theorem KeyRing.Proper.getKey_null {o : Ossl} {keys : KeyRing o} (h : keys.Proper) :
    keys.getKey Address.null = .error (.runtime "Invalid public key!") := by
  have hnone : keys.keyMap.find? Address.null = none := by
    rw [OrdMap.find?_eq_none]
    intro hmem
    exact absurd (h _ hmem) (by decide)
  rw [KeyRing.getKey, hnone]
  rfl

namespace Tier2Transaction
variable {o : Ossl} {keys : KeyRing o}

/-- `clone` calls the copy constructor. -/
def clone (tx : Tier2Transaction) : Tier2Transaction := tx

/-- What the constructors, the decoders, `setIsSound` and `clone` make with one key
directory. -/
inductive Reachable (keys : KeyRing o) : Tier2Transaction → Prop
  | ofSignature (oper : Byte) (xfers : List Transfer) (nonce : Bytes) (sig : Signature) :
      Reachable keys (ofSignature oper xfers nonce sig)
  | ofSignatureSound {oper : Byte} {xfers : List Transfer} {nonce : Bytes} {sig : Signature}
      {tx : Tier2Transaction} (h : ofSignatureSound keys oper xfers nonce sig = .ok tx) :
      Reachable keys tx
  | sign {oper : Byte} {xfers : List Transfer} {nonce : Bytes} {eckey : o.EcKey}
      {tx : Tier2Transaction} (h : sign oper xfers nonce eckey = .ok tx) : Reachable keys tx
  | signSound {oper : Byte} {xfers : List Transfer} {nonce : Bytes} {eckey : o.EcKey}
      {tx : Tier2Transaction} (h : signSound keys oper xfers nonce eckey = .ok tx) :
      Reachable keys tx
  | quickCreate {b b' : InputBuffer} {tx : Tier2Transaction} (h : quickCreate b = .ok (tx, b')) :
      Reachable keys tx
  | create {calculateSoundness : Bool} {b b' : InputBuffer} {tx : Tier2Transaction}
      (h : create keys calculateSoundness b = .ok (tx, b')) : Reachable keys tx
  | createUniquePtr {calculateSoundness : Bool} {b b' : InputBuffer} {tx : Tier2Transaction}
      (h : createUniquePtr keys calculateSoundness b = .ok (tx, b')) : Reachable keys tx
  | setIsSound {tx tx' : Tier2Transaction} (h : Reachable keys tx)
      (hs : tx.setIsSound keys = .ok tx') : Reachable keys tx'
  | clone {tx : Tier2Transaction} (h : Reachable keys tx) : Reachable keys tx.clone

/-- The address `a` alone is debited, it has signed, and it is a node's unless the
transaction is an exchange. -/
structure AuthorizedBy (keys : KeyRing o) (tx : Tier2Transaction) (a : Address) : Prop where
  debits : ∃ xfers, tx.getTransfers = .ok xfers ∧ (∃ t ∈ xfers, t.Debits) ∧
    ∀ t ∈ xfers, ∃ x, t.getAmount = .ok x ∧ (x < 0 → t.getAddress = .ok a)
  signed : ∃ eckey msg sig, keys.getKey a = .ok eckey ∧ tx.getMessageDigest = .ok msg ∧
    tx.getSignature = .ok sig ∧ o.verifyByteSig eckey (o.devcashHash msg) sig = true
  privileged : ∃ oper, tx.getOperation = .ok oper ∧ (oper ≠ OpType.exchange.toByte → a.IsNode)

/-- What the loop over the transfers has found: a sender that was set stays, every debit
is the sender's, and a sender is set by a debit only. -/
theorem scanTransfers_ok {ts : List Transfer} {total total' : Int} {sender sender' : Option Address}
    (h : scanTransfers ts total sender = .ok (total', sender')) :
    (∀ s, sender = some s → sender' = some s) ∧
    (∀ t ∈ ts, ∃ x, t.getAmount = .ok x ∧
      (x < 0 → ∃ a, t.getAddress = .ok a ∧ sender' = some a)) ∧
    (sender' = sender ∨ ∃ t ∈ ts, t.Debits) := by
  induction ts generalizing total sender with
  | nil =>
    cases h
    exact ⟨fun _ hs => hs, by simp, Or.inl rfl⟩
  | cons t ts ih =>
    obtain ⟨x, hx, h⟩ := Result.bind_eq_ok h
    by_cases hneg : x < 0
    · simp only [if_pos hneg] at h
      obtain ⟨a, ha, hloop⟩ := Result.bind_eq_ok h
      have hdebit : ∃ t' ∈ t :: ts, t'.Debits := ⟨t, List.mem_cons_self, x, hx, hneg⟩
      -- whether or not a sender was set, the loop goes on with `a`
      have hrest : scanTransfers ts (i64 (total + x)) (some a) = .ok (total', sender') ∧
          ∀ s, sender = some s → s = a := by
        cases sender with
        | none => exact ⟨hloop, fun s hs => nomatch hs⟩
        | some s =>
          simp only at hloop
          split_ifs at hloop with hsa
          exact ⟨hloop, fun s' hs => (Option.some.inj hs).symm.trans (not_not.mp hsa)⟩
      obtain ⟨h1, h2, -⟩ := ih hrest.1
      have hfound : sender' = some a := h1 a rfl
      refine ⟨fun s hs => by rw [hfound, hrest.2 s hs], fun t' ht' => ?_, Or.inr hdebit⟩
      cases List.mem_cons.mp ht' with
      | inl he => exact he ▸ ⟨x, hx, fun _ => ⟨a, ha, hfound⟩⟩
      | inr hm => exact h2 t' hm
    · simp only [if_neg hneg] at h
      obtain ⟨h1, h2, h3⟩ := ih h
      refine ⟨h1, fun t' ht' => ?_, h3.imp id ?_⟩
      · cases List.mem_cons.mp ht' with
        | inl he => exact he ▸ ⟨x, hx, fun hx' => absurd hx' hneg⟩
        | inr hm => exact h2 t' hm
      · rintro ⟨t', ht', hd⟩
        exact ⟨t', List.mem_cons_of_mem t ht', hd⟩

/-- The transaction before its soundness was stored. -/
def unflagged (tx : Tier2Transaction) : Tier2Transaction := { tx with isSoundFlag := false }

theorem getTransfers_unflagged (tx : Tier2Transaction) :
    tx.unflagged.getTransfers = tx.getTransfers := by
  have key : ∀ fuel offset, transfersFrom tx.unflagged fuel offset = transfersFrom tx fuel offset := by
    intro fuel
    induction fuel with
    | zero => exact fun _ => rfl
    | succ fuel ih =>
      intro offset
      simp only [transfersFrom, ih]
      rfl
  exact key _ 0

theorem isSound_unflagged {tx : Tier2Transaction} (hkeys : keys.Proper)
    (h : tx.unflagged.isSound keys = .ok true) : ∃ a, tx.AuthorizedBy keys a := by
  rw [isSound, if_neg (show ¬ tx.unflagged.isSoundFlag = true from Bool.false_ne_true)] at h
  obtain ⟨oper, hoper, h⟩ := Result.bind_eq_ok h
  rw [getTransfers_unflagged] at h
  obtain ⟨xfers, hxfers, h⟩ := Result.bind_eq_ok h
  obtain ⟨⟨total, scanned⟩, hscan, h⟩ := Result.bind_eq_ok h
  obtain ⟨-, hall, hsome⟩ := scanTransfers_ok hscan
  simp only at h
  split_ifs at h with hpriv htotal hinn
  obtain ⟨eckey, hkey, h⟩ := Result.bind_eq_ok h
  obtain ⟨msg, hmsg, h⟩ := Result.bind_eq_ok h
  obtain ⟨sig, hsig, h⟩ := Result.bind_eq_ok h
  split_ifs at h with hverify
  cases scanned with
  | none =>
    -- without a sender the key of the null address would be asked for
    rw [Option.getD_none, hkeys.getKey_null] at hkey
    cases hkey
  | some a =>
    have hdebit : ∃ t ∈ xfers, t.Debits := by
      cases hsome with
      | inl h => cases h
      | inr h => exact h
    have hsender : ∀ t ∈ xfers, ∃ x, t.getAmount = .ok x ∧ (x < 0 → t.getAddress = .ok a) := by
      intro t ht
      obtain ⟨x, hx, hneg⟩ := hall t ht
      refine ⟨x, hx, fun hlt => ?_⟩
      obtain ⟨a', ha', hs⟩ := hneg hlt
      cases hs
      exact ha'
    refine ⟨a, ⟨xfers, hxfers, hdebit, hsender⟩, ⟨eckey, msg, sig, hkey, hmsg, hsig, hverify⟩,
      ⟨oper, hoper, fun hne => ?_⟩⟩
    have hnode : a.isNodeAddress = true := by
      by_contra hn
      exact hinn ⟨hne, Bool.eq_false_iff.mpr hn⟩
    obtain ⟨t, ht, x, hx, hneg⟩ := hdebit
    obtain ⟨y, hy, haddr⟩ := hsender t ht
    obtain rfl : x = y := Except.ok.inj (hx.symm.trans hy)
    cases Transfer.getAddress_kind (haddr hneg) with
    | inl hw => rw [hw.not_isNodeAddress] at hnode; cases hnode
    | inr hn => exact hn

/-- A stored flag repeats the answer of the checks. -/
def FlagChecked (keys : KeyRing o) (tx : Tier2Transaction) : Prop :=
  tx.isSoundFlag = true → tx.unflagged.isSound keys = .ok true

theorem FlagChecked.isSound {tx : Tier2Transaction} (hf : tx.FlagChecked keys)
    (h : tx.isSound keys = .ok true) : tx.unflagged.isSound keys = .ok true := by
  by_cases hflag : tx.isSoundFlag = true
  · exact hf hflag
  · have hsame : tx.unflagged = tx := by
      cases tx
      simpa [unflagged] using Eq.symm (Bool.eq_false_iff.mpr hflag)
    rw [hsame]
    exact h

theorem FlagChecked.store {tx : Tier2Transaction} {sound : Bool} (hf : tx.FlagChecked keys)
    (h : tx.isSound keys = .ok sound) : FlagChecked keys { tx with isSoundFlag := sound } := by
  intro hflag
  cases (show sound = true from hflag)
  exact hf.isSound h

theorem flagChecked_of_false {tx : Tier2Transaction} (h : tx.isSoundFlag = false) :
    tx.FlagChecked keys := by
  intro hflag
  rw [h] at hflag
  cases hflag

theorem flagChecked_demandSound {tx tx' : Tier2Transaction} (hf : tx.FlagChecked keys)
    (h : tx.demandSound keys = .ok tx') : tx'.FlagChecked keys := by
  obtain ⟨sound, hs, h⟩ := Result.bind_eq_ok h
  split_ifs at h with ht
  cases h
  cases (show sound = true from ht)
  exact hf.store hs

theorem flagChecked_fill {calculateSoundness : Bool} {b b' : InputBuffer} {tx : Tier2Transaction}
    (h : fill keys calculateSoundness b = .ok (tx, b')) : tx.FlagChecked keys := by
  obtain ⟨tx1, b1, h1, h⟩ := bind_eq_ok h
  obtain ⟨-, -, t, -, -, hflag, -⟩ := quickFill_ok h1
  have hf : tx1.FlagChecked keys := flagChecked_of_false hflag
  split_ifs at h
  · obtain ⟨sound, b2, hs, h⟩ := bind_eq_ok h
    cases pure_eq_ok h
    exact hf.store (lift_eq_ok hs).1
  · cases pure_eq_ok h
    exact hf

theorem Reachable.flagChecked {tx : Tier2Transaction} (h : Reachable keys tx) :
    tx.FlagChecked keys := by
  induction h with
  | ofSignature oper xfers nonce sig => exact flagChecked_of_false rfl
  | ofSignatureSound h => exact flagChecked_demandSound (flagChecked_of_false rfl) h
  | sign h =>
    obtain ⟨sig, -, rfl⟩ := sign_ok h
    exact flagChecked_of_false rfl
  | signSound h =>
    rw [Tier2Transaction.signSound] at h
    split_ifs at h
    obtain ⟨tx', hs, h⟩ := Result.bind_eq_ok h
    obtain ⟨sig, -, rfl⟩ := sign_ok hs
    exact flagChecked_demandSound (flagChecked_of_false rfl) h
  | quickCreate h =>
    obtain ⟨-, -, t, -, -, hflag, -⟩ := quickFill_ok h
    exact flagChecked_of_false hflag
  | create h => exact flagChecked_fill h
  | createUniquePtr h => exact flagChecked_fill h
  | setIsSound h hs ih =>
    obtain ⟨sound, hsound, hs⟩ := Result.bind_eq_ok hs
    cases hs
    exact ih.store hsound
  | clone h ih => exact ih

/-- A transaction that `isSound` accepts debits one address, and that address has signed
it. -/
theorem isSound_authorized (hkeys : keys.Proper) {tx : Tier2Transaction} (h : Reachable keys tx)
    (hs : tx.isSound keys = .ok true) : ∃ a, tx.AuthorizedBy keys a :=
  isSound_unflagged hkeys (h.flagChecked.isSound hs)

theorem isSound_authorized_samplePayment :
    samplePayment.isSound KeyRing.toy = .ok true ∧
      ∃ a, samplePayment.AuthorizedBy KeyRing.toy a := by
  have hs : KeyRing.toy.Proper ∧ samplePayment.isSound KeyRing.toy = .ok true := by
    decide +kernel
  exact ⟨hs.2, isSound_authorized hs.1 (.ofSignature _ _ _ _) hs.2⟩

end Tier2Transaction
end Devcash
