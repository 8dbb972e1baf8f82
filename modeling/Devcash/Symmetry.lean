import Devcash.Authorization

/-! The asymmetry check of `isSound`. The amounts are added up in 64 bits, so a total of
0 says that the sum is a multiple of 2^64. -/
namespace Devcash

/-- The sum of the amounts that can be read, as an unbounded integer. -/
def amountSum (xfers : List Transfer) : Int :=
  (xfers.filterMap (fun t => t.getAmount.toOption)).sum

theorem amountSum_cons {t : Transfer} {x : Int} (h : t.getAmount = .ok x) (xfers : List Transfer) :
    amountSum (t :: xfers) = x + amountSum xfers := by
  have hx : t.getAmount.toOption = some x := by
    rw [h]
    rfl
  simp only [amountSum, List.filterMap_cons, hx, List.sum_cons]

theorem i64_eq_zero_iff (x : Int) : i64 x = 0 ↔ (2 : Int) ^ 64 ∣ x := by
  simp only [i64, Int.bmod]
  omega

namespace Tier2Transaction
variable {o : Ossl} {keys : KeyRing o}

/-- The total that the loop returns is the wrapped sum. -/
theorem scanTransfers_total {xfers : List Transfer} {total total' : Int}
    {sender sender' : Option Address}
    (h : scanTransfers xfers total sender = .ok (total', sender')) (hrange : i64 total = total) :
    total' = i64 (total + amountSum xfers) := by
  induction xfers generalizing total sender with
  | nil =>
    cases h
    rw [amountSum, List.filterMap_nil, List.sum_nil, Int.add_zero, hrange]
  | cons t xfers ih =>
    obtain ⟨x, hx, h⟩ := Result.bind_eq_ok h
    have hrest : ∃ s, scanTransfers xfers (i64 (total + x)) s = .ok (total', sender') := by
      split_ifs at h
      · obtain ⟨addr, -, h⟩ := Result.bind_eq_ok h
        cases sender with
        | none => exact ⟨_, h⟩
        | some s =>
          simp only at h
          split_ifs at h
          exact ⟨_, h⟩
      · exact ⟨_, h⟩
    obtain ⟨s, hrest⟩ := hrest
    rw [ih hrest (i64_i64 _), amountSum_cons hx, i64_add_i64, Int.add_assoc]

/-- The loop over the transfers returns: their amounts can be read and one address sends. -/
def Scanned (xfers : List Transfer) : Prop := ∃ r, scanTransfers xfers 0 none = .ok r

/-- The transaction passes the asymmetry check. -/
def Symmetric (tx : Tier2Transaction) : Prop :=
  ∃ xfers sender, tx.getTransfers = .ok xfers ∧ scanTransfers xfers 0 none = .ok (0, sender)

theorem symmetric_iff {tx : Tier2Transaction} {xfers : List Transfer}
    (h : tx.getTransfers = .ok xfers) :
    tx.Symmetric ↔ Scanned xfers ∧ (2 : Int) ^ 64 ∣ amountSum xfers := by
  constructor
  · rintro ⟨xfers', sender, hx, hscan⟩
    rw [h] at hx
    cases hx
    have htotal := scanTransfers_total hscan rfl
    rw [Int.zero_add] at htotal
    exact ⟨⟨_, hscan⟩, (i64_eq_zero_iff _).mp htotal.symm⟩
  · rintro ⟨⟨⟨total, sender⟩, hscan⟩, hdvd⟩
    have htotal := scanTransfers_total hscan rfl
    rw [Int.zero_add, (i64_eq_zero_iff _).mpr hdvd] at htotal
    rw [htotal] at hscan
    exact ⟨xfers, sender, h, hscan⟩

theorem symmetric_of_isSound {tx : Tier2Transaction} (hf : tx.FlagChecked keys)
    (h : tx.isSound keys = .ok true) : tx.Symmetric := by
  have hs := hf.isSound h
  rw [isSound, if_neg (show ¬ tx.unflagged.isSoundFlag = true from Bool.false_ne_true)] at hs
  obtain ⟨oper, -, hs⟩ := Result.bind_eq_ok hs
  rw [getTransfers_unflagged] at hs
  obtain ⟨xfers, hx, hs⟩ := Result.bind_eq_ok hs
  obtain ⟨⟨total, sender⟩, hscan, hs⟩ := Result.bind_eq_ok hs
  simp only at hs
  split_ifs at hs with hpriv htotal
  cases not_not.mp htotal
  exact ⟨xfers, sender, hx, hscan⟩

/-- The check lets only balanced transfers through, unless their sum has wrapped around to
a multiple of 2^64 that is not 0. -/
theorem symmetric_balances_iff {tx : Tier2Transaction} {xfers : List Transfer}
    (h : tx.getTransfers = .ok xfers) :
    (tx.Symmetric → amountSum xfers = 0) ↔
      (Scanned xfers → (2 : Int) ^ 64 ∣ amountSum xfers → amountSum xfers = 0) := by
  rw [symmetric_iff h, and_imp]

theorem Symmetric.balances {tx : Tier2Transaction} {xfers : List Transfer}
    (hs : tx.Symmetric) (h : tx.getTransfers = .ok xfers)
    (hsmall : (amountSum xfers).natAbs < 2 ^ 64) : amountSum xfers = 0 :=
  Int.eq_zero_of_abs_lt_dvd ((symmetric_iff h).mp hs).2 (by
    rw [Int.abs_eq_natAbs]
    exact_mod_cast hsmall)

theorem symmetric_balances_iff_samplePayment :
    samplePayment.Symmetric ∧ amountSum [Transfer.make (Address.sample 1) 1 (-5) 0,
      Transfer.make (Address.sample 2) 1 5 0] = 0 := by
  have h : samplePayment.isSound KeyRing.toy = .ok true ∧
      samplePayment.getTransfers = .ok [Transfer.make (Address.sample 1) 1 (-5) 0,
        Transfer.make (Address.sample 2) 1 5 0] ∧
      amountSum [Transfer.make (Address.sample 1) 1 (-5) 0,
        Transfer.make (Address.sample 2) 1 5 0] = 0 := by
    decide +kernel
  have hs := symmetric_of_isSound (flagChecked_of_false rfl) h.1
  exact ⟨hs, (symmetric_balances_iff h.2.1).mpr (fun _ _ => h.2.2) hs⟩

/-- A wallet sends 1 coin, and two others receive 2^64 + 1 coins in three transfers. -/
def sampleMinting : Tier2Transaction :=
  let xfers := [Transfer.make (Address.sample 1) 1 (-1) 0,
    Transfer.make (Address.sample 2) 1 (2 ^ 63 - 1) 0,
    Transfer.make (Address.sample 2) 1 (2 ^ 63 - 1) 0, Transfer.make (Address.sample 3) 1 3 0]
  let nonce : Bytes := [0, 1, 2, 3, 4, 5, 6, 7]
  ofSignature OpType.exchange.toByte xfers nonce
    (Ossl.toySignature (Address.sample 1)
      (Ossl.toyHash (layout OpType.exchange.toByte xfers nonce)))

theorem sampleMinting_isSound :
    sampleMinting.isSound KeyRing.toy = .ok true ∧
      sampleMinting.getTransfers.map amountSum = .ok (2 ^ 64) ∧
      (sampleMinting.isValid KeyRing.toy Books.empty).1 = .ok true := by
  decide +kernel

end Tier2Transaction
end Devcash
