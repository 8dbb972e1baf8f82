import Devcash.Endorsement
import Devcash.Lib.Run

/-! Runs of accepted transactions and the balances they leave. The funds check of
`do_isValid` compares a negative amount with the balance, so it stops nobody. -/
namespace Devcash
open Postings

namespace ChainState

/-- Every account that the flows spend from can pay the net of them. -/
def Covers (s : ChainState) (l : List Flow) : Prop :=
  ∀ f ∈ l, f.amount < 0 → 0 ≤ s.balance f.addr f.coin + net Flow.slot Flow.amount l f.slot

instance (s : ChainState) (l : List Flow) : Decidable (s.Covers l) :=
  inferInstanceAs (Decidable (∀ f ∈ l, _ → _))

theorem nonNeg_addFlows_iff {s : ChainState} {l : List Flow} (hs : s.NonNeg) (hf : s.Fits l)
    (hl : ∀ f ∈ l, i64 f.amount = f.amount) :
    (s.addCoins (l.map Flow.smartCoin)).NonNeg ↔ s.Covers l := by
  constructor
  · intro h f hfl hneg
    have := h f.addr f.coin
    rwa [balance_addFlows hs hf hl] at this
  · intro h a c
    rw [balance_addFlows hs hf hl]
    by_cases hneg : ∃ f ∈ l, f.slot = (a, c) ∧ f.amount < 0
    · obtain ⟨f, hfl, hk, hx⟩ := hneg
      have := h f hfl hx
      rw [hk] at this
      have ha : f.addr = a := congrArg Prod.fst hk
      have hc : f.coin = c := congrArg Prod.snd hk
      rwa [ha, hc] at this
    · have hn : 0 ≤ net Flow.slot Flow.amount l (a, c) := by
        apply net_nonneg
        intro f hfl hk
        by_contra hx
        exact hneg ⟨f, hfl, hk, by omega⟩
      have := hs a c
      omega

end ChainState

namespace Tier2Transaction
variable {o : Ossl} {keys : KeyRing o}

def flows (tx : Tier2Transaction) : List Flow := (Transaction.tier2 tx).flows

/-- Validation as a step on the books. -/
def validate (keys : KeyRing o) (b : Books) (tx : Tier2Transaction) : Books :=
  (Transaction.tier2 tx).validate keys b

theorem state_validate {tx : Tier2Transaction} {b : Books} (h : (tx.isValid keys b).1 = .ok true) :
    (validate keys b tx).state = b.state.addCoins (tx.flows.map Flow.smartCoin) := by
  have hvalid : ((Transaction.tier2 tx).isValid keys b).1 = .ok true := h
  exact (Transaction.validate_after hvalid).1

theorem validate_step {tx : Tier2Transaction} {l : List Tier2Transaction} {b : Books}
    (hs : b.state.NonNeg) (hf : b.state.Fits ((tx :: l).flatMap flows))
    (hv : (tx.isValid keys b).1 = .ok true) :
    ((validate keys b tx).state.NonNeg ↔ b.state.Covers tx.flows) ∧
      (validate keys b tx).state.Fits (l.flatMap flows) := by
  have hvol : volume Flow.amount ((tx :: l).flatMap flows) =
      volume Flow.amount tx.flows + volume Flow.amount (l.flatMap flows) := by
    simp [volume]
  have hrange : ∀ f ∈ tx.flows, i64 f.amount = f.amount := fun f hf => flowsOf_range hf
  have hfit : b.state.Fits tx.flows := by
    intro a c
    have := hf a c
    omega
  have hstate := state_validate hv
  constructor
  · rw [hstate]
    exact ChainState.nonNeg_addFlows_iff hs hfit hrange
  · intro a c
    have h1 := hf a c
    have h2 := net_bounds Flow.slot Flow.amount tx.flows (a, c)
    rw [hstate, ChainState.balance_addFlows hs hfit hrange]
    omega

/-- In a run of accepted transactions no balance ever becomes negative exactly when
each transaction finds the net of its spending covered. -/
theorem isValid_nonNeg_iff (l : List Tier2Transaction) (b : Books) (hs : b.state.NonNeg)
    (hf : b.state.Fits (l.flatMap flows))
    (hv : Run.Each (validate keys) (fun b tx => (tx.isValid keys b).1 = .ok true) b l) :
    Run.Always (validate keys) (fun b => b.state.NonNeg) b l ↔
      Run.Each (validate keys) (fun b tx => b.state.Covers tx.flows) b l := by
  induction l generalizing b with
  | nil => simpa using hs
  | cons tx l ih =>
    rw [Run.each_cons] at hv
    obtain ⟨hstep, hfit⟩ := validate_step hs hf hv.1
    rw [Run.always_cons, Run.each_cons, ← hstep]
    constructor
    · intro h
      have hn : (validate keys b tx).state.NonNeg := h.2 [] List.nil_prefix
      exact ⟨hn, (ih _ hn hfit hv.2).mp h.2⟩
    · intro h
      exact ⟨hs, (ih _ h.1 hfit hv.2).mpr h.2⟩

theorem samplePayment_valid : (samplePayment.isValid KeyRing.toy Books.empty).1 = .ok true := by
  decide +kernel

/-- The payment is sound and valid, and its sender is left with -5 coins. -/
theorem samplePayment_overspends :
    Books.empty.state.NonNeg ∧ samplePayment.getOperation = .ok OpType.exchange.toByte ∧
      samplePayment.isSound KeyRing.toy = .ok true ∧
      (samplePayment.isValid KeyRing.toy Books.empty).1 = .ok true ∧
      (samplePayment.isValid KeyRing.toy Books.empty).2.state.balance (Address.sample 1) 1 = -5 := by
  refine ⟨fun a c => Int.le_refl 0, ?_⟩
  decide +kernel

theorem isValid_nonNeg_iff_samplePayment :
    ¬ Run.Always (validate KeyRing.toy) (fun b => b.state.NonNeg) Books.empty [samplePayment] := by
  have hv : volume Flow.amount ([samplePayment].flatMap flows) = 10 := by decide +kernel
  rw [isValid_nonNeg_iff [samplePayment] Books.empty (fun a c => Int.le_refl 0)
    (fun a c => by rw [hv]; exact (by decide : (0 : Int) + 10 < 2 ^ 63))
    ((Run.each_cons _ _).mpr ⟨samplePayment_valid, Run.each_nil⟩), Run.each_cons]
  intro h
  exact absurd h.1 (by decide +kernel)

end Tier2Transaction
end Devcash
