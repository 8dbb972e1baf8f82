import Devcash.Summary

/-! The loop with which both kinds of transaction post their transfers: each transfer
is checked, added to the chain state and then to the summary, one after the other, and
a transaction that is refused half way keeps what it posted. -/
namespace Devcash
open Postings

/-- The three accumulators that a validation pass threads through the transactions. -/
structure Books where
  state : ChainState
  summary : Summary
  aggregate : OrdMap Address SmartCoin

/-- The books of a pass over an empty chain. -/
def Books.empty : Books := ⟨ChainState.empty, Summary.empty, OrdMap.empty⟩

/-- The check of a spending; `none` is `return false`. -/
abbrev Spend := Books → Address → Nat → Int → Result (Option (OrdMap Address SmartCoin))

/-- No check. -/
def spendFreely : Spend := fun b _ _ _ => .ok (some b.aggregate)

/-- The funds check of an exchange, as it compares the signed amount. -/
def availableFunds (oper : Byte) (state : ChainState) (addr : Address) (coin : Nat)
    (amount : Int) : Result Bool :=
  if oper = OpType.exchange.toByte then do
    let available ← state.getAmount coin addr
    .ok (!decide (amount > available))
  else .ok true

/-- The check against what the sender committed in the same pass. The aggregate has
one coin for an address, whatever coin type was spent. -/
def spendInAggregate (prior : ChainState) : Spend := fun b addr coin amount =>
  match b.aggregate.find? addr with
  | some sc => do
    let historic ← prior.getAmount coin addr
    if i64 (historic + sc.amount + amount) < 0 then .ok none
    else .ok (some (b.aggregate.put addr (SmartCoin.make addr coin (amount + sc.amount))))
  | none => .ok (some (b.aggregate.insert addr (SmartCoin.make addr coin amount)))

/-- A funds check in front of another check. -/
def spendAvailable (oper : Byte) (spend : Spend) : Spend := fun b addr coin amount => do
  let enough ← availableFunds oper b.state addr coin amount
  if enough then spend b addr coin amount else .ok none

/-- The fields in the order `getAmount`, `getCoin`, `getAddress`. -/
def Transfer.amountCoinAddr (t : Transfer) : Result (Address × Nat × Int) := do
  let amount ← t.getAmount
  let coin ← t.getCoin
  let addr ← t.getAddress
  .ok (addr, coin, amount)

/-- The fields in the order `getCoin`, `getAddress`, `getAmount`. -/
def Transfer.coinAddrAmount (t : Transfer) : Result (Address × Nat × Int) := do
  let coin ← t.getCoin
  let addr ← t.getAddress
  let amount ← t.getAmount
  .ok (addr, coin, amount)

/-- Only negative amounts are checked. -/
def allow (spend : Spend) : Spend := fun b addr coin amount =>
  if amount < 0 then spend b addr coin amount else .ok (some b.aggregate)

/-- The body of the loop. The delay is read between the two additions. -/
def postTransfer (fields : Transfer → Result (Address × Nat × Int)) (spend : Spend)
    (t : Transfer) (b : Books) : Result Bool × Books :=
  match fields t with
  | .error e => (.error e, b)
  | .ok (addr, coin, amount) =>
    match allow spend b addr coin amount with
    | .error e => (.error e, b)
    | .ok none => (.ok false, b)
    | .ok (some aggregate) =>
      let state := b.state.addCoin (SmartCoin.make addr coin amount)
      match t.getDelay with
      | .error e => (.error e, { b with state, aggregate })
      | .ok delay => (.ok true, ⟨state, b.summary.addFlow ⟨addr, coin, amount, delay⟩, aggregate⟩)

def postTransfers (fields : Transfer → Result (Address × Nat × Int)) (spend : Spend) :
    List Transfer → Books → Result Bool × Books
  | [], b => (.ok true, b)
  | t :: ts, b =>
    match postTransfer fields spend t b with
    | (.ok true, b') => postTransfers fields spend ts b'
    | r => r

/-- `catch (const std::exception&)` around a validation: the answer is `false`. -/
def catchFalse (r : Result Bool) : Result Bool :=
  match r with
  | .error e => if e.isException then .ok false else .error e
  | r => r

/-- The frame of the four validation functions: soundness, then the loop. -/
def validateWith (sound : Result Bool) (body : Result (List Transfer × Spend))
    (fields : Transfer → Result (Address × Nat × Int)) (b : Books) : Result Bool × Books :=
  match sound with
  | .error e => (catchFalse (.error e), b)
  | .ok false => (.ok false, b)
  | .ok true =>
    match body with
    | .error e => (catchFalse (.error e), b)
    | .ok (ts, spend) =>
      let r := postTransfers fields spend ts b
      (catchFalse r.1, r.2)

def Transfer.flow (t : Transfer) : Result Flow := do
  let (addr, coin, amount) ← t.amountCoinAddr
  let delay ← t.getDelay
  .ok ⟨addr, coin, amount, delay⟩

theorem Transfer.flow_ok_iff {t : Transfer} {f : Flow} : t.flow = .ok f ↔
    t.amountCoinAddr = .ok (f.addr, f.coin, f.amount) ∧ t.getDelay = .ok f.delay := by
  constructor
  · intro h
    obtain ⟨⟨addr, coin, amount⟩, hfields, h⟩ := Result.bind_eq_ok h
    obtain ⟨delay, hdelay, h⟩ := Result.bind_eq_ok h
    cases h
    exact ⟨hfields, hdelay⟩
  · rintro ⟨hfields, hdelay⟩
    rw [flow, hfields, Result.bind_ok, hdelay]
    rfl

def Flow.smartCoin (f : Flow) : SmartCoin := SmartCoin.make f.addr f.coin f.amount

/-- What a pass added to the state and to the summary. -/
structure Posted where
  coins : List SmartCoin
  flows : List Flow

namespace Posted

def nothing : Posted := ⟨[], []⟩

def append (p q : Posted) : Posted := ⟨p.coins ++ q.coins, p.flows ++ q.flows⟩

def whole (fs : List Flow) : Posted := ⟨fs.map Flow.smartCoin, fs⟩

end Posted

/-- What the body of the loop posts. -/
def posted (fields : Transfer → Result (Address × Nat × Int)) (spend : Spend)
    (t : Transfer) (b : Books) : Posted :=
  match fields t with
  | .error _ => .nothing
  | .ok (addr, coin, amount) =>
    match allow spend b addr coin amount with
    | .ok (some _) =>
      match t.getDelay with
      | .error _ => ⟨[SmartCoin.make addr coin amount], []⟩
      | .ok delay => .whole [⟨addr, coin, amount, delay⟩]
    | _ => .nothing

/-- What the loop posts until it ends or gives up. -/
def postedAll (fields : Transfer → Result (Address × Nat × Int)) (spend : Spend) :
    List Transfer → Books → Posted
  | [], _ => .nothing
  | t :: ts, b =>
    (posted fields spend t b).append
      (match postTransfer fields spend t b with
      | (.ok true, b') => postedAll fields spend ts b'
      | _ => .nothing)

/-- What a validation posts. -/
def postedWith (sound : Result Bool) (body : Result (List Transfer × Spend))
    (fields : Transfer → Result (Address × Nat × Int)) (b : Books) : Posted :=
  match sound, body with
  | .ok true, .ok (ts, spend) => postedAll fields spend ts b
  | _, _ => .nothing

/-- The flows of a series of transfers, none if one of them cannot be read. -/
def flowsOf (transfers : Result (List Transfer)) : List Flow :=
  match (do let ts ← transfers; ts.mapM Transfer.flow) with
  | .ok fs => fs
  | .error _ => []

/-- The books after a posting, up to the aggregate. -/
def Books.After (b : Books) (p : Posted) (b' : Books) : Prop :=
  b'.state = b.state.addCoins p.coins ∧ b'.summary = b.summary.addFlows p.flows

theorem Books.After.refl (b : Books) : b.After .nothing b := ⟨rfl, rfl⟩

theorem Books.After.trans {b b1 b2 : Books} {p q : Posted} (h : b.After p b1)
    (h' : b1.After q b2) : b.After (p.append q) b2 := by
  constructor
  · rw [h'.1, h.1, Posted.append, ChainState.addCoins_append]
  · rw [h'.2, h.2, Posted.append, Summary.addFlows_append]

section
variable (fields : Transfer → Result (Address × Nat × Int)) (spend : Spend)

theorem postTransfer_cases (t : Transfer) (b : Books) :
    (∃ r, r ≠ .ok true ∧ postTransfer fields spend t b = (r, b) ∧
      posted fields spend t b = .nothing) ∨
    (∃ addr coin amount aggregate, fields t = .ok (addr, coin, amount) ∧
      allow spend b addr coin amount = .ok (some aggregate) ∧
      ((∃ e, t.getDelay = .error e ∧
        postTransfer fields spend t b =
          (.error e, ⟨b.state.addCoin (SmartCoin.make addr coin amount), b.summary, aggregate⟩) ∧
        posted fields spend t b = ⟨[SmartCoin.make addr coin amount], []⟩) ∨
      (∃ delay, t.getDelay = .ok delay ∧
        postTransfer fields spend t b =
          (.ok true, ⟨b.state.addCoin (SmartCoin.make addr coin amount),
            b.summary.addFlow ⟨addr, coin, amount, delay⟩, aggregate⟩) ∧
        posted fields spend t b = .whole [⟨addr, coin, amount, delay⟩]))) := by
  cases hf : fields t with
  | error e => exact Or.inl ⟨.error e, by simp, by simp [postTransfer, hf], by simp [posted, hf]⟩
  | ok f =>
    obtain ⟨addr, coin, amount⟩ := f
    cases ha : allow spend b addr coin amount with
    | error e =>
      exact Or.inl ⟨.error e, by simp, by simp [postTransfer, hf, ha], by simp [posted, hf, ha]⟩
    | ok o =>
      cases o with
      | none =>
        exact Or.inl ⟨.ok false, by simp, by simp [postTransfer, hf, ha], by simp [posted, hf, ha]⟩
      | some aggregate =>
        refine Or.inr ⟨addr, coin, amount, aggregate, rfl, ha, ?_⟩
        cases hd : t.getDelay with
        | error e => exact Or.inl ⟨e, rfl, by simp [postTransfer, hf, ha, hd], by simp [posted, hf, ha, hd]⟩
        | ok delay =>
          exact Or.inr ⟨delay, rfl, by simp [postTransfer, hf, ha, hd], by simp [posted, hf, ha, hd]⟩

theorem postTransfer_after (t : Transfer) (b : Books) :
    b.After (posted fields spend t b) (postTransfer fields spend t b).2 := by
  obtain ⟨r, -, h, hp⟩ | ⟨a, c, x, g, -, -, ⟨e, -, h, hp⟩ | ⟨d, -, h, hp⟩⟩ :=
    postTransfer_cases fields spend t b
  · rw [h, hp]
    exact .refl b
  · rw [h, hp]
    exact ⟨rfl, rfl⟩
  · rw [h, hp]
    exact ⟨rfl, rfl⟩

theorem postTransfers_after (ts : List Transfer) (b : Books) :
    b.After (postedAll fields spend ts b) (postTransfers fields spend ts b).2 := by
  induction ts generalizing b with
  | nil => exact .refl b
  | cons t ts ih =>
    have h := postTransfer_after fields spend t b
    simp only [postTransfers, postedAll]
    split
    · rename_i b' hb
      rw [hb] at h
      exact h.trans (ih b')
    · exact h.trans (.refl _)

variable {fields spend}

theorem postTransfers_step {t : Transfer} {ts : List Transfer} {b b' : Books}
    (h : postTransfer fields spend t b = (.ok true, b')) :
    postTransfers fields spend (t :: ts) b = postTransfers fields spend ts b' := by
  simp only [postTransfers, h]

theorem postTransfers_stop {t : Transfer} {ts : List Transfer} {b : Books}
    (h : (postTransfer fields spend t b).1 ≠ .ok true) :
    postTransfers fields spend (t :: ts) b = postTransfer fields spend t b := by
  simp only [postTransfers]
  split
  · rename_i b' hb
    exact absurd (by rw [hb]) h
  · rfl

theorem postedAll_step {t : Transfer} {ts : List Transfer} {b b' : Books}
    (h : postTransfer fields spend t b = (.ok true, b')) :
    postedAll fields spend (t :: ts) b =
      (posted fields spend t b).append (postedAll fields spend ts b') := by
  simp only [postedAll, h]

theorem postedAll_stop {t : Transfer} {ts : List Transfer} {b : Books}
    (h : (postTransfer fields spend t b).1 ≠ .ok true) :
    postedAll fields spend (t :: ts) b = posted fields spend t b := by
  have hnothing : ∀ p : Posted, p.append .nothing = p := by
    intro p
    simp [Posted.append, Posted.nothing]
  simp only [postedAll]
  split
  · rename_i b' hb
    exact absurd (by rw [hb]) h
  · exact hnothing _

theorem postTransfers_true {ts : List Transfer} {b : Books}
    (hfields : ∀ t f, fields t = .ok f → t.amountCoinAddr = .ok f)
    (h : (postTransfers fields spend ts b).1 = .ok true) :
    ∃ fs, ts.mapM Transfer.flow = .ok fs ∧ postedAll fields spend ts b = .whole fs := by
  induction ts generalizing b with
  | nil => exact ⟨[], rfl, rfl⟩
  | cons t ts ih =>
    obtain ⟨r, hr, ht, -⟩ | ⟨a, c, x, g, hf, -, ⟨e, -, ht, -⟩ | ⟨d, hd, ht, hp⟩⟩ :=
      postTransfer_cases fields spend t b
    · rw [postTransfers_stop (by rw [ht]; exact hr), ht] at h
      exact absurd h hr
    · rw [postTransfers_stop (by rw [ht]; simp), ht] at h
      cases h
    · rw [postTransfers_step ht] at h
      obtain ⟨fs, hm, hfs⟩ := ih h
      refine ⟨⟨a, c, x, d⟩ :: fs, ?_, ?_⟩
      · have hflow : t.flow = .ok ⟨a, c, x, d⟩ := Transfer.flow_ok_iff.mpr ⟨hfields t _ hf, hd⟩
        rw [List.mapM_cons, hflow, hm]
        rfl
      · rw [postedAll_step ht, hp, hfs]
        rfl

end

theorem catchFalse_true {r : Result Bool} (h : catchFalse r = .ok true) : r = .ok true := by
  cases r with
  | ok x => exact h
  | error e =>
    simp only [catchFalse] at h
    split_ifs at h
    cases h

theorem validateWith_after (sound : Result Bool) (body : Result (List Transfer × Spend))
    (fields : Transfer → Result (Address × Nat × Int)) (b : Books) :
    b.After (postedWith sound body fields b) (validateWith sound body fields b).2 := by
  cases sound with
  | error e => exact .refl b
  | ok x =>
    cases x with
    | false => exact .refl b
    | true =>
      cases body with
      | error e => exact .refl b
      | ok p => exact postTransfers_after fields p.2 p.1 b

theorem validateWith_cases (sound : Result Bool) (body : Result (List Transfer × Spend))
    (fields : Transfer → Result (Address × Nat × Int)) (b : Books) :
    ((validateWith sound body fields b).2 = b ∧
      (validateWith sound body fields b).1 ≠ .ok true) ∨
    ∃ ts spend, body = .ok (ts, spend) ∧ sound = .ok true ∧
      validateWith sound body fields b =
        (catchFalse (postTransfers fields spend ts b).1, (postTransfers fields spend ts b).2) := by
  cases sound with
  | error e => exact Or.inl ⟨rfl, fun h => nomatch @catchFalse_true (.error e) h⟩
  | ok x =>
    cases x with
    | false => exact Or.inl ⟨rfl, by simp [validateWith]⟩
    | true =>
      cases body with
      | error e => exact Or.inl ⟨rfl, fun h => nomatch @catchFalse_true (.error e) h⟩
      | ok p => exact Or.inr ⟨p.1, p.2, rfl, rfl, rfl⟩

theorem validateWith_true {sound : Result Bool} {body : Result (List Transfer × Spend)}
    {fields : Transfer → Result (Address × Nat × Int)} {b : Books}
    (h : (validateWith sound body fields b).1 = .ok true) :
    sound = .ok true ∧ ∃ ts spend, body = .ok (ts, spend) ∧
      postTransfers fields spend ts b = (.ok true, (validateWith sound body fields b).2) := by
  obtain ⟨-, hn⟩ | ⟨ts, spend, hb, hs, he⟩ := validateWith_cases sound body fields b
  · exact absurd h hn
  · rw [he] at h ⊢
    exact ⟨hs, ts, spend, hb, Prod.ext (catchFalse_true h) rfl⟩

theorem postedWith_true {sound : Result Bool} {body : Result (List Transfer × Spend)}
    {fields : Transfer → Result (Address × Nat × Int)} {b : Books} {transfers : Result (List Transfer)}
    (hfields : ∀ t f, fields t = .ok f → t.amountCoinAddr = .ok f)
    (hbody : ∀ ts spend, body = .ok (ts, spend) → transfers = .ok ts)
    (h : (validateWith sound body fields b).1 = .ok true) :
    postedWith sound body fields b = .whole (flowsOf transfers) := by
  obtain ⟨hs, ts, spend, hb, hp⟩ := validateWith_true h
  obtain ⟨fs, hm, hfs⟩ := postTransfers_true hfields (congrArg Prod.fst hp)
  have hf : flowsOf transfers = fs := by
    rw [flowsOf, hbody ts spend hb, Result.bind_ok, hm]
  rw [hf, ← hfs, hs, hb]
  rfl

theorem Transfer.amountCoinAddr_ok {t : Transfer} {a : Address} {c : Nat} {x : Int}
    (h : t.amountCoinAddr = .ok (a, c, x)) :
    t.getAmount = .ok x ∧ t.getCoin = .ok c ∧ t.getAddress = .ok a := by
  obtain ⟨amount, hx, h⟩ := Result.bind_eq_ok h
  obtain ⟨coin, hc, h⟩ := Result.bind_eq_ok h
  obtain ⟨addr, ha, h⟩ := Result.bind_eq_ok h
  cases h
  exact ⟨hx, hc, ha⟩

theorem Transfer.amountCoinAddr_range {t : Transfer} {a : Address} {c : Nat} {x : Int}
    (h : t.amountCoinAddr = .ok (a, c, x)) : i64 x = x :=
  Transfer.getAmount_range (amountCoinAddr_ok h).1

theorem Transfer.flow_range {t : Transfer} {f : Flow} (h : t.flow = .ok f) :
    i64 f.amount = f.amount :=
  amountCoinAddr_range (flow_ok_iff.mp h).1

theorem flowsOf_range {transfers : Result (List Transfer)} {f : Flow}
    (h : f ∈ flowsOf transfers) : i64 f.amount = f.amount := by
  rw [flowsOf] at h
  split at h
  · rename_i fs hfs
    obtain ⟨ts, -, hfs⟩ := Result.bind_eq_ok hfs
    obtain ⟨t, -, ht⟩ := Result.mem_mapM hfs h
    exact Transfer.flow_range ht
  · cases h

theorem Transfer.amountCoinAddr_of_coinAddrAmount {t : Transfer} {f : Address × Nat × Int}
    (h : t.coinAddrAmount = .ok f) : t.amountCoinAddr = .ok f := by
  obtain ⟨coin, h1, h⟩ := Result.bind_eq_ok h
  obtain ⟨addr, h2, h⟩ := Result.bind_eq_ok h
  obtain ⟨amount, h3, h⟩ := Result.bind_eq_ok h
  simp only [amountCoinAddr, h1, h2, h3, Result.bind_ok]
  exact h

namespace ChainState

/-- No sum over the balances and the sizes of all the amounts wraps. -/
def Fits (s : ChainState) (l : List Flow) : Prop :=
  ∀ a c, s.balance a c + volume Flow.amount l < 2 ^ 63

theorem net_smartCoin {l : List Flow} (h : ∀ f ∈ l, i64 f.amount = f.amount) (k : Address × Nat) :
    net SmartCoin.slot SmartCoin.amount (l.map Flow.smartCoin) k =
      net Flow.slot Flow.amount l k := by
  rw [net_map]
  exact net_congr _ h k

theorem touches_smartCoin (l : List Flow) (k : Address × Nat) :
    Touches SmartCoin.slot (l.map Flow.smartCoin) k ↔ Touches Flow.slot l k := by
  simp only [Touches, List.mem_map, exists_exists_and_eq_and]
  rfl

/-- Without wrapping the balances are the sums. -/
theorem balance_addFlows {s : ChainState} {l : List Flow} (hs : s.NonNeg) (hf : s.Fits l)
    (hl : ∀ f ∈ l, i64 f.amount = f.amount) (a : Address) (c : Nat) :
    (s.addCoins (l.map Flow.smartCoin)).balance a c =
      s.balance a c + net Flow.slot Flow.amount l (a, c) := by
  rw [balance_addCoins, net_smartCoin hl]
  simp only [touches_smartCoin]
  split_ifs with ht
  · have h1 := net_bounds Flow.slot Flow.amount l (a, c)
    have h2 := hs a c
    have h3 := hf a c
    exact i64_of_bounds (by omega) (by omega)
  · rw [net_of_not_touches _ _ ht, Int.add_zero]

end ChainState

end Devcash
