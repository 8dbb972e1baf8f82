import Devcash.ChainFile
import Devcash.Proposal

/-! The callback of the database repeater for final blocks. A statement is its effect on the
table. What the callback gets from iterators into two different temporaries and from a second
transaction on its connection is left open. -/
namespace Devcash
open InputBuffer Postings

/-- An `int64_t`, as the column for balances holds it. -/
abbrev Balance := { x : Int // i64 x = x }

def Balance.of (x : Int) : Balance := ⟨i64 x, i64_i64 x⟩

/-- A row of `tx` or of `rx`, which have the same columns. -/
structure TransferRow where
  shard : String
  blockHeight : Nat
  walletId : Bytes
  coinId : Nat
  amount : Int
  txId : Bytes
  deriving DecidableEq, Repr

/-- The balances of `walletCoins` by wallet and coin. -/
abbrev WalletCoins := Bytes × Nat → Option Balance

structure Database where
  walletCoins : WalletCoins
  tx : List TransferRow
  rx : List TransferRow

/-- The state the callback captures. -/
structure DbRepeater where
  shardName : String
  dbConnected : Bool
  chainHeight : Nat
  db : Database

namespace DbRepeater

/-- `balance_insert` where there is no such row and `balance_update` where there is one. -/
def setBalance (table : WalletCoins) (row : Bytes × Nat) (balance : Balance) : WalletCoins :=
  Function.update table row (some balance)

/-- What the sender search has found. -/
structure Sender where
  senderStr : Bytes
  coinId : Nat
  sendAmount : Int

def Sender.row (s : Sender) : Bytes × Nat := (s.senderStr, s.coinId)

def updateSender (s : Sender) (balanceResult : Option Balance) (table : WalletCoins) : WalletCoins :=
  match balanceResult with
  | none => setBalance table s.row (.of s.sendAmount)
  | some balance => setBalance table s.row (.of (balance.1 - s.sendAmount))

/-- The balance of a receiver. A row that is there gets the balance selected for the sender,
and there may be none to read. -/
def newBalance (balanceResult rxBalance : Option Balance) (amount : Int) : Result Balance :=
  match rxBalance with
  | none => .ok (.of amount)
  | some _ =>
    match balanceResult with
    | some balance => .ok (.of (balance.1 + amount))
    | none => .error .badAccess

section
/-! `text` is a string from `f().getCanonical().begin()` to `f().getCanonical().end()`, where each
call of `f` returns an object of its own; `second` is a `pqxx::work` on a connection that has one
already. -/
variable (text : Bytes → Result Bytes) (second : Result Unit)

/-- The sender search takes the first negative transfer. -/
def findSender : List Transfer → Result Sender
  | [] => .ok ⟨[], 0, 0⟩
  | xfer :: xfers => do
    let amount ← xfer.getAmount
    if amount < 0 then
      let addr ← xfer.getAddress
      let temp ← text addr.getCanonical
      let coin ← xfer.getCoin
      .ok ⟨temp, coin, amount⟩
    else findSender xfers

variable (shardName : String) (chainHeight : Nat)

/-- One turn of the transfer loop. The row in `rx` gets the amount of the sender. -/
def updateReceiver (sigStr : Bytes) (s : Sender) (balanceResult : Option Balance) (db : Database)
    (xfer : Transfer) : Result Database := do
  let amount ← xfer.getAmount
  if amount < 0 then .ok db
  else
    let addr ← xfer.getAddress
    let receiver ← text addr.getCanonical
    second
    let balance ← newBalance balanceResult (db.walletCoins (receiver, s.coinId)) amount
    .ok { db with
      walletCoins := setBalance db.walletCoins (receiver, s.coinId) balance
      rx := db.rx ++ [⟨shardName, chainHeight, receiver, s.coinId, s.sendAmount, sigStr⟩] }

def updateTransaction (db : Database) (oneTx : Transaction) : Result Database := do
  let xfers ← oneTx.getTransfers
  let sig ← oneTx.getSignature
  let sigStr ← text sig.getCanonical
  let s ← findSender text xfers
  let balanceResult := db.walletCoins s.row
  xfers.foldlM (updateReceiver text second shardName chainHeight sigStr s balanceResult)
    { db with
      walletCoins := updateSender s balanceResult db.walletCoins
      tx := db.tx ++ [⟨shardName, chainHeight, s.senderStr, s.coinId, s.sendAmount, sigStr⟩] }

/-- Each transaction is committed by itself. One that throws is rolled back and ends the loop. -/
def updateTransactions : List Transaction → Database → Result Unit × Database
  | [], db => (.ok (), db)
  | oneTx :: txs, db =>
    match updateTransaction text second shardName chainHeight db oneTx with
    | .ok db' => updateTransactions txs db'
    | .error e => (.error e, db)

/-- The callback behind the decoding of the block. -/
def handleBlock (r : DbRepeater) (oneBlock : FinalBlock) : Result Unit × DbRepeater :=
  match updateTransactions text second r.shardName r.chainHeight oneBlock.transactionVector r.db with
  | (.ok (), db) => (.ok (), { r with db, chainHeight := u32 (r.chainHeight + 1) })
  | (.error e, db) => (.error e, { r with db })

/-- The callback for `FINAL_BLOCK`. It decodes with a key ring of its own, an empty one. -/
def onFinalBlock (o : Ossl) (mode : AppMode) (r : DbRepeater) (data : Bytes) :
    Result Unit × DbRepeater :=
  if r.dbConnected then
    match FinalBlock.ofMode (⟨.empty, []⟩ : KeyRing o) mode ChainState.empty (ofBytes data) with
    | .ok (oneBlock, _) => handleBlock text second r oneBlock
    | .error e => (.error e, r)
  else (.error (.runtime "Database is not connected!"), r)

end

/-- What a transfer does to a balance. -/
def smartCoin (t : Transfer) : Result SmartCoin := do
  let (addr, coin, amount) ← t.amountCoinAddr
  .ok (SmartCoin.make addr coin amount)

def readCoins (tx : Transaction) : Result (List SmartCoin) := do
  let xfers ← tx.getTransfers
  xfers.mapM smartCoin

/-- The amounts of the transfers, none if one of them cannot be read. -/
def coinsOf (tx : Transaction) : List SmartCoin := (readCoins tx).toOption.getD []

/-- The balance of a wallet, 0 without a row. -/
def balanceOf (table : WalletCoins) (k : Address × Nat) : Int :=
  ((table (k.1.canonical, k.2)).map Subtype.val).getD 0

/-- The balances after the transactions are those before plus the transfers. -/
def Follows (before : WalletCoins) (txs : List Transaction) (after : WalletCoins) : Prop :=
  ∀ k, balanceOf after k =
    balanceOf before k + net SmartCoin.slot SmartCoin.amount (txs.flatMap coinsOf) k

/-- A transaction with nothing but negative transfers. -/
def OnlySends (tx : Transaction) : Prop :=
  ∃ xfers, tx.getTransfers = .ok xfers ∧ xfers ≠ [] ∧
    ∀ t ∈ xfers, ∃ x, t.getAmount = .ok x ∧ x < 0

theorem not_onlySends {tx : Transaction} (h : ∃ xfers, tx.getTransfers = .ok xfers ∧
    ∃ t ∈ xfers, ∃ x, t.getAmount = .ok x ∧ ¬ x < 0) : ¬ OnlySends tx := by
  obtain ⟨xfers, hxfers, t, ht, x, hx, hpos⟩ := h
  rintro ⟨xfers', hxfers', -, hall⟩
  cases hxfers.symm.trans hxfers'
  obtain ⟨x', hx', hneg⟩ := hall t ht
  cases hx.symm.trans hx'
  exact hpos hneg

section
variable {text : Bytes → Result Bytes} {e : Error} {shardName : String} {chainHeight : Nat}

theorem negative_of_updateReceivers {sigStr : Bytes} {s : Sender} {balanceResult : Option Balance}
    {xfers : List Transfer} {db db' : Database}
    (h : xfers.foldlM (updateReceiver text (.error e) shardName chainHeight sigStr s balanceResult)
      db = .ok db') : ∀ t ∈ xfers, ∃ x, t.getAmount = .ok x ∧ x < 0 := by
  induction xfers generalizing db with
  | nil => simp
  | cons xfer xfers ih =>
    rw [List.foldlM_cons] at h
    obtain ⟨db1, hfirst, h⟩ := Result.bind_eq_ok h
    obtain ⟨x, hx, hfirst⟩ := Result.bind_eq_ok hfirst
    refine List.forall_mem_cons.mpr ⟨⟨x, hx, ?_⟩, ih h⟩
    by_contra hpos
    rw [if_neg hpos] at hfirst
    obtain ⟨addr, -, hfirst⟩ := Result.bind_eq_ok hfirst
    obtain ⟨receiver, -, hfirst⟩ := Result.bind_eq_ok hfirst
    cases hfirst

theorem balanceOf_updateSender_zero (table : WalletCoins) (k : Address × Nat) :
    balanceOf (updateSender ⟨[], 0, 0⟩ (table ([], 0)) table) k = balanceOf table k := by
  rw [balanceOf, balanceOf]
  by_cases hk : (k.1.canonical, k.2) = ([], 0)
  · rw [hk]
    cases hrow : table ([], 0) with
    | none =>
      simp only [updateSender, setBalance, Sender.row, Function.update_self]
      rfl
    | some balance =>
      simp only [updateSender, setBalance, Sender.row, Function.update_self, Balance.of, Int.sub_zero,
        balance.2]
  · cases table ([], 0) with
    | none => rw [updateSender, setBalance, Sender.row, Function.update_of_ne hk]
    | some balance => rw [updateSender, setBalance, Sender.row, Function.update_of_ne hk]

theorem balanceOf_updateTransaction {tx : Transaction} (htx : ¬ OnlySends tx) {db db' : Database}
    (h : updateTransaction text (.error e) shardName chainHeight db tx = .ok db')
    (k : Address × Nat) : balanceOf db'.walletCoins k = balanceOf db.walletCoins k := by
  obtain ⟨xfers, hxfers, h⟩ := Result.bind_eq_ok h
  obtain ⟨sig, -, h⟩ := Result.bind_eq_ok h
  obtain ⟨sigStr, -, h⟩ := Result.bind_eq_ok h
  obtain ⟨s, hs, h⟩ := Result.bind_eq_ok h
  have hempty : xfers = [] := by
    by_contra hne
    exact htx ⟨xfers, hxfers, hne, negative_of_updateReceivers h⟩
  subst hempty
  cases hs
  cases h
  exact balanceOf_updateSender_zero db.walletCoins k

theorem balanceOf_updateTransactions {txs : List Transaction} (htxs : ∀ tx ∈ txs, ¬ OnlySends tx)
    (db : Database) (k : Address × Nat) :
    balanceOf (updateTransactions text (.error e) shardName chainHeight txs db).2.walletCoins k =
      balanceOf db.walletCoins k := by
  induction txs generalizing db with
  | nil => rfl
  | cons tx txs ih =>
    rw [List.forall_mem_cons] at htxs
    rw [updateTransactions]
    split
    · rename_i db' hdb
      rw [ih htxs.2, balanceOf_updateTransaction htxs.1 hdb]
    · rfl

theorem balanceOf_handleBlock {oneBlock : FinalBlock}
    (htxs : ∀ tx ∈ oneBlock.transactionVector, ¬ OnlySends tx) (r : DbRepeater) (k : Address × Nat) :
    balanceOf (handleBlock text (.error e) r oneBlock).2.db.walletCoins k =
      balanceOf r.db.walletCoins k := by
  rw [← balanceOf_updateTransactions htxs r.db k, handleBlock]
  split
  · rename_i db hdb
    rw [hdb]
  · rename_i db hdb
    rw [hdb]

end

/-- On a connection that takes one transaction at a time, whatever comes of the strings, the
callback keeps the balances of the ledger exactly if the transfers of the block add up to 0 for
every wallet and coin: it throws at the first transfer to a receiver, and nothing is booked. -/
theorem keepsLedger_iff (text : Bytes → Result Bytes) (e : Error) (r : DbRepeater)
    (oneBlock : FinalBlock) (htxs : ∀ tx ∈ oneBlock.transactionVector, ¬ OnlySends tx) :
    Follows r.db.walletCoins oneBlock.transactionVector
        (handleBlock text (.error e) r oneBlock).2.db.walletCoins ↔
      ∀ k, net SmartCoin.slot SmartCoin.amount (oneBlock.transactionVector.flatMap coinsOf) k = 0 := by
  refine forall_congr' (fun k => ?_)
  rw [balanceOf_handleBlock htxs]
  omega

/-- A repeater of the first shard with these balances. -/
def sample (table : WalletCoins) : DbRepeater := ⟨"Shard-1", true, 0, ⟨table, [], []⟩⟩

/-- The first wallet pays itself. -/
def sampleSelfPayment : Transaction :=
  .tier2 (Tier2Transaction.ofSignature OpType.exchange.toByte
    [Transfer.make (Address.sample 1) 1 (-5) 0, Transfer.make (Address.sample 1) 1 5 0]
    [0, 1, 2, 3, 4, 5, 6, 7] (Ossl.toySignature (Address.sample 1) Hash.zero))

def sampleBlock : FinalBlock :=
  { BlockFields.default with
    transactionVector := [sampleSelfPayment]
    blockState := .empty }

theorem keepsLedger_iff_sampleBlock : Follows (fun _ => none) [sampleSelfPayment]
    (handleBlock .ok (.error (.logic "usage_error")) (sample fun _ => none)
      sampleBlock).2.db.walletCoins := by
  have hreceives : ∃ xfers, sampleSelfPayment.getTransfers = .ok xfers ∧
      ∃ t ∈ xfers, ∃ x, t.getAmount = .ok x ∧ ¬ x < 0 := by
    decide +kernel
  have hcoins : (coinsOf sampleSelfPayment).map (fun f => (f.slot, f.amount)) =
      [((Address.sample 1, 1), -5), ((Address.sample 1, 1), 5)] := by
    decide +kernel
  refine (keepsLedger_iff .ok _ (sample fun _ => none) sampleBlock ?_).mpr ?_
  · intro tx htx
    cases List.mem_singleton.mp htx
    exact not_onlySends hreceives
  · intro k
    have hone : sampleBlock.transactionVector.flatMap coinsOf = coinsOf sampleSelfPayment :=
      List.append_nil _
    have hmap := net_map Prod.fst Prod.snd
      (fun f : SmartCoin => (f.slot, f.amount)) (coinsOf sampleSelfPayment) k
    rw [hcoins, net_cons, net_cons, net_nil] at hmap
    rw [hone]
    refine hmap.symm.trans ?_
    split_ifs
    · rfl
    · rfl

/-- The first wallet has 100 coins. -/
def sampleRich : DbRepeater :=
  sample (fun k => if k = ((Address.sample 1).canonical, 1) then some (.of 100) else none)

/-- A wallet that has 100 coins and sends 5 of them still has 100, whatever comes of the
strings. -/
theorem onFinalBlock_booksNothing : ∃ p, FinalBlock.ofMode (⟨.empty, []⟩ : KeyRing .toy) .t1 .empty
      (ofBytes FinalBlock.sampleTier1.getCanonical) = .ok p ∧
    (p.1.transactionVector.flatMap coinsOf).map (fun f => (f.addr, f.coin, f.amount)) =
      [(Address.sample 1, 1, -5), (Address.sample 2, 1, 5)] ∧
    ∀ text e, balanceOf (onFinalBlock text (.error e) .toy .t1 sampleRich
      FinalBlock.sampleTier1.getCanonical).2.db.walletCoins (Address.sample 1, 1) = 100 := by
  have h : ∃ p, FinalBlock.ofMode (⟨.empty, []⟩ : KeyRing .toy) .t1 .empty
        (ofBytes FinalBlock.sampleTier1.getCanonical) = .ok p ∧
      (p.1.transactionVector.flatMap coinsOf).map (fun f => (f.addr, f.coin, f.amount)) =
        [(Address.sample 1, 1, -5), (Address.sample 2, 1, 5)] ∧
      ∀ tx ∈ p.1.transactionVector, ∃ xfers, tx.getTransfers = .ok xfers ∧
        ∃ t ∈ xfers, ∃ x, t.getAmount = .ok x ∧ ¬ x < 0 := by
    decide +kernel
  obtain ⟨p, hp, hcoins, hreceives⟩ := h
  refine ⟨p, hp, hcoins, fun text e => ?_⟩
  have hconnected : sampleRich.dbConnected = true := rfl
  simp only [onFinalBlock, hconnected, if_true, hp]
  rw [balanceOf_handleBlock (fun tx htx => not_onlySends (hreceives tx htx))]
  decide +kernel

end DbRepeater
end Devcash
