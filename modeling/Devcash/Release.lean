import Devcash.CatchUp

/-! When `HandleBlocksSince` releases delayed coins. The delay of an entry is a number of
seconds; it is compared with the milliseconds since the block, an unsigned difference. -/
namespace Devcash
open Reader InputBuffer Endian

namespace Summary

/-- The delayed entries of an address, each with its coin. -/
def delayedOf (s : Summary) (addr : Address) : List (Nat × DelayedItem) :=
  match s.summary.find? addr with
  | some existing => existing.1.entries
  | none => []

def coinsOf (s : Summary) (addr : Address) : List (Nat × Int) :=
  match s.summary.find? addr with
  | some existing => existing.2.entries
  | none => []

/-- The delayed entries that `getCoinsByAddr` gives out after a time. -/
def released (s : Summary) (addr : Address) (elapsed : Nat) : List (Nat × DelayedItem) :=
  (s.delayedOf addr).filter (fun d => d.2.delay < elapsed)

theorem mem_released {s : Summary} {addr : Address} {elapsed : Nat} {d : Nat × DelayedItem} :
    d ∈ s.released addr elapsed ↔ d ∈ s.delayedOf addr ∧ d.2.delay < elapsed := by
  rw [released, List.mem_filter, decide_eq_true_eq]

theorem getCoinsByAddr_eq (s : Summary) (addr : Address) (elapsed : Nat) :
    s.getCoinsByAddr addr elapsed =
      (s.released addr elapsed).map (fun d => SmartCoin.make addr d.1 d.2.delta) ++
        (s.coinsOf addr).map (fun c => SmartCoin.make addr c.1 c.2) := by
  rw [getCoinsByAddr, released, delayedOf, coinsOf]
  cases s.summary.find? addr <;> rfl

end Summary

/-- A block that the loop has read, and what the clock shows then. -/
structure ReadBlock where
  block : FinalBlock
  now : Nat

namespace ReadBlock

/-- The time since the block, as the loop has it. -/
def elapsed (r : ReadBlock) : Nat := toUint64 ((r.now : Int) - r.block.blockTime)

def released (r : ReadBlock) (addr : Address) : List (Nat × DelayedItem) :=
  r.block.summary.released addr r.elapsed

/-- The coins that a turn of the loop adds to the state: for each wallet the delayed entries that
are released, and the others. -/
def credits (wallets : List Address) (r : ReadBlock) : List SmartCoin :=
  wallets.flatMap (fun addr =>
    (r.released addr).map (fun d => SmartCoin.make addr d.1 d.2.delta) ++
      (r.block.summary.coinsOf addr).map (fun c => SmartCoin.make addr c.1 c.2))

end ReadBlock

/-- The loop of `HandleBlocksSince` on its way: from a state and a buffer it has read blocks and
is at another state and buffer. What follows may still throw. -/
inductive Turns (wallets : List Address) :
    ChainState → InputBuffer → List ReadBlock → ChainState → InputBuffer → Prop
  | start (state : ChainState) (b : InputBuffer) : Turns wallets state b [] state b
  | turn {state state' : ChainState} {b b1 b' : InputBuffer} {r : ReadBlock}
      {reads : List ReadBlock} (inside : b.offset < InputBuffer.size b)
      (read : FinalBlock.create state b = .ok (r.block, b1))
      (rest : Turns wallets (state.addCoins (r.credits wallets)) b1 reads state' b') :
      Turns wallets state b (r :: reads) state' b'

section
variable {now : Nat} {wallets : List Address} {state state' : ChainState} {b b' : InputBuffer}
  {reads : List ReadBlock}

theorem updateState_succ (hinside : b.offset < InputBuffer.size b) (fuel : Nat) :
    updateState now wallets (fuel + 1) state b =
      (FinalBlock.create state >>= fun block =>
        updateState now wallets fuel (state.addCoins (ReadBlock.credits wallets ⟨block, now⟩))) b := by
  simp only [updateState, if_pos hinside, ReadBlock.credits, ReadBlock.released,
    ← Summary.getCoinsByAddr_eq, ChainState.addCoins, List.foldl_flatMap, ReadBlock.elapsed]

theorem Turns.updateState_eq (h : Turns wallets state b reads state' b')
    (hnow : ∀ r ∈ reads, r.now = now) (fuel : Nat) :
    updateState now wallets (reads.length + fuel) state b =
      updateState now wallets fuel state' b' := by
  induction h with
  | start => rw [List.length_nil, Nat.zero_add]
  | @turn _ _ _ _ _ r _ hinside hread _ ih =>
    obtain ⟨hr, hreads⟩ := List.forall_mem_cons.mp hnow
    subst hr
    rw [List.length_cons, Nat.succ_add, updateState_succ hinside, bind_of_ok hread]
    exact ih hreads

theorem updateState_turns {fuel : Nat} (h : updateState now wallets fuel state b = .ok (state', b')) :
    InputBuffer.size b' ≤ b'.offset ∧
      ∃ reads, Turns wallets state b reads state' b' ∧ ∀ r ∈ reads, r.now = now := by
  induction fuel generalizing state b with
  | zero => cases h
  | succ fuel ih =>
    by_cases hinside : b.offset < InputBuffer.size b
    · rw [updateState_succ hinside] at h
      obtain ⟨block, b1, hread, h⟩ := bind_eq_ok h
      obtain ⟨hend, reads, hturns, hnow⟩ := ih h
      refine ⟨hend, ⟨block, now⟩ :: reads, .turn hinside hread hturns, ?_⟩
      exact List.forall_mem_cons.mpr ⟨rfl, hnow⟩
    · simp only [updateState, if_neg hinside] at h
      cases h
      exact ⟨Nat.le_of_not_lt hinside, [], .start _ _, fun _ hr => absurd hr List.not_mem_nil⟩

theorem Turns.state_eq (h : Turns wallets state b reads state' b') :
    state' = state.addCoins (reads.flatMap (ReadBlock.credits wallets)) := by
  induction h with
  | start => rfl
  | turn _ _ _ ih => rw [ih, List.flatMap_cons, ChainState.addCoins_append]

end

theorem FinalBlock.blockTime_lt_of_create {state : ChainState} {b b1 : InputBuffer}
    {block : FinalBlock} (h : create state b = .ok (block, b1)) : block.blockTime < 2 ^ 64 := by
  rw [create, parse] at h
  split_ifs at h
  rw [parseSized] at h
  obtain ⟨version, b2, -, h⟩ := bind_eq_ok h
  split_ifs at h
  · cases h
  · obtain ⟨numBytes, b3, -, h⟩ := bind_eq_ok h
    split_ifs at h
    · cases h
    · obtain ⟨blockTime, b4, htime, h⟩ := bind_eq_ok h
      obtain ⟨prevHash, b5, -, h⟩ := bind_eq_ok h
      obtain ⟨merkleRoot, b6, -, h⟩ := bind_eq_ok h
      obtain ⟨txSize, b7, -, h⟩ := bind_eq_ok h
      obtain ⟨sumSize, b8, -, h⟩ := bind_eq_ok h
      obtain ⟨valCount, b9, -, h⟩ := bind_eq_ok h
      obtain ⟨txs, b10, -, h⟩ := bind_eq_ok h
      obtain ⟨summary, b11, -, h⟩ := bind_eq_ok h
      obtain ⟨vals, b12, -, h⟩ := bind_eq_ok h
      cases pure_eq_ok h
      exact (takes_getNextUint64 _ _ _ htime).1

theorem Turns.blockTime_lt {wallets : List Address} {state state' : ChainState}
    {b b' : InputBuffer} {reads : List ReadBlock} (h : Turns wallets state b reads state' b') :
    ∀ r ∈ reads, r.block.blockTime < 2 ^ 64 := by
  induction h with
  | start => exact fun _ hr => absurd hr List.not_mem_nil
  | turn _ hread _ ih =>
    exact List.forall_mem_cons.mpr ⟨FinalBlock.blockTime_lt_of_create hread, ih⟩

/-- Not early: the block is not from the future, and the delay in seconds is over. -/
def InTime (now blockTime delay : Nat) : Prop := blockTime ≤ now ∧ delay * 1000 ≤ now - blockTime

instance (now blockTime delay : Nat) : Decidable (InTime now blockTime delay) :=
  inferInstanceAs (Decidable (_ ∧ _))

/-- The times for which the comparison does no harm: fewer milliseconds than the number of
seconds have passed, or enough of them; for a block from the future, the unsigned difference is
not above the delay. -/
def Harmless (now blockTime delay : Nat) : Prop :=
  if blockTime ≤ now then now - blockTime ≤ delay ∨ delay * 1000 ≤ now - blockTime
  else 2 ^ 64 ≤ delay + (blockTime - now)

instance (now blockTime delay : Nat) : Decidable (Harmless now blockTime delay) :=
  inferInstanceAs (Decidable (ite _ _ _))

theorem inTime_of_lt_iff {now blockTime delay : Nat} (hnow : now < 2 ^ 64)
    (htime : blockTime < 2 ^ 64) :
    (delay < toUint64 ((now : Int) - blockTime) → InTime now blockTime delay) ↔
      Harmless now blockTime delay := by
  unfold InTime Harmless toUint64
  split_ifs with hle
  · have helapsed : (((now : Int) - blockTime) % 2 ^ 64).toNat = now - blockTime := by omega
    rw [helapsed]
    omega
  · have helapsed : (((now : Int) - blockTime) % 2 ^ 64).toNat = 2 ^ 64 - (blockTime - now) := by
      omega
    rw [helapsed]
    omega

/-- A tier-2 node works off a message of blocks: it has read some of them for its wallets, and
they have led to `state`. -/
structure BlocksRead {o : Ossl} (keys : WalletRing o) (context : DevcashContext)
    (finalChain : Blockchain) (data : Bytes) (wallets : List Address) (reads : List ReadBlock)
    (state : ChainState) (b : InputBuffer) : Prop where
  mode : context.appMode = .t2
  size : 8 ≤ data.length
  designated : keys.getDesignatedWallets context.currentShard = .ok wallets
  turns : Turns wallets finalChain.getHighestChainState ⟨data, 8⟩ reads state b

section
variable {o : Ossl} {keys : WalletRing o} {context : DevcashContext} {finalChain : Blockchain}
  {data : Bytes}

theorem handleBlocksSince_blocksRead {now remoteBlocks n : Nat} (hmode : context.appMode = .t2)
    (hsize : 8 ≤ data.length)
    (h : handleBlocksSince keys context finalChain now data remoteBlocks = .ok n) :
    ∃ wallets reads state b, BlocksRead keys context finalChain data wallets reads state b ∧
      (∀ r ∈ reads, r.now = now) ∧ InputBuffer.size b ≤ b.offset := by
  rw [handleBlocksSince, if_neg (Nat.not_lt.mpr hsize), hmode] at h
  obtain ⟨⟨height, b0⟩, hread, h⟩ := Result.bind_eq_ok h
  obtain ⟨wallets, hwallets, h⟩ := Result.bind_eq_ok h
  obtain ⟨⟨state, b⟩, hloop, -⟩ := Result.bind_eq_ok h
  obtain ⟨-, htook⟩ := takes_getNextUint64 _ _ _ hread
  have hb0 : b0 = ⟨data, 8⟩ := htook.2
  rw [hb0] at hloop
  obtain ⟨hend, reads, hturns, hnow⟩ := updateState_turns hloop
  exact ⟨wallets, reads, state, b, ⟨hmode, hsize, hwallets, hturns⟩, hnow, hend⟩

/-- The state has the credits of the blocks read, and no delayed entry among them is early
exactly if the comparison does no harm for any delayed entry of the wallets. -/
theorem handleBlocksSince_inTime_iff {wallets : List Address} {reads : List ReadBlock}
    {state : ChainState} {b : InputBuffer} (hnow : ∀ r ∈ reads, r.now < 2 ^ 64)
    (h : BlocksRead keys context finalChain data wallets reads state b) :
    state = finalChain.getHighestChainState.addCoins
        (reads.flatMap (ReadBlock.credits wallets)) ∧
      ((∀ r ∈ reads, ∀ addr ∈ wallets, ∀ d ∈ r.released addr,
          InTime r.now r.block.blockTime d.2.delay) ↔
        ∀ r ∈ reads, ∀ addr ∈ wallets, ∀ d ∈ r.block.summary.delayedOf addr,
          Harmless r.now r.block.blockTime d.2.delay) := by
  refine ⟨h.turns.state_eq, forall₂_congr fun r hr => forall₂_congr fun addr _ => ?_⟩
  have htime := h.turns.blockTime_lt r hr
  refine forall_congr' fun d => ?_
  rw [ReadBlock.released, Summary.mem_released, and_imp, ← inTime_of_lt_iff (hnow r hr) htime]
  rfl

end

/-- A tier-1 block with a delayed payment of the wallet 5 to the wallet 6. -/
def FinalBlock.sampleDelayed (blockTime delay : Nat) : FinalBlock :=
  let summary := Summary.empty.addFlows
    [⟨Address.sample 5, 1, -5, 0⟩, ⟨Address.sample 6, 1, 5, delay⟩]
  let raw := Tier1Transaction.encode summary (Address.sampleNode 1)
    (Tier1Transaction.sampleSignature summary)
  { BlockFields.default with
    numBytes := minSize + raw.length + summary.getByteSize + Validation.pairSize
    blockTime
    txSize := raw.length
    sumSize := summary.getByteSize
    valCount := 1
    rawTransactions := [raw]
    summary
    vals := ⟨OrdMap.empty.insert (Address.sampleNode 1) (Tier1Transaction.sampleSignature summary)⟩
    blockState := ChainState.empty }

/-- The blocks of an answer behind its height. -/
def sampleAnswer (block : FinalBlock) : Bytes := leBytes 8 1 ++ block.getCanonical

/-- Wallets of two shards; the wallets 6 and 7 are those of the second one. -/
def WalletRing.sampleHigh : WalletRing Ossl.toy :=
  ⟨KeyRing.toy, (List.range 4).map (fun n => Address.sample (UInt8.ofNat (n + 4)))⟩

/-- The sample is read as one block, and its delayed entry is released once the unsigned number
of milliseconds is above the number of seconds. -/
theorem blocksRead_sampleDelayed {now : Nat} (hnow : 604800 < toUint64 ((now : Int) - 1000)) :
    ∃ (block : FinalBlock) (state : ChainState) (b : InputBuffer),
      BlocksRead .sampleHigh ⟨0, 1, 3, .t2⟩ [] (sampleAnswer (.sampleDelayed 1000 604800))
        [Address.sample 6, Address.sample 7] [⟨block, now⟩] state b ∧
      block.blockTime = 1000 ∧
      block.summary.delayedOf (Address.sample 6) = [(1, ⟨604800, 5⟩)] ∧
      block.summary.delayedOf (Address.sample 7) = [] ∧
      (ReadBlock.mk block now).released (Address.sample 6) = [(1, ⟨604800, 5⟩)] ∧
      state.balance (Address.sample 6) 1 = 5 := by
  have hread : ∃ r, FinalBlock.create ChainState.empty
        ⟨sampleAnswer (.sampleDelayed 1000 604800), 8⟩ = .ok r ∧
      r.1.blockTime = 1000 ∧
      r.1.summary.delayedOf (Address.sample 6) = [(1, ⟨604800, 5⟩)] ∧
      r.1.summary.delayedOf (Address.sample 7) = [] ∧
      r.1.summary.coinsOf (Address.sample 6) = [] ∧
      r.1.summary.coinsOf (Address.sample 7) = [] := by
    decide +kernel
  obtain ⟨⟨block, b⟩, hr, htime, h6, h7, hc6, hc7⟩ := hread
  have hinside : 8 < (sampleAnswer (.sampleDelayed 1000 604800)).length := by
    have hpos := List.length_pos_of_ne_nil
      (FinalBlock.sampleDelayed 1000 604800).toBlockFields.getCanonical_ne_nil
    rw [sampleAnswer, List.length_append, length_leBytes]
    exact Nat.lt_add_of_pos_right hpos
  have hreleased : (ReadBlock.mk block now).released (Address.sample 6) =
      [(1, ⟨604800, 5⟩)] := by
    rw [ReadBlock.released, Summary.released, h6, ReadBlock.elapsed, htime]
    exact List.filter_cons_of_pos (decide_eq_true hnow)
  have hnone : (ReadBlock.mk block now).released (Address.sample 7) = [] := by
    rw [ReadBlock.released, Summary.released, h7, List.filter_nil]
  refine ⟨block, _, b, ⟨rfl, hinside.le, rfl, .turn hinside hr (.start _ _)⟩, htime, h6, h7,
    hreleased, ?_⟩
  simp only [ReadBlock.credits, List.flatMap_cons, List.flatMap_nil, hreleased, hnone, hc6, hc7]
  decide

/-- A week after the block, in milliseconds, the coins are released in time. -/
theorem handleBlocksSince_inTime_iff_sampleDelayed :
    ∃ (block : FinalBlock) (state : ChainState) (b : InputBuffer),
      BlocksRead .sampleHigh ⟨0, 1, 3, .t2⟩ [] (sampleAnswer (.sampleDelayed 1000 604800))
        [Address.sample 6, Address.sample 7] [⟨block, 604801000⟩] state b ∧
      state.balance (Address.sample 6) 1 = 5 ∧
      ∀ r ∈ [ReadBlock.mk block 604801000], ∀ addr ∈ [Address.sample 6, Address.sample 7],
        ∀ d ∈ r.released addr, InTime r.now r.block.blockTime d.2.delay := by
  obtain ⟨block, state, b, hread, htime, h6, h7, -, hbalance⟩ :=
    @blocksRead_sampleDelayed 604801000 (by decide)
  refine ⟨block, state, b, hread, hbalance, (handleBlocksSince_inTime_iff ?_ hread).2.mpr ?_⟩
  · exact List.forall_mem_singleton.mpr (show (604801000 : Nat) < 2 ^ 64 by decide)
  · simp only [List.forall_mem_singleton, List.forall_mem_cons, h6, h7, htime]
    decide

/-- With this clock the sample's coins are in the state, and they are early. -/
def SampleEarly (now : Nat) : Prop :=
  ∃ (block : FinalBlock) (state : ChainState) (b : InputBuffer),
    BlocksRead .sampleHigh ⟨0, 1, 3, .t2⟩ [] (sampleAnswer (.sampleDelayed 1000 604800))
      [Address.sample 6, Address.sample 7] [⟨block, now⟩] state b ∧
    state.balance (Address.sample 6) 1 = 5 ∧
    ∃ d ∈ (ReadBlock.mk block now).released (Address.sample 6),
      ¬ InTime now block.blockTime d.2.delay

theorem sampleEarly_of_not_inTime {now : Nat} (hnow : 604800 < toUint64 ((now : Int) - 1000))
    (hearly : ¬ InTime now 1000 604800) : SampleEarly now := by
  obtain ⟨block, state, b, hread, htime, -, -, hreleased, hbalance⟩ := blocksRead_sampleDelayed hnow
  refine ⟨block, state, b, hread, hbalance, (1, ⟨604800, 5⟩), ?_, ?_⟩
  · rw [hreleased]
    exact List.mem_singleton_self _
  · rw [htime]
    exact hearly

/-- A week is over after ten minutes and five seconds, and at once for a node whose clock is a
millisecond behind the block. -/
theorem sampleDelayed_early : SampleEarly 605801 ∧ SampleEarly 999 :=
  ⟨sampleEarly_of_not_inTime (by decide) (by decide),
    sampleEarly_of_not_inTime (by decide) (by decide)⟩

end Devcash
