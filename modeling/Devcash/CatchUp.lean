import Devcash.Handoff
import Devcash.Lib.Run

/-! Catching up across the tiers: a tier-2 node asks a tier-1 node for the blocks since the
height it knows, and the answer tells how far it reaches. Requests, answers and the growth
of the two chains come in any order. -/
namespace Devcash
open Endian Reader InputBuffer

/-- The key directory with its wallets, which only this exchange looks up by index. -/
structure WalletRing (o : Ossl) extends KeyRing o where
  walletList : List Address

def WalletRing.getDesignatedWallets {o : Ossl} (keys : WalletRing o) (index : Nat) :
    Result (List Address) :=
  match keys.walletList[index * 2]?, keys.walletList[index * 2 + 1]? with
  | some first, some second => .ok [first, second]
  | _, _ => .error .outOfRange

/-- The coins of an address, the delayed ones whose time has passed included. -/
def Summary.getCoinsByAddr (s : Summary) (addr : Address) (elapsed : Nat) : List SmartCoin :=
  match s.summary.find? addr with
  | some existing =>
    (existing.1.entries.filter (fun d => d.2.delay < elapsed)).map
        (fun d => SmartCoin.make addr d.1 d.2.delta) ++
      existing.2.entries.map (fun c => SmartCoin.make addr c.1 c.2)
  | none => []

/-- The loop of `HandleBlocksSince`. A turn reads at least the version byte of a block. -/
def updateState (now : Nat) (wallets : List Address) : Nat → ChainState → BufReader ChainState
  | 0, _ => fail Error.diverges
  | fuel + 1, state => fun b =>
    if b.offset < InputBuffer.size b then
      (do
        let oneBlock ← FinalBlock.create state
        let elapsed := toUint64 ((now : Int) - oneBlock.blockTime)
        updateState now wallets fuel (wallets.foldl (fun state addr =>
          state.addCoins (oneBlock.summary.getCoinsByAddr addr elapsed)) state)) b
    else .ok (state, b)

/-- `HandleBlocksSince`: the new value of `remote_blocks`. The updated state is local. -/
def handleBlocksSince {o : Ossl} (keys : WalletRing o) (context : DevcashContext)
    (finalChain : Blockchain) (now : Nat) (data : Bytes) (remoteBlocks : Nat) : Result Nat :=
  if data.length < 8 then .ok remoteBlocks
  else do
    let (height, b) ← getNextUint64 true (ofBytes data)
    match context.appMode with
    | .t2 => do
      let wallets ← keys.getDesignatedWallets context.currentShard
      let _ ← updateState now wallets (data.length + 1) finalChain.getHighestChainState b
      .ok (if height > remoteBlocks then height else remoteBlocks)
    | _ => .ok remoteBlocks

theorem handleBlocksSince_t2 {o : Ossl} {keys : WalletRing o} {context : DevcashContext}
    {finalChain : Blockchain} {now height remoteBlocks blocks : Nat} {data : Bytes}
    (hmode : context.appMode = .t2) (hheight : binToUint64 data 0 = .ok height)
    (h : handleBlocksSince keys context finalChain now data remoteBlocks = .ok blocks) :
    blocks = max remoteBlocks height := by
  have hlen : ¬ data.length < 8 := by
    have := (binToUint64_ok hheight).1
    omega
  have hread : getNextUint64 true (ofBytes data) = .ok (height, ⟨data, 8⟩) := by
    simp only [getNextUint64, getWord, ofBytes, Nat.add_zero, hheight, if_true]
  rw [handleBlocksSince, if_neg hlen, hmode, hread] at h
  obtain ⟨read, hr, h⟩ := Result.bind_eq_ok h
  obtain ⟨wallets, -, h⟩ := Result.bind_eq_ok h
  obtain ⟨state, -, h⟩ := Result.bind_eq_ok h
  cases hr
  cases h
  rw [max_def]
  split_ifs <;> omega

/-- The answer of a tier-1 node: the blocks from the height asked for on, behind the height
the answer reaches. -/
theorem handleBlocksSinceRequest_t1 {o : Ossl} {keys : KeyRing o} {context : DevcashContext}
    {finalChain : Blockchain} {data : Bytes} {message : Answer} (hmode : context.appMode = .t1)
    (h : handleBlocksSinceRequest keys context finalChain data = .ok (some message)) :
    ∃ height, binToUint32 data 0 = .ok height ∧
      message.data = uint64ToBin (toUint64 ((finalChain.length : Int) - 1)) [] ++
        finalChain.partialBinaryDump height := by
  rw [handleBlocksSinceRequest] at h
  split at h
  · cases h
  · obtain ⟨height, hheight, h⟩ := Result.bind_eq_ok h
    obtain ⟨node, -, h⟩ := Result.bind_eq_ok h
    rw [hmode] at h
    cases h
    exact ⟨height, hheight, rfl⟩

/-- What the callback of the controller is given; `now` is what the clock shows. -/
inductive Incoming where
  | requestBlock
  | getBlocksSince (data : Bytes)
  | blocksSince (now : Nat) (data : Bytes)

/-- What it sends, each message to the node with an index. -/
inductive Outgoing where
  | getBlocksSince (node : Nat) (data : Bytes)
  | answer (message : Answer)

structure InternetworkController (o : Ossl) where
  keys : WalletRing o
  context : DevcashContext
  mode : AppMode

namespace InternetworkController
variable {o : Ossl} (c : InternetworkController o)

/-- The nodes asked for their blocks: those of two shards, or the one of the first shard. -/
def remoteNodes : List Nat :=
  let peers := c.context.getPeerCount
  let node := c.context.getCurrentNode
  match c.mode with
  | .t1 => [u32 (peers + node % peers), u32 (peers * 2 + node % peers)]
  | .t2 => [u32 (node % peers)]
  | .scan => []

/-- The height from which blocks are wanted and the node that wants them. -/
def request (remoteBlocks : Nat) : Bytes :=
  uint64ToBin c.context.getCurrentNode (uint64ToBin remoteBlocks [])

/-- The new value of `remote_blocks_` and the messages sent. -/
def messageCallback (finalChain : Blockchain) (remoteBlocks : Nat) :
    Incoming → Result (Nat × List Outgoing)
  | .requestBlock =>
    if remoteBlocks < finalChain.length then
      .ok (remoteBlocks, c.remoteNodes.map (fun node => .getBlocksSince node (c.request remoteBlocks)))
    else .ok (remoteBlocks, [])
  | .getBlocksSince data => do
    let message ← handleBlocksSinceRequest c.keys.toKeyRing c.context finalChain data
    .ok (remoteBlocks, message.toList.map .answer)
  | .blocksSince now data => do
    let remoteBlocks ← handleBlocksSince c.keys c.context finalChain now data remoteBlocks
    .ok (remoteBlocks, [])

end InternetworkController

/-- A node of each tier; `t1Blocks` is the `remote_blocks_` of the tier-1 node. -/
structure Tiers (o : Ossl) where
  t1 : InternetworkController o
  t2 : InternetworkController o
  t1Blocks : Nat
  t1Mode : t1.context.appMode = .t1
  t2Mode : t2.context.appMode = .t2

/-- The two chains, what the tier-2 node knows of the other one, the messages sent in both
directions and those that `HandleBlocksSince` has worked off. -/
structure Link where
  t1Chain : Blockchain
  t2Chain : Blockchain
  remoteBlocks : Nat
  requests : List Bytes
  answers : List Answer
  processed : List Bytes

/-- A message stays available: it can be delivered late, more than once or never. -/
inductive LinkAction where
  | growT1 (block : FinalBlock)
  | growT2 (block : FinalBlock)
  | requestBlock
  | answer (k : Nat)
  | receive (k : Nat) (now : Nat)

/-- The requests and the answers that reach a node. -/
def Outgoing.requestFor (node : Nat) : Outgoing → Option Bytes
  | .getBlocksSince receiver data => if receiver = node then some data else none
  | .answer _ => none

def Outgoing.answerFor (node : Nat) : Outgoing → Option Answer
  | .getBlocksSince _ _ => none
  | .answer message => if message.node = node then some message else none

namespace Link
variable {o : Ossl} (tiers : Tiers o)

def init : Link := ⟨[], [], 0, [], [], []⟩

def ask (s : Link) : Link :=
  match tiers.t2.messageCallback s.t2Chain s.remoteBlocks .requestBlock with
  | .error _ => s
  | .ok (_, sent) =>
    { s with requests := s.requests ++
        sent.filterMap (Outgoing.requestFor tiers.t1.context.getCurrentNode) }

def serve (s : Link) (data : Bytes) : Link :=
  match tiers.t1.messageCallback s.t1Chain tiers.t1Blocks (.getBlocksSince data) with
  | .error _ => s
  | .ok (_, sent) =>
    { s with answers := s.answers ++
        sent.filterMap (Outgoing.answerFor tiers.t2.context.getCurrentNode) }

/-- An exception leaves `remote_blocks_` as it is, and the message is not worked off. -/
def absorb (s : Link) (now : Nat) (data : Bytes) : Link :=
  match tiers.t2.messageCallback s.t2Chain s.remoteBlocks (.blocksSince now data) with
  | .error _ => s
  | .ok (remoteBlocks, _) =>
    { s with remoteBlocks := remoteBlocks, processed := s.processed ++ [data] }

def step (s : Link) : LinkAction → Link
  | .growT1 block => { s with t1Chain := s.t1Chain ++ [block] }
  | .growT2 block => { s with t2Chain := s.t2Chain ++ [block] }
  | .requestBlock => s.ask tiers
  | .answer k =>
    match s.requests[k]? with
    | none => s
    | some data => s.serve tiers data
  | .receive k now =>
    match s.answers[k]? with
    | none => s
    | some message =>
      match message.messageType with
      | .blocksSince => s.absorb tiers now message.data
      | .transactionAnnouncement => s

/-- A message holds the blocks of the chain from `start` to `stop` behind its height. -/
structure Holds (chain : Blockchain) (data : Bytes) (start stop : Nat) : Prop where
  inside : stop ≤ chain.length
  body : data.drop 8 = ((chain.take stop).drop start).flatMap (fun item => item.getCanonical)

/-- Each of the first `n` blocks was in a message that has been worked off. -/
def Seen (s : Link) (n : Nat) : Prop :=
  ∀ i < n, ∃ data ∈ s.processed, ∃ start stop,
    Holds s.t1Chain data start stop ∧ start ≤ i ∧ i < stop

structure SkipsNone (s : Link) : Prop where
  seen : s.Seen s.remoteBlocks
  within : s.remoteBlocks ≤ s.t1Chain.length

/-- The tier-1 node has a block when it answers. -/
def AnswersWithBlocks (s : Link) : LinkAction → Prop
  | .answer _ => 0 < s.t1Chain.length
  | _ => True

instance (s : Link) : ∀ a, Decidable (s.AnswersWithBlocks a)
  | .answer _ => inferInstanceAs (Decidable (0 < s.t1Chain.length))
  | .growT1 _ => isTrue trivial
  | .growT2 _ => isTrue trivial
  | .requestBlock => isTrue trivial
  | .receive _ _ => isTrue trivial

/-- Nothing is taken back: the tier-1 chain grows at its end, and what has been worked off
stays so. -/
structure Extends (s s' : Link) : Prop where
  t1Chain : s.t1Chain <+: s'.t1Chain
  processed : s.processed ⊆ s'.processed

theorem Extends.of_eq {s s' : Link} (hchain : s'.t1Chain = s.t1Chain)
    (hprocessed : s'.processed = s.processed) : Extends s s' := by
  refine ⟨?_, ?_⟩
  · exact hchain ▸ List.prefix_refl _
  · exact hprocessed ▸ List.Subset.refl _

theorem Holds.mono {chain chain' : Blockchain} {data : Bytes} {start stop : Nat}
    (hchain : chain <+: chain') (h : Holds chain data start stop) :
    Holds chain' data start stop := by
  obtain ⟨rest, rfl⟩ := hchain
  refine ⟨?_, ?_⟩
  · rw [List.length_append]
    exact Nat.le_add_right_of_le h.inside
  · rw [List.take_append_of_le_length h.inside]
    exact h.body

section
variable {s s' : Link}

theorem Seen.mono {n : Nat} (he : Extends s s') (h : s.Seen n) : s'.Seen n := by
  intro i hi
  obtain ⟨data, hdata, start, stop, hholds, hstart, hstop⟩ := h i hi
  exact ⟨data, he.processed hdata, start, stop, hholds.mono he.t1Chain, hstart, hstop⟩

theorem Seen.of_le {m n : Nat} (hmn : m ≤ n) (h : s.Seen n) : s.Seen m :=
  fun i hi => h i (Nat.lt_of_lt_of_le hi hmn)

theorem Seen.extend {data : Bytes} {start stop n : Nat} (h : s.Seen start)
    (hdata : data ∈ s.processed) (hholds : Holds s.t1Chain data start stop) (hn : n ≤ stop) :
    s.Seen n := by
  intro i hi
  cases Nat.lt_or_ge i start with
  | inl hlt => exact h i hlt
  | inr hge => exact ⟨data, hdata, start, stop, hholds, hge, Nat.lt_of_lt_of_le hi hn⟩

/-- An answer in flight: it starts where the other side has seen all blocks, and does not
report more blocks than it reaches. -/
def Covers (s : Link) (data : Bytes) : Prop :=
  ∃ height start stop, binToUint64 data 0 = .ok height ∧ height ≤ stop ∧
    Holds s.t1Chain data start stop ∧ s.Seen start

/-- The invariant: besides the property itself, a request asks for blocks from a height up
to which all are seen, and every answer covers what it reports. -/
structure Inv (s : Link) : Prop extends SkipsNone s where
  requests : ∀ data ∈ s.requests, ∀ height, binToUint32 data 0 = .ok height → s.Seen height
  answers : ∀ message ∈ s.answers, message.messageType = .blocksSince → s.Covers message.data

theorem Covers.mono {data : Bytes} (he : Extends s s') (h : s.Covers data) : s'.Covers data := by
  obtain ⟨height, start, stop, hheight, hle, hholds, hseen⟩ := h
  exact ⟨height, start, stop, hheight, hle, hholds.mono he.t1Chain, hseen.mono he⟩

end

theorem inv_init : init.Inv where
  seen := fun i hi => absurd hi (Nat.not_lt_zero i)
  within := Nat.le_refl 0
  requests := fun _ h => absurd h List.not_mem_nil
  answers := fun _ h => absurd h List.not_mem_nil

section
variable {tiers} {s : Link}

theorem Inv.mono {s' : Link} (h : s.Inv) (he : Extends s s')
    (hblocks : s'.remoteBlocks = s.remoteBlocks)
    (hrequests : ∀ data ∈ s'.requests, data ∈ s.requests ∨
      ∀ height, binToUint32 data 0 = .ok height → s.Seen height)
    (hanswers : ∀ message ∈ s'.answers, message ∈ s.answers ∨ s.Covers message.data) : s'.Inv where
  seen := by
    rw [hblocks]
    exact h.seen.mono he
  within := by
    rw [hblocks]
    exact h.within.trans he.t1Chain.length_le
  requests := by
    intro data hdata height hheight
    cases hrequests data hdata with
    | inl hold => exact (h.requests data hold height hheight).mono he
    | inr hnew => exact (hnew height hheight).mono he
  answers := by
    intro message hmem htype
    cases hanswers message hmem with
    | inl hold => exact (h.answers message hold htype).mono he
    | inr hnew => exact hnew.mono he

theorem ask_eq : ∃ sent, s.ask tiers = { s with requests := s.requests ++ sent } ∧
    ∀ data ∈ sent, data = tiers.t2.request s.remoteBlocks := by
  rw [ask, InternetworkController.messageCallback]
  split_ifs with h
  · refine ⟨_, rfl, fun data hdata => ?_⟩
    simp only [List.filterMap_map, List.mem_filterMap, Function.comp_apply,
      Outgoing.requestFor, Option.ite_none_right_eq_some, Option.some.injEq] at hdata
    obtain ⟨node, -, -, rfl⟩ := hdata
    rfl
  · exact ⟨[], rfl, fun _ h => absurd h List.not_mem_nil⟩

theorem serve_eq (data : Bytes) : ∃ sent, s.serve tiers data = { s with answers := s.answers ++ sent } ∧
    ∀ message ∈ sent, ∃ height, binToUint32 data 0 = .ok height ∧
      message.data = uint64ToBin (toUint64 ((s.t1Chain.length : Int) - 1)) [] ++
        s.t1Chain.partialBinaryDump height := by
  rw [serve, InternetworkController.messageCallback]
  cases h : handleBlocksSinceRequest tiers.t1.keys.toKeyRing tiers.t1.context s.t1Chain data with
  | error e => exact ⟨[], by rw [List.append_nil]; rfl, fun _ h => absurd h List.not_mem_nil⟩
  | ok answer =>
    refine ⟨_, rfl, fun message hmem => ?_⟩
    simp only [List.filterMap_map, List.mem_filterMap, Function.comp_apply, Outgoing.answerFor,
      Option.ite_none_right_eq_some, Option.some.injEq, Option.mem_toList] at hmem
    obtain ⟨_, rfl, -, rfl⟩ := hmem
    exact handleBlocksSinceRequest_t1 tiers.t1Mode h

theorem absorb_eq {now height : Nat} {data : Bytes} (hheight : binToUint64 data 0 = .ok height) :
    s.absorb tiers now data = s ∨
      s.absorb tiers now data =
        { s with remoteBlocks := max s.remoteBlocks height, processed := s.processed ++ [data] } := by
  rw [absorb, InternetworkController.messageCallback]
  cases h : handleBlocksSince tiers.t2.keys tiers.t2.context s.t2Chain now data s.remoteBlocks with
  | error e => exact Or.inl rfl
  | ok blocks =>
    cases handleBlocksSince_t2 tiers.t2Mode hheight h
    exact Or.inr rfl

theorem Inv.growT1 (h : s.Inv) (block : FinalBlock) :
    Inv { s with t1Chain := s.t1Chain ++ [block] } :=
  h.mono ⟨List.prefix_append _ _, List.Subset.refl _⟩ rfl (fun _ => Or.inl) (fun _ => Or.inl)

theorem Inv.growT2 (h : s.Inv) (block : FinalBlock) :
    Inv { s with t2Chain := s.t2Chain ++ [block] } :=
  h.mono (Extends.of_eq rfl rfl) rfl (fun _ => Or.inl) (fun _ => Or.inl)

/-- The height is written in eight bytes and read from the first four of them, so that a
request never asks from a greater height. -/
theorem height_request {c : InternetworkController o} {remoteBlocks height : Nat}
    (h : binToUint32 (c.request remoteBlocks) 0 = .ok height) : height ≤ remoteBlocks := by
  have hbytes : c.request remoteBlocks = leBytes 4 remoteBlocks ++
      (leBytes 4 (remoteBlocks / 2 ^ 32) ++ leBytes 8 c.context.getCurrentNode) := by
    rw [InternetworkController.request, uint64ToBin_eq, uint64ToBin_eq, leBytes_eight,
      List.nil_append, List.append_assoc]
  have hread := take_drop_leBytes []
    (leBytes 4 (remoteBlocks / 2 ^ 32) ++ leBytes 8 c.context.getCurrentNode) 4 remoteBlocks
  rw [hbytes, binToUint32_eq (by simp)] at h
  cases h
  rw [List.nil_append, List.length_nil] at hread
  rw [hread, leValue_leBytes]
  exact Nat.mod_le _ _

theorem Inv.ask (h : s.Inv) : (s.ask tiers).Inv := by
  obtain ⟨sent, heq, hsent⟩ := @ask_eq o tiers s
  rw [heq]
  refine h.mono (Extends.of_eq rfl rfl) rfl ?_ (fun _ => Or.inl)
  intro data hdata
  cases List.mem_append.mp hdata with
  | inl hold => exact Or.inl hold
  | inr hnew =>
    rw [hsent data hnew]
    exact Or.inr fun height hheight => h.seen.of_le (height_request hheight)

/-- With a block in the chain the height that the answer reports is at most where its blocks
end; without one it would be the greatest `uint64_t`. -/
theorem reported_le {chain : Blockchain} (h : 0 < chain.length) :
    toUint64 ((chain.length : Int) - 1) ≤ chain.length - 1 := by
  have hcast : ((chain.length : Int) - 1) = ((chain.length - 1 : Nat) : Int) := by omega
  rw [hcast, toUint64]
  omega

theorem Inv.serve (h : s.Inv) (hpos : 0 < s.t1Chain.length) {data : Bytes}
    (hdata : data ∈ s.requests) : (s.serve tiers data).Inv := by
  obtain ⟨sent, heq, hsent⟩ := @serve_eq o tiers s data
  rw [heq]
  refine h.mono (Extends.of_eq rfl rfl) rfl (fun _ => Or.inl) ?_
  intro message hmem
  cases List.mem_append.mp hmem with
  | inl hold => exact Or.inl hold
  | inr hnew =>
    obtain ⟨height, hheight, hmessage⟩ := hsent message hnew
    have hread := binToUint64_append [] (s.t1Chain.partialBinaryDump height) _
      (toUint64_lt ((s.t1Chain.length : Int) - 1))
    refine Or.inr ⟨_, height, s.t1Chain.length - 1, ?_, reported_le hpos, ⟨?_, ?_⟩,
      h.requests data hdata height hheight⟩
    · rw [hmessage, uint64ToBin_eq]
      exact hread
    · exact Nat.sub_le _ _
    · rw [hmessage, uint64ToBin_eq, ← List.dropLast_eq_take]
      exact List.drop_left' (length_leBytes 8 _)

theorem Inv.absorb (h : s.Inv) {data : Bytes} (hcovers : s.Covers data) (now : Nat) :
    (s.absorb tiers now data).Inv := by
  obtain ⟨height, start, stop, hheight, hle, hholds, hseen⟩ := hcovers
  cases absorb_eq hheight with
  | inl heq =>
    rw [heq]
    exact h
  | inr heq =>
    rw [heq]
    have he : Extends s
        { s with remoteBlocks := max s.remoteBlocks height, processed := s.processed ++ [data] } :=
      ⟨List.prefix_refl _, List.subset_append_left _ _⟩
    refine ⟨⟨?_, ?_⟩, ?_, ?_⟩
    · intro i hi
      cases lt_max_iff.mp hi with
      | inl hold => exact h.seen.mono he i hold
      | inr hnew =>
        exact (hseen.mono he).extend (List.mem_append_right _ List.mem_cons_self) hholds hle i hnew
    · exact max_le h.within (hle.trans hholds.inside)
    · exact fun data hdata height hheight => (h.requests data hdata height hheight).mono he
    · exact fun message hmem htype => (h.answers message hmem htype).mono he

theorem Inv.step {a : LinkAction} (h : s.Inv) (ha : s.AnswersWithBlocks a) :
    (s.step tiers a).Inv := by
  cases a with
  | growT1 block => exact h.growT1 block
  | growT2 block => exact h.growT2 block
  | requestBlock => exact h.ask
  | answer k =>
    rw [Link.step]
    cases hk : s.requests[k]? with
    | none => exact h
    | some data => exact h.serve ha (List.mem_of_getElem? hk)
  | receive k now =>
    rw [Link.step]
    cases hk : s.answers[k]? with
    | none => exact h
    | some message =>
      cases htype : message.messageType with
      | transactionAnnouncement =>
        simp only [htype]
        exact h
      | blocksSince =>
        simp only [htype]
        exact h.absorb (h.answers message (List.mem_of_getElem? hk) htype) now

end

end Link

/-- The first nodes of the first two shards. -/
def Tiers.sample : Tiers Ossl.toy where
  t1 := ⟨⟨KeyRing.toy, (List.range 4).map (fun n => Address.sample (UInt8.ofNat n))⟩,
    ⟨0, 0, 3, .t1⟩, .t1⟩
  t2 := ⟨⟨KeyRing.toy, (List.range 4).map (fun n => Address.sample (UInt8.ofNat n))⟩,
    ⟨0, 1, 3, .t2⟩, .t2⟩
  t1Blocks := 0
  t1Mode := rfl
  t2Mode := rfl

namespace Link

end Link
end Devcash
