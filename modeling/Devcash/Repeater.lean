import Devcash.ChainDump
import Devcash.Construction
import Devcash.DevvUri

/-! The searches of the repeater over the block files of a shard. `FinalBlock::Create` keeps
the transactions of a block as bytes only, and every transfer on an address counts. -/
namespace Devcash
open Endian Reader InputBuffer

/-- A file in the directory of a shard: the stem and the extension of its name. -/
structure BlockFile where
  stem : Text
  extension : Text
  content : Bytes

/-- The files in the order in which the directory lists them. -/
abbrev ShardDir := List BlockFile

def kBlockExtension : Text := ".blk".toList

def Signature.getRawSignature (s : Signature) : Result Bytes :=
  if s.isNull then .error (.runtime "Signature is not initialized!") else .ok s.canonical.tail

def Address.getAddressRaw (a : Address) : Result Bytes :=
  if a.isNull then .error (.runtime "Address is not initialized!") else .ok a.canonical.tail

namespace Repeater

def highestFrom (highest : Nat) (file : BlockFile) : Result Nat := do
  let number ← stoul file.stem
  let someBlock := u32 number
  .ok (if someBlock > highest then someBlock else highest)

def getHighestBlock (dir : ShardDir) : Result Nat := dir.foldlM highestFrom 0

/-- `ReadBlock`. The size of a file that is not there is `-1`, which cannot be reserved. -/
def readBlock (dir : ShardDir) (block : Nat) : Result Bytes :=
  match dir.find? (fun file => file.stem = toText block ∧ file.extension = kBlockExtension) with
  | some file => .ok file.content
  | none => .error (.logic "vector::reserve")

def readFinalBlock (dir : ShardDir) (block : Nat) : Result FinalBlock := do
  let data ← readBlock dir block
  let r ← FinalBlock.create ChainState.empty (ofBytes data)
  .ok r.1

section
variable {σ ρ : Type}

/-- `for (uint32_t i=start_block; i<=highest; ++i)` over the blocks: a visit returns from the
function or goes on with its variables. -/
def forBlocks (visit : Nat → FinalBlock → σ → Result (ρ ⊕ σ)) (dir : ShardDir) (highest : Nat) :
    Nat → Nat → σ → Result (ρ ⊕ σ)
  | 0, i, s => if i ≤ highest then .error .diverges else .ok (.inr s)
  | fuel+1, i, s =>
    if i ≤ highest then do
      let block ← readFinalBlock dir i
      match ← visit i block s with
      | .inl r => .ok (.inl r)
      | .inr s => forBlocks visit dir highest fuel (u32 (i + 1)) s
    else .ok (.inr s)

end

/-- The loop over the transactions of a block. -/
def hasSignature (txId : Signature) : List Transaction → Result Bool
  | [] => .ok false
  | tx :: txs => do
    let sig ← tx.getSignature
    if sig = txId then .ok true else hasSignature txId txs

def visitTransaction (txId : Signature) (i : Nat) (oneBlock : FinalBlock) (_ : Unit) :
    Result (Nat ⊕ Unit) := do
  let found ← hasSignature txId oneBlock.transactionVector
  .ok (if found then .inl i else .inr ())

def searchForTransaction (fuel : Nat) (dir : ShardDir) (startBlock : Nat) (txId : Signature) :
    Result Nat := do
  let highest ← getHighestBlock dir
  if highest < startBlock then .ok kUint32Max
  else
    let _target ← txId.getRawSignature
    match ← forBlocks (visitTransaction txId) dir highest fuel startBlock () with
    | .inl i => .ok i
    | .inr _ => .ok kUint32Max

/-- A transaction is pushed for each of its transfers on the address. -/
def matchTransfers (addr : Address) (tx : Bytes) : Result (List Bytes) := do
  let r ← Tier2Transaction.quickCreate (ofBytes tx)
  let xfers ← r.1.getTransfers
  let addrs ← xfers.mapM Transfer.getAddress
  .ok ((addrs.filter (· = addr)).map (fun _ => tx))

def visitAddress (addr : Address) (_ : Nat) (oneBlock : FinalBlock) (txs : List Bytes) :
    Result (Empty ⊕ List Bytes) := do
  let found ← oneBlock.rawTransactions.mapM (matchTransfers addr)
  .ok (.inr (txs ++ found.flatten))

def searchForAddress (fuel : Nat) (dir : ShardDir) (startBlock : Nat) (addr : Address) :
    Result (List Bytes) := do
  let highest ← getHighestBlock dir
  if highest < startBlock then .ok []
  else
    let _target ← addr.getAddressRaw
    match ← forBlocks (visitAddress addr) dir highest fuel startBlock [] with
    | .inr txs => .ok txs

/-- The directory holds these blocks, numbered from 0, and nothing else. -/
structure Holds (dir : ShardDir) (blocks : List FinalBlock) : Prop where
  only : ∀ file ∈ dir, ∃ i f, blocks[i]? = some f ∧
    file = ⟨toText i, kBlockExtension, f.getCanonical⟩
  all : ∀ i f, blocks[i]? = some f → ⟨toText i, kBlockExtension, f.getCanonical⟩ ∈ dir

theorem toText_injective {m n : Nat} (h : toText m = toText n) : m = n := by
  have hvalue := congrArg (Nat.ofDigitChars 10 · 0) h
  simpa only [toText, Nat.ofDigitChars_ten_toDigits] using hvalue

/-- What the fold over the files keeps: no number is above the highest one. -/
theorem getHighestBlock_ge {dir : ShardDir} {init highest : Nat}
    (h : dir.foldlM highestFrom init = .ok highest) : init ≤ highest ∧
      ∀ file ∈ dir, ∃ n, stoul file.stem = .ok n ∧ u32 n ≤ highest := by
  induction dir generalizing init with
  | nil =>
    cases h
    exact ⟨le_refl _, by simp⟩
  | cons file dir ih =>
    rw [List.foldlM_cons] at h
    obtain ⟨next, hnext, h⟩ := Result.bind_eq_ok h
    obtain ⟨n, hn, hnext⟩ := Result.bind_eq_ok hnext
    obtain ⟨hle, hall⟩ := ih h
    have hmax := Except.ok.inj hnext
    have hbound : init ≤ next ∧ u32 n ≤ next := by
      rw [← hmax]
      split_ifs <;> omega
    exact ⟨by omega, List.forall_mem_cons.mpr ⟨⟨n, hn, by omega⟩, hall⟩⟩

theorem getHighestBlock_ok {dir : ShardDir} {bound : Nat} (init : Nat) (hinit : init ≤ bound)
    (h : ∀ file ∈ dir, ∃ n, stoul file.stem = .ok n ∧ u32 n ≤ bound) :
    ∃ highest, dir.foldlM highestFrom init = .ok highest ∧ highest ≤ bound := by
  induction dir generalizing init with
  | nil => exact ⟨init, rfl, hinit⟩
  | cons file dir ih =>
    obtain ⟨⟨n, hn, hle⟩, hall⟩ := List.forall_mem_cons.mp h
    have hnext : highestFrom init file = .ok (if u32 n > init then u32 n else init) := by
      rw [highestFrom, hn]
      rfl
    obtain ⟨highest, hfold, hbound⟩ := ih (if u32 n > init then u32 n else init)
      (by split_ifs <;> omega) hall
    refine ⟨highest, ?_, hbound⟩
    rw [List.foldlM_cons, hnext]
    exact hfold

section
variable {dir : ShardDir} {blocks : List FinalBlock} (h : Holds dir blocks)
include h

theorem Holds.getHighestBlock (hne : blocks ≠ []) (hle : blocks.length ≤ 2 ^ 32) :
    getHighestBlock dir = .ok (blocks.length - 1) := by
  have hpos := List.length_pos_iff.mpr hne
  have hall : ∀ file ∈ dir, ∃ n, stoul file.stem = .ok n ∧ u32 n ≤ blocks.length - 1 := by
    intro file hfile
    obtain ⟨i, f, hf, rfl⟩ := h.only file hfile
    have hi := (List.getElem?_eq_some_iff.mp hf).1
    exact ⟨i, stoul_toText (by omega), by rw [u32_of_lt (by omega)]; omega⟩
  obtain ⟨highest, hget, hbound⟩ := getHighestBlock_ok 0 (Nat.zero_le _) hall
  have hlast : blocks[blocks.length - 1]? = some blocks[blocks.length - 1] :=
    List.getElem?_eq_getElem (by omega)
  obtain ⟨n, hn, hle'⟩ := (getHighestBlock_ge hget).2 _ (h.all _ _ hlast)
  rw [stoul_toText (by omega)] at hn
  cases hn
  rw [u32_of_lt (by omega)] at hle'
  rw [Repeater.getHighestBlock, hget, Nat.le_antisymm hbound hle']

theorem Holds.highest_of_wide (hwide : 2 ^ 32 ≤ blocks.length) {highest : Nat}
    (hget : Repeater.getHighestBlock dir = .ok highest) : 2 ^ 32 - 1 ≤ highest := by
  have hlast : blocks[2 ^ 32 - 1]? = some (blocks[2 ^ 32 - 1]) :=
    List.getElem?_eq_getElem (by omega)
  obtain ⟨n, hn, hle⟩ := (getHighestBlock_ge hget).2 _ (h.all _ _ hlast)
  rw [stoul_toText (by decide)] at hn
  cases hn
  exact hle

theorem Holds.readBlock {i : Nat} {f : FinalBlock} (hf : blocks[i]? = some f) :
    readBlock dir i = .ok f.getCanonical := by
  cases hfind : dir.find?
      (fun file => file.stem = toText i ∧ file.extension = kBlockExtension) with
  | none =>
    have hnot := List.find?_eq_none.mp hfind _ (h.all i f hf)
    exact absurd (decide_eq_true ⟨rfl, rfl⟩) hnot
  | some file =>
    have hname := List.find?_some hfind
    rw [decide_eq_true_eq] at hname
    obtain ⟨j, g, hg, rfl⟩ := h.only file (List.mem_of_find?_eq_some hfind)
    cases toText_injective hname.1
    cases hf.symm.trans hg
    simp only [Repeater.readBlock, hfind]

end

/-- A block that `FinalBlock::Create` reads. -/
structure Stored (f : FinalBlock) : Prop where
  tier2 : f.IsTier2
  addresses : f.summary.summary.size < 2 ^ 32

theorem transactionVector_create {prior : ChainState} {b b' : InputBuffer} {f : FinalBlock}
    (h : FinalBlock.create prior b = .ok (f, b')) : f.transactionVector = [] := by
  simp only [FinalBlock.create, FinalBlock.parse] at h
  split_ifs at h
  obtain ⟨version, b1, -, h⟩ := bind_eq_ok h
  split_ifs at h with hversion
  · cases h
  obtain ⟨numBytes, b2, -, h⟩ := bind_eq_ok h
  split_ifs at h with hsize
  · cases h
  obtain ⟨blockTime, b3, -, h⟩ := bind_eq_ok h
  obtain ⟨prevHash, b4, -, h⟩ := bind_eq_ok h
  obtain ⟨merkleRoot, b5, -, h⟩ := bind_eq_ok h
  obtain ⟨txSize, b6, -, h⟩ := bind_eq_ok h
  obtain ⟨sumSize, b7, -, h⟩ := bind_eq_ok h
  obtain ⟨valCount, b8, -, h⟩ := bind_eq_ok h
  obtain ⟨⟨txs, raws⟩, b9, htxs, h⟩ := bind_eq_ok h
  obtain ⟨summary, b10, -, h⟩ := bind_eq_ok h
  obtain ⟨vals, b11, -, h⟩ := bind_eq_ok h
  obtain ⟨raw, b12, -, htxs⟩ := bind_eq_ok htxs
  cases pure_eq_ok htxs
  cases pure_eq_ok h
  rfl

theorem readFinalBlock_vector {dir : ShardDir} {i : Nat} {g : FinalBlock}
    (h : readFinalBlock dir i = .ok g) : g.transactionVector = [] := by
  obtain ⟨data, -, h⟩ := Result.bind_eq_ok h
  obtain ⟨r, hcreate, h⟩ := Result.bind_eq_ok h
  cases h
  exact transactionVector_create hcreate

theorem Holds.readFinalBlock {dir : ShardDir} {blocks : List FinalBlock} (h : Holds dir blocks)
    {i : Nat} {f : FinalBlock} (hf : blocks[i]? = some f) (hstored : Stored f) :
    ∃ g, readFinalBlock dir i = .ok g ∧ g.rawTransactions = f.rawTransactions := by
  have hbuf : Addressable ([] ++ f.getCanonical ++ []) := by
    rw [Addressable, List.nil_append, List.append_nil, ← hstored.tier2.numBytes_eq]
    exact hstored.tier2.numBytes
  obtain ⟨g, hcreate, hsame⟩ := FinalBlock.readsIn_create hstored.tier2 hstored.addresses
    ChainState.empty [] [] hbuf
  rw [List.nil_append, List.append_nil] at hcreate
  refine ⟨g, ?_, hsame.rawTransactions⟩
  rw [Repeater.readFinalBlock, h.readBlock hf, Result.bind_ok]
  change (FinalBlock.create ChainState.empty ⟨f.getCanonical, 0⟩ >>= _) = _
  rw [show (0 : Nat) = ([] : Bytes).length from rfl, hcreate]
  rfl

section
variable {σ ρ : Type} {visit : Nat → FinalBlock → σ → Result (ρ ⊕ σ)} {dir : ShardDir}

/-- With the largest number for the highest block the index wraps, and the loop never ends. -/
theorem forBlocks_wraps (hvisit : ∀ i g s r, readFinalBlock dir i = .ok g →
      visit i g s ≠ .ok (.inl r)) {highest : Nat} (hhigh : 2 ^ 32 - 1 ≤ highest) (fuel : Nat)
    {i : Nat} (hi : i < 2 ^ 32) (s : σ) (x : ρ ⊕ σ) :
    forBlocks visit dir highest fuel i s ≠ .ok x := by
  have hle : i ≤ highest := by omega
  induction fuel generalizing i s with
  | zero =>
    rw [forBlocks, if_pos hle]
    intro h
    cases h
  | succ fuel ih =>
    rw [forBlocks, if_pos hle]
    intro h
    obtain ⟨g, hread, h⟩ := Result.bind_eq_ok h
    obtain ⟨y, hstep, h⟩ := Result.bind_eq_ok h
    cases y with
    | inl r => exact hvisit i g s r hread hstep
    | inr s' =>
      have hnext : u32 (i + 1) < 2 ^ 32 := Nat.mod_lt _ (by decide)
      exact ih hnext s' (by omega) h

theorem forBlocks_ne_inl (hvisit : ∀ i g s r, readFinalBlock dir i = .ok g →
      visit i g s ≠ .ok (.inl r)) {highest : Nat} (fuel i : Nat) (s : σ) (r : ρ) :
    forBlocks visit dir highest fuel i s ≠ .ok (.inl r) := by
  induction fuel generalizing i s with
  | zero =>
    rw [forBlocks]
    split_ifs <;> exact fun h => by cases h
  | succ fuel ih =>
    rw [forBlocks]
    split_ifs
    · intro h
      obtain ⟨g, hread, h⟩ := Result.bind_eq_ok h
      obtain ⟨y, hstep, h⟩ := Result.bind_eq_ok h
      cases y with
      | inl r' => exact hvisit i g s r' hread hstep
      | inr s' => exact ih _ s' h
    · intro h
      cases h

theorem forBlocks_visits {blocks : List FinalBlock} (h : Holds dir blocks)
    (hstored : ∀ f ∈ blocks, Stored f) (hlt : blocks.length < 2 ^ 32) {step : σ → FinalBlock → σ}
    (hvisit : ∀ i g s, ∀ f ∈ blocks, g.transactionVector = [] →
      g.rawTransactions = f.rawTransactions → visit i g s = .ok (.inr (step s f)))
    (fuel : Nat) {i : Nat} (hi : i ≤ blocks.length) (hfuel : blocks.length ≤ i + fuel)
    (hpos : 0 < blocks.length) (s : σ) :
    forBlocks visit dir (blocks.length - 1) fuel i s =
      .ok (.inr ((blocks.drop i).foldl step s)) := by
  induction fuel generalizing i s with
  | zero =>
    have hdone : i = blocks.length := by omega
    rw [forBlocks, if_neg (by omega), hdone, List.drop_length, List.foldl_nil]
  | succ fuel ih =>
    rw [forBlocks]
    split_ifs with hmore
    · have hlast : i < blocks.length := by omega
      have hf : blocks[i]? = some blocks[i] := List.getElem?_eq_getElem hlast
      obtain ⟨g, hread, hraw⟩ := h.readFinalBlock hf (hstored _ (List.getElem_mem hlast))
      have hstep := hvisit i g s blocks[i] (List.getElem_mem hlast)
        (readFinalBlock_vector hread) hraw
      rw [hread, Result.bind_ok, hstep, Result.bind_ok, u32_of_lt (by omega),
        List.drop_eq_getElem_cons hlast, List.foldl_cons]
      exact ih (by omega) (by omega) _
    · have hdone : i = blocks.length := by omega
      rw [hdone, List.drop_length, List.foldl_nil]

theorem forBlocks_mono {highest fuel : Nat} (k : Nat) {i : Nat} {s : σ} {x : ρ ⊕ σ}
    (h : forBlocks visit dir highest fuel i s = .ok x) :
    forBlocks visit dir highest (fuel + k) i s = .ok x := by
  induction fuel generalizing i s with
  | zero =>
    rw [forBlocks] at h
    split_ifs at h with hmore
    cases k with
    | zero => rwa [Nat.add_zero, forBlocks, if_neg hmore]
    | succ k => rwa [Nat.zero_add, forBlocks, if_neg hmore]
  | succ fuel ih =>
    rw [Nat.succ_add, forBlocks]
    rw [forBlocks] at h
    split_ifs at h ⊢ with hmore
    · obtain ⟨g, hread, h⟩ := Result.bind_eq_ok h
      obtain ⟨y, hstep, h⟩ := Result.bind_eq_ok h
      rw [hread, Result.bind_ok, hstep, Result.bind_ok]
      cases y with
      | inl r => exact h
      | inr s' => exact ih h
    · exact h

end

/-- A block holds a transaction with the signature. -/
def Contains (f : FinalBlock) (sig : Signature) : Prop :=
  ∃ c ∈ f.rawTransactions, (sig.IsWallet ∨ sig.IsNode) ∧
    ∃ (oper : Byte) (xfers : List Transfer) (nonce : Bytes),
      oper.toNat < OpType.numOperations ∧ kMinNonceSize ≤ nonce.length ∧
        c = Tier2Transaction.layout oper xfers nonce ++ sig.canonical

/-- No block from the first one on holds such a transaction. -/
def Absent (blocks : List FinalBlock) (startBlock : Nat) (sig : Signature) : Prop :=
  ∀ j f, startBlock ≤ j → blocks[j]? = some f → ¬ Contains f sig

/-- The answer of a search: the first such block, or `UINT32_MAX` if there is none. -/
def Finds (blocks : List FinalBlock) (startBlock : Nat) (sig : Signature) (r : Nat) : Prop :=
  (∃ f, blocks[r]? = some f ∧ startBlock ≤ r ∧ Contains f sig ∧
    ∀ j g, startBlock ≤ j → j < r → blocks[j]? = some g → ¬ Contains g sig) ∨
  r = kUint32Max ∧ Absent blocks startBlock sig

theorem visitTransaction_none {txId : Signature} {g : FinalBlock} (hg : g.transactionVector = [])
    (i : Nat) (s : Unit) : visitTransaction txId i g s = .ok (.inr ()) := by
  rw [visitTransaction, hg]
  rfl

section
variable {dir : ShardDir} {blocks : List FinalBlock} (h : Holds dir blocks)
  (hstored : ∀ f ∈ blocks, Stored f) {startBlock : Nat} (hstart : startBlock < blocks.length)
  (hrange : startBlock ≤ kUint32Max)
include h hstart

include hrange in
theorem not_highest_lt {highest : Nat} (hget : getHighestBlock dir = .ok highest) :
    ¬ highest < startBlock := by
  have hmax : kUint32Max = 2 ^ 32 - 1 := rfl
  by_cases hwide : 2 ^ 32 ≤ blocks.length
  · have hhigh := h.highest_of_wide hwide hget
    omega
  · have hne : blocks ≠ [] := List.ne_nil_of_length_pos (by omega)
    have hhigh := Except.ok.inj (hget.symm.trans (h.getHighestBlock hne (by omega)))
    omega

omit hstart in
include hrange in
theorem length_lt_of_search {σ ρ : Type} {visit : Nat → FinalBlock → σ → Result (ρ ⊕ σ)}
    (hvisit : ∀ i g s r, readFinalBlock dir i = .ok g → visit i g s ≠ .ok (.inl r))
    {highest fuel : Nat} {s : σ} {x : ρ ⊕ σ} (hget : getHighestBlock dir = .ok highest)
    (hloop : forBlocks visit dir highest fuel startBlock s = .ok x) : blocks.length < 2 ^ 32 := by
  have hmax : kUint32Max = 2 ^ 32 - 1 := rfl
  by_contra hwide
  have hhigh := h.highest_of_wide (by omega) hget
  exact forBlocks_wraps hvisit hhigh fuel (by omega) s x hloop

include hstored

theorem searchForTransaction_blind {txId : Signature} (hnull : txId.isNull = false)
    (hlt : blocks.length < 2 ^ 32) :
    searchForTransaction blocks.length dir startBlock txId = .ok kUint32Max := by
  have hne : blocks ≠ [] := List.ne_nil_of_length_pos (by omega)
  have hloop : forBlocks (visitTransaction txId) dir (blocks.length - 1) blocks.length startBlock
      () = .ok (.inr ((blocks.drop startBlock).foldl (fun _ _ => ()) ())) :=
    forBlocks_visits h hstored hlt (fun i g s f _ hg _ => visitTransaction_none hg i s)
      blocks.length (Nat.le_of_lt hstart) (Nat.le_add_left _ _) (by omega) ()
  rw [searchForTransaction, h.getHighestBlock hne (by omega), Result.bind_ok, if_neg (by omega),
    Signature.getRawSignature, if_neg (by rw [hnull]; exact Bool.false_ne_true), Result.bind_ok,
    hloop]
  rfl

include hrange in
/-- The search for a transaction is right exactly if there is nothing to find, for a signature
that is not null and fewer blocks than the index can count. -/
theorem searchForTransaction_iff (txId : Signature) :
    (∃ fuel r, searchForTransaction fuel dir startBlock txId = .ok r ∧
      Finds blocks startBlock txId r) ↔
    txId.isNull = false ∧ blocks.length < 2 ^ 32 ∧ Absent blocks startBlock txId := by
  have hvisit : ∀ i g s r, readFinalBlock dir i = .ok g →
      visitTransaction txId i g s ≠ .ok (.inl r) := by
    intro i g s r hread hstep
    rw [visitTransaction_none (readFinalBlock_vector hread)] at hstep
    cases hstep
  constructor
  · rintro ⟨fuel, r, hsearch, hfinds⟩
    obtain ⟨highest, hget, hsearch⟩ := Result.bind_eq_ok hsearch
    rw [if_neg (not_highest_lt h hstart hrange hget)] at hsearch
    obtain ⟨target, htarget, hsearch⟩ := Result.bind_eq_ok hsearch
    obtain ⟨x, hloop, hsearch⟩ := Result.bind_eq_ok hsearch
    have hlt := length_lt_of_search h hrange hvisit hget hloop
    have hnull : txId.isNull = false := by
      rw [Signature.getRawSignature] at htarget
      split_ifs at htarget with hnull
      exact Bool.not_eq_true _ ▸ hnull
    have hr : r = kUint32Max := by
      cases x with
      | inl i => exact absurd hloop (forBlocks_ne_inl hvisit fuel startBlock () i)
      | inr s => exact (Except.ok.inj hsearch).symm
    refine ⟨hnull, hlt, ?_⟩
    cases hfinds with
    | inl hfound =>
      obtain ⟨f, hf, -⟩ := hfound
      have hbound := (List.getElem?_eq_some_iff.mp hf).1
      rw [hr, kUint32Max] at hbound
      omega
    | inr hnone => exact hnone.2
  · rintro ⟨hnull, hlt, habsent⟩
    exact ⟨blocks.length, kUint32Max,
      searchForTransaction_blind h hstored hstart hnull hlt, .inr ⟨rfl, habsent⟩⟩

end

theorem holds_single (f : FinalBlock) :
    Holds [⟨toText 0, kBlockExtension, f.getCanonical⟩] [f] := by
  constructor
  · intro file hfile
    exact ⟨0, f, rfl, List.mem_singleton.mp hfile⟩
  · intro i g hg
    obtain ⟨hi, rfl⟩ := List.getElem?_eq_some_iff.mp hg
    have hzero : i = 0 := Nat.lt_one_iff.mp hi
    subst hzero
    exact List.mem_singleton_self _

theorem stored_sampleTier2 : ∀ f ∈ [FinalBlock.sampleTier2], Stored f :=
  List.forall_mem_singleton.mpr ⟨FinalBlock.isTier2_sampleTier2, by decide⟩

/-- A directory with the block of the sample payment. -/
def sampleDir : ShardDir := [⟨toText 0, kBlockExtension, FinalBlock.sampleTier2.getCanonical⟩]

/-- A signature of nothing. -/
def sampleNowhere : Signature := ⟨73 :: List.replicate 73 0⟩

theorem searchForTransaction_iff_sampleNowhere :
    ∃ fuel r, searchForTransaction fuel sampleDir 0 sampleNowhere = .ok r ∧
      Finds [FinalBlock.sampleTier2] 0 sampleNowhere r := by
  have hnot : ¬ sampleNowhere.canonical <:+ Tier2Transaction.samplePayment.canonical := by
    decide +kernel
  refine (searchForTransaction_iff (holds_single _) stored_sampleTier2 Nat.one_pos (Nat.zero_le _)
    sampleNowhere).mpr ⟨rfl, by decide, ?_⟩
  intro j f _ hf hcontains
  have hmem := List.mem_of_getElem? hf
  rw [List.mem_singleton] at hmem
  obtain ⟨c, hc, -, oper, xfers, nonce, -, -, hbytes⟩ := hmem ▸ hcontains
  rw [List.mem_singleton.mp hc] at hbytes
  exact hnot ⟨_, hbytes.symm⟩

/-- The signature of the sample payment. -/
def sampleTxId : Signature := ⟨Tier2Transaction.samplePayment.canonical.drop 141⟩

theorem contains_sampleTxId : Contains FinalBlock.sampleTier2 sampleTxId := by
  have hsplit : Tier2Transaction.samplePayment.canonical =
      Tier2Transaction.layout OpType.exchange.toByte
        [Transfer.make (Address.sample 1) 1 (-5) 0, Transfer.make (Address.sample 2) 1 5 0]
        [0, 1, 2, 3, 4, 5, 6, 7] ++ (Ossl.toySignature (Address.sample 1) _).canonical := rfl
  have hid : sampleTxId = Ossl.toySignature (Address.sample 1) _ :=
    congrArg Signature.mk (hsplit ▸ List.drop_left' rfl)
  have hkind : sampleTxId.IsWallet := by
    rw [hid]
    exact Ossl.isWallet_toySignature rfl _
  rw [← hid] at hsplit
  exact ⟨_, List.mem_singleton_self _, .inl hkind, _, _, _, by decide, by decide, hsplit⟩

/-- The sample payment is in its block and is not found. -/
theorem searchForTransaction_misses : Holds sampleDir [FinalBlock.sampleTier2] ∧
    (∀ f ∈ [FinalBlock.sampleTier2], Stored f) ∧ Contains FinalBlock.sampleTier2 sampleTxId ∧
      searchForTransaction 1 sampleDir 0 sampleTxId = .ok kUint32Max :=
  ⟨holds_single _, stored_sampleTier2, contains_sampleTxId,
    searchForTransaction_blind (holds_single _) stored_sampleTier2 Nat.one_pos
      (by decide) (by decide)⟩

end Repeater
end Devcash
