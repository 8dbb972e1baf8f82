import Devcash.BlockTools
import Devcash.Handoff

/-! The file loop of the announcer: transactions are collected in a batch, and a batch is
pushed when it is full, when the operation changes and at the end of the file. -/
namespace Devcash
open Reader InputBuffer

namespace Announcer

structure Options where
  mode : AppMode
  batchSize : Nat
  distinctOps : Bool
  deriving DecidableEq, Repr

/-- The variables of the loop and the batches pushed. -/
structure Loader where
  transactions : List Bytes
  batch : Bytes
  batchBlocks : Nat
  lastOp : Byte
  firstFileTx : Bool
  deriving DecidableEq, Repr

namespace Loader

def start : Loader where
  transactions := []
  batch := []
  batchBlocks := 0
  lastOp := 99
  firstFileTx := true

def parallelPush (s : Loader) : Loader := { s with transactions := s.transactions ++ [s.batch] }

def flush (s : Loader) : Loader := { s.parallelPush with batch := [], batchBlocks := 0 }

/-- A transaction of another operation than the last one starts a new batch. -/
def noteOperation (s : Loader) (oper : Byte) : Loader :=
  let s := if s.firstFileTx = false ∧ oper ≠ s.lastOp then s.flush
    else { s with firstFileTx := false }
  { s with lastOp := oper }

def makeRoom (options : Options) (s : Loader) : Loader :=
  if options.batchSize ≤ s.batchBlocks then s.flush else s

def insert (s : Loader) (canon : Bytes) : Loader :=
  { s with batch := s.batch ++ canon, batchBlocks := u32 (s.batchBlocks + 1) }

def separateOps (options : Options) (s : Loader) (tx : Tier2Transaction) : Result Loader :=
  if options.distinctOps then do
    let oper ← tx.getOperation
    .ok (s.noteOperation oper)
  else .ok s

/-- A turn of the loop with a Tier-2 transaction. -/
def addTransaction (options : Options) (s : Loader) (tx : Tier2Transaction) : Result Loader := do
  let s ← s.separateOps options tx
  .ok ((s.makeRoom options).insert tx.getCanonical)

/-- A turn with a block: its Tier-1 transaction joins the batch. -/
def addBlock (s : Loader) (canon : Bytes) : Loader := { s with batch := s.batch ++ canon }

end Loader

section
variable {o : Ossl} (keys : KeyRing o) (options : Options)

section
variable (read : BufReader Tier2Transaction)

/-- The body of the loop over a file with the answers of the two tests; `read` stands for
`Tier2Transaction::Create`. -/
def loadTurn (isBlock isTransaction : Bool) (priori : ChainState) (s : Loader) :
    BufReader Loader := do
  if isBlock && options.mode = .t1 then
    let oneBlock ← FinalBlock.create priori
    let canon ← lift (tier1Canonical keys oneBlock)
    pure (s.addBlock canon)
  else if isTransaction && options.mode ≠ .t1 then
    let tx ← read
    lift (s.addTransaction options tx)
  else fail (.runtime "Unsupported configuration: is_transaction")

def loadFrom (isBlock isTransaction : Bool) (priori : ChainState) (fileSize : Nat) :
    Nat → Loader → BufReader Loader
  | 0, s => fun b => if b.offset < fileSize then .error .diverges else .ok (s, b)
  | fuel+1, s => fun b =>
    if b.offset < fileSize then
      (do
        let s ← loadTurn keys options read isBlock isTransaction priori s
        loadFrom isBlock isTransaction priori fileSize fuel s) b
    else .ok (s, b)

/-- The batches of a file; what is left of a batch is pushed at the end. -/
def loadWith (now : Nat) (priori : ChainState) (raw : Bytes) : Result (List Bytes) := do
  let isBlock ← isBlockData now raw
  let isTransaction ← isTxData raw
  let r ← loadFrom keys options read isBlock isTransaction priori raw.length (raw.length + 1) .start
    (ofBytes raw)
  .ok r.1.parallelPush.transactions

/-- The transactions of a file. -/
def readFile (raw : Bytes) : Result (List Tier2Transaction) := do
  let r ← whileBelow Error.diverges read raw.length (raw.length + 1) (ofBytes raw)
  .ok r.1

end

/-- The loop over a file as the announcer runs it. -/
def loadFile (now : Nat) (priori : ChainState) (raw : Bytes) : Result (List Bytes) :=
  loadWith keys options (Tier2Transaction.create keys true) now priori raw

end

/-- The batches made of a series of transactions. -/
def batches (options : Options) (txs : List Tier2Transaction) : Result (List Bytes) := do
  let s ← txs.foldlM (Loader.addTransaction options) .start
  .ok s.parallelPush.transactions

/-- The bytes of some transactions. -/
def encode (txs : List Tier2Transaction) : Bytes := txs.flatMap Tier2Transaction.getCanonical

section
variable {o : Ossl} {keys : KeyRing o} {options : Options} {read : BufReader Tier2Transaction}
  {isBlock : Bool} {priori : ChainState}

theorem loadFrom_eq (hmode : options.mode ≠ .t1) {fileSize fuel : Nat} {s : Loader}
    {txs : List Tier2Transaction} {b b' : InputBuffer}
    (h : whileBelow Error.diverges read fileSize fuel b = .ok (txs, b')) :
    loadFrom keys options read isBlock true priori fileSize fuel s b =
      lift (txs.foldlM (Loader.addTransaction options) s) b' := by
  induction fuel generalizing s txs b with
  | zero =>
    simp only [whileBelow] at h
    simp only [loadFrom]
    split_ifs at h ⊢
    cases h
    rfl
  | succ fuel ih =>
    simp only [whileBelow] at h
    simp only [loadFrom]
    split_ifs at h ⊢
    · obtain ⟨tx, b1, hread, h⟩ := bind_eq_ok h
      obtain ⟨rest, b2, hrest, h⟩ := bind_eq_ok h
      obtain ⟨rfl, rfl⟩ := Prod.mk.inj (pure_eq_ok h)
      have hturn : loadTurn keys options read isBlock true priori s b =
          lift (s.addTransaction options tx) b1 := by
        rw [loadTurn, if_neg (by simp [hmode]), if_pos (by simp [hmode])]
        exact bind_of_ok hread
      rw [List.foldlM_cons]
      cases hadd : s.addTransaction options tx with
      | error e =>
        rw [hadd] at hturn
        exact bind_of_error hturn
      | ok s1 =>
        rw [hadd] at hturn
        rw [bind_of_ok hturn, ih hrest]
        rfl
    · cases h
      rfl

theorem isBlockData_ok (now : Nat) (raw : Bytes) : ∃ isBlock, isBlockData now raw = .ok isBlock := by
  rw [isBlockData]
  split_ifs with hsize
  · exact ⟨_, rfl⟩
  · have hlen : 101 ≤ raw.length := Nat.le_of_not_lt hsize
    have hversion : subscript raw 0 = .ok (raw.get ⟨0, by omega⟩) := by
      rw [subscript, List.getElem?_eq_getElem (by omega)]
      rfl
    rw [hversion, Result.bind_ok]
    split_ifs
    · exact ⟨_, rfl⟩
    · rw [binToUint64_eq (by omega), Result.bind_ok]
      split_ifs <;> exact ⟨_, rfl⟩

/-- A file that is taken for one of transactions is announced in their batches. -/
theorem loadWith_eq (hmode : options.mode ≠ .t1) {raw : Bytes} {txs : List Tier2Transaction}
    (htx : isTxData raw = .ok true) (h : readFile read raw = .ok txs) (now : Nat) :
    loadWith keys options read now priori raw = batches options txs := by
  obtain ⟨isBlock, hblock⟩ := isBlockData_ok now raw
  obtain ⟨⟨txs', b⟩, hread, h⟩ := Result.bind_eq_ok h
  cases h
  rw [loadWith, hblock, htx, Result.bind_ok, Result.bind_ok, loadFrom_eq hmode hread, batches]
  cases txs'.foldlM (Loader.addTransaction options) .start <;> rfl

end

/-- A batch that respects the options. -/
structure Respects (options : Options) (group : List Tier2Transaction) : Prop where
  size : group.length ≤ options.batchSize
  ops : options.distinctOps → ∃ oper, ∀ tx ∈ group, tx.getOperation = .ok oper

/-- The batches pushed and the batch being filled, as groups of the transactions read. -/
structure Grouped (options : Options) (s : Loader) (groups : List (List Tier2Transaction))
    (cur : List Tier2Transaction) : Prop where
  pushed : s.transactions = groups.map encode
  respected : ∀ g ∈ groups, g ≠ [] ∧ Respects options g
  batch : s.batch = encode cur
  count : s.batchBlocks = cur.length
  room : cur.length ≤ options.batchSize
  ops : options.distinctOps → ∀ tx ∈ cur, tx.getOperation = .ok s.lastOp

namespace Grouped
variable {options : Options} {s : Loader} {groups : List (List Tier2Transaction)}
  {cur : List Tier2Transaction} (h : Grouped options s groups cur)
include h

theorem respects_cur : Respects options cur :=
  ⟨h.room, fun hd => ⟨s.lastOp, h.ops hd⟩⟩

theorem push (hcur : cur ≠ []) : s.parallelPush.transactions = (groups ++ [cur]).map encode ∧
    ∀ g ∈ groups ++ [cur], g ≠ [] ∧ Respects options g := by
  refine ⟨by simp [Loader.parallelPush, h.pushed, h.batch], ?_⟩
  intro g hg
  cases List.mem_append.mp hg with
  | inl hg => exact h.respected g hg
  | inr hg =>
    rw [List.mem_singleton.mp hg]
    exact ⟨hcur, h.respects_cur⟩

theorem flush (hcur : cur ≠ []) : Grouped options s.flush (groups ++ [cur]) [] :=
  ⟨(h.push hcur).1, (h.push hcur).2, rfl, rfl, Nat.zero_le _, by simp⟩

theorem noteOperation (hfirst : s.firstFileTx = cur.isEmpty) (oper : Byte) :
    ∃ groups' cur', groups'.flatten ++ cur' = groups.flatten ++ cur ∧
      Grouped options (s.noteOperation oper) groups' cur' ∧
      (s.noteOperation oper).lastOp = oper ∧ (s.noteOperation oper).firstFileTx = false := by
  by_cases hnew : s.firstFileTx = false ∧ oper ≠ s.lastOp
  · have hcur : cur ≠ [] := by
      rw [hfirst] at hnew
      simpa using hnew.1
    have hflush := h.flush hcur
    refine ⟨groups ++ [cur], [], by simp, ?_, rfl, ?_⟩
    · rw [Loader.noteOperation, if_pos hnew]
      exact ⟨hflush.pushed, hflush.respected, hflush.batch, hflush.count, hflush.room, by simp⟩
    · rw [Loader.noteOperation, if_pos hnew]
      exact hnew.1
  · refine ⟨groups, cur, rfl, ?_, rfl, ?_⟩
    · rw [Loader.noteOperation, if_neg hnew]
      refine ⟨h.pushed, h.respected, h.batch, h.count, h.room, ?_⟩
      intro hd tx htx
      have hsame : oper = s.lastOp := by
        rw [hfirst] at hnew
        by_contra hne
        exact hnew ⟨by simpa using List.ne_nil_of_mem htx, hne⟩
      rw [hsame]
      exact h.ops hd tx htx
    · rw [Loader.noteOperation, if_neg hnew]

/-- A full batch is pushed, so one more transaction fits. -/
theorem makeRoom (hsize : 0 < options.batchSize) :
    ∃ groups' cur', groups'.flatten ++ cur' = groups.flatten ++ cur ∧
      Grouped options (s.makeRoom options) groups' cur' ∧ cur'.length < options.batchSize ∧
      (s.makeRoom options).lastOp = s.lastOp ∧
      (s.makeRoom options).firstFileTx = s.firstFileTx := by
  rw [Loader.makeRoom, h.count]
  split_ifs with hfull
  · have hcur : cur ≠ [] := List.ne_nil_of_length_pos (by omega)
    exact ⟨groups ++ [cur], [], by simp, h.flush hcur, hsize, rfl, rfl⟩
  · exact ⟨groups, cur, rfl, h, by omega, rfl, rfl⟩

theorem insert (hlt : options.batchSize < 2 ^ 32) (hroom : cur.length < options.batchSize)
    {tx : Tier2Transaction} (hop : options.distinctOps → tx.getOperation = .ok s.lastOp) :
    Grouped options (s.insert tx.getCanonical) groups (cur ++ [tx]) := by
  refine ⟨h.pushed, h.respected, ?_, ?_, ?_, ?_⟩
  · simp [Loader.insert, encode, h.batch]
  · rw [Loader.insert, h.count, u32_of_lt (by omega), List.length_append, List.length_singleton]
  · rw [List.length_append, List.length_singleton]
    omega
  · intro hd
    exact List.forall_mem_append.mpr ⟨h.ops hd, List.forall_mem_singleton.mpr (hop hd)⟩

end Grouped

section
variable {options : Options} (hpos : 0 < options.batchSize) (hlt : options.batchSize < 2 ^ 32)
include hpos hlt

/-- One turn: what is grouped grows by the transaction, and the batch has begun. -/
theorem grouped_addTransaction {s : Loader} {groups : List (List Tier2Transaction)}
    {cur : List Tier2Transaction} (h : Grouped options s groups cur)
    (hfirst : options.distinctOps → s.firstFileTx = cur.isEmpty) {tx : Tier2Transaction}
    (hop : ∃ oper, tx.getOperation = .ok oper) :
    ∃ s' groups' cur', s.addTransaction options tx = .ok s' ∧ Grouped options s' groups' cur' ∧
      groups'.flatten ++ cur' = groups.flatten ++ cur ++ [tx] ∧ cur' ≠ [] ∧
      (options.distinctOps → s'.firstFileTx = cur'.isEmpty) := by
  obtain ⟨oper, hoper⟩ := hop
  rw [Loader.addTransaction, Loader.separateOps]
  cases hd : options.distinctOps with
  | true =>
    obtain ⟨groups1, cur1, heq1, h1, hlast, hflag⟩ := h.noteOperation (hfirst hd) oper
    obtain ⟨groups2, cur2, heq2, h2, hroom, hlast2, hflag2⟩ := h1.makeRoom hpos
    refine ⟨_, groups2, cur2 ++ [tx], by rw [if_pos rfl, hoper]; rfl,
      h2.insert hlt hroom (fun _ => by rw [hlast2, hlast, hoper]), ?_, by simp, ?_⟩
    · rw [← List.append_assoc, heq2, heq1]
    · intro _
      rw [Loader.insert, hflag2, hflag]
      simp
  | false =>
    obtain ⟨groups2, cur2, heq2, h2, hroom, -, -⟩ := h.makeRoom hpos
    refine ⟨_, groups2, cur2 ++ [tx], rfl, h2.insert hlt hroom (by simp [hd]), ?_, by simp,
      by simp⟩
    rw [← List.append_assoc, heq2]

theorem grouped_foldlM {txs : List Tier2Transaction}
    (hops : ∀ tx ∈ txs, ∃ oper, tx.getOperation = .ok oper) {s : Loader}
    {groups : List (List Tier2Transaction)} {cur : List Tier2Transaction}
    (h : Grouped options s groups cur)
    (hfirst : options.distinctOps → s.firstFileTx = cur.isEmpty) (hne : txs ≠ [] ∨ cur ≠ []) :
    ∃ s' groups' cur', txs.foldlM (Loader.addTransaction options) s = .ok s' ∧
      Grouped options s' groups' cur' ∧
      groups'.flatten ++ cur' = groups.flatten ++ cur ++ txs ∧ cur' ≠ [] := by
  induction txs generalizing s groups cur with
  | nil => exact ⟨s, groups, cur, rfl, h, by simp, by simpa using hne⟩
  | cons tx txs ih =>
    obtain ⟨hop, hops⟩ := List.forall_mem_cons.mp hops
    obtain ⟨s1, groups1, cur1, hadd, h1, heq1, hne1, hfirst1⟩ :=
      grouped_addTransaction hpos hlt h hfirst hop
    obtain ⟨s', groups', cur', hfold, h', heq', hne'⟩ := ih hops h1 hfirst1 (.inr hne1)
    refine ⟨s', groups', cur', ?_, h', ?_, hne'⟩
    · rw [List.foldlM_cons, hadd]
      exact hfold
    · rw [heq', heq1]
      simp

end

theorem nil_mem_flush {s : Loader} (h : [] ∈ s.transactions ∨ s.batch = []) :
    [] ∈ s.flush.transactions := by
  simp only [Loader.flush, Loader.parallelPush, List.mem_append, List.mem_singleton]
  exact h.imp_right Eq.symm

theorem nil_mem_noteOperation {s : Loader} (h : [] ∈ s.transactions ∨ s.batch = []) (oper : Byte) :
    [] ∈ (s.noteOperation oper).transactions ∨ (s.noteOperation oper).batch = [] := by
  rw [Loader.noteOperation]
  split_ifs with hnew
  · exact .inl (nil_mem_flush h)
  · exact h

theorem nil_mem_addTransaction {options : Options} (hzero : options.batchSize = 0)
    {s s' : Loader} {tx : Tier2Transaction} (hempty : [] ∈ s.transactions ∨ s.batch = [])
    (h : s.addTransaction options tx = .ok s') : [] ∈ s'.transactions := by
  obtain ⟨s1, hnote, h⟩ := Result.bind_eq_ok h
  have hempty1 : [] ∈ s1.transactions ∨ s1.batch = [] := by
    rw [Loader.separateOps] at hnote
    split_ifs at hnote
    · obtain ⟨oper, -, hnote⟩ := Result.bind_eq_ok hnote
      cases hnote
      exact nil_mem_noteOperation hempty oper
    · cases hnote
      exact hempty
  cases h
  rw [Loader.makeRoom, hzero, if_pos (Nat.zero_le _)]
  exact nil_mem_flush hempty1

theorem nil_mem_foldlM {options : Options} (hzero : options.batchSize = 0)
    {txs : List Tier2Transaction} (hne : txs ≠ []) {s s' : Loader}
    (hempty : [] ∈ s.transactions ∨ s.batch = [])
    (h : txs.foldlM (Loader.addTransaction options) s = .ok s') : [] ∈ s'.transactions := by
  induction txs generalizing s with
  | nil => exact absurd rfl hne
  | cons tx txs ih =>
    rw [List.foldlM_cons] at h
    obtain ⟨s1, hadd, h⟩ := Result.bind_eq_ok h
    have hmem := nil_mem_addTransaction hzero hempty hadd
    cases txs with
    | nil =>
      cases h
      exact hmem
    | cons tx' txs => exact ih (List.cons_ne_nil _ _) (.inl hmem) h

/-- What the options ask of the batches of a file. -/
structure Batched (options : Options) (txs : List Tier2Transaction) (out : List Bytes) : Prop where
  nonempty : ∀ batch ∈ out, batch ≠ []
  groups : ∃ groups : List (List Tier2Transaction), out = groups.map encode ∧
    groups.flatten = txs ∧ (0 < options.batchSize → ∀ g ∈ groups, g.length ≤ options.batchSize) ∧
    (options.distinctOps → ∀ g ∈ groups, ∃ oper, ∀ tx ∈ g, tx.getOperation = .ok oper)
  single : options.batchSize = 0 → options.distinctOps = false → out.length = 1

theorem encode_ne_nil {g : List Tier2Transaction} (hne : g ≠ [])
    (hops : ∀ tx ∈ g, ∃ oper, tx.getOperation = .ok oper) : encode g ≠ [] := by
  obtain ⟨tx, g, rfl⟩ := List.exists_cons_of_ne_nil hne
  obtain ⟨oper, hoper⟩ := hops tx List.mem_cons_self
  rw [encode, List.flatMap_cons]
  intro hnil
  have hcanon : tx.canonical = [] := (List.append_eq_nil_iff.mp hnil).1
  rw [Tier2Transaction.getOperation, hcanon] at hoper
  cases hoper

theorem batched_iff {options : Options} (hlt : options.batchSize < 2 ^ 32)
    {txs : List Tier2Transaction} (hne : txs ≠ [])
    (hops : ∀ tx ∈ txs, ∃ oper, tx.getOperation = .ok oper) :
    (∃ out, batches options txs = .ok out ∧ Batched options txs out) ↔ 0 < options.batchSize := by
  constructor
  · rintro ⟨out, hout, hbatched⟩
    by_contra hzero
    obtain ⟨s, hfold, hout⟩ := Result.bind_eq_ok hout
    have hmem := nil_mem_foldlM (Nat.eq_zero_of_not_pos hzero) hne (.inr rfl) hfold
    cases hout
    exact hbatched.nonempty [] (List.mem_append_left _ hmem) rfl
  · intro hpos
    have hstart : Grouped options .start [] [] :=
      ⟨rfl, by simp, rfl, rfl, Nat.zero_le _, by simp⟩
    obtain ⟨s, groups, cur, hfold, h, heq, hcur⟩ :=
      grouped_foldlM hpos hlt hops hstart (fun _ => rfl) (.inl hne)
    obtain ⟨hpush, hall⟩ := h.push hcur
    have hflat : (groups ++ [cur]).flatten = txs := by
      simpa using heq
    refine ⟨s.parallelPush.transactions, by rw [batches, hfold]; rfl, ?_, ?_, ?_⟩
    · intro batch hbatch
      rw [hpush] at hbatch
      obtain ⟨g, hg, rfl⟩ := List.mem_map.mp hbatch
      refine encode_ne_nil (hall g hg).1 ?_
      intro tx htx
      refine hops tx ?_
      rw [← hflat]
      exact List.mem_flatten_of_mem hg htx
    · exact ⟨groups ++ [cur], hpush, hflat, fun _ g hg => (hall g hg).2.size,
        fun hd g hg => (hall g hg).2.ops hd⟩
    · intro hzero
      omega

/-- The batches of a series of transactions, and of a file that is read as them, are as the options
ask exactly if the batch size is restricted. The decoder is arbitrary: `Tier2Transaction::Create`
reads a byte behind its vector, and nothing here depends on what stands there. -/
theorem batches_iff {options : Options} (hlt : options.batchSize < 2 ^ 32)
    {txs : List Tier2Transaction} (hne : txs ≠ [])
    (hops : ∀ tx ∈ txs, ∃ oper, tx.getOperation = .ok oper) :
    ((∃ out, batches options txs = .ok out ∧ Batched options txs out) ↔ 0 < options.batchSize) ∧
    ∀ {o : Ossl} (keys : KeyRing o) (read : BufReader Tier2Transaction) (now : Nat)
      (priori : ChainState) (raw : Bytes), options.mode ≠ .t1 → isTxData raw = .ok true →
      readFile read raw = .ok txs →
      ((∃ out, loadWith keys options read now priori raw = .ok out ∧ Batched options txs out) ↔
        0 < options.batchSize) := by
  refine ⟨batched_iff hlt hne hops, fun keys read now priori raw hmode htx hread => ?_⟩
  rw [loadWith_eq hmode htx hread]
  exact batched_iff hlt hne hops

/-- The sample payment as the decoder takes it, which leaves the last byte behind. -/
def sampleRead : Tier2Transaction :=
  { Tier2Transaction.samplePayment with canonical := Tier2Transaction.samplePayment.canonical.dropLast }

/-- Three payments of a file in batches of two. -/
theorem batches_iff_pairs : ∃ out,
    loadWith KeyRing.toy ⟨.t2, 2, true⟩ Tier2Transaction.quickCreate 0 ChainState.empty
      (encode (List.replicate 3 sampleRead)) = .ok out ∧
    Batched ⟨.t2, 2, true⟩ (List.replicate 3 sampleRead) out := by
  have hops : ∀ tx ∈ List.replicate 3 sampleRead, ∃ oper, tx.getOperation = .ok oper := by
    intro tx htx
    rw [List.eq_of_mem_replicate htx]
    exact ⟨_, rfl⟩
  have hfile : isTxData (encode (List.replicate 3 sampleRead)) = .ok true ∧
      readFile Tier2Transaction.quickCreate (encode (List.replicate 3 sampleRead)) =
        .ok (List.replicate 3 sampleRead) := by
    decide +kernel
  exact ((batches_iff (by decide) (by simp) hops).2 KeyRing.toy Tier2Transaction.quickCreate 0
    ChainState.empty _ (by decide) hfile.1 hfile.2).mpr (by decide)

/-- Without a restriction a file with one payment makes two batches, the first of them empty. -/
theorem batches_unrestricted :
    isTxData sampleRead.canonical = .ok true ∧
    readFile Tier2Transaction.quickCreate sampleRead.canonical = .ok [sampleRead] ∧
    loadWith KeyRing.toy ⟨.t2, 0, false⟩ Tier2Transaction.quickCreate 0 ChainState.empty
      sampleRead.canonical = .ok [[], sampleRead.canonical] := by
  decide +kernel

end Announcer
end Devcash
