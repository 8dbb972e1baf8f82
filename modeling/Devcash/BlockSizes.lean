import Devcash.Canonical
import Devcash.Votes

/-! The sizes that a proposal carries beside its parts, through everything that can happen
to it. -/
namespace Devcash
open Endian Reader InputBuffer

theorem Validation.length_insert_new {v : Validation} {node : Address}
    (hnew : node ∉ v.sigs.keys) (sig : Signature) :
    (Validation.getCanonical ⟨v.sigs.insert node sig⟩).length =
      v.getCanonical.length + (node.size + sig.size) := by
  have hperm := OrdMap.perm_insert_new hnew sig
  rw [getCanonical, (hperm.flatMap_right _).length_eq, List.flatMap_cons, List.length_append,
    List.length_append, Nat.add_comm]
  rfl

namespace ProposedBlock

/-- The fields agree with the parts: the count with the votes, the size with the bytes. -/
structure Sized (p : ProposedBlock) : Prop where
  valCount : p.valCount = p.vals.sigs.size
  numBytes : p.numBytes = u64 p.getCanonical.length

instance (p : ProposedBlock) : Decidable p.Sized :=
  decidable_of_iff (p.valCount = p.vals.sigs.size ∧ p.numBytes = u64 p.getCanonical.length)
    ⟨fun h => ⟨h.1, h.2⟩, fun h => ⟨h.valCount, h.numBytes⟩⟩

/-- The bytes of the transactions and of the summary. -/
def contentSize (p : ProposedBlock) : Nat :=
  p.rawTransactions.flatten.length + p.summary.getByteSize

/-- The two sizes of a proposal and a pair for each vote are the bytes that follow its
header. -/
def Matches (p : ProposedBlock) (v : Validation) : Prop :=
  u64 (p.txSize + p.sumSize + v.sigs.size * Validation.pairSize) =
    u64 (p.contentSize + v.getCanonical.length)

theorem length_getCanonical (p : ProposedBlock) :
    p.getCanonical.length = minSize + p.contentSize + p.vals.getCanonical.length := by
  rw [getCanonical_eq, List.length_append, length_header, sections, List.length_append,
    List.length_append, contentSize, Summary.getByteSize]
  omega

theorem u64_add_eq_iff (k x y : Nat) : u64 (k + x) = u64 (k + y) ↔ u64 x = u64 y := by
  simp only [u64]
  omega

theorem bytesFor_eq_iff (p : ProposedBlock) (v : Validation) :
    bytesFor p.txSize p.sumSize v.sigs.size =
      u64 (minSize + p.contentSize + v.getCanonical.length) ↔ p.Matches v := by
  rw [bytesFor, Matches, Nat.add_assoc, Nat.add_assoc, Nat.add_assoc minSize, u64_add_eq_iff,
    Nat.add_assoc]

theorem sized_setVals_iff (p : ProposedBlock) (v : Validation) :
    (p.setVals v).Sized ↔ v.sigs.size < 2 ^ 32 ∧ p.Matches v := by
  have hcount : (p.setVals v).valCount = u32 v.sigs.size := rfl
  have hnum : (p.setVals v).numBytes = bytesFor p.txSize p.sumSize (u32 v.sigs.size) := rfl
  have hlen : (p.setVals v).getCanonical.length =
      minSize + p.contentSize + v.getCanonical.length := length_getCanonical _
  have hfits : u32 v.sigs.size = v.sigs.size ↔ v.sigs.size < 2 ^ 32 :=
    ⟨fun h => h ▸ Nat.mod_lt _ (Nat.two_pow_pos 32), Nat.mod_eq_of_lt⟩
  constructor
  · intro h
    have hlt := hfits.mp (hcount.symm.trans h.valCount)
    refine ⟨hlt, (bytesFor_eq_iff p v).mp ?_⟩
    rw [← hlen, ← h.numBytes, hnum, hfits.mpr hlt]
  · rintro ⟨hlt, hmatches⟩
    refine ⟨hcount.trans (hfits.mpr hlt), ?_⟩
    rw [hnum, hlen, hfits.mpr hlt]
    exact (bytesFor_eq_iff p v).mpr hmatches

theorem sized_insert_iff {p : ProposedBlock} (hp : p.Sized) {node : Address} {sig : Signature}
    (hnode : node.size = kNodeAddrBufSize) (hsig : sig.IsNode) :
    Sized { p with
      vals := ⟨p.vals.sigs.insert node sig⟩
      valCount := u32 (p.valCount + 1)
      numBytes := bytesFor p.txSize p.sumSize (u32 (p.valCount + 1)) } ↔
    node ∉ p.vals.sigs.keys ∧ p.vals.sigs.size + 1 < 2 ^ 32 ∧ p.Matches p.vals := by
  by_cases hnew : node ∈ p.vals.sigs.keys
  · -- The map keeps its entry, and the count goes on.
    refine iff_of_false (fun h => ?_) (fun h => h.1 hnew)
    have hcount := h.valCount
    simp only [OrdMap.insert_of_mem hnew, ← hp.valCount, u32] at hcount
    omega
  · have hsize : (p.vals.sigs.insert node sig).size = p.vals.sigs.size + 1 :=
      OrdMap.size_insert_new hnew sig
    have hlen := Validation.length_insert_new hnew sig
    rw [hnode, show sig.size = kNodeSigBufSize from hsig.1, ← Validation.pairSize] at hlen
    have hsame : { p with
        vals := ⟨p.vals.sigs.insert node sig⟩
        valCount := u32 (p.valCount + 1)
        numBytes := bytesFor p.txSize p.sumSize (u32 (p.valCount + 1)) } =
        p.setVals ⟨p.vals.sigs.insert node sig⟩ := by
      rw [setVals, Validation.getValidationCount, hsize, hp.valCount]
    have hmatches : p.Matches ⟨p.vals.sigs.insert node sig⟩ ↔ p.Matches p.vals := by
      rw [Matches, Matches, hsize, hlen, Nat.succ_mul]
      simp only [u64]
      omega
    rw [hsame, sized_setVals_iff, hmatches, hsize]
    exact ⟨fun h => ⟨hnew, h⟩, fun h => h.2⟩

/-- `shallowCopy`: the block takes every field of the other one. -/
def shallowCopy (_p other : ProposedBlock) : ProposedBlock := other

/-- What `shallowCopy` leaves of the other block: its transactions and its summary are
moved away, and their containers are empty. -/
def movedFrom (other : ProposedBlock) : ProposedBlock :=
  { other with transactionVector := [], summary := Summary.empty }

theorem sized_movedFrom_iff {p : ProposedBlock} (hp : p.Sized) :
    p.movedFrom.Sized ↔ u64 p.contentSize = Summary.empty.getByteSize := by
  have hlen : p.movedFrom.getCanonical.length =
      minSize + Summary.empty.getByteSize + p.vals.getCanonical.length := by
    rw [length_getCanonical]
    rfl
  have hsame : u64 p.getCanonical.length = u64 p.movedFrom.getCanonical.length ↔
      u64 p.contentSize = Summary.empty.getByteSize := by
    rw [length_getCanonical, hlen]
    have hempty : Summary.empty.getByteSize = 4 := rfl
    simp only [hempty, u64]
    omega
  rw [← hsame, ← hp.numBytes]
  exact ⟨fun h => h.numBytes, fun h => ⟨hp.valCount, h⟩⟩

/-- What a decoded block was read from: its header stands at the offset, its sections behind it, and
the size in the header is that of the buffer. -/
theorem create_ok {o : Ossl} {keys : KeyRing o} {mode : AppMode} {prior : ChainState}
    {pre data : Bytes} {b : InputBuffer} {p : ProposedBlock}
    (h : create keys mode prior ⟨pre ++ data, pre.length⟩ = .ok (p, b)) :
    p.HeaderFits ∧ p.numBytes = (pre ++ data).length ∧ ∃ rest, data = p.header ++ rest ∧
      readSections keys mode minSize p.txSize ⟨pre ++ p.header ++ rest, (pre ++ p.header).length⟩ =
        .ok ((p.transactionVector, p.summary, p.vals), b) := by
  rw [create] at h
  split_ifs at h with hmin
  obtain ⟨version, b1, h1, h⟩ := bind_eq_ok h
  split_ifs at h with hversion
  · cases h
  obtain ⟨numBytes, b2, h2, h⟩ := bind_eq_ok h
  split_ifs at h with hsize
  · cases h
  obtain ⟨prevHash, b3, h3, h⟩ := bind_eq_ok h
  obtain ⟨txSize, b4, h4, h⟩ := bind_eq_ok h
  obtain ⟨sumSize, b5, h5, h⟩ := bind_eq_ok h
  obtain ⟨valCount, b6, h6, h⟩ := bind_eq_ok h
  obtain ⟨txs, b7, h7, h⟩ := bind_eq_ok h
  obtain ⟨summary, b8, h8, h⟩ := bind_eq_ok h
  obtain ⟨vals, b9, h9, h⟩ := bind_eq_ok h
  cases pure_eq_ok h
  obtain ⟨-, t1⟩ := takes_getNextByte _ _ _ h1
  obtain ⟨hnum, t2⟩ := takes_getNextUint64 _ _ _ h2
  obtain ⟨-, t3⟩ := takes_copyHash _ _ _ h3
  obtain ⟨htx, t4⟩ := takes_getNextUint64 _ _ _ h4
  obtain ⟨hsum, t5⟩ := takes_getNextUint64 _ _ _ h5
  obtain ⟨hval, t6⟩ := takes_getNextUint32 _ _ _ h6
  have htook := ((((t1.append t2).append t3).append t4).append t5).append t6
  obtain ⟨rest, hdata, hb6⟩ := htook.split
  refine ⟨⟨not_not.mp hversion, hnum, htx, hsum, hval⟩, (not_not.mp hsize).symm, rest, hdata, ?_⟩
  have hsections : readSections keys mode minSize txSize b6 = .ok ((txs, summary, vals), b) := by
    rw [readSections, bind_of_ok h7, bind_of_ok h8, bind_of_ok h9]
    rfl
  rw [hb6] at hsections
  exact hsections

theorem split_of_create {o : Ossl} {keys : KeyRing o} {mode : AppMode} {prior : ChainState}
    {b b' : InputBuffer} {p : ProposedBlock} (h : create keys mode prior b = .ok (p, b')) :
    ∃ pre data, b = ⟨pre ++ data, pre.length⟩ := by
  rw [create] at h
  split_ifs at h with hmin
  obtain ⟨version, b1, h1, -⟩ := bind_eq_ok h
  have hinside := (takes_getNextByte _ _ _ h1).2.inside (List.cons_ne_nil _ _)
  rw [List.length_singleton] at hinside
  refine ⟨b.buffer.take b.offset, b.buffer.drop b.offset, ?_⟩
  rw [List.take_append_drop, List.length_take, Nat.min_eq_left (by omega)]

/-- The bytes of a proposal whose sizes are right: behind the transactions stand the entries of a
summary in which nothing comes twice, then pairs of nodes, each once and as many as the header
counts, and nothing else. -/
structure Exact (mode : AppMode) (b : InputBuffer) (rs : List RawEntry)
    (ps : List (Address × Signature)) : Prop where
  start : b.offset = 0
  valid : Summary.RawValid rs
  distinct : Summary.RawDistinct rs
  nodes : ∀ p ∈ ps, p.1.IsNode ∧ p.2.IsNode
  once : (ps.map Prod.fst).Nodup
  count : binToUint32 b.buffer 57 = .ok ps.length
  behind : ∃ txSize q, binToUint64 b.buffer 41 = .ok txSize ∧
    Hops (Transaction.stride mode b.buffer) (u64 (minSize + txSize)) minSize q ∧
    b.buffer.drop q = Summary.rawBytes rs ++ ps.flatMap Validation.pairBytes

theorem binToUint64_header {p : ProposedBlock} (h : p.HeaderFits) (rest : Bytes) :
    binToUint64 (p.header ++ rest) 41 = .ok p.txSize := by
  have hread := binToUint64_append ([p.version] ++ leBytes 8 p.numBytes ++ p.prevHash.1)
    (leBytes 8 p.sumSize ++ leBytes 4 p.valCount ++ rest) p.txSize h.txSize
  simp only [List.length_append, length_leBytes, List.length_singleton, p.prevHash.2,
    List.append_assoc] at hread
  simp only [header, List.append_assoc]
  exact hread

theorem binToUint32_header {p : ProposedBlock} (h : p.HeaderFits) (rest : Bytes) :
    binToUint32 (p.header ++ rest) 57 = .ok p.valCount := by
  have hread := binToUint32_append ([p.version] ++ leBytes 8 p.numBytes ++ p.prevHash.1 ++
    leBytes 8 p.txSize ++ leBytes 8 p.sumSize) rest p.valCount h.valCount
  simp only [List.length_append, length_leBytes, List.length_singleton, p.prevHash.2,
    List.append_assoc] at hread
  simp only [header, List.append_assoc]
  exact hread

/-- No section gets longer on the way through the decoder, so the whole is as long as the
buffer only if each section is. -/
theorem sized_sections_iff {p : ProposedBlock} (hfits : p.HeaderFits) {pre tail : Bytes}
    {rs : List RawEntry} (hvalid : Summary.RawValid rs) (hs : p.summary = Summary.ofRaw rs)
    (hnum : p.numBytes = (pre ++ (p.header ++ (p.transactionVector.flatMap Transaction.getCanonical ++
      (Summary.rawBytes rs ++ tail)))).length)
    (hvotes : p.vals.getCanonical.length ≤ tail.length) :
    p.Sized ↔ p.valCount = p.vals.sigs.size ∧ pre = [] ∧ Summary.RawDistinct rs ∧
      p.vals.getCanonical.length = tail.length := by
  have hsum := Summary.length_ofRaw_le hvalid
  have hlt := hfits.numBytes
  have hlen : p.getCanonical.length = minSize +
      (p.transactionVector.flatMap Transaction.getCanonical).length +
      (Summary.ofRaw rs).getCanonical.length + p.vals.getCanonical.length := by
    rw [length_getCanonical, contentSize, rawTransactions, ← List.flatMap_def, hs,
      Summary.getByteSize]
    omega
  simp only [List.length_append, length_header] at hnum
  have hword : u64 p.getCanonical.length = p.getCanonical.length := u64_of_lt (by omega)
  rw [← Summary.length_ofRaw_eq_iff hvalid, ← List.length_eq_zero_iff]
  constructor
  · intro h
    have heq := h.numBytes.trans hword
    exact ⟨h.valCount, by omega, by omega, by omega⟩
  · rintro ⟨hcount, hpre, hentries, hpairs⟩
    exact ⟨hcount, by omega⟩

/-- A decoded block has the right sizes exactly if the decoder has lost nothing of its bytes. -/
theorem sized_create_iff {o : Ossl} {keys : KeyRing o} {mode : AppMode} {prior : ChainState}
    {b b' : InputBuffer} {p : ProposedBlock} (h : create keys mode prior b = .ok (p, b')) :
    p.Sized ↔ ∃ rs ps, Exact mode b rs ps := by
  obtain ⟨pre, data, rfl⟩ := split_of_create h
  obtain ⟨hfits, hnum, rest, rfl, hsections⟩ := create_ok h
  obtain ⟨rs, tail, rfl, hvalid, hs, hhops, before, hv⟩ := readSections_ok hsections
  obtain ⟨hle, hfull⟩ := Validation.create_ok hv
  have hdrop : (p.header ++ (p.transactionVector.flatMap Transaction.getCanonical ++
      (Summary.rawBytes rs ++ tail))).drop
        (p.header ++ p.transactionVector.flatMap Transaction.getCanonical).length =
      Summary.rawBytes rs ++ tail := by
    rw [← List.append_assoc, List.drop_left]
  rw [sized_sections_iff hfits hvalid hs hnum hle]
  constructor
  · rintro ⟨hcount, rfl, hdistinct, hlen⟩
    obtain ⟨ps, hpairs, honce, hvals⟩ := hfull hlen
    rw [List.nil_append, length_header] at hhops
    refine ⟨rs, ps, rfl, hvalid, hdistinct, hpairs.nodes, honce, ?_, p.txSize, _,
      binToUint64_header hfits _, hhops, ?_⟩
    · rw [List.nil_append, binToUint32_header hfits, hcount, hvals]
      exact congrArg Except.ok ((OrdMap.size_insertAll_eq_iff ps).mpr honce)
    · rw [← hpairs.bytes_eq]
      exact hdrop
  · rintro ⟨rs', ps, hstart, hvalid', hdistinct, hnodes, honce, hcount, txSize, q, htx, hhops',
      hdrop'⟩
    obtain rfl : pre = [] := List.length_eq_zero_iff.mp hstart
    rw [List.nil_append, length_header] at hhops
    -- The transactions end in one place, and the entries there can be read in one way.
    cases (binToUint64_header hfits _).symm.trans htx
    cases hhops.unique hhops'
    obtain ⟨rfl, htail⟩ := Summary.codec_readRaw.unique hvalid hvalid' (hdrop.symm.trans hdrop')
    have hpairs : Validation.OfPairs tail ps := ⟨hnodes, htail⟩
    have hvals : p.vals = ⟨OrdMap.empty.insertAll ps⟩ :=
      (Prod.mk.inj (Except.ok.inj (hv.symm.trans (hpairs.create before)))).1
    have hsize : p.valCount = ps.length :=
      Except.ok.inj ((binToUint32_header hfits _).symm.trans hcount)
    refine ⟨?_, rfl, hdistinct, ?_⟩
    · rw [hsize, hvals]
      exact ((OrdMap.size_insertAll_eq_iff ps).mpr honce).symm
    · rw [hvals, htail]
      exact (Validation.length_insertAll_eq_iff hnodes).mpr honce

theorem Sized.setPrevHash {p : ProposedBlock} (hp : p.Sized) (hash : Hash) :
    (p.setPrevHash hash).Sized := by
  refine ⟨hp.valCount, hp.numBytes.trans (congrArg u64 ?_)⟩
  rw [length_getCanonical, length_getCanonical]
  rfl

theorem sized_ofTransactions_iff (prevHash : Hash) (txs : List Transaction) (summary : Summary)
    (v : Validation) (state : ChainState) :
    (ofTransactions prevHash txs summary v state).Sized ↔ v.sigs.size < 2 ^ 32 ∧
      u64 (v.sigs.size * Validation.pairSize) = u64 v.getCanonical.length := by
  have hset : ofTransactions prevHash txs summary v state =
      (ofTransactions prevHash txs summary Validation.empty state).setVals v := rfl
  have h := unsigned_ofTransactions prevHash txs summary state
  rw [hset, sized_setVals_iff, Matches, contentSize, h.txSize, h.sumSize]
  refine and_congr_right (fun _ => ?_)
  simp only [u64]
  omega

end ProposedBlock

/-- What happened to a proposal. `taken` is the block that `shallowCopy` copied into, from
the second one, and `left` is what the call leaves of the other block. -/
inductive BlockHistory (o : Ossl) where
  | made (prevHash : Hash) (txs : List Transaction) (summary : Summary) (vals : Validation)
      (state : ChainState)
  | decoded (keys : KeyRing o) (mode : AppMode) (prior : ChainState) (b : InputBuffer)
  | signed (h : BlockHistory o) (keys : KeyRing o) (context : DevcashContext)
  | checked (h : BlockHistory o) (context : DevcashContext) (data : Bytes)
  | prevHashSet (h : BlockHistory o) (prevHash : Hash)
  | taken (h other : BlockHistory o)
  | left (other : BlockHistory o)

namespace BlockHistory
variable {o : Ossl}

/-- The block, unless an operation has thrown. -/
def block : BlockHistory o → Result ProposedBlock
  | made prevHash txs summary vals state => .ok (.ofTransactions prevHash txs summary vals state)
  | decoded keys mode prior b => do
    let (p, _) ← ProposedBlock.create keys mode prior b
    .ok p
  | signed h keys context => do
    let p ← h.block
    p.signBlock keys context
  | checked h context data => do
    let p ← h.block
    let (_, p) ← p.checkValidationData context data
    .ok p
  | prevHashSet h prevHash => do
    let p ← h.block
    .ok (p.setPrevHash prevHash)
  | taken h other => do
    let p ← h.block
    let q ← other.block
    .ok (p.shallowCopy q)
  | left other => do
    let q ← other.block
    .ok q.movedFrom

/-- Something holds at every block of the history. -/
def Everywhere (P : BlockHistory o → Prop) : BlockHistory o → Prop
  | made prevHash txs summary vals state => P (made prevHash txs summary vals state)
  | decoded keys mode prior b => P (decoded keys mode prior b)
  | signed h keys context => P (signed h keys context) ∧ Everywhere P h
  | checked h context data => P (checked h context data) ∧ Everywhere P h
  | prevHashSet h prevHash => P (prevHashSet h prevHash) ∧ Everywhere P h
  | taken h other => P (taken h other) ∧ Everywhere P h ∧ Everywhere P other
  | left other => P (left other) ∧ Everywhere P other

def Sized (h : BlockHistory o) : Prop := ∀ p, h.block = .ok p → p.Sized

/-- What the last operation needs to keep the sizes right: votes that are pairs of nodes,
from nodes that have not signed, and less than 2^32 of them; bytes of which the decoder loses
nothing; and nothing to move away. -/
def Keeps : BlockHistory o → Prop
  | made _ _ _ vals _ => vals.sigs.size < 2 ^ 32 ∧
      u64 (vals.sigs.size * Validation.pairSize) = u64 vals.getCanonical.length
  | decoded keys mode prior b => ∀ p b', ProposedBlock.create keys mode prior b = .ok (p, b') →
      ∃ rs ps, ProposedBlock.Exact mode b rs ps
  | signed h keys context => ∀ p p', h.block = .ok p → p.signBlock keys context = .ok p' →
      (∀ node, keys.getNodeAddr (context.getCurrentNode % context.getPeerCount) = .ok node →
        node ∉ p.vals.sigs.keys) ∧ p.vals.sigs.size + 1 < 2 ^ 32 ∧ p.Matches p.vals
  | checked h _ data => ∀ p v, h.block = .ok p → p.votesFor data = .ok (some v) →
      (p.vals.addAll v).sigs.size < 2 ^ 32 ∧ p.Matches (p.vals.addAll v)
  | prevHashSet _ _ => True
  | taken _ _ => True
  | left other => ∀ p, other.block = .ok p → u64 p.contentSize = Summary.empty.getByteSize

theorem Everywhere.self {P : BlockHistory o → Prop} {h : BlockHistory o} (hall : h.Everywhere P) :
    P h := by
  cases h with
  | made prevHash txs summary vals state => exact hall
  | decoded keys mode prior b => exact hall
  | signed h keys context => exact hall.1
  | checked h context data => exact hall.1
  | prevHashSet h prevHash => exact hall.1
  | taken h other => exact hall.1
  | left other => exact hall.1

theorem sized_made_iff (prevHash : Hash) (txs : List Transaction) (summary : Summary)
    (vals : Validation) (state : ChainState) :
    Sized (o := o) (made prevHash txs summary vals state) ↔
      Keeps (o := o) (made prevHash txs summary vals state) := by
  rw [Keeps, ← ProposedBlock.sized_ofTransactions_iff prevHash txs summary vals state]
  constructor
  · intro h
    exact h _ rfl
  · intro h p hp
    cases hp
    exact h

theorem sized_decoded_iff (keys : KeyRing o) (mode : AppMode) (prior : ChainState)
    (b : InputBuffer) : (decoded keys mode prior b).Sized ↔ (decoded keys mode prior b).Keeps := by
  constructor
  · intro h p b' hp
    exact (ProposedBlock.sized_create_iff hp).mp (h p (by rw [block, hp]; rfl))
  · intro h p hp
    obtain ⟨⟨q, b'⟩, hq, hp⟩ := Result.bind_eq_ok hp
    cases hp
    exact (ProposedBlock.sized_create_iff hq).mpr (h p b' hq)

section
variable {h : BlockHistory o} (hs : h.Sized)
include hs

theorem sized_signed_iff (keys : KeyRing o) (context : DevcashContext) :
    (signed h keys context).Sized ↔ (signed h keys context).Keeps := by
  constructor
  · intro hsized p p' hp hsign
    have hp' := hsized p' (by rw [block, hp]; exact hsign)
    obtain ⟨node, sig, hnode, haddr, hsig, rfl⟩ := ProposedBlock.signBlock_adds hsign
    obtain ⟨hnew, hrest⟩ := (ProposedBlock.sized_insert_iff (hs p hp) haddr hsig).mp hp'
    refine ⟨fun node' hnode' => ?_, hrest⟩
    rwa [← Except.ok.inj (hnode.symm.trans hnode')]
  · intro hkeeps p' hp'
    obtain ⟨p, hp, hsign⟩ := Result.bind_eq_ok hp'
    obtain ⟨hnew, hrest⟩ := hkeeps p p' hp hsign
    obtain ⟨node, sig, hnode, haddr, hsig, rfl⟩ := ProposedBlock.signBlock_adds hsign
    exact (ProposedBlock.sized_insert_iff (hs p hp) haddr hsig).mpr ⟨hnew node hnode, hrest⟩

theorem sized_checked_iff (context : DevcashContext) (data : Bytes) :
    (checked h context data).Sized ↔ (checked h context data).Keeps := by
  constructor
  · intro hsized p v hp hv
    refine (ProposedBlock.sized_setVals_iff p _).mp (hsized _ ?_)
    rw [block, hp, Result.bind_ok, ProposedBlock.checkValidationData_eq, hv]
    rfl
  · intro hkeeps p' hp'
    obtain ⟨p, hp, hcheck⟩ := Result.bind_eq_ok hp'
    obtain ⟨⟨enough, q⟩, hq, hcheck⟩ := Result.bind_eq_ok hcheck
    cases hcheck
    obtain ⟨rfl, -⟩ | ⟨v, hv, rfl, -⟩ := ProposedBlock.checkValidationData_ok hq
    · exact hs p' hp
    · exact (ProposedBlock.sized_setVals_iff p _).mpr (hkeeps p v hp hv)

theorem sized_prevHashSet (prevHash : Hash) : (prevHashSet h prevHash).Sized := by
  intro p' hp'
  obtain ⟨p, hp, hset⟩ := Result.bind_eq_ok hp'
  cases hset
  exact (hs p hp).setPrevHash prevHash

theorem sized_taken (target : BlockHistory o) : (taken target h).Sized := by
  intro p' hp'
  obtain ⟨p, -, hcopy⟩ := Result.bind_eq_ok hp'
  obtain ⟨q, hq, hcopy⟩ := Result.bind_eq_ok hcopy
  cases hcopy
  exact hs q hq

theorem sized_left_iff : (left h).Sized ↔ (left h).Keeps := by
  constructor
  · intro hsized p hp
    exact (ProposedBlock.sized_movedFrom_iff (hs p hp)).mp (hsized _ (by rw [block, hp]; rfl))
  · intro hkeeps p' hp'
    obtain ⟨p, hp, hmoved⟩ := Result.bind_eq_ok hp'
    cases hmoved
    exact (ProposedBlock.sized_movedFrom_iff (hs p hp)).mpr (hkeeps p hp)

end

/-- The sizes of every block are right exactly if every operation keeps them: the fields
follow the votes only where each vote is a new pair of a node. -/
theorem everywhere_sized_iff (h : BlockHistory o) : h.Everywhere Sized ↔ h.Everywhere Keeps := by
  induction h with
  | made prevHash txs summary vals state => exact sized_made_iff prevHash txs summary vals state
  | decoded keys mode prior b => exact sized_decoded_iff keys mode prior b
  | signed h keys context ih =>
    rw [Everywhere, Everywhere, ← ih]
    exact and_congr_left (fun hs => sized_signed_iff hs.self keys context)
  | checked h context data ih =>
    rw [Everywhere, Everywhere, ← ih]
    exact and_congr_left (fun hs => sized_checked_iff hs.self context data)
  | prevHashSet h prevHash ih =>
    rw [Everywhere, Everywhere, ← ih]
    exact and_congr_left (fun hs => iff_of_true (sized_prevHashSet hs.self prevHash) trivial)
  | taken h other ih ihOther =>
    rw [Everywhere, Everywhere, ← ih, ← ihOther]
    exact and_congr_left (fun hs => iff_of_true (sized_taken hs.2.self h) trivial)
  | left other ih =>
    rw [Everywhere, Everywhere, ← ih]
    exact and_congr_left (fun hs => sized_left_iff hs.self)

/-- A new proposal that its node signs twice. -/
def sampleTwice : BlockHistory Ossl.toy :=
  signed (signed (made Hash.zero Ballot.sampleUnsigned.transactionVector
    Ballot.sampleUnsigned.summary Validation.empty ChainState.empty)
    KeyRing.toy (DevcashContext.sample 0)) KeyRing.toy (DevcashContext.sample 0)

/-- It counts two votes and holds one, and its own bytes are not decoded. -/
theorem sampleTwice_missized : ∃ p, sampleTwice.block = .ok p ∧ p.valCount = 2 ∧
    p.vals.sigs.size = 1 ∧ p.numBytes ≠ p.getCanonical.length ∧
    ProposedBlock.create KeyRing.toy .t1 ChainState.empty (ofBytes p.getCanonical) =
      .error (.runtime ("Invalid serialized ProposedBlock, wrong size! (" ++
        toString p.getCanonical.length ++ " != " ++ toString p.numBytes ++ ")")) := by
  refine ⟨Ballot.signedBy 0 (Ballot.signedBy 0 Ballot.sampleUnsigned), ?_⟩
  decide +kernel

end BlockHistory
end Devcash
