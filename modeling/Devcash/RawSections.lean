import Devcash.ProposedBlock
import Devcash.Lib.Codec

/-! Transfers and summaries as they stand in a buffer: a summary entry by entry, before the
maps sort the entries and drop what comes twice. Its decoder is a codec of that list. -/
namespace Devcash
open Endian Reader InputBuffer

theorem binToUint32_ok {bytes : Bytes} {start v : Nat} (h : binToUint32 bytes start = .ok v) :
    start + 4 ≤ bytes.length ∧ v = leValue ((bytes.drop start).take 4) := by
  by_cases hl : start + 4 ≤ bytes.length
  · rw [binToUint32_eq hl] at h
    cases h
    exact ⟨hl, rfl⟩
  · rw [binToUint32_error (Nat.lt_of_not_le hl)] at h
    cases h

namespace InputBuffer

theorem takes_copy (n : Nat) : Takes (copy n) id (fun out => out.length = n) := by
  intro b out b' h
  obtain ⟨hout, hlen, rfl⟩ := copy_ok h
  refine ⟨hlen, ?_, ?_⟩
  · change out <+: b.buffer.drop b.offset
    rw [hout]
    exact List.take_prefix n _
  · change (⟨b.buffer, b.offset + n⟩ : InputBuffer) = ⟨b.buffer, b.offset + out.length⟩
    rw [hlen]

theorem takes_getNextByte : Takes getNextByte (fun t => [t]) (fun _ => True) := by
  intro b t b' h
  rw [getNextByte] at h
  split at h
  · rename_i ret hret
    cases h
    obtain ⟨hlt, hget⟩ := byteAt_ok hret
    refine ⟨trivial, ?_, rfl⟩
    rw [List.drop_eq_getElem_cons hlt, (List.getElem?_eq_some_iff.mp hget).2]
    exact List.prefix_append [t] _
  · cases h

theorem took_word {b : InputBuffer} {w : Nat} (h : b.offset + w ≤ b.buffer.length) :
    leValue ((b.buffer.drop b.offset).take w) < 256 ^ w ∧
      Took b (leBytes w (leValue ((b.buffer.drop b.offset).take w)))
        { b with offset := b.offset + w } := by
  have hlen : ((b.buffer.drop b.offset).take w).length = w := by
    rw [List.length_take, List.length_drop]
    omega
  have hlt := leValue_lt ((b.buffer.drop b.offset).take w)
  have henc := leBytes_leValue ((b.buffer.drop b.offset).take w)
  rw [hlen] at hlt henc
  refine ⟨hlt, ?_, ?_⟩
  · rw [henc]
    exact List.take_prefix w _
  · rw [length_leBytes]

theorem takes_getNextUint64 : Takes (getNextUint64 true) (leBytes 8) (· < 2 ^ 64) := by
  intro b v b' h
  rw [getNextUint64, getWord] at h
  split at h
  · rename_i ret hret
    cases h
    obtain ⟨hle, rfl⟩ := binToUint64_ok hret
    exact took_word hle
  · cases h

theorem takes_getNextUint32 : Takes (getNextUint32 true) (leBytes 4) (· < 2 ^ 32) := by
  intro b v b' h
  rw [getNextUint32, getWord] at h
  split at h
  · rename_i ret hret
    cases h
    obtain ⟨hle, rfl⟩ := binToUint32_ok hret
    exact took_word hle
  · cases h

/-- A type byte and as many bytes as it says. -/
def IsHead (head : Bytes) : Prop := ∃ t raw, head = t :: raw ∧ raw.length = t.toNat

def readHead : BufReader Bytes := do
  let t ← getNextByte
  let raw ← copy t.toNat
  pure (t :: raw)

theorem codec_readHead : Codec readHead id IsHead where
  reads := by
    rintro _ ⟨t, raw, rfl, hlen⟩
    refine (reads_getNextByte t).bind ?_
    rw [← hlen]
    exact (reads_copy raw).bind_done (Reads.pure _)
  takes := by
    intro b head b' h
    obtain ⟨t, b1, ht, h⟩ := bind_eq_ok h
    obtain ⟨raw, b2, hraw, h⟩ := bind_eq_ok h
    cases pure_eq_ok h
    obtain ⟨-, htook⟩ := takes_getNextByte b t b1 ht
    obtain ⟨hlen, htook'⟩ := takes_copy t.toNat b1 raw b' hraw
    exact ⟨⟨t, raw, rfl, hlen⟩, htook.append htook'⟩

theorem copyAddress_eq : copyAddress = (do
    let head ← readHead
    pure (Address.ofBytes head.tail)) := by
  simp only [copyAddress, readHead, bind_assoc, pure_bind, List.tail_cons]

theorem copySignature_eq : copySignature = (do
    let head ← readHead
    lift (Signature.ofBytes head.tail)) := by
  simp only [copySignature, readHead, bind_assoc, pure_bind, List.tail_cons]

end InputBuffer

namespace Transfer

/-- The size of a transfer by its type byte: only the addresses of wallets and nodes keep
that byte. -/
def sizeOf (t : Byte) : Nat :=
  if t.toNat = kWalletAddrSize ∨ t.toNat = kNodeAddrSize then t.toNat + 1 + kTransferNonaddrDataSize
  else t.toNat + kTransferNonaddrDataSize

theorem ofBuffer_eq : ofBuffer = (do
    let head ← readHead
    let rest ← copy kTransferNonaddrDataSize
    pure ⟨(Address.ofBytes head.tail).getCanonical ++ rest⟩) := by
  simp only [ofBuffer, copyAddress_eq, bind_assoc, pure_bind]

/-- A transfer that was read is what its address makes of the bytes behind the type byte, and
the words. -/
theorem ofBuffer_parts {b b' : InputBuffer} {t : Transfer} (h : ofBuffer b = .ok (t, b')) :
    ∃ typeByte raw rest, Took b (typeByte :: (raw ++ rest)) b' ∧ raw.length = typeByte.toNat ∧
      rest.length = kTransferNonaddrDataSize ∧ t = ⟨(Address.ofBytes raw).canonical ++ rest⟩ := by
  rw [ofBuffer_eq] at h
  obtain ⟨head, b1, h1, h⟩ := bind_eq_ok h
  obtain ⟨rest, b2, h2, h⟩ := bind_eq_ok h
  cases pure_eq_ok h
  obtain ⟨⟨typeByte, raw, rfl, hlen⟩, htook⟩ := codec_readHead.takes _ _ _ h1
  obtain ⟨hrest, htook'⟩ := takes_copy _ _ _ _ h2
  exact ⟨typeByte, raw, rest, htook.append htook', hlen, hrest, rfl⟩

theorem ofBuffer_ok {b b' : InputBuffer} {t : Transfer} (h : ofBuffer b = .ok (t, b')) :
    ∃ enc typeByte, Took b (typeByte :: enc) b' ∧ Reads ofBuffer (typeByte :: enc) t ∧
      t.size = sizeOf typeByte ∧ enc.length ≤ t.size ∧ t.size ≤ enc.length + 1 := by
  obtain ⟨typeByte, raw, rest, htook, hlen, hrest, rfl⟩ := ofBuffer_parts h
  have hreads : Reads ofBuffer (typeByte :: raw ++ rest)
      ⟨(Address.ofBytes raw).canonical ++ rest⟩ := by
    rw [ofBuffer_eq]
    refine (codec_readHead.reads (typeByte :: raw) ⟨typeByte, raw, rfl, hlen⟩).bind ?_
    rw [← hrest]
    exact (reads_copy rest).bind_done (Reads.pure _)
  have hsize : Transfer.size ⟨(Address.ofBytes raw).canonical ++ rest⟩ = sizeOf typeByte := by
    have haddr : (Address.ofBytes raw).canonical.length = _ := Address.size_ofBytes raw
    rw [size, List.length_append, hrest, haddr, hlen, sizeOf]
    split_ifs <;> rfl
  refine ⟨raw ++ rest, typeByte, htook, hreads, hsize, ?_, ?_⟩
  all_goals
    rw [hsize, sizeOf, List.length_append, hrest, hlen]
    split_ifs <;> omega

theorem ofBuffer_bounds {b b' : InputBuffer} {t : Transfer} (h : ofBuffer b = .ok (t, b')) :
    kTransferNonaddrDataSize ≤ t.size ∧ b.offset + t.size ≤ b.buffer.length := by
  obtain ⟨enc, typeByte, htook, -, hsize, -, hle⟩ := ofBuffer_ok h
  have hinside := htook.inside (List.cons_ne_nil _ _)
  rw [List.length_cons] at hinside
  refine ⟨?_, by omega⟩
  rw [hsize, sizeOf]
  split_ifs <;> omega

end Transfer

namespace Summary

/-- The bytes of a delayed item and of an undelayed one. -/
def delayedBytes (d : Nat × DelayedItem) : Bytes :=
  leBytes 8 d.1 ++ (leBytes 8 d.2.delay ++ leBytes 8 (toUint64 (i64 d.2.delta)))

def coinBytes (c : Nat × Int) : Bytes := leBytes 8 c.1 ++ leBytes 8 (toUint64 c.2)

theorem reads_readDelayed {d : Nat × DelayedItem} (hc : d.1 < 2 ^ 64) (hd : d.2.delay < 2 ^ 64)
    (hx : d.2.delta < 2 ^ 64) : Reads readDelayed (delayedBytes d) d := by
  have he : (d.1, DelayedItem.make d.2.delay (i64 (toUint64 (i64 d.2.delta)))) = d := by
    rw [i64_toUint64, i64_i64, DelayedItem.make, toUint64_i64 hx]
  refine (reads_getNextUint64 hc).bind ((reads_getNextUint64 hd).bind ?_)
  refine (reads_getNextUint64 (toUint64_lt _)).bind_done ?_
  rw [he]
  exact Reads.pure d

theorem reads_readCoin {c : Nat × Int} (hc : c.1 < 2 ^ 64) (hx : i64 c.2 = c.2) :
    Reads readCoin (coinBytes c) c := by
  refine (reads_getNextUint64 hc).bind ((reads_getNextUint64 (toUint64_lt _)).bind_done ?_)
  rw [i64_toUint64, hx]
  exact Reads.pure c

theorem codec_readDelayed : Codec readDelayed delayedBytes
    (fun d => d.1 < 2 ^ 64 ∧ d.2.delay < 2 ^ 64 ∧ d.2.delta < 2 ^ 64) where
  reads := fun d h => reads_readDelayed h.1 h.2.1 h.2.2
  takes := by
    intro b d b' h
    obtain ⟨coin, b1, h1, h⟩ := bind_eq_ok h
    obtain ⟨delay, b2, h2, h⟩ := bind_eq_ok h
    obtain ⟨delta, b3, h3, h⟩ := bind_eq_ok h
    cases pure_eq_ok h
    obtain ⟨hcoin, htook1⟩ := takes_getNextUint64 b coin b1 h1
    obtain ⟨hdelay, htook2⟩ := takes_getNextUint64 b1 delay b2 h2
    obtain ⟨hdelta, htook3⟩ := takes_getNextUint64 b2 delta b' h3
    have hword : toUint64 (i64 delta) = delta := toUint64_i64 hdelta
    have hlt : (DelayedItem.make delay (i64 delta)).delta < 2 ^ 64 := by
      rw [DelayedItem.make, hword]
      exact hdelta
    refine ⟨⟨hcoin, hdelay, hlt⟩, ?_⟩
    rw [delayedBytes, DelayedItem.make, hword, hword]
    exact htook1.append (htook2.append htook3)

theorem codec_readCoin : Codec readCoin coinBytes (fun c => c.1 < 2 ^ 64 ∧ i64 c.2 = c.2) where
  reads := fun c h => reads_readCoin h.1 h.2
  takes := by
    intro b c b' h
    obtain ⟨coin, b1, h1, h⟩ := bind_eq_ok h
    obtain ⟨delta, b2, h2, h⟩ := bind_eq_ok h
    cases pure_eq_ok h
    obtain ⟨hcoin, htook1⟩ := takes_getNextUint64 b coin b1 h1
    obtain ⟨hdelta, htook2⟩ := takes_getNextUint64 b1 delta b' h2
    refine ⟨⟨hcoin, by simp only [i64_i64]⟩, ?_⟩
    rw [coinBytes, toUint64_i64 hdelta]
    exact htook1.append htook2

end Summary

/-- An entry of a summary as it stands in a buffer. -/
structure RawEntry where
  head : Bytes
  delayed : List (Nat × DelayedItem)
  coins : List (Nat × Int)

namespace RawEntry
open Summary

def bytes (e : RawEntry) : Bytes :=
  e.head ++ (leBytes 8 e.delayed.length ++ (leBytes 8 e.coins.length ++
    (e.delayed.flatMap delayedBytes ++ e.coins.flatMap coinBytes)))

/-- The words are in range and the counts fit in theirs. -/
structure Valid (e : RawEntry) : Prop where
  head : IsHead e.head
  delayedCount : e.delayed.length < 2 ^ 64
  coinCount : e.coins.length < 2 ^ 64
  delayed : ∀ d ∈ e.delayed, d.1 < 2 ^ 64 ∧ d.2.delay < 2 ^ 64 ∧ d.2.delta < 2 ^ 64
  coins : ∀ c ∈ e.coins, c.1 < 2 ^ 64 ∧ i64 c.2 = c.2

def read : BufReader RawEntry := do
  let head ← readHead
  let delayedCount ← getNextUint64 true
  let coinCount ← getNextUint64 true
  let delayed ← times readDelayed delayedCount
  let coins ← times readCoin coinCount
  pure ⟨head, delayed, coins⟩

theorem codec_read : Codec read bytes Valid where
  reads := by
    intro e h
    refine (codec_readHead.reads _ h.head).bind ?_
    refine (reads_getNextUint64 h.delayedCount).bind ((reads_getNextUint64 h.coinCount).bind ?_)
    refine ((codec_readDelayed.times _).reads _ ⟨rfl, h.delayed⟩).bind ?_
    exact ((codec_readCoin.times _).reads _ ⟨rfl, h.coins⟩).bind_done (Reads.pure e)
  takes := by
    intro b e b' h
    obtain ⟨head, b1, h1, h⟩ := bind_eq_ok h
    obtain ⟨n, b2, h2, h⟩ := bind_eq_ok h
    obtain ⟨m, b3, h3, h⟩ := bind_eq_ok h
    obtain ⟨delayed, b4, h4, h⟩ := bind_eq_ok h
    obtain ⟨coins, b5, h5, h⟩ := bind_eq_ok h
    cases pure_eq_ok h
    obtain ⟨hhead, htook1⟩ := codec_readHead.takes b head b1 h1
    obtain ⟨hn, htook2⟩ := takes_getNextUint64 b1 n b2 h2
    obtain ⟨hm, htook3⟩ := takes_getNextUint64 b2 m b3 h3
    obtain ⟨⟨rfl, hdelayed⟩, htook4⟩ := (codec_readDelayed.times n).takes b3 delayed b4 h4
    obtain ⟨⟨rfl, hcoins⟩, htook5⟩ := (codec_readCoin.times m).takes b4 coins b' h5
    exact ⟨⟨hhead, hn, hm, hdelayed, hcoins⟩,
      htook1.append (htook2.append (htook3.append (htook4.append htook5)))⟩

/-- What the decoder makes of an entry. -/
def entry (e : RawEntry) : Address × SummaryPair :=
  (Address.ofBytes e.head.tail, OrdMap.empty.insertAll e.delayed, OrdMap.empty.insertAll e.coins)

theorem readEntry_eq : readEntry = (do
    let e ← read
    pure e.entry) := by
  simp only [readEntry, read, copyAddress_eq, bind_assoc, pure_bind, entry]

end RawEntry

namespace Summary

/-- The bytes of a list of entries with its count. -/
def rawBytes (rs : List RawEntry) : Bytes := leBytes 4 rs.length ++ rs.flatMap RawEntry.bytes

def ofRaw (rs : List RawEntry) : Summary := ⟨OrdMap.empty.insertAll (rs.map RawEntry.entry)⟩

/-- Entries that have an encoding. -/
structure RawValid (rs : List RawEntry) : Prop where
  count : rs.length < 2 ^ 32
  entries : ∀ e ∈ rs, e.Valid

def readRaw : BufReader (List RawEntry) := do
  let addrCount ← getNextUint32 true
  times RawEntry.read addrCount

theorem codec_readRaw : Codec readRaw rawBytes RawValid where
  reads := by
    intro rs h
    refine (reads_getNextUint32 h.count).bind ?_
    exact (RawEntry.codec_read.times _).reads _ ⟨rfl, h.entries⟩
  takes := by
    intro b rs b' h
    obtain ⟨n, b1, h1, h⟩ := bind_eq_ok h
    obtain ⟨hn, htook⟩ := takes_getNextUint32 b n b1 h1
    obtain ⟨⟨rfl, hall⟩, htook'⟩ := (RawEntry.codec_read.times n).takes b1 rs b' h
    exact ⟨⟨hn, hall⟩, htook.append htook'⟩

theorem create_eq (b : InputBuffer) : create b =
    if InputBuffer.size b < minSize + b.offset then
      .error (.runtime "Invalid serialized Summary, too small!")
    else (readRaw >>= fun rs => pure (ofRaw rs)) b := by
  simp only [create, readRaw, RawEntry.readEntry_eq, times_map, bind_assoc, pure_bind, ofRaw]

theorem reads_create_raw {rs : List RawEntry} (h : RawValid rs) :
    Reads create (rawBytes rs) (ofRaw rs) := by
  intro pre post
  have hsize : ¬ InputBuffer.size ⟨pre ++ rawBytes rs ++ post, pre.length⟩ < minSize + pre.length := by
    simp only [InputBuffer.size, List.length_append, rawBytes, length_leBytes, minSize]
    omega
  have hread : Reads (readRaw >>= fun rs => pure (ofRaw rs)) (rawBytes rs) (ofRaw rs) :=
    (codec_readRaw.reads rs h).bind_done (Reads.pure _)
  rw [create_eq, if_neg hsize]
  exact hread pre post

theorem create_ok {b b' : InputBuffer} {s : Summary} (h : create b = .ok (s, b')) :
    ∃ rs, RawValid rs ∧ Took b (rawBytes rs) b' ∧ s = ofRaw rs := by
  rw [create_eq] at h
  split_ifs at h
  obtain ⟨rs, b1, hread, h⟩ := bind_eq_ok h
  cases pure_eq_ok h
  obtain ⟨hvalid, htook⟩ := codec_readRaw.takes b rs b' hread
  exact ⟨rs, hvalid, htook, rfl⟩

end Summary
end Devcash
