import Devcash.Node

/-! `DevcashMessage` on the wire. Every position is an `unsigned int`, and a length that comes
from the wire is added to one before it is compared with the size of the buffer. -/
namespace Devcash
open Endian Reader

def kMSG_HEADER : Byte := 52

inductive EMessageType where
  | finalBlock | proposalBlock | transactionAnnouncement | valid | requestBlock
  | getBlocksSince | blocksSince | numTypes
  deriving DecidableEq, Repr

/-- The number of the enumerator, which is what the wire carries. -/
def EMessageType.word : EMessageType → UInt32
  | .finalBlock => 0
  | .proposalBlock => 1
  | .transactionAnnouncement => 2
  | .valid => 3
  | .requestBlock => 4
  | .getBlocksSince => 5
  | .blocksSince => 6
  | .numTypes => 7

/-- The message type is kept as its word: `extract` copies any word into it. -/
structure DevcashMessage where
  uri : Bytes
  messageType : UInt32
  data : Bytes
  index : UInt32
  deriving DecidableEq, Repr

namespace DevcashMessage

/-- `append` of an object of fixed size. The position is the size of the vector as an
`unsigned int`, and whatever stood behind it is cut off. -/
def append (buf obj : Bytes) : Bytes := buf.take (u32 buf.length) ++ obj

def appendWord (buf : Bytes) (w : UInt32) : Bytes := append buf (leBytes 4 w.toNat)

/- A string and a vector are both written behind their size, as an `unsigned int`. -/
def appendSized (buf obj : Bytes) : Bytes := append buf (leBytes 4 (u32 obj.length)) ++ obj

def appendString : Bytes → Bytes → Bytes := appendSized

def appendVector : Bytes → Bytes → Bytes := appendSized

def serialize (msg : DevcashMessage) : Bytes :=
  let bytes := append [] [kMSG_HEADER]
  let bytes := appendWord bytes msg.index
  let bytes := appendWord bytes msg.messageType
  let bytes := appendString bytes msg.uri
  appendVector bytes msg.data

/-- How `deserialize` does not return: an `assert` fails, or a range that it copies is not
inside the vector. -/
inductive Fault where
  | assertion
  | outside
  deriving DecidableEq, Repr

abbrev Extractor (α : Type) := Reader Fault Byte α

def assert (cond : Bool) : Extractor Unit := if cond then pure () else fail .assertion

/-- The range `[index, index + n)` is copied; the index behind it is an `unsigned int`. -/
def copyRange (n : Nat) : Extractor Bytes := fun b =>
  if b.offset + n ≤ b.buffer.length then
    .ok ((b.buffer.drop b.offset).take n, { b with offset := u32 (b.offset + n) })
  else .error .outside

/-- `extract` of an object of fixed size. The sum is a `size_t`. -/
def extract (n : Nat) : Extractor Bytes := do
  let b ← get
  assert (b.offset + n ≤ b.buffer.length)
  copyRange n

def extractWord : Extractor UInt32 := do
  let bytes ← extract 4
  pure (UInt32.ofNat (leValue bytes))

/- `extract` of a string and of a vector. This sum is an `unsigned int`. -/
def extractSized : Extractor Bytes := do
  let size ← extractWord
  let b ← get
  assert (u32 (b.offset + size.toNat) ≤ b.buffer.length)
  copyRange size.toNat

def extractString : Extractor Bytes := extractSized

def extractVector : Extractor Bytes := extractSized

/-- The body of `deserialize`. -/
def extractMessage : Extractor DevcashMessage := do
  let headerVersion ← extract 1
  assert (headerVersion = [kMSG_HEADER])
  let index ← extractWord
  let messageType ← extractWord
  let uri ← extractString
  let data ← extractVector
  pure ⟨uri, messageType, data, index⟩

def deserialize (bytes : Bytes) : Except Fault DevcashMessage :=
  (extractMessage ⟨bytes, 0⟩).map Prod.fst

/-- What the `unsigned int` of a position can count. -/
abbrev Short (bytes : Bytes) : Prop := bytes.length < 2 ^ 32

/-- The word that `extractWord` finds at a position. -/
def wordAt (bytes : Bytes) (start : Nat) : Nat := leValue ((bytes.drop start).take 4)

theorem wordAt_lt (bytes : Bytes) (start : Nat) : wordAt bytes start < 2 ^ 32 := by
  have hlt := leValue_lt ((bytes.drop start).take 4)
  have hle : 256 ^ ((bytes.drop start).take 4).length ≤ 256 ^ 4 :=
    Nat.pow_le_pow_right (by decide) (List.length_take_le 4 _)
  exact Nat.lt_of_lt_of_le hlt hle

theorem append_of_short {buf : Bytes} (h : Short buf) (obj : Bytes) : append buf obj = buf ++ obj := by
  rw [append, u32_of_lt h, List.take_length]

theorem appendWord_of_short {buf : Bytes} (h : Short buf) (w : UInt32) :
    appendWord buf w = buf ++ leBytes 4 w.toNat := append_of_short h _

theorem appendSized_of_short {buf obj : Bytes} (h : Short buf) (hobj : Short obj) :
    appendSized buf obj = buf ++ (leBytes 4 obj.length ++ obj) := by
  rw [appendSized, append_of_short h, u32_of_lt hobj, List.append_assoc]

/-- The layout of a message whose strings leave room for the words. -/
def layout (m : DevcashMessage) : Bytes :=
  [kMSG_HEADER] ++ (leBytes 4 m.index.toNat ++ (leBytes 4 m.messageType.toNat ++
    ((leBytes 4 m.uri.length ++ m.uri) ++ (leBytes 4 m.data.length ++ m.data))))

theorem length_layout (m : DevcashMessage) :
    m.layout.length = m.uri.length + m.data.length + 17 := by
  simp only [layout, List.length_append, List.length_singleton, length_leBytes]
  omega

theorem serialize_eq {m : DevcashMessage} (h : m.uri.length + m.data.length + 17 < 2 ^ 32) :
    m.serialize = m.layout := by
  have hheader : Short ([] ++ [kMSG_HEADER]) := by decide
  have hindex : Short ([] ++ [kMSG_HEADER] ++ leBytes 4 m.index.toNat) := by
    simp [Short]
  have htype : Short ([] ++ [kMSG_HEADER] ++ leBytes 4 m.index.toNat ++
      leBytes 4 m.messageType.toNat) := by
    simp [Short]
  have huri : Short ([] ++ [kMSG_HEADER] ++ leBytes 4 m.index.toNat ++
      leBytes 4 m.messageType.toNat ++ (leBytes 4 m.uri.length ++ m.uri)) := by
    simp only [Short, List.length_append, List.length_nil, List.length_singleton, length_leBytes]
    omega
  simp only [serialize, appendString, appendVector]
  rw [append_of_short (by decide), appendWord_of_short hheader, appendWord_of_short hindex,
    appendSized_of_short htype (by rw [Short]; omega),
    appendSized_of_short huri (by rw [Short]; omega)]
  simp only [layout, List.nil_append, List.append_assoc]

theorem assert_true (b : Cursor Byte) : assert true b = .ok ((), b) := rfl

theorem assert_bind {α : Type} (cond : Cursor Byte → Bool) (r : Extractor α) (b : Cursor Byte) :
    (do let b ← get; assert (cond b); r : Extractor α) b =
      if cond b then r b else .error .assertion := by
  change (assert (cond b) >>= fun _ => r) b = _
  cases hcond : cond b with
  | false => exact bind_of_error rfl
  | true => exact bind_of_ok rfl

section
variable {bytes : Bytes} {i : Nat}

theorem extract_of_le {n : Nat} (hshort : Short bytes) (h : i + n ≤ bytes.length) :
    extract n ⟨bytes, i⟩ = .ok ((bytes.drop i).take n, ⟨bytes, i + n⟩) := by
  rw [extract, assert_bind, if_pos (decide_eq_true h), copyRange, if_pos h,
    u32_of_lt (Nat.lt_of_le_of_lt h hshort)]

theorem extract_of_lt {n : Nat} (h : bytes.length < i + n) :
    extract n ⟨bytes, i⟩ = .error .assertion := by
  rw [extract, assert_bind, if_neg (by simpa using h)]

theorem extractWord_of_le (hshort : Short bytes) (h : i + 4 ≤ bytes.length) :
    extractWord ⟨bytes, i⟩ = .ok (UInt32.ofNat (wordAt bytes i), ⟨bytes, i + 4⟩) := by
  rw [extractWord, bind_of_ok (extract_of_le hshort h)]
  rfl

theorem extractWord_of_lt (h : bytes.length < i + 4) :
    extractWord ⟨bytes, i⟩ = .error .assertion := by
  rw [extractWord, bind_of_error (extract_of_lt h)]

end

theorem readsIn_extract (enc : Bytes) : ReadsIn Short (extract enc.length) enc (· = enc) := by
  intro pre post hshort
  refine ⟨enc, ?_, rfl⟩
  rw [extract_of_le hshort (by simp only [List.length_append]; omega)]
  simp

theorem readsIn_extractWord (w : UInt32) :
    ReadsIn Short extractWord (leBytes 4 w.toNat) (· = w) := by
  have hread := readsIn_extract (leBytes 4 w.toNat)
  rw [length_leBytes] at hread
  refine hread.bind_done ?_
  rintro _ rfl
  have hw : leValue (leBytes 4 w.toNat) = w.toNat := by
    rw [leValue_leBytes]
    exact Nat.mod_eq_of_lt w.toNat_lt
  rw [hw, UInt32.ofNat_toNat]
  exact (Reads.pure w).readsIn rfl

theorem readsIn_copyRange (obj : Bytes) :
    ReadsIn Short (do
      let b ← get
      assert (u32 (b.offset + obj.length) ≤ b.buffer.length)
      copyRange obj.length) obj (· = obj) := by
  intro pre post hshort
  refine ⟨obj, ?_, rfl⟩
  have hle : pre.length + obj.length ≤ (pre ++ obj ++ post).length := by
    simp only [List.length_append]
    omega
  have hend : u32 (pre.length + obj.length) = pre.length + obj.length :=
    u32_of_lt (Nat.lt_of_le_of_lt hle hshort)
  rw [assert_bind, if_pos (by simp only [hend, hle, decide_true]), copyRange, if_pos hle, hend]
  simp

theorem readsIn_extractSized {obj : Bytes} (h : Short obj) :
    ReadsIn Short extractSized (leBytes 4 obj.length ++ obj) (· = obj) := by
  have hsize : (UInt32.ofNat obj.length).toNat = obj.length := UInt32.toNat_ofNat_of_lt' h
  have hword := readsIn_extractWord (UInt32.ofNat obj.length)
  rw [hsize] at hword
  refine hword.bind ?_
  rintro _ rfl
  rw [hsize]
  exact readsIn_copyRange obj

theorem readsIn_extractMessage {m : DevcashMessage} (huri : Short m.uri) (hdata : Short m.data) :
    ReadsIn Short extractMessage m.layout (· = m) := by
  refine (readsIn_extract [kMSG_HEADER]).bind ?_
  rintro _ rfl
  refine (Reads.pure ()).bindIn ?_
  refine (readsIn_extractWord m.index).bind ?_
  rintro _ rfl
  refine (readsIn_extractWord m.messageType).bind ?_
  rintro _ rfl
  refine (readsIn_extractSized huri).bind ?_
  rintro _ rfl
  refine (readsIn_extractSized hdata).bind_done ?_
  rintro _ rfl
  exact (Reads.pure m).readsIn rfl

theorem deserialize_layout {m : DevcashMessage} (h : m.uri.length + m.data.length + 17 < 2 ^ 32) :
    deserialize m.layout = .ok m := by
  have hread := @readsIn_extractMessage m (by rw [Short]; omega) (by rw [Short]; omega) [] []
  rw [List.nil_append, List.append_nil, Short, length_layout] at hread
  obtain ⟨m', hm, rfl⟩ := hread h
  exact congrArg (Except.map Prod.fst) hm

theorem deserialize_serialize (uri data : Bytes) (type : EMessageType) (index : UInt32)
    (h : uri.length + data.length + 17 < 2 ^ 32) :
    deserialize (serialize ⟨uri, type.word, data, index⟩) = .ok ⟨uri, type.word, data, index⟩ := by
  rw [serialize_eq h]
  exact deserialize_layout h

theorem deserialize_serialize_sample :
    deserialize (serialize ⟨[0x70], EMessageType.proposalBlock.word, [1, 0, 2], 7⟩) =
      .ok ⟨[0x70], EMessageType.proposalBlock.word, [1, 0, 2], 7⟩ :=
  deserialize_serialize [0x70] [1, 0, 2] .proposalBlock 7 (by decide)

/-- The message that a node sends. -/
def ofMessage (uri : Bytes) (index : UInt32) : Message → DevcashMessage
  | .transactionAnnouncement data => ⟨uri, EMessageType.transactionAnnouncement.word, data, index⟩
  | .proposalBlock data => ⟨uri, EMessageType.proposalBlock.word, data, index⟩
  | .valid data => ⟨uri, EMessageType.valid.word, data, index⟩
  | .finalBlock data => ⟨uri, EMessageType.finalBlock.word, data, index⟩

/-- What the callbacks of the consensus and the validator thread make of a message, by its type. -/
def dispatch (m : DevcashMessage) : Option Message :=
  if m.messageType = EMessageType.transactionAnnouncement.word then
    some (.transactionAnnouncement m.data)
  else if m.messageType = EMessageType.proposalBlock.word then some (.proposalBlock m.data)
  else if m.messageType = EMessageType.valid.word then some (.valid m.data)
  else if m.messageType = EMessageType.finalBlock.word then some (.finalBlock m.data)
  else none

theorem dispatch_ofMessage (uri : Bytes) (index : UInt32) (m : Message) :
    dispatch (ofMessage uri index m) = some m := by
  cases m <;> rfl

theorem dispatch_received (uri : Bytes) (index : UInt32) (m : Message)
    (h : uri.length + (ofMessage uri index m).data.length + 17 < 2 ^ 32) :
    (deserialize (serialize (ofMessage uri index m))).map dispatch = .ok (some m) := by
  have huri : (ofMessage uri index m).uri = uri := by cases m <;> rfl
  have hroom : (ofMessage uri index m).uri.length + (ofMessage uri index m).data.length + 17 <
      2 ^ 32 := by rw [huri]; exact h
  rw [serialize_eq hroom, deserialize_layout hroom, Except.map, dispatch_ofMessage]

section
variable {bytes : Bytes} {i : Nat}

/-- A string or a vector whose size can be read. The end of a range that leaves the vector is
caught, unless it comes round to a position inside. -/
theorem extractSized_of_le (hshort : Short bytes) (h : i + 4 ≤ bytes.length) :
    extractSized ⟨bytes, i⟩ =
      if 2 ^ 32 ≤ i + 4 + wordAt bytes i then .error .outside
      else if i + 4 + wordAt bytes i ≤ bytes.length then
        .ok ((bytes.drop (i + 4)).take (wordAt bytes i), ⟨bytes, i + 4 + wordAt bytes i⟩)
      else .error .assertion := by
  have hword := wordAt_lt bytes i
  have hnat : (UInt32.ofNat (wordAt bytes i)).toNat = wordAt bytes i :=
    UInt32.toNat_ofNat_of_lt' hword
  rw [Short] at hshort
  rw [extractSized, bind_of_ok (extractWord_of_le hshort h), assert_bind, hnat, copyRange]
  generalize wordAt bytes i = w at hword ⊢
  simp only [decide_eq_true_eq]
  by_cases hwrap : 2 ^ 32 ≤ i + 4 + w
  · have hround : u32 (i + 4 + w) ≤ bytes.length := by
      rw [u32]
      omega
    rw [if_pos hwrap, if_pos hround, if_neg (by omega)]
  · rw [if_neg hwrap, u32_of_lt (by omega)]
    split_ifs <;> rfl

theorem extractSized_of_lt (h : bytes.length < i + 4) :
    extractSized ⟨bytes, i⟩ = .error .assertion := by
  rw [extractSized, bind_of_error (extractWord_of_lt h)]

theorem extractSized_outside_iff (hshort : Short bytes) :
    extractSized ⟨bytes, i⟩ = .error .outside ↔
      i + 4 ≤ bytes.length ∧ 2 ^ 32 ≤ i + 4 + wordAt bytes i := by
  by_cases h : i + 4 ≤ bytes.length
  · rw [extractSized_of_le hshort h]
    split_ifs with hwrap hle
    · exact iff_of_true rfl ⟨h, hwrap⟩
    · exact iff_of_false (by simp) (fun hout => hwrap hout.2)
    · exact iff_of_false (by simp) (fun hout => hwrap hout.2)
  · rw [extractSized_of_lt (Nat.not_le.mp h)]
    exact iff_of_false (by simp) (fun hout => h hout.1)

theorem extractSized_ok_iff {obj : Bytes} {b' : Cursor Byte} (hshort : Short bytes) :
    extractSized ⟨bytes, i⟩ = .ok (obj, b') ↔
      i + 4 + wordAt bytes i ≤ bytes.length ∧
        obj = (bytes.drop (i + 4)).take (wordAt bytes i) ∧ b' = ⟨bytes, i + 4 + wordAt bytes i⟩ := by
  rw [Short] at hshort
  by_cases h : i + 4 ≤ bytes.length
  · rw [extractSized_of_le hshort h]
    split_ifs with hwrap hle
    · exact iff_of_false (by simp) (fun hok => by omega)
    · simp only [hle, true_and, Except.ok.injEq, Prod.mk.injEq, eq_comm]
    · exact iff_of_false (by simp) (fun hok => hle hok.1)
  · rw [extractSized_of_lt (Nat.not_le.mp h)]
    exact iff_of_false (by simp) (fun hok => by omega)

/-- The strings behind the words of a message. -/
def extractStrings (index messageType : UInt32) : Extractor DevcashMessage := do
  let uri ← extractString
  let data ← extractVector
  pure ⟨uri, messageType, data, index⟩

theorem deserialize_outside_iff :
    deserialize bytes = .error .outside ↔ extractMessage ⟨bytes, 0⟩ = .error .outside := by
  rw [deserialize]
  cases extractMessage ⟨bytes, 0⟩ with
  | error fault => simp [Except.map]
  | ok p => simp [Except.map]

/-- What stands in front of the strings passes its `assert`s. -/
def Headed (bytes : Bytes) : Prop := bytes.head? = some kMSG_HEADER ∧ 9 ≤ bytes.length

theorem head?_iff_take (bytes : Bytes) :
    (bytes.drop 0).take 1 = [kMSG_HEADER] ↔ bytes.head? = some kMSG_HEADER := by
  cases bytes <;> simp

theorem extractMessage_headed (hshort : Short bytes) (h : Headed bytes) :
    extractMessage ⟨bytes, 0⟩ =
      extractStrings (UInt32.ofNat (wordAt bytes 1)) (UInt32.ofNat (wordAt bytes 5)) ⟨bytes, 9⟩ := by
  obtain ⟨hhead, hlen⟩ := h
  rw [← head?_iff_take] at hhead
  rw [extractMessage, bind_of_ok (extract_of_le hshort (by omega)), decide_eq_true hhead,
    bind_of_ok (assert_true _), bind_of_ok (extractWord_of_le hshort (by omega)),
    bind_of_ok (extractWord_of_le hshort (by omega))]
  rfl

theorem extractMessage_refused (hshort : Short bytes) (h : ¬ Headed bytes) :
    extractMessage ⟨bytes, 0⟩ = .error .assertion := by
  by_cases hempty : bytes.length < 1
  · exact bind_of_error (extract_of_lt (by omega))
  rw [extractMessage, bind_of_ok (extract_of_le hshort (by omega))]
  by_cases hhead : (bytes.drop 0).take 1 = [kMSG_HEADER]
  · have hlen : bytes.length < 9 := by
      rw [Headed, not_and, Nat.not_le] at h
      exact h ((head?_iff_take bytes).mp hhead)
    rw [decide_eq_true hhead, bind_of_ok (assert_true _)]
    by_cases hindex : 5 ≤ bytes.length
    · rw [bind_of_ok (extractWord_of_le hshort (by omega))]
      exact bind_of_error (extractWord_of_lt (by omega))
    · exact bind_of_error (extractWord_of_lt (by omega))
  · rw [decide_eq_false hhead]
    exact bind_of_error rfl

/-- The strings leave the vector exactly if the end of one of them, as a natural number, is not
a position. -/
theorem extractStrings_outside_iff (hshort : Short bytes) (index messageType : UInt32) :
    extractStrings index messageType ⟨bytes, 9⟩ = .error .outside ↔
      13 ≤ bytes.length ∧ (2 ^ 32 ≤ 13 + wordAt bytes 9 ∨
        17 + wordAt bytes 9 ≤ bytes.length ∧
          2 ^ 32 ≤ 17 + wordAt bytes 9 + wordAt bytes (13 + wordAt bytes 9)) := by
  have hlast : ∀ uri b, (do
        let data ← extractVector
        pure ⟨uri, messageType, data, index⟩ : Extractor DevcashMessage) b = .error .outside ↔
      extractSized b = .error .outside := by
    intro uri b
    rw [bind_eq_error_iff]
    exact or_iff_left (by rintro ⟨_, _, _, h⟩; cases h)
  rw [extractStrings, extractString, bind_eq_error_iff, extractSized_outside_iff hshort]
  simp only [hlast, extractSized_ok_iff hshort, Nat.reduceAdd]
  constructor
  · rintro (h | ⟨uri, b, ⟨hle, -, rfl⟩, h⟩)
    · exact ⟨h.1, .inl h.2⟩
    · obtain ⟨hsize, hwrap⟩ := (extractSized_outside_iff hshort).mp h
      exact ⟨by omega, .inr ⟨by omega, by omega⟩⟩
  · rintro ⟨hsize, hwrap | ⟨hdata, hwrap⟩⟩
    · exact .inl ⟨hsize, hwrap⟩
    · exact .inr ⟨_, _, ⟨by omega, rfl, rfl⟩, (extractSized_outside_iff hshort).mpr (by omega)⟩

/-- Decoding stays inside the vector exactly if the ends of the two strings that it comes to,
as natural numbers, are positions. -/
theorem deserialize_inside_iff (hshort : bytes.length < 2 ^ 32) :
    deserialize bytes ≠ .error .outside ↔
      (bytes.head? = some kMSG_HEADER → 13 ≤ bytes.length →
        13 + wordAt bytes 9 < 2 ^ 32 ∧
          (17 + wordAt bytes 9 ≤ bytes.length →
            17 + wordAt bytes 9 + wordAt bytes (13 + wordAt bytes 9) < 2 ^ 32)) := by
  rw [ne_eq, deserialize_outside_iff]
  by_cases hheaded : Headed bytes
  · rw [extractMessage_headed hshort hheaded, extractStrings_outside_iff hshort]
    simp only [hheaded.1, true_imp_iff]
    omega
  · rw [extractMessage_refused hshort hheaded]
    exact iff_of_true (by simp) (fun hhead hlen => absurd ⟨hhead, by omega⟩ hheaded)

end

theorem deserialize_inside_iff_sample :
    deserialize (serialize ⟨[0x70], EMessageType.valid.word, [1, 0, 2], 7⟩) ≠ .error .outside :=
  (deserialize_inside_iff (by decide)).mpr (by decide)

/-- A message that ends behind the size of its first string: the size leads from there, position
13, back to the first byte. -/
def wrappedUri : Bytes := [kMSG_HEADER, 0, 0, 0, 0, 3, 0, 0, 0, 0xF3, 0xFF, 0xFF, 0xFF]

theorem wrappedUri_outside :
    wrappedUri.length < 2 ^ 32 ∧ 13 + wordAt wrappedUri 9 = 2 ^ 32 ∧
      deserialize wrappedUri = .error .outside := by decide

end DevcashMessage
end Devcash
