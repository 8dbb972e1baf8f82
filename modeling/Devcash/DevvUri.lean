import Devcash.KeyRing
import Devcash.Text

/-! Devv URIs: a shard and, one behind the other, a block height, a signature and an
address. A part stands for the field at its place, so no part can be left out but the last. -/
namespace Devcash

/-- `UINT32_MAX`. -/
def kUint32Max : Nat := 2 ^ 32 - 1

def kDevvProtocol : Text := "devv://".toList

structure DevvUri where
  valid : Bool
  shard : Text
  blockHeight : Nat
  sig : Signature
  addr : Address
  deriving DecidableEq

namespace DevvUri

/-- The initial values of the fields. -/
def default : DevvUri where
  valid := false
  shard := []
  blockHeight := kUint32Max
  sig := .null
  addr := .null

/-- `MakeDevvUri` of a structure. -/
def makeDevvUri (u : DevvUri) : Text :=
  if !u.valid then []
  else if u.shard.isEmpty then []
  else
    let uri := kDevvProtocol ++ u.shard
    if u.blockHeight = kUint32Max then uri
    else
      let uri := uri ++ '/' :: toText u.blockHeight
      if u.sig.isNull then uri
      else
        let uri := uri ++ '/' :: u.sig.getJSON
        if u.addr.isNull then uri
        else uri ++ '/' :: u.addr.getJSON

/-- A part that is there and not empty, trimmed. -/
def part (parts : List Text) (i : Nat) : Option Text :=
  match parts[i]? with
  | none => none
  | some p => if p.isEmpty then none else some (trim p)

def readHeight : Option Text → Result Nat
  | none => .ok default.blockHeight
  | some p => do
    let height ← stoul p
    .ok (u32 height)

def readSig : Option Text → Result Signature
  | none => .ok default.sig
  | some p => do
    let bin ← hex2Bin p
    Signature.ofBytes bin

def readAddr : Option Text → Result Address
  | none => .ok default.addr
  | some p => do
    let bin ← hex2Bin p
    .ok (Address.ofBytes bin)

/-- The fields from the parts of the path. -/
def ofParts (parts : List Text) : Result DevvUri := do
  let shard := (part parts 0).getD default.shard
  let blockHeight ← readHeight (part parts 1)
  let sig ← readSig (part parts 2)
  let addr ← readAddr (part parts 3)
  .ok ⟨true, shard, blockHeight, sig, addr⟩

def parseDevvUri (uri : Text) : Result DevvUri :=
  if kDevvProtocol.isPrefixOf uri then ofParts ((uri.drop kDevvProtocol.length).splitOn '/')
  else .ok default

/-- What a URI may be made of. -/
structure Makeable (u : DevvUri) : Prop where
  valid : u.valid = true
  shard_ne : u.shard ≠ []
  shard_slash : '/' ∉ u.shard
  shard_trimmed : Trimmed u.shard
  height : u.blockHeight ≤ kUint32Max
  sig : u.sig.isNull = true ∨ u.sig.IsWallet ∨ u.sig.IsNode
  addr : u.addr.isNull = true ∨ u.addr.IsWallet ∨ u.addr.IsNode

/-- The parts that are written. -/
def parts (u : DevvUri) : List Text :=
  u.shard :: if u.blockHeight = kUint32Max then [] else
    toText u.blockHeight :: if u.sig.isNull then [] else
      u.sig.getJSON :: if u.addr.isNull then [] else [u.addr.getJSON]

theorem makeDevvUri_parts {u : DevvUri} (h : u.Makeable) :
    makeDevvUri u = kDevvProtocol ++ ['/'].intercalate u.parts := by
  have hvalid : ¬ (!u.valid) = true := by rw [h.valid]; decide
  have hshard : ¬ u.shard.isEmpty = true := by
    rw [List.isEmpty_iff]
    exact h.shard_ne
  rw [makeDevvUri, if_neg hvalid, if_neg hshard, parts]
  split_ifs <;> simp [List.intercalate]

theorem slash_notMem_hexText (bytes : Bytes) : '/' ∉ hexText bytes :=
  fun h => absurd (hexText_mem h) (by decide)

theorem slash_notMem_parts {u : DevvUri} (h : u.Makeable) : ∀ p ∈ u.parts, '/' ∉ p := by
  have hheight : '/' ∉ toText u.blockHeight := fun h => absurd (isDigit_toText h) (by decide)
  have hsig : '/' ∉ u.sig.getJSON := by
    rw [Signature.getJSON]
    split_ifs
    · exact List.not_mem_nil
    · exact slash_notMem_hexText _
  have haddr : '/' ∉ u.addr.getJSON := by
    rw [Address.getJSON]
    split_ifs
    · exact List.not_mem_nil
    · exact slash_notMem_hexText _
  intro p hp
  rw [parts] at hp
  split_ifs at hp <;> simp only [List.mem_cons, List.not_mem_nil, or_false] at hp
  · exact hp ▸ h.shard_slash
  · rcases hp with rfl | rfl
    · exact h.shard_slash
    · exact hheight
  · rcases hp with rfl | rfl | rfl
    · exact h.shard_slash
    · exact hheight
    · exact hsig
  · rcases hp with rfl | rfl | rfl | rfl
    · exact h.shard_slash
    · exact hheight
    · exact hsig
    · exact haddr

theorem parseDevvUri_make {u : DevvUri} (h : u.Makeable) :
    parseDevvUri (makeDevvUri u) = ofParts u.parts := by
  have hpre : kDevvProtocol.isPrefixOf (makeDevvUri u) = true := by
    rw [makeDevvUri_parts h]
    rfl
  rw [parseDevvUri, if_pos hpre, makeDevvUri_parts h, List.drop_left,
    List.splitOn_intercalate _ (slash_notMem_parts h) (List.cons_ne_nil _ _)]

@[simp] theorem part_nil (i : Nat) : part [] i = none := rfl

@[simp] theorem part_succ (p : Text) (parts : List Text) (i : Nat) :
    part (p :: parts) (i + 1) = part parts i := rfl

theorem part_zero {p : Text} (hne : p ≠ []) (h : Trimmed p) (parts : List Text) :
    part (p :: parts) 0 = some p := by
  have hempty : ¬ p.isEmpty = true := by
    rw [List.isEmpty_iff]
    exact hne
  simp only [part, List.getElem?_cons_zero, if_neg hempty, h.trim_eq]

theorem part_toText (n : Nat) (parts : List Text) : part (toText n :: parts) 0 = some (toText n) :=
  part_zero Nat.toDigits_ne_nil (trimmed_toText n) parts

theorem part_hexText {bytes : Bytes} (hne : bytes ≠ []) (parts : List Text) :
    part (hexText bytes :: parts) 0 = some (hexText bytes) := by
  refine part_zero ?_ (trimmed_hexText bytes) parts
  intro hnil
  have hlen := length_hexText bytes
  have hpos := List.length_pos_iff.mpr hne
  rw [hnil, List.length_nil] at hlen
  omega

section
variable {u : DevvUri} (h : u.Makeable)

theorem part_height : part u.parts 1 =
    if u.blockHeight = kUint32Max then none else some (toText u.blockHeight) := by
  rw [parts, part_succ]
  split_ifs
  · rfl
  all_goals exact part_toText _ _

theorem part_sig (hsig : u.sig.isNull = false → u.sig.canonical ≠ []) : part u.parts 2 =
    if u.blockHeight = kUint32Max ∨ u.sig.isNull then none
    else some (hexText u.sig.canonical) := by
  by_cases hnone : u.blockHeight = kUint32Max
  · simp [parts, hnone]
  · cases hnull : u.sig.isNull with
    | true => simp [parts, hnone, hnull]
    | false =>
      have hread := part_hexText (hsig hnull)
      simp [parts, hnone, hnull, Signature.getJSON, hread]

theorem part_addr (haddr : u.addr.isNull = false → u.addr.canonical ≠ []) : part u.parts 3 =
    if u.blockHeight = kUint32Max ∨ u.sig.isNull ∨ u.addr.isNull then none
    else some (hexText u.addr.canonical) := by
  by_cases hnone : u.blockHeight = kUint32Max
  · simp [parts, hnone]
  · cases hsig : u.sig.isNull with
    | true => simp [parts, hnone, hsig]
    | false =>
      cases hnull : u.addr.isNull with
      | true => simp [parts, hnone, hsig, hnull]
      | false =>
        have hread := part_hexText (haddr hnull)
        simp [parts, hnone, hsig, hnull, Address.getJSON, hread]

include h

theorem readHeight_part : readHeight (part u.parts 1) = .ok u.blockHeight := by
  have hmax : u.blockHeight < 2 ^ 32 := Nat.lt_of_le_of_lt h.height (by decide)
  rw [part_height]
  split_ifs with hnone
  · rw [hnone]
    rfl
  · rw [readHeight, stoul_toText (by omega), Result.bind_ok, u32_of_lt hmax]

theorem readSig_part : readSig (part u.parts 2) =
    .ok (if u.blockHeight = kUint32Max ∨ u.sig.isNull then .null else u.sig) := by
  have hkind : u.sig.isNull = false → u.sig.IsWallet ∨ u.sig.IsNode := by
    intro hnull
    exact h.sig.resolve_left (by rw [hnull]; exact Bool.false_ne_true)
  have hlen : u.sig.isNull = false →
      0 < u.sig.canonical.length ∧ u.sig.canonical.length < 2 ^ 30 := by
    intro hnull
    have hlength := Signature.length_le (hkind hnull)
    exact ⟨hlength.1, Nat.lt_of_le_of_lt hlength.2 (by decide)⟩
  rw [part_sig (fun hnull => List.ne_nil_of_length_pos (hlen hnull).1)]
  split_ifs with habsent
  · rfl
  · have hnull : u.sig.isNull = false := Bool.not_eq_true _ ▸ (not_or.mp habsent).2
    rw [readSig, hex2Bin_hexText (hlen hnull).2, Result.bind_ok,
      Signature.ofBytes_canonical (hkind hnull)]

theorem readAddr_part : readAddr (part u.parts 3) = .ok
    (if u.blockHeight = kUint32Max ∨ u.sig.isNull ∨ u.addr.isNull then .null else u.addr) := by
  have hkind : u.addr.isNull = false → u.addr.IsWallet ∨ u.addr.IsNode := by
    intro hnull
    exact h.addr.resolve_left (by rw [hnull]; exact Bool.false_ne_true)
  have hlen : u.addr.isNull = false →
      0 < u.addr.canonical.length ∧ u.addr.canonical.length < 2 ^ 30 := by
    intro hnull
    have hlength := Address.length_le (hkind hnull)
    exact ⟨hlength.1, Nat.lt_of_le_of_lt hlength.2 (by decide)⟩
  rw [part_addr (fun hnull => List.ne_nil_of_length_pos (hlen hnull).1)]
  split_ifs with habsent
  · rfl
  · have hnull : u.addr.isNull = false := Bool.not_eq_true _ ▸ (not_or.mp (not_or.mp habsent).2).2
    rw [readAddr, hex2Bin_hexText (hlen hnull).2, Result.bind_ok,
      Address.ofBytes_canonical (hkind hnull)]

/-- What is read back: the fields up to the first one that is absent. -/
theorem parse_make : parseDevvUri (makeDevvUri u) = .ok ⟨true, u.shard, u.blockHeight,
    if u.blockHeight = kUint32Max ∨ u.sig.isNull then .null else u.sig,
    if u.blockHeight = kUint32Max ∨ u.sig.isNull ∨ u.addr.isNull then .null else u.addr⟩ := by
  have hshard : part u.parts 0 = some u.shard := part_zero h.shard_ne h.shard_trimmed _
  rw [parseDevvUri_make h, ofParts, readHeight_part h, Result.bind_ok, readSig_part h,
    Result.bind_ok, readAddr_part h, Result.bind_ok, hshard]
  rfl

/-- A URI gives its fields back exactly if no field follows one that is absent. -/
theorem parse_make_iff : parseDevvUri (makeDevvUri u) = .ok u ↔
    (u.blockHeight = kUint32Max ∨ u.sig.isNull → u.sig = .null) ∧
      (u.blockHeight = kUint32Max ∨ u.sig.isNull ∨ u.addr.isNull → u.addr = .null) := by
  have hfields : ∀ sig addr, (⟨true, u.shard, u.blockHeight, sig, addr⟩ : DevvUri) = u ↔
      sig = u.sig ∧ addr = u.addr := by
    intro sig addr
    have hvalid := h.valid
    cases u
    simp_all
  rw [parse_make h, Except.ok.injEq, hfields, ite_eq_right_iff, ite_eq_right_iff,
    @eq_comm _ Signature.null, @eq_comm _ Address.null]

end

/-- A block of a shard, with or without a signature and an address. -/
def sample (sig : Signature) (addr : Address) : DevvUri where
  valid := true
  shard := "shard-1".toList
  blockHeight := 12
  sig
  addr

theorem makeable_sample {sig : Signature} {addr : Address}
    (hsig : sig.isNull = true ∨ sig.IsWallet ∨ sig.IsNode)
    (haddr : addr.isNull = true ∨ addr.IsWallet ∨ addr.IsNode) : (sample sig addr).Makeable := by
  have hshard : "shard-1".toList ≠ [] ∧ '/' ∉ "shard-1".toList ∧
      "shard-1".toList.all (fun c => isSpace c = false) = true := by
    decide
  have htrimmed : Trimmed "shard-1".toList := by
    refine trimmed_of_forall (fun c hc => ?_)
    exact of_decide_eq_true (List.all_eq_true.mp hshard.2.2 c hc)
  have hheight : 12 ≤ kUint32Max := by decide
  exact ⟨rfl, hshard.1, hshard.2.1, htrimmed, hheight, hsig, haddr⟩

theorem parse_make_iff_sample : parseDevvUri (makeDevvUri
    (sample (Ossl.toySignature (Address.sample 1) Hash.zero) (Address.sample 2))) =
      .ok (sample (Ossl.toySignature (Address.sample 1) Hash.zero) (Address.sample 2)) :=
  (parse_make_iff (makeable_sample (.inr (.inl (by decide))) (.inr (.inl (by decide))))).mpr
    (by decide)

/-- An address without a signature is lost. -/
theorem parse_make_addressOnly : (sample .null (Address.sample 2)).Makeable ∧
    parseDevvUri (makeDevvUri (sample .null (Address.sample 2))) = .ok (sample .null .null) := by
  have h : (sample .null (Address.sample 2)).Makeable :=
    makeable_sample (.inl rfl) (.inr (.inl (by decide)))
  exact ⟨h, parse_make h⟩

end DevvUri
end Devcash
