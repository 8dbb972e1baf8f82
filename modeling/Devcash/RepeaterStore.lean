import Mathlib.Data.Nat.Find
import Devcash.RepeaterService

/-! What the repeater answers over a whole run. The directory of its shard is a store of blocks
by number; a process numbers the blocks it hears from 0 on, so that after a restart the new
blocks stand before the old ones that were not reached yet. -/
namespace Devcash
open DevvUri

namespace Repeater

/-- The file is opened for output and written. A new one comes last in the listing here, which
no answer depends on. -/
def writeBlock (dir : ShardDir) (block : Nat) (data : Bytes) : ShardDir :=
  if hasBlock dir block then
    dir.map (fun file => if named block file then { file with content := data } else file)
  else dir ++ [⟨toText block, kBlockExtension, data⟩]

end Repeater

open Repeater

structure RepeaterState where
  workingDir : WorkingDir
  chainHeight : Nat

/-- What happens to the thread that listens: a message comes, and if it has to write a file the
file can be opened or not; the process is started anew; the directory of the shard is made. -/
inductive RepeaterEvent where
  | message (p : DevcashMessage) (opens : Bool)
  | restart
  | makeDirectory

namespace RepeaterState
variable (shard : Text)

/-- The callback of the listener. -/
def callback (s : RepeaterState) (p : DevcashMessage) (opens : Bool) : RepeaterState :=
  if p.messageType = EMessageType.finalBlock.word then
    match s.workingDir shard with
    | some dir =>
      { workingDir := if opens then
          Function.update s.workingDir shard (some (writeBlock dir s.chainHeight p.data))
          else s.workingDir
        chainHeight := u32 (s.chainHeight + 1) }
    | none => { s with chainHeight := u32 (s.chainHeight + 1) }
  else s

def step (s : RepeaterState) : RepeaterEvent → RepeaterState
  | .message p opens => s.callback shard p opens
  | .restart => { s with chainHeight := 0 }
  | .makeDirectory =>
    let dir := (s.workingDir shard).getD []
    { s with workingDir := Function.update s.workingDir shard (some dir) }

end RepeaterState

/-- The store that the directory stands for: whether it is there, the number the next block
gets and the blocks by number. -/
structure ShardLog where
  present : Bool
  next : Nat
  content : Nat → Option Bytes

namespace ShardLog

def step (log : ShardLog) : RepeaterEvent → ShardLog
  | .message p opens =>
    if p.messageType = EMessageType.finalBlock.word then
      { log with
        next := log.next + 1
        content := if log.present && opens then
          Function.update log.content log.next (some p.data) else log.content }
    else log
  | .restart => { log with next := 0 }
  | .makeDirectory => { log with present := true }

/-- The highest number of a block, or 0. -/
def highest (log : ShardLog) : Nat := Nat.findGreatest (fun n => (log.content n).isSome) kUint32Max

/-- So many blocks from a number on, up to the first one that is missing, and whether none is. -/
def stretch (content : Nat → Option Bytes) : Nat → Nat → Bytes × Bool
  | 0, _ => ([], true)
  | count+1, i =>
    match content i with
    | none => ([], false)
    | some data => (data ++ (stretch content count (i + 1)).1, (stretch content count (i + 1)).2)

def since (log : ShardLog) (first : Nat) : Nat × Bytes :=
  let blocks := stretch log.content (log.highest + 1 - first) first
  (if blocks.2 then 0 else 1010, blocks.1)

/-- The return code and the bytes that answer an operation on binary blocks. -/
def answer (log : ShardLog) (operation blockHeight : Nat) : Nat × Bytes :=
  if log.present = false ∨ blockHeight ≠ kUint32Max ∧ log.content blockHeight = none then (1050, [])
  else match operation with
    | 1 => if blockHeight = kUint32Max then (1051, []) else (0, (log.content blockHeight).getD [])
    | 2 => log.since blockHeight
    | _ => log.since 0

end ShardLog

namespace Repeater
variable {dir : ShardDir}

/-- The blocks of a directory by number. -/
def contents (dir : ShardDir) (block : Nat) : Option Bytes :=
  (dir.find? (named block)).map BlockFile.content

@[simp] theorem contents_nil : contents [] = fun _ => none := rfl

theorem readBlock_eq (dir : ShardDir) (block : Nat) : readBlock dir block =
    (contents dir block).elim (.error (.logic "vector::reserve")) .ok := by
  have hnamed : (fun file : BlockFile => decide (file.stem = toText block ∧
      file.extension = kBlockExtension)) = named block := rfl
  rw [readBlock, contents, hnamed]
  cases dir.find? (named block) <;> rfl

theorem hasBlock_eq (dir : ShardDir) (block : Nat) :
    hasBlock dir block = (contents dir block).isSome := by
  rw [hasBlock, contents, Option.isSome_map, Bool.eq_iff_iff, List.any_eq_true, List.find?_isSome]

theorem named_iff {block : Nat} {file : BlockFile} :
    named block file = true ↔ file.stem = toText block ∧ file.extension = kBlockExtension := by
  rw [named, decide_eq_true_eq]

theorem named_ne {m n : Nat} (h : m ≠ n) {file : BlockFile} (hm : named m file = true) :
    named n file = false := by
  rw [Bool.eq_false_iff]
  intro hn
  rw [named_iff] at hm hn
  exact h (toText_injective (hm.1.symm.trans hn.1))

theorem contents_writeBlock (dir : ShardDir) (block : Nat) (data : Bytes) :
    contents (writeBlock dir block data) = Function.update (contents dir) block (some data) := by
  funext n
  rw [writeBlock]
  split_ifs with hhas
  · -- The names in the listing stay, and so do the files under other names.
    have hname : named n ∘ (fun file => if named block file then { file with content := data }
        else file) = named n := by
      funext file
      rw [Function.comp_apply]
      split_ifs <;> rfl
    rw [contents, List.find?_map, hname, Option.map_map]
    by_cases hn : n = block
    · subst hn
      rw [Function.update_self]
      rw [hasBlock_eq, contents, Option.isSome_map] at hhas
      obtain ⟨file, hfile⟩ := Option.isSome_iff_exists.mp hhas
      rw [hfile, Option.map_some, Function.comp_apply, if_pos (List.find?_some hfile)]
    · rw [Function.update_of_ne hn, contents]
      cases hfind : dir.find? (named n) with
      | none => rfl
      | some file =>
        have hother := named_ne hn (List.find?_some hfind)
        rw [Option.map_some, Option.map_some, Function.comp_apply, if_neg (by rw [hother]; decide)]
  · have hnone : dir.find? (named block) = none := by
      rw [hasBlock_eq, contents, Option.isSome_map, Bool.not_eq_true,
        Option.isSome_eq_false_iff, Option.isNone_iff_eq_none] at hhas
      exact hhas
    rw [contents, List.find?_append]
    by_cases hn : n = block
    · subst hn
      have hnew : named n ⟨toText n, kBlockExtension, data⟩ = true := named_iff.mpr ⟨rfl, rfl⟩
      rw [Function.update_self, hnone, Option.none_or, List.find?_cons_of_pos hnew]
      rfl
    · have hnew : named n ⟨toText block, kBlockExtension, data⟩ = false :=
        named_ne (Ne.symm hn) (named_iff.mpr ⟨rfl, rfl⟩)
      rw [Function.update_of_ne hn, List.find?_cons_of_neg (by rw [hnew]; decide), List.find?_nil,
        Option.or_none]
      rfl

/-- Every file is a block under a number below the largest one. -/
def Numbered (dir : ShardDir) : Prop := ∀ file ∈ dir, ∃ n < kUint32Max, named n file = true

theorem Numbered.writeBlock (h : Numbered dir) {block : Nat} (hblock : block < kUint32Max)
    (data : Bytes) : Numbered (writeBlock dir block data) := by
  intro file hfile
  rw [Repeater.writeBlock] at hfile
  split_ifs at hfile
  · obtain ⟨old, hold, rfl⟩ := List.mem_map.mp hfile
    obtain ⟨n, hn, hnamed⟩ := h old hold
    refine ⟨n, hn, ?_⟩
    split_ifs
    · exact hnamed
    · exact hnamed
  · rw [List.mem_append, List.mem_singleton] at hfile
    obtain hfile | rfl := hfile
    · exact h file hfile
    · exact ⟨block, hblock, named_iff.mpr ⟨rfl, rfl⟩⟩

theorem getHighestBlock_mem {init highest : Nat} (h : dir.foldlM highestFrom init = .ok highest) :
    highest = init ∨ ∃ file ∈ dir, ∃ n, stoul file.stem = .ok n ∧ highest = u32 n := by
  induction dir generalizing init with
  | nil =>
    cases h
    exact .inl rfl
  | cons file dir ih =>
    rw [List.foldlM_cons] at h
    obtain ⟨next, hnext, h⟩ := Result.bind_eq_ok h
    obtain ⟨n, hn, hnext⟩ := Result.bind_eq_ok hnext
    have hmax := Except.ok.inj hnext
    obtain hhigh | ⟨other, hother, hhigh⟩ := ih h
    · rw [hhigh, ← hmax]
      split_ifs
      · exact .inr ⟨file, List.mem_cons_self, n, hn, rfl⟩
      · exact .inl rfl
    · exact .inr ⟨other, List.mem_cons_of_mem file hother, hhigh⟩

theorem Numbered.getHighestBlock (h : Numbered dir) {log : ShardLog}
    (hlog : contents dir = log.content) : getHighestBlock dir = .ok log.highest := by
  have hmax : kUint32Max = 2 ^ 32 - 1 := rfl
  have hstoul : ∀ {n : Nat} {file : BlockFile}, n ≤ kUint32Max → named n file = true →
      stoul file.stem = .ok n ∧ u32 n = n := by
    intro n file hn hnamed
    rw [(named_iff.mp hnamed).1]
    exact ⟨stoul_toText (by omega), u32_of_lt (by omega)⟩
  have hsome : ∀ {n : Nat}, (log.content n).isSome = true ↔ ∃ file ∈ dir, named n file = true := by
    intro n
    rw [← hlog, ← hasBlock_eq, hasBlock, List.any_eq_true]
  have hbound : ∀ file ∈ dir, ∃ n, stoul file.stem = .ok n ∧ u32 n ≤ kUint32Max := by
    intro file hfile
    obtain ⟨n, hn, hnamed⟩ := h file hfile
    obtain ⟨hstem, hword⟩ := hstoul (Nat.le_of_lt hn) hnamed
    exact ⟨n, hstem, by omega⟩
  obtain ⟨highest, hget, hle⟩ := getHighestBlock_ok 0 (Nat.zero_le kUint32Max) hbound
  have hfind : log.highest = highest := by
    rw [ShardLog.highest, Nat.findGreatest_eq_iff]
    refine ⟨hle, fun hpos => ?_, fun n hlt hn hsome' => ?_⟩
    · obtain hzero | ⟨file, hfile, n, hstem, hhigh⟩ := getHighestBlock_mem hget
      · exact absurd hzero hpos
      · obtain ⟨m, hm, hnamed⟩ := h file hfile
        obtain ⟨hstem', hword⟩ := hstoul (Nat.le_of_lt hm) hnamed
        cases hstem.symm.trans hstem'
        rw [hhigh, hword]
        exact hsome.mpr ⟨file, hfile, hnamed⟩
    · obtain ⟨file, hfile, hnamed⟩ := hsome.mp hsome'
      obtain ⟨hstem, hword⟩ := hstoul hn hnamed
      obtain ⟨m, hm, hmle⟩ := (getHighestBlock_ge hget).2 file hfile
      cases hstem.symm.trans hm
      omega
  rw [hfind]
  exact hget

theorem Numbered.highest_lt (h : Numbered dir) {log : ShardLog} (hlog : contents dir = log.content) :
    log.highest < kUint32Max := by
  have hle : log.highest ≤ kUint32Max := Nat.findGreatest_le kUint32Max
  refine Nat.lt_of_le_of_ne hle (fun heq => ?_)
  have hfind : Nat.findGreatest (fun n => (log.content n).isSome) kUint32Max = log.highest := rfl
  have hsome := Nat.findGreatest_of_ne_zero hfind (by rw [heq]; decide)
  rw [← hlog, ← hasBlock_eq, hasBlock, List.any_eq_true] at hsome
  obtain ⟨file, hfile, hnamed⟩ := hsome
  obtain ⟨n, hn, hn'⟩ := h file hfile
  by_cases hsame : log.highest = n
  · omega
  · rw [named_ne hsame hnamed] at hn'
    cases hn'

/-- How a loop over binary blocks ends: what it could read is behind the response, and a block
that is missing is an exception. -/
def outcome (blocks : Bytes × Bool) (r : RepeaterResponse) :
    EStateM.Result Error RepeaterResponse Unit :=
  let r := { r with rawResponse := r.rawResponse ++ blocks.1 }
  if blocks.2 then .ok () r else .error (.logic "vector::reserve") r

@[simp] theorem outcome_nil (r : RepeaterResponse) : outcome ([], true) r = .ok () r := by
  simp [outcome]

theorem forHeights_stretch (dir : ShardDir) {highest : Nat} (hhigh : highest < kUint32Max)
    (fuel i : Nat) (hfuel : highest + 1 - i ≤ fuel) (r : RepeaterResponse) :
    forHeights (readBlock dir) highest fuel i r =
      outcome (ShardLog.stretch (contents dir) (highest + 1 - i) i) r := by
  have hmax : kUint32Max = 2 ^ 32 - 1 := rfl
  induction fuel generalizing i r with
  | zero =>
    have hcount : highest + 1 - i = 0 := by omega
    rw [forHeights, if_neg (by omega), hcount, ShardLog.stretch, outcome_nil]
    rfl
  | succ fuel ih =>
    rw [forHeights]
    split_ifs with hmore
    · obtain ⟨count, hcount⟩ : ∃ count, highest + 1 - i = count + 1 := ⟨highest - i, by omega⟩
      have hrest : highest + 1 - (i + 1) = count := by omega
      rw [hcount, ShardLog.stretch, readBlock_eq]
      cases hblock : contents dir i with
      | none => simp [outcome, bind_call_error]
      | some data =>
        have hnext := ih (i + 1) (by omega) { r with rawResponse := r.rawResponse ++ data }
        rw [hrest] at hnext
        change forHeights (readBlock dir) highest fuel (u32 (i + 1)) _ = _
        rw [u32_of_lt (by omega), hnext]
        simp only [outcome, List.append_assoc]
    · have hcount : highest + 1 - i = 0 := by omega
      rw [hcount, ShardLog.stretch, outcome_nil]
      rfl

end Repeater

namespace RepeaterState
variable {shard : Text}

/-- The files of the shard; without a directory there are none. -/
def files (s : RepeaterState) (shard : Text) : ShardDir := (s.workingDir shard).getD []

def log (s : RepeaterState) (shard : Text) : ShardLog where
  present := (s.workingDir shard).isSome
  next := s.chainHeight
  content := contents (s.files shard)

/-- What the callback does: nothing, count, or write and count. -/
theorem callback_cases (shard : Text) (s : RepeaterState) (p : DevcashMessage) (opens : Bool) :
    p.messageType ≠ EMessageType.finalBlock.word ∧ s.callback shard p opens = s ∨
    p.messageType = EMessageType.finalBlock.word ∧
      ((s.log shard).present && opens) = false ∧
        s.callback shard p opens = ⟨s.workingDir, u32 (s.chainHeight + 1)⟩ ∨
    p.messageType = EMessageType.finalBlock.word ∧ ((s.log shard).present && opens) = true ∧
      s.callback shard p opens = ⟨Function.update s.workingDir shard
        (some (writeBlock (s.files shard) s.chainHeight p.data)), u32 (s.chainHeight + 1)⟩ := by
  by_cases htype : p.messageType = EMessageType.finalBlock.word
  · right
    cases hdir : s.workingDir shard with
    | none => simp [callback, htype, log, hdir]
    | some dir => cases opens <;> simp [callback, htype, log, files, hdir]
  · exact .inl ⟨htype, if_neg htype⟩

theorem log_step {s : RepeaterState} (h : s.chainHeight < kUint32Max) (e : RepeaterEvent) :
    (s.step shard e).log shard = (s.log shard).step e := by
  have hheight : u32 (s.chainHeight + 1) = s.chainHeight + 1 :=
    u32_of_lt (by rw [kUint32Max] at h; omega)
  cases e with
  | message p opens =>
    rw [step, ShardLog.step]
    obtain ⟨htype, hs⟩ | ⟨htype, hopen, hs⟩ | ⟨htype, hopen, hs⟩ := callback_cases shard s p opens
    · rw [if_neg htype, hs]
    · rw [if_pos htype, hs, hopen, hheight]
      rfl
    · rw [if_pos htype, hs, hopen, hheight]
      have hpresent := (Bool.and_eq_true_iff.mp hopen).1
      simp only [log, files, Function.update_self, Option.getD_some, contents_writeBlock] at hpresent ⊢
      rw [hpresent]
      rfl
  | restart => rfl
  | makeDirectory => simp [step, log, files, ShardLog.step]

theorem numbered_step {s : RepeaterState} (hs : Numbered (s.files shard))
    (h : s.chainHeight < kUint32Max) (e : RepeaterEvent) :
    Numbered ((s.step shard e).files shard) := by
  cases e with
  | message p opens =>
    rw [step]
    obtain ⟨-, hcall⟩ | ⟨-, -, hcall⟩ | ⟨-, -, hcall⟩ := callback_cases shard s p opens
    · rw [hcall]
      exact hs
    · rw [hcall]
      exact hs
    · simp only [hcall, files, Function.update_self]
      exact hs.writeBlock h p.data
  | restart => exact hs
  | makeDirectory =>
    simp only [step, files, Function.update_self]
    exact hs

theorem chainHeight_step (shard : Text) (s : RepeaterState) (e : RepeaterEvent) :
    (s.step shard e).chainHeight ≤ s.chainHeight + 1 := by
  have hword : u32 (s.chainHeight + 1) ≤ s.chainHeight + 1 := Nat.mod_le _ _
  cases e with
  | message p opens =>
    rw [step]
    obtain ⟨-, hcall⟩ | ⟨-, -, hcall⟩ | ⟨-, -, hcall⟩ := callback_cases shard s p opens
    · rw [hcall]
      omega
    · rw [hcall]
      exact hword
    · rw [hcall]
      exact hword
  | restart => exact Nat.zero_le _
  | makeDirectory => exact Nat.le_succ _

theorem log_after {s : RepeaterState} (hs : Numbered (s.files shard)) (l : List RepeaterEvent)
    (h : s.chainHeight + l.length ≤ kUint32Max) :
    (Run.after (step shard) s l).log shard = Run.after ShardLog.step (s.log shard) l ∧
      Numbered ((Run.after (step shard) s l).files shard) := by
  induction l generalizing s with
  | nil => exact ⟨rfl, hs⟩
  | cons e l ih =>
    rw [List.length_cons] at h
    have hnext := chainHeight_step shard s e
    rw [Run.after_cons, Run.after_cons, ← log_step (by omega) e]
    exact ih (numbered_step hs (by omega) e) (by omega)

end RepeaterState

namespace Repeater
variable {codec : PbufCodec} {fuel : Nat} {workingDir : WorkingDir} {request : RepeaterRequest}
  {id : DevvUri} {dir : ShardDir}

theorem serve_eq (codec : PbufCodec) (fuel : Nat) (huri : parseDevvUri request.uri = .ok id)
    (hvalid : id.valid = true) (hdir : workingDir id.shard = some dir) (r : RepeaterResponse) :
    serve codec fuel workingDir request r =
      if id.blockHeight ≠ kUint32Max ∧ contents dir id.blockHeight = none then
        refuse 1050 ("Block ".toList ++ toText id.blockHeight ++ " is not available.".toList) r
      else operate codec fuel dir id request.operation r := by
  have hmissing : hasBlock dir id.blockHeight = false ↔ contents dir id.blockHeight = none := by
    rw [hasBlock_eq, Option.isSome_eq_false_iff, Option.isNone_iff_eq_none]
  rw [serve, huri, bind_call_ok]
  simp only [hvalid, Bool.not_true, Bool.false_eq_true, if_false, hdir, hmissing]
  split_ifs <;> rfl

theorem handle_ok {response : RepeaterResponse}
    (h : serve codec fuel workingDir request ⟨request.timestamp, request.operation, 0, [], []⟩ =
      .ok () response) : handleRepeaterRequest codec fuel workingDir request = .ok response := by
  rw [handleRepeaterRequest, h]

theorem handle_outcome {blocks : Bytes × Bool}
    (h : serve codec fuel workingDir request ⟨request.timestamp, request.operation, 0, [], []⟩ =
      outcome blocks ⟨request.timestamp, request.operation, 0, [], []⟩) :
    ∃ message, handleRepeaterRequest codec fuel workingDir request = .ok ⟨request.timestamp,
      request.operation, if blocks.2 then 0 else 1010, message, blocks.1⟩ := by
  rw [handleRepeaterRequest, h, outcome]
  split_ifs
  · exact ⟨_, rfl⟩
  · exact ⟨_, rfl⟩

theorem operate_since {log : ShardLog} (hdir : Numbered dir) (hlog : contents dir = log.content)
    (hfuel : kUint32Max ≤ fuel) {operation first : Nat}
    (hop : operation = 2 ∧ first = id.blockHeight ∨ operation = 3 ∧ first = 0)
    (r : RepeaterResponse) : operate codec fuel dir id operation r =
      outcome (ShardLog.stretch log.content (log.highest + 1 - first) first) r := by
  have hhigh := hdir.highest_lt hlog
  have hloop : ∀ first, forHeights (readBlock dir) log.highest fuel first r =
      outcome (ShardLog.stretch log.content (log.highest + 1 - first) first) r := by
    intro first
    rw [← hlog]
    exact forHeights_stretch dir hhigh fuel first (by omega) r
  obtain ⟨rfl, rfl⟩ | ⟨rfl, rfl⟩ := hop
  · rw [operate, hdir.getHighestBlock hlog, bind_call_ok]
    split_ifs with hle
    · exact hloop id.blockHeight
    · have hcount : log.highest + 1 - id.blockHeight = 0 := by omega
      rw [hcount, ShardLog.stretch, outcome_nil]
      rfl
  · rw [operate, hdir.getHighestBlock hlog, bind_call_ok]
    exact hloop 0

theorem handle_binary {s : RepeaterState} (hs : Numbered (s.files id.shard)) (codec : PbufCodec)
    (hfuel : kUint32Max ≤ fuel) (huri : parseDevvUri request.uri = .ok id)
    (hvalid : id.valid = true) (hop : request.operation ∈ [1, 2, 3]) :
    let answer := (s.log id.shard).answer request.operation id.blockHeight
    ∃ message, handleRepeaterRequest codec fuel s.workingDir request =
      .ok ⟨request.timestamp, request.operation, answer.1, message, answer.2⟩ := by
  cases hdir : s.workingDir id.shard with
  | none =>
    have hpresent : (s.log id.shard).present = false := by rw [RepeaterState.log, hdir]; rfl
    simp only [ShardLog.answer, hpresent, true_or, if_true]
    refine ⟨"Shard ".toList ++ id.shard ++ " is not available.".toList, handle_ok ?_⟩
    rw [serve, huri, bind_call_ok]
    simp only [hvalid, Bool.not_true, Bool.false_eq_true, if_false, hdir, refuse_eq]
  | some dir =>
    have hpresent : (s.log id.shard).present = true := by rw [RepeaterState.log, hdir]; rfl
    have hlog : contents dir = (s.log id.shard).content := by
      rw [RepeaterState.log, RepeaterState.files, hdir]
      rfl
    rw [RepeaterState.files, hdir, Option.getD_some] at hs
    obtain ⟨timestamp, operation, uri⟩ := request
    have hserve := serve_eq codec fuel huri hvalid hdir
      ⟨timestamp, operation, 0, [], []⟩
    simp only [ShardLog.answer, hpresent, Bool.true_eq_false, false_or, ← hlog]
    by_cases hmissing : id.blockHeight ≠ kUint32Max ∧ contents dir id.blockHeight = none
    · rw [if_pos hmissing] at hserve
      rw [if_pos hmissing]
      exact ⟨_, handle_ok hserve⟩
    · rw [if_neg hmissing] at hserve
      rw [if_neg hmissing]
      simp only [List.mem_cons, List.not_mem_nil, or_false] at hop
      obtain rfl | rfl | rfl := hop
      · simp only at hserve ⊢
        rw [operate, demandHeight, demandPart] at hserve
        by_cases hnone : id.blockHeight = kUint32Max
        · rw [if_pos (by simpa using hnone)] at hserve
          rw [if_pos hnone]
          exact ⟨_, handle_ok hserve⟩
        · obtain ⟨data, hdata⟩ := Option.ne_none_iff_exists'.mp (fun h => hmissing ⟨hnone, h⟩)
          rw [if_neg (by simpa using hnone), readBlock_eq, hdata] at hserve
          rw [if_neg hnone, hdata]
          exact ⟨_, handle_ok hserve⟩
      · rw [operate_since hs hlog hfuel (.inl ⟨rfl, rfl⟩)] at hserve
        exact handle_outcome hserve
      · rw [operate_since hs hlog hfuel (.inr ⟨rfl, rfl⟩)] at hserve
        exact handle_outcome hserve

end Repeater

/-- After any run, of messages, failed writes and restarts, over any numbered directory, the
operations on binary blocks are answered from the log of the run. -/
theorem RepeaterState.binary_requests_exact {s : RepeaterState} {id : DevvUri}
    (hs : Numbered (s.files id.shard)) {l : List RepeaterEvent}
    (hl : s.chainHeight + l.length ≤ kUint32Max) (codec : PbufCodec) {fuel : Nat}
    (hfuel : kUint32Max ≤ fuel) (request : RepeaterRequest)
    (huri : parseDevvUri request.uri = .ok id) (hvalid : id.valid = true)
    (hop : request.operation ∈ [1, 2, 3]) :
    let answer := (Run.after ShardLog.step (s.log id.shard) l).answer request.operation
      id.blockHeight
    ∃ message, handleRepeaterRequest codec fuel (Run.after (step id.shard) s l).workingDir request =
      .ok ⟨request.timestamp, request.operation, answer.1, message, answer.2⟩ := by
  obtain ⟨hlog, hnumbered⟩ := log_after hs l hl
  rw [← hlog]
  exact handle_binary hnumbered codec hfuel huri hvalid hop

/-- An empty directory under every name. -/
def RepeaterState.sample : RepeaterState := ⟨fun _ => some [], 0⟩

def sampleBlock (data : Bytes) : DevcashMessage := ⟨[], EMessageType.finalBlock.word, data, 0⟩

theorem parseDevvUri_sampleUri : parseDevvUri (sampleUri ['/', '2']) =
      .ok ⟨true, ['s'], 2, .null, .null⟩ ∧
    parseDevvUri (sampleUri []) = .ok ⟨true, ['s'], kUint32Max, .null, .null⟩ := by
  decide +kernel

/-- The second of three blocks cannot be written; the third one is found under its number. -/
theorem RepeaterState.binary_requests_exact_sample : ∃ message,
    handleRepeaterRequest sampleCodec kUint32Max (Run.after (step ['s']) .sample
        [.message (sampleBlock [7]) true, .message (sampleBlock [8]) false,
          .message (sampleBlock [9]) true]).workingDir ⟨0, 1, sampleUri ['/', '2']⟩ =
      .ok ⟨0, 1, 0, message, [9]⟩ :=
  binary_requests_exact (s := .sample) (l := [.message (sampleBlock [7]) true,
      .message (sampleBlock [8]) false, .message (sampleBlock [9]) true])
    (fun _ hfile => absurd hfile List.not_mem_nil) (by decide) sampleCodec (le_refl _)
    ⟨0, 1, sampleUri ['/', '2']⟩ parseDevvUri_sampleUri.1 rfl (by decide)

namespace ShardLog

/-- The blocks among the messages that come while a process runs. -/
def heard (messages : List DevcashMessage) : List Bytes :=
  (messages.filter (fun p => p.messageType = EMessageType.finalBlock.word)).map DevcashMessage.data

/-- A process is started and every block that it hears can be written. -/
def session (messages : List DevcashMessage) : List RepeaterEvent :=
  .restart :: messages.map (.message · true)

/-- The blocks of one process overwrite as many of those before. -/
def overwrite (chain blocks : List Bytes) : List Bytes := blocks ++ chain.drop blocks.length

/-- The log of a directory with the blocks of a list. -/
def ofChain (chain : List Bytes) (next : Nat) : ShardLog := ⟨true, next, fun n => chain[n]?⟩

theorem update_chain (done chain : List Bytes) (data : Bytes) :
    Function.update (fun n => (overwrite chain done)[n]?) done.length (some data) =
      fun n => (overwrite chain (done ++ [data]))[n]? := by
  funext n
  by_cases hn : n = done.length
  · subst hn
    rw [Function.update_self, overwrite, List.append_assoc, List.getElem?_append_right (le_refl _)]
    simp
  · rw [Function.update_of_ne hn, overwrite, overwrite]
    obtain hlt | hgt := Nat.lt_or_gt_of_ne hn
    · rw [List.getElem?_append_left hlt, List.append_assoc, List.getElem?_append_left hlt]
    · rw [List.getElem?_append_right (Nat.le_of_lt hgt), List.getElem?_append_right (by simp; omega),
        List.getElem?_drop, List.getElem?_drop]
      congr 1
      simp
      omega

theorem after_messages (chain done : List Bytes) (messages : List DevcashMessage) :
    Run.after step (ofChain (overwrite chain done) done.length) (messages.map (.message · true)) =
      ofChain (overwrite chain (done ++ heard messages)) (done ++ heard messages).length := by
  induction messages generalizing done with
  | nil => simp [heard]
  | cons p messages ih =>
    rw [List.map_cons, Run.after_cons, step]
    by_cases htype : p.messageType = EMessageType.finalBlock.word
    · have hheard : heard (p :: messages) = p.data :: heard messages := by
        rw [heard, List.filter_cons_of_pos (by simpa using htype)]
        rfl
      have hnext := ih (done ++ [p.data])
      rw [List.append_assoc, List.length_append, List.singleton_append, ← hheard] at hnext
      rw [if_pos htype, ← hnext]
      simp only [ofChain, Bool.and_self, if_true, update_chain]
      rfl
    · have hheard : heard (p :: messages) = heard messages := by
        rw [heard, List.filter_cons_of_neg (by simpa using htype)]
        rfl
      rw [if_neg htype, hheard]
      exact ih done

theorem after_sessions (chain : List Bytes) (next : Nat) (sessions : List (List DevcashMessage)) :
    ∃ next', Run.after step (ofChain chain next) (sessions.flatMap session) =
      ofChain ((sessions.map heard).foldl overwrite chain) next' := by
  induction sessions generalizing chain next with
  | nil => exact ⟨next, rfl⟩
  | cons messages sessions ih =>
    have hone : Run.after step (ofChain chain next) (session messages) =
        ofChain (overwrite chain (heard messages)) (heard messages).length :=
      after_messages chain [] messages
    rw [List.flatMap_cons, Run.after_append, hone]
    exact ih _ _

theorem highest_ofChain {chain : List Bytes} (hne : chain ≠ []) (hlen : chain.length ≤ kUint32Max)
    (next : Nat) : (ofChain chain next).highest = chain.length - 1 := by
  have hpos := List.length_pos_iff.mpr hne
  rw [highest, Nat.findGreatest_eq_iff]
  refine ⟨by omega, fun _ => ?_, fun n hn _ => ?_⟩
  · simp [ofChain]
    omega
  · simp [ofChain]
    omega

theorem stretch_ofChain (chain : List Bytes) (next : Nat) {count i : Nat}
    (h : i + count = chain.length) :
    stretch (ofChain chain next).content count i = ((chain.drop i).flatten, true) := by
  induction count generalizing i with
  | zero =>
    rw [stretch, List.drop_eq_nil_of_le (by omega)]
    rfl
  | succ count ih =>
    have hi : i < chain.length := by omega
    have hget : (ofChain chain next).content i = some chain[i] := List.getElem?_eq_getElem hi
    rw [stretch, hget, ih (by omega), List.drop_eq_getElem_cons hi]
    rfl

theorem since_ofChain {chain : List Bytes} (hlen : chain.length ≤ kUint32Max) (next : Nat)
    {first : Nat} (hfirst : first < chain.length) :
    (ofChain chain next).since first = (0, (chain.drop first).flatten) := by
  have hne : chain ≠ [] := List.ne_nil_of_length_pos (by omega)
  rw [since, highest_ofChain hne hlen, stretch_ofChain chain next (by omega)]
  rfl

theorem length_overwrite (chain blocks : List Bytes) :
    (overwrite chain blocks).length ≤ chain.length + blocks.length := by
  rw [overwrite, List.length_append, List.length_drop]
  omega

theorem length_foldl_overwrite (chain : List Bytes) (sessions : List (List DevcashMessage)) :
    ((sessions.map heard).foldl overwrite chain).length ≤
      chain.length + (sessions.flatMap session).length := by
  induction sessions generalizing chain with
  | nil => exact Nat.le_refl _
  | cons messages sessions ih =>
    have hheard : (heard messages).length ≤ messages.length := by
      rw [heard, List.length_map]
      exact List.length_filter_le _ _
    have hrest := ih (overwrite chain (heard messages))
    have hone := length_overwrite chain (heard messages)
    rw [List.map_cons, List.foldl_cons, List.flatMap_cons, List.length_append, session,
      List.length_cons, List.length_map]
    omega

end ShardLog

open ShardLog in
/-- From an empty directory and with every write done, a client that asks for the chain or for
the blocks since a number gets the blocks of the last process, and behind them those of the
processes before it that it has not overwritten. -/
theorem RepeaterState.chain_after_restarts {s : RepeaterState} {id : DevvUri}
    (hs : s.workingDir id.shard = some []) (sessions : List (List DevcashMessage))
    (hl : s.chainHeight + (sessions.flatMap session).length ≤ kUint32Max) (codec : PbufCodec)
    {fuel : Nat} (hfuel : kUint32Max ≤ fuel) (request : RepeaterRequest)
    (huri : parseDevvUri request.uri = .ok id) (hvalid : id.valid = true) {first : Nat}
    (hop : request.operation = 2 ∧ id.blockHeight = first ∨
      request.operation = 3 ∧ id.blockHeight = kUint32Max ∧ first = 0)
    (hfirst : first < ((sessions.map heard).foldl overwrite []).length) :
    ∃ message, handleRepeaterRequest codec fuel
        (Run.after (step id.shard) s (sessions.flatMap session)).workingDir request =
      .ok ⟨request.timestamp, request.operation, 0, message,
        (((sessions.map heard).foldl overwrite []).drop first).flatten⟩ := by
  have hfiles : s.files id.shard = [] := by rw [files, hs, Option.getD_some]
  have hlog : s.log id.shard = ofChain [] s.chainHeight := by
    rw [log, hfiles, hs, contents_nil]
    rfl
  obtain ⟨next, hafter⟩ := after_sessions [] s.chainHeight sessions
  have hlen := length_foldl_overwrite [] sessions
  rw [List.length_nil, Nat.zero_add] at hlen
  obtain ⟨hlog', hnumbered⟩ := log_after (by rw [hfiles]; intro file hfile; cases hfile)
    (sessions.flatMap session) hl
  rw [hlog, hafter] at hlog'
  generalize hchain : (sessions.map heard).foldl overwrite [] = chain at *
  have hsince := since_ofChain (Nat.le_trans hlen (by omega)) next hfirst
  have hanswer : (ofChain chain next).answer request.operation id.blockHeight =
      (0, (chain.drop first).flatten) := by
    obtain ⟨hop, hheight⟩ | ⟨hop, hheight, rfl⟩ := hop
    · have hsome : (ofChain chain next).content first = some chain[first] :=
        List.getElem?_eq_getElem hfirst
      rw [hop, hheight, answer, if_neg (by rw [hsome]; simp [ofChain])]
      exact hsince
    · rw [hop, hheight, answer, if_neg (by simp [ofChain])]
      · exact hsince
      · decide
      · decide
  have hop' : request.operation ∈ [1, 2, 3] := by
    obtain ⟨hop, -⟩ | ⟨hop, -⟩ := hop <;> simp [hop]
  obtain ⟨message, hhandle⟩ := handle_binary hnumbered codec hfuel huri hvalid hop'
  refine ⟨message, ?_⟩
  rw [hhandle, hlog', hanswer]

/-- Two blocks, a restart and one block. -/
theorem RepeaterState.chain_after_restarts_sample : ∃ message,
    handleRepeaterRequest sampleCodec kUint32Max (Run.after (step ['s']) .sample
        ([[sampleBlock [7], sampleBlock [8]], [sampleBlock [9]]].flatMap
          ShardLog.session)).workingDir ⟨0, 3, sampleUri []⟩ =
      .ok ⟨0, 3, 0, message, [9, 8]⟩ :=
  chain_after_restarts (s := .sample) rfl [[sampleBlock [7], sampleBlock [8]], [sampleBlock [9]]]
    (by decide) sampleCodec (le_refl _) ⟨0, 3, sampleUri []⟩ parseDevvUri_sampleUri.2 rfl
    (.inr ⟨rfl, rfl, rfl⟩) (by decide)

end Devcash
