import Mathlib
import Devcash.KeyRing
import Devcash.Text

/-! Who hears a message: a message is published under its uri, and a client subscribes to the
uris that begin with one of its filters. What a socket makes of its subscriptions is left to the
library. -/
namespace Devcash

namespace DevcashContext

/-- `uri_prefix_`. -/
def kUriPrefix : Text := ['R', 'e', 'm', 'o', 't', 'e', 'U', 'R', 'I', '-']

def kShardPrefix : Text := ['s', 'h', 'a', 'r', 'd', '-']

def getUriFromIndex (nodeIndex : Nat) : Bytes := str2Bin (kUriPrefix ++ toText nodeIndex)

def getUri (c : DevcashContext) : Bytes := getUriFromIndex c.getCurrentNode

def getShardUri (c : DevcashContext) : Bytes := str2Bin (kShardPrefix ++ toText c.currentShard)

end DevcashContext

/-- The topics that a `SUB` socket hands over, given its subscriptions. -/
abbrev SubSocket := List Bytes → Bytes → Bool

/-- The rule that libzmq documents: a topic is handed over if it begins with a subscription. -/
def SubSocket.ByPrefix (socket : SubSocket) : Prop :=
  ∀ filters topic, socket filters topic = true ↔ ∃ filter ∈ filters, filter <+: topic

/-- The filters of a `TransactionClient`. -/
structure TransactionClient where
  filterVector : List Bytes

namespace TransactionClient

def make : TransactionClient := ⟨[]⟩

def listenTo (c : TransactionClient) (filter : Bytes) : TransactionClient :=
  ⟨c.filterVector ++ [filter]⟩

def hears (c : TransactionClient) (socket : SubSocket) (topic : Bytes) : Bool :=
  socket c.filterVector topic

/-- The clients of a node as `BlockchainModule::init` leaves them: one for its peers and one
for its own server. -/
def peer (context : DevcashContext) : TransactionClient :=
  (make.listenTo context.getShardUri).listenTo context.getUri

def loopback (context : DevcashContext) : TransactionClient := make.listenTo context.getUri

section
variable {socket : SubSocket} (hsocket : socket.ByPrefix) (context : DevcashContext) (topic : Bytes)
include hsocket

theorem peer_hears_iff : (peer context).hears socket topic = true ↔
    context.getShardUri <+: topic ∨ context.getUri <+: topic := by
  rw [hears, hsocket]
  simp [peer, listenTo, make]

theorem loopback_hears_iff :
    (loopback context).hears socket topic = true ↔ context.getUri <+: topic := by
  rw [hears, hsocket]
  simp [loopback, listenTo, make]

end

end TransactionClient

theorem eq_of_begins {m n : Nat} (hn : n < 10) (hpos : 0 < m ∨ n = 0) (h : ∃ k, n / 10 ^ k = m) :
    m = n := by
  obtain ⟨k, rfl⟩ := h
  cases k with
  | zero => simp
  | succ k =>
    have h0 : n / 10 ^ (k + 1) = 0 := by
      rw [Nat.pow_succ', ← Nat.div_div_eq_div_mul, Nat.div_eq_of_lt hn, Nat.zero_div]
    omega

/-- A number begins another one in decimal notation exactly if it remains when some last
digits are left out. -/
theorem toText_prefix_iff (m n : Nat) :
    toText m <+: toText n ↔ (0 < m ∨ n = 0) ∧ ∃ k, n / 10 ^ k = m := by
  have hinj : ∀ n, toText m = toText n ↔ m = n := by
    intro n
    constructor
    · intro h
      have hread := congrArg (Nat.ofDigitChars 10 · 0) h
      simpa [toText] using hread
    · intro h
      rw [h]
  induction n using Nat.strong_induction_on with
  | _ n ih =>
    obtain hlt | hle := Nat.lt_or_ge n 10
    · -- One digit begins with itself only.
      have hdigit : toText n = [n.digitChar] := Nat.toDigits_of_lt_base hlt
      have hone : toText m <+: toText n ↔ m = n := by
        rw [← hinj, hdigit]
        constructor
        · intro h
          exact h.eq_of_length (Nat.le_antisymm h.length_le
            (List.length_pos_iff.mpr Nat.toDigits_ne_nil))
        · intro h
          rw [h]
      rw [hone]
      constructor
      · rintro rfl
        exact ⟨by omega, 0, by simp⟩
      · rintro ⟨hpos, hk⟩
        exact eq_of_begins hlt hpos hk
    · have hlast : toText n = toText (n / 10) ++ [(n % 10).digitChar] :=
        Nat.toDigits_of_base_le (by decide) hle
      have hrest := ih (n / 10) (by omega)
      rw [hlast, List.prefix_concat_iff, ← hlast, hinj]
      constructor
      · rintro (rfl | hshorter)
        · exact ⟨by omega, 0, by simp⟩
        · obtain ⟨hpos, k, hk⟩ := hrest.mp hshorter
          refine ⟨by omega, k + 1, ?_⟩
          rw [Nat.pow_succ', ← Nat.div_div_eq_div_mul, hk]
      · rintro ⟨hpos, k, hk⟩
        cases k with
        | zero =>
          left
          simpa using hk.symm
        | succ k =>
          right
          rw [Nat.pow_succ', ← Nat.div_div_eq_div_mul] at hk
          exact hrest.mpr ⟨by omega, k, hk⟩

theorem str2Bin_prefix_iff {s t : Text} (hs : ∀ c ∈ s, c.toNat < 256) (ht : ∀ c ∈ t, c.toNat < 256) :
    str2Bin s <+: str2Bin t ↔ s <+: t := by
  induction s generalizing t with
  | nil => simp [str2Bin]
  | cons c s ih =>
    cases t with
    | nil => simp [str2Bin]
    | cons d t =>
      have hbyte : UInt8.ofNat c.toNat = UInt8.ofNat d.toNat ↔ c = d := by
        constructor
        · intro h
          have hnat := congrArg UInt8.toNat h
          simp only [UInt8.toNat_ofNat', Nat.mod_eq_of_lt (hs c (by simp)),
            Nat.mod_eq_of_lt (ht d (by simp))] at hnat
          exact Char.toNat_inj.mp hnat
        · intro h
          rw [h]
      have htail := ih (t := t) (fun x hx => hs x (by simp [hx])) (fun x hx => ht x (by simp [hx]))
      simp only [str2Bin, List.map_cons, List.cons_prefix_cons] at htail ⊢
      rw [hbyte, htail]

theorem toText_lt_256 {n : Nat} {c : Char} (h : c ∈ toText n) : c.toNat < 256 := by
  have hdigit := isDigit_toText h
  simp only [Char.isDigit, Bool.and_eq_true, decide_eq_true_eq] at hdigit
  have hle : c.toNat ≤ '9'.toNat := hdigit.2
  exact Nat.lt_of_le_of_lt hle (by decide)

theorem uri_prefix_iff {stem : Text} (hstem : ∀ c ∈ stem, c.toNat < 256) (m n : Nat) :
    str2Bin (stem ++ toText m) <+: str2Bin (stem ++ toText n) ↔
      (0 < m ∨ n = 0) ∧ ∃ k, n / 10 ^ k = m := by
  have hbyte : ∀ n, ∀ c ∈ stem ++ toText n, c.toNat < 256 := by
    intro n c hc
    obtain hc | hc := List.mem_append.mp hc
    · exact hstem c hc
    · exact toText_lt_256 hc
  rw [str2Bin_prefix_iff (hbyte m) (hbyte n), List.prefix_append_right_inj, toText_prefix_iff]

theorem kUriPrefix_lt_256 : ∀ c ∈ DevcashContext.kUriPrefix, c.toNat < 256 := by
  simp [DevcashContext.kUriPrefix]

theorem kShardPrefix_lt_256 : ∀ c ∈ DevcashContext.kShardPrefix, c.toNat < 256 := by
  simp [DevcashContext.kShardPrefix]

theorem uris_apart (m n : Nat) :
    ¬ str2Bin (DevcashContext.kShardPrefix ++ toText m) <+:
      str2Bin (DevcashContext.kUriPrefix ++ toText n) ∧
    ¬ str2Bin (DevcashContext.kUriPrefix ++ toText m) <+:
      str2Bin (DevcashContext.kShardPrefix ++ toText n) := by
  simp [str2Bin, DevcashContext.kShardPrefix, DevcashContext.kUriPrefix, List.cons_prefix_cons]

namespace TransactionClient
variable {socket : SubSocket} (hsocket : socket.ByPrefix) (c : DevcashContext)
include hsocket

theorem hears_uri_iff (j : Nat) : (peer c).hears socket (DevcashContext.getUriFromIndex j) = true ↔
    (0 < c.getCurrentNode ∨ j = 0) ∧ ∃ k, j / 10 ^ k = c.getCurrentNode := by
  rw [peer_hears_iff hsocket, DevcashContext.getShardUri, DevcashContext.getUri,
    DevcashContext.getUriFromIndex, DevcashContext.getUriFromIndex, uri_prefix_iff kUriPrefix_lt_256,
    or_iff_right (uris_apart _ _).1]

theorem hears_shardUri_iff (d : DevcashContext) : (peer c).hears socket d.getShardUri = true ↔
    (0 < c.currentShard ∨ d.currentShard = 0) ∧ ∃ k, d.currentShard / 10 ^ k = c.currentShard := by
  rw [peer_hears_iff hsocket, DevcashContext.getShardUri, DevcashContext.getShardUri,
    DevcashContext.getUri, DevcashContext.getUriFromIndex, uri_prefix_iff kShardPrefix_lt_256,
    or_iff_left (uris_apart _ _).2]

theorem not_loopback_hears_shardUri (d : DevcashContext) :
    (loopback c).hears socket d.getShardUri = false := by
  rw [Bool.eq_false_iff, ne_eq, loopback_hears_iff hsocket]
  exact (uris_apart _ _).2

end TransactionClient

/-- The node with a number in a shard of `peers` nodes. -/
def nodeContext (peers : Nat) (mode : Nat → AppMode) (shard node : Nat) : DevcashContext where
  currentNode := node
  currentShard := shard
  peerCount := peers
  appMode := mode shard

theorem getCurrentNode_nodeContext {peers : Nat} (mode : Nat → AppMode) {s i : Nat}
    (h : s * peers + i < 2 ^ 32) : (nodeContext peers mode s i).getCurrentNode = s * peers + i := by
  rw [DevcashContext.getCurrentNode, nodeContext, Nat.add_comm]
  exact Nat.mod_eq_of_lt h

section
variable {socket : SubSocket} (hsocket : socket.ByPrefix) {peers : Nat} (hpeers : 0 < peers)
  {shards : Nat} {mode : Nat → AppMode}
include hsocket hpeers

theorem few_of_hears_uri (h : ∀ s < shards, ∀ i < peers, ∀ t < shards, ∀ j < peers,
    (TransactionClient.peer (nodeContext peers mode s i)).hears socket
      (nodeContext peers mode t j).getUri = true → s = t ∧ i = j) : shards * peers ≤ 10 := by
  by_contra hmany
  -- The number 1 begins the number 10.
  have h1 : 1 / peers * peers + 1 % peers = 1 := by rw [Nat.mul_comm, Nat.div_add_mod]
  have h10 : 10 / peers * peers + 10 % peers = 10 := by rw [Nat.mul_comm, Nat.div_add_mod]
  have hlt : ∀ n ≤ 10, n / peers < shards := by
    intro n hn
    exact (Nat.div_lt_iff_lt_mul hpeers).mpr (by omega)
  obtain ⟨hs, hi⟩ := h (1 / peers) (hlt 1 (by omega)) (1 % peers) (Nat.mod_lt 1 hpeers)
    (10 / peers) (hlt 10 (by omega)) (10 % peers) (Nat.mod_lt 10 hpeers) (by
      rw [DevcashContext.getUri, TransactionClient.hears_uri_iff hsocket,
        getCurrentNode_nodeContext mode (by omega), getCurrentNode_nodeContext mode (by omega), h1,
        h10]
      exact ⟨by omega, 1, rfl⟩)
  rw [← hs, ← hi, h1] at h10
  omega

theorem hears_uri_of_few (hfew : shards * peers ≤ 10) {s i t j : Nat} (hs : s < shards)
    (hi : i < peers) (ht : t < shards) (hj : j < peers) :
    (TransactionClient.peer (nodeContext peers mode s i)).hears socket
      (nodeContext peers mode t j).getUri = true ↔ s = t ∧ i = j := by
  have hlt : ∀ s < shards, ∀ i < peers, s * peers + i < 10 := by
    intro s hs i hi
    have hmul := Nat.mul_le_mul_right peers (Nat.succ_le_of_lt hs)
    rw [Nat.succ_mul] at hmul
    omega
  have hsi := hlt s hs i hi
  have htj := hlt t ht j hj
  rw [DevcashContext.getUri, TransactionClient.hears_uri_iff hsocket,
    getCurrentNode_nodeContext mode (by omega), getCurrentNode_nodeContext mode (by omega)]
  constructor
  · rintro ⟨hpos, hk⟩
    have heq := eq_of_begins htj hpos hk
    have hmod := congrArg (· % peers) heq
    simp only [Nat.mul_add_mod_of_lt hi, Nat.mul_add_mod_of_lt hj] at hmod
    exact ⟨Nat.eq_of_mul_eq_mul_right hpeers (by omega), hmod⟩
  · rintro ⟨rfl, rfl⟩
    exact ⟨by omega, 0, by simp⟩

end

/-- With sockets that go by the beginning of a topic, messages to a node reach only this node
exactly if the deployment has at most ten nodes, and those to a shard reach only its nodes exactly
if there are at most ten shards. -/
theorem addressing_exact_iff {socket : SubSocket} (hsocket : socket.ByPrefix) {peers : Nat}
    (hpeers : 0 < peers) (shards : Nat) (mode : Nat → AppMode) :
    ((∀ s < shards, ∀ i < peers, ∀ t < shards, ∀ j < peers,
      ((TransactionClient.peer (nodeContext peers mode s i)).hears socket
        (nodeContext peers mode t j).getUri = true ↔ s = t ∧ i = j)) ↔ shards * peers ≤ 10) ∧
    ((∀ s < shards, ∀ i < peers, ∀ t < shards, ∀ j < peers,
      ((TransactionClient.peer (nodeContext peers mode s i)).hears socket
        (nodeContext peers mode t j).getShardUri = true ↔ s = t)) ↔ shards ≤ 10) := by
  refine ⟨⟨fun h => ?_, fun hfew s hs i hi t ht j hj => ?_⟩,
    ⟨fun h => ?_, fun hfew s hs i hi t ht j hj => ?_⟩⟩
  · exact few_of_hears_uri hsocket hpeers fun s hs i hi t ht j hj => (h s hs i hi t ht j hj).mp
  · exact hears_uri_of_few hsocket hpeers hfew hs hi ht hj
  · by_contra hmany
    have hhears := (h 1 (by omega) 0 hpeers 10 (by omega) 0 hpeers).mp (by
      rw [TransactionClient.hears_shardUri_iff hsocket]
      exact ⟨Or.inl Nat.one_pos, 1, by simp [nodeContext]⟩)
    omega
  · rw [TransactionClient.hears_shardUri_iff hsocket]
    constructor
    · rintro ⟨hpos, hk⟩
      exact eq_of_begins (show t < 10 by omega) hpos hk
    · rintro rfl
      exact ⟨Nat.eq_zero_or_pos s |>.symm, 0, by simp [nodeContext]⟩

/-- A socket that compares the bytes. -/
def SubSocket.sample : SubSocket := fun filters topic => filters.any (fun f => f.isPrefixOf topic)

theorem SubSocket.byPrefix_sample : SubSocket.sample.ByPrefix := by
  intro filters topic
  simp [SubSocket.sample, List.any_eq_true, List.isPrefixOf_iff_prefix]

/-- With three nodes in a shard the fourth shard has the first node whose mail others read. -/
theorem addressing_exact_iff_three : ¬ (∀ s < 4, ∀ i < 3, ∀ t < 4, ∀ j < 3,
    ((TransactionClient.peer (nodeContext 3 (fun _ => .t2) s i)).hears .sample
      (nodeContext 3 (fun _ => .t2) t j).getUri = true ↔ s = t ∧ i = j)) := by
  rw [(addressing_exact_iff SubSocket.byPrefix_sample (by decide) 4 _).1]
  decide

end Devcash
