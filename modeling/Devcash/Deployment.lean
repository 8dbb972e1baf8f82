import Mathlib
import Devcash.BlockchainModule
import Devcash.Lib.Simulation
import Devcash.Network

/-! The processes of all shards with their sockets, queues and threads refine the networks of the
shards, as long as no two callbacks of a process overlap: what a process does to its node is what
the handlers do when they are given the messages of the other nodes of its shard. -/
namespace Devcash
open DevcashMessage

/-- A process: the number of its shard and its number in it. -/
abbrev Party (shards peers : Nat) := Fin shards × Fin peers

/-- How the processes are started. `remoteBlocks` is what the internetwork controllers find in
the member that their constructor leaves alone, and `overlap` is what becomes of a process two of
whose callbacks run at a time. -/
structure Setup (o : Ossl) (shards peers : Nat) where
  shard : Fin shards → Shard o peers
  wallets : Party shards peers → List Address
  mode : Fin shards → AppMode
  maxTxPerBlock : Fin shards → Nat
  remoteBlocks : Party shards peers → Nat
  overlap : Party shards peers → BlockchainModule → BlockchainModule
  socket : SubSocket
  currentShard : ∀ x i, ((shard x).context i).currentShard = x
  byPrefix : socket.ByPrefix

/-- The processes and the frames that each server has published. -/
structure Deployment (shards peers : Nat) where
  modules : Party shards peers → BlockchainModule
  published : Party shards peers → List (Bytes × Bytes)

/-- A step of one process. An announcer publishes transactions; what a server has published
arrives late, repeatedly or never. -/
inductive DeploymentAction (shards peers : Nat) where
  | announce (p : Party shards peers) (uri data : Bytes) (index : UInt32)
  | fromPeer (p sender : Party shards peers) (k : Nat)
  | fromSelf (p : Party shards peers) (k : Nat)
  | take (p : Party shards peers) (e : Executor) (client : Client) (now : Nat)
  | finish (p : Party shards peers)
  | tick (p : Party shards peers)
  | publish (p : Party shards peers) (producer : Producer)

variable {o : Ossl} {shards peers : Nat}

/-- The process that makes the step. -/
def DeploymentAction.party : DeploymentAction shards peers → Party shards peers
  | .announce p .. | .fromPeer p .. | .fromSelf p .. | .take p .. | .finish p | .tick p
  | .publish p .. => p

namespace Setup

def context (setup : Setup o shards peers) (p : Party shards peers) : DevcashContext :=
  (setup.shard p.1).context p.2

def keys (setup : Setup o shards peers) (p : Party shards peers) : WalletRing o :=
  ⟨(setup.shard p.1).keys p.2, setup.wallets p⟩

end Setup

namespace Deployment
variable (setup : Setup o shards peers)

def init : Deployment shards peers where
  modules := fun p =>
    .init (setup.mode p.1) (setup.maxTxPerBlock p.1) (setup.remoteBlocks p)
  published := fun _ => []

def setModule (d : Deployment shards peers) (p : Party shards peers) (m : BlockchainModule) :
    Deployment shards peers :=
  { d with modules := Function.update d.modules p m }

/-- The filters of a client of a process. -/
def client (p : Party shards peers) : Client → TransactionClient
  | .peer => .peer (setup.context p)
  | .loopback => .loopback (setup.context p)

/-- Two frames arrive at a client of a process. -/
def arrive (d : Deployment shards peers) (p : Party shards peers) (c : Client) (frame : Bytes × Bytes) :
    Deployment shards peers :=
  if (client setup p c).hears setup.socket frame.1 then
    d.setModule p ((d.modules p).processIncomingMessage c frame.1 frame.2)
  else d

/-- A step of a process that has not been terminated. -/
def act (d : Deployment shards peers) : DeploymentAction shards peers → Deployment shards peers
  | .announce p uri data index =>
    d.arrive setup p .peer
      (uri, serialize ⟨uri, EMessageType.transactionAnnouncement.word, data, index⟩)
  | .fromPeer p sender k =>
    if sender = p then d
    else
      match (d.published sender)[k]? with
      | none => d
      | some frame => d.arrive setup p .peer frame
  | .fromSelf p k =>
    match (d.published p)[k]? with
    | none => d
    | some frame => d.arrive setup p .loopback frame
  | .take p e c now => d.setModule p ((d.modules p).take (setup.overlap p) e c now)
  | .finish p =>
    d.setModule p ((d.modules p).finish (setup.keys p) (setup.context p) (setup.mode p.1))
  | .tick p => d.setModule p ((d.modules p).tick (setup.context p))
  | .publish p producer =>
    match (d.modules p).popOutgoing producer with
    | none => d
    | some (message, m) =>
      { d.setModule p m with
        published := Function.update d.published p
          (d.published p ++ [(message.uri, serialize message)]) }

def step (d : Deployment shards peers) (a : DeploymentAction shards peers) : Deployment shards peers :=
  if (d.modules a.party).terminated then d else d.act setup a

/-- The positions in a message are 32-bit words. -/
def FitsWords (message : DevcashMessage) : Prop := message.uri.length + message.data.length + 17 < 2 ^ 32

/-- What is published can be read back, and a callback starts when no other one of its process
runs. -/
def Proper (d : Deployment shards peers) : DeploymentAction shards peers → Prop
  | .announce _ uri data index =>
    FitsWords ⟨uri, EMessageType.transactionAnnouncement.word, data, index⟩
  | .publish p producer => ∀ message ∈ (d.modules p).outgoing producer, FitsWords message
  | .take p .. => (d.modules p).running = none
  | _ => True

/-- The networks of the shards, each with its own steps. -/
def stepNetworks (nets : Fin shards → Network peers) (a : Fin shards × Action peers) :
    Fin shards → Network peers :=
  Function.update nets a.1 ((nets a.1).step (setup.shard a.1) a.2)

def initNetworks : Fin shards → Network peers :=
  fun x => Network.init (setup.mode x) (setup.maxTxPerBlock x)

/-- Every message on its way has what its sender (`A`) and its receiver (`B`) expect, and no
process was terminated. -/
structure Carries (A : Party shards peers → DevcashMessage → Prop)
    (B : Party shards peers → Executor → DevcashMessage → Prop) (d : Deployment shards peers) :
    Prop where
  alive : ∀ p, (d.modules p).terminated = false
  inbox : ∀ p e c, ∀ m ∈ (d.modules p).inbox e c, B p e m
  running : ∀ p, ∀ r ∈ (d.modules p).running, B p r.executor r.ptr
  outgoing : ∀ p producer, ∀ m ∈ (d.modules p).outgoing producer, A p m
  published : ∀ p, ∀ frame ∈ d.published p,
    ∃ m, A p m ∧ FitsWords m ∧ frame = (m.uri, serialize m)

variable {setup} {A A' : Party shards peers → DevcashMessage → Prop}
  {B B' : Party shards peers → Executor → DevcashMessage → Prop} {d : Deployment shards peers}
  {p : Party shards peers}

theorem carries_init : (init setup).Carries A B where
  alive := fun _ => rfl
  inbox := fun _ _ _ _ hm => absurd hm List.not_mem_nil
  running := fun _ _ hm => absurd hm (Option.not_mem_none _)
  outgoing := fun _ _ _ hm => absurd hm List.not_mem_nil
  published := fun _ _ hm => absurd hm List.not_mem_nil

theorem modules_setModule_self (m : BlockchainModule) : (d.setModule p m).modules p = m :=
  Function.update_self ..

theorem modules_setModule_of_ne {q : Party shards peers} (h : q ≠ p) (m : BlockchainModule) :
    (d.setModule p m).modules q = d.modules q := Function.update_of_ne h ..

theorem Carries.set (h : d.Carries A B) (hA : ∀ p m, A p m → A' p m)
    (hB : ∀ p e m, B p e m → B' p e m) {m : BlockchainModule} (halive : m.terminated = false)
    (hin : ∀ e c, ∀ x ∈ m.inbox e c, B' p e x) (hrun : ∀ r ∈ m.running, B' p r.executor r.ptr)
    (hout : ∀ producer, ∀ x ∈ m.outgoing producer, A' p x) :
    (d.setModule p m).Carries A' B' where
  alive := by
    intro q
    by_cases hq : q = p
    · rw [hq, modules_setModule_self, halive]
    · rw [modules_setModule_of_ne hq, h.alive q]
  inbox := by
    intro q e c x hx
    by_cases hq : q = p
    · subst hq
      rw [modules_setModule_self] at hx
      exact hin e c x hx
    · rw [modules_setModule_of_ne hq] at hx
      exact hB q e x (h.inbox q e c x hx)
  running := by
    intro q r hr
    by_cases hq : q = p
    · subst hq
      rw [modules_setModule_self] at hr
      exact hrun r hr
    · rw [modules_setModule_of_ne hq] at hr
      exact hB q r.executor r.ptr (h.running q r hr)
  outgoing := by
    intro q producer x hx
    by_cases hq : q = p
    · subst hq
      rw [modules_setModule_self] at hx
      exact hout producer x hx
    · rw [modules_setModule_of_ne hq] at hx
      exact hA q x (h.outgoing q producer x hx)
  published := by
    intro q frame hframe
    obtain ⟨m, hm, hfits, heq⟩ := h.published q frame hframe
    exact ⟨m, hA q m hm, hfits, heq⟩

theorem deserialize_of_fits {m : DevcashMessage} (h : FitsWords m) : deserialize (serialize m) = .ok m := by
  rw [serialize_eq h, deserialize_layout h]

theorem Carries.arrive (h : d.Carries A B) (c : Client) {m : DevcashMessage} (hfits : FitsWords m)
    {e : Executor} (hroute : route m.messageType = some e)
    (hB : (client setup p c).hears setup.socket m.uri = true → B p e m) :
    (d.arrive setup p c (m.uri, serialize m)).Carries A B := by
  rw [Deployment.arrive]
  split_ifs with hhears
  · have hsame : (d.setModule p (d.modules p)).Carries A B :=
      h.set (fun _ _ hm => hm) (fun _ _ _ hm => hm) (h.alive p) (h.inbox p) (h.running p)
        (h.outgoing p)
    simp only [BlockchainModule.processIncomingMessage]
    split_ifs
    · exact hsame
    · exact hsame
    · rw [deserialize_of_fits hfits]
      simp only [BlockchainModule.handleMessage, hroute]
      refine h.set (fun _ _ hm => hm) (fun _ _ _ hm => hm) (h.alive p) ?_ (h.running p)
        (h.outgoing p)
      intro e' c' x hx
      obtain hx | ⟨rfl, rfl, hx⟩ := BlockchainModule.mem_inbox_setInbox hx
      · exact h.inbox p e' c' x hx
      · obtain hx | hx := List.mem_append.mp hx
        · exact h.inbox p e' c' x hx
        · rw [List.mem_singleton.mp hx]
          exact hB hhears
  · exact h

/-- What senders and receivers expect of the messages that cross the sockets. -/
structure Rules (setup : Setup o shards peers) (A : Party shards peers → DevcashMessage → Prop)
    (B : Party shards peers → Executor → DevcashMessage → Prop) : Prop where
  known : ∀ p m, A p m → ∃ e, route m.messageType = some e
  other : ∀ p m e, route m.messageType = some e → e ≠ .consensus → A p m ∧ B p e m
  deliver : ∀ p q m, q ≠ p → A q m → route m.messageType = some .consensus →
    (TransactionClient.peer (setup.context p)).hears setup.socket m.uri = true → B p .consensus m
  echo : ∀ p m, A p m → route m.messageType = some .consensus →
    (TransactionClient.loopback (setup.context p)).hears setup.socket m.uri = true →
      B p .consensus m

theorem Carries.fromPeer (h : d.Carries A B) (rules : Rules setup A B) (q : Party shards peers)
    (k : Nat) : (d.act setup (.fromPeer p q k)).Carries A B := by
  simp only [act]
  split_ifs with hq
  · exact h
  · cases hframe : (d.published q)[k]? with
    | none => exact h
    | some frame =>
      obtain ⟨m, hA, hfits, rfl⟩ := h.published q frame (List.mem_of_getElem? hframe)
      obtain ⟨e, hroute⟩ := rules.known q m hA
      refine h.arrive .peer hfits hroute fun hhears => ?_
      by_cases he : e = .consensus
      · subst he
        exact rules.deliver p q m hq hA hroute hhears
      · exact (rules.other p m e hroute he).2

theorem Carries.fromSelf (h : d.Carries A B) (rules : Rules setup A B) (k : Nat) :
    (d.act setup (.fromSelf p k)).Carries A B := by
  simp only [act]
  cases hframe : (d.published p)[k]? with
  | none => exact h
  | some frame =>
    obtain ⟨m, hA, hfits, rfl⟩ := h.published p frame (List.mem_of_getElem? hframe)
    obtain ⟨e, hroute⟩ := rules.known p m hA
    refine h.arrive .loopback hfits hroute fun hhears => ?_
    by_cases he : e = .consensus
    · subst he
      exact rules.echo p m hA hroute hhears
    · exact (rules.other p m e hroute he).2

theorem Carries.announce (h : d.Carries A B) (rules : Rules setup A B) {uri data : Bytes}
    {index : UInt32}
    (hfits : FitsWords ⟨uri, EMessageType.transactionAnnouncement.word, data, index⟩) :
    (d.act setup (.announce p uri data index)).Carries A B := by
  refine h.arrive .peer (m := ⟨uri, EMessageType.transactionAnnouncement.word, data, index⟩) hfits
    (e := .validator) rfl fun _ => ?_
  exact (rules.other p _ .validator rfl (by decide)).2

theorem Carries.tick (h : d.Carries A B) (rules : Rules setup A B) :
    (d.act setup (.tick p)).Carries A B := by
  simp only [act, BlockchainModule.tick]
  split_ifs
  · refine h.set (fun _ _ hm => hm) (fun _ _ _ hm => hm) (h.alive p) (h.inbox p) (h.running p) ?_
    intro producer x hx
    obtain hx | hx := BlockchainModule.mem_outgoing_queue hx
    · exact h.outgoing p producer x hx
    · rw [List.mem_singleton.mp hx]
      exact (rules.other p _ .internetwork rfl (by decide)).1
  · exact h.set (fun _ _ hm => hm) (fun _ _ _ hm => hm) (h.alive p) (h.inbox p) (h.running p)
      (h.outgoing p)

theorem Carries.publish (h : d.Carries A B) {producer : Producer}
    (hfits : ∀ message ∈ (d.modules p).outgoing producer, FitsWords message) :
    (d.act setup (.publish p producer)).Carries A B := by
  simp only [act, BlockchainModule.popOutgoing]
  cases hout : (d.modules p).outgoing producer with
  | nil => exact h
  | cons message rest =>
    have hA := h.outgoing p producer
    rw [hout] at hA hfits
    have hset : (d.setModule p { d.modules p with
        outgoing := Function.update (d.modules p).outgoing producer rest }).Carries A B := by
      refine h.set (fun _ _ hm => hm) (fun _ _ _ hm => hm) (h.alive p) (h.inbox p) (h.running p) ?_
      intro producer' x hx
      by_cases hp : producer' = producer
      · subst hp
        simp only [Function.update_self] at hx
        exact hA x (List.mem_cons_of_mem message hx)
      · simp only [Function.update_of_ne hp] at hx
        exact h.outgoing p producer' x hx
    refine ⟨hset.alive, hset.inbox, hset.running, hset.outgoing, ?_⟩
    intro q frame hframe
    by_cases hq : q = p
    · subst hq
      simp only [Function.update_self] at hframe
      obtain hframe | hframe := List.mem_append.mp hframe
      · exact h.published q frame hframe
      · exact ⟨message, hA message (by simp), hfits message (by simp), List.mem_singleton.mp hframe⟩
    · simp only [Function.update_of_ne hq] at hframe
      exact h.published q frame hframe

theorem Carries.take (h : d.Carries A B) {e : Executor} {c : Client} {now : Nat}
    (hidle : (d.modules p).running = none) : (d.act setup (.take p e c now)).Carries A B := by
  simp only [act]
  obtain hsame | ⟨ptr, rest, hin, htake⟩ :=
    BlockchainModule.take_cases (setup.overlap p) e c now hidle
  · rw [hsame]
    exact h.set (fun _ _ hm => hm) (fun _ _ _ hm => hm) (h.alive p) (h.inbox p) (h.running p)
      (h.outgoing p)
  · rw [htake]
    refine h.set (fun _ _ hm => hm) (fun _ _ _ hm => hm) (h.alive p) ?_ ?_ (h.outgoing p)
    · intro e' c' x hx
      obtain hold | ⟨rfl, rfl, hrest⟩ := BlockchainModule.mem_inbox_setInbox hx
      · exact h.inbox p e' c' x hold
      · refine h.inbox p e' c' x ?_
        rw [hin]
        exact List.mem_cons_of_mem ptr hrest
    · intro r hr
      cases hr
      exact h.inbox p e c ptr (by rw [hin]; exact List.mem_cons_self)

theorem Carries.turn (h : d.Carries A B) (rules' : Rules setup A' B')
    (hA : ∀ p m, A p m → A' p m) (hB : ∀ p e m, B p e m → B' p e m) {r : Callback}
    {m : BlockchainModule}
    (ht : BlockchainModule.Turn (setup.keys p) (setup.context p) (d.modules p) r m)
    (hsent : r.executor ≠ .internetwork → ∀ message, dispatch r.ptr = some message →
      ∀ sent ∈ ((d.modules p).node.handle (setup.keys p).toKeyRing (setup.context p)
        ⟨r.now, message⟩).2, ∀ index, A' p (ofMessage (setup.context p).getShardUri index sent)) :
    (d.setModule p m).Carries A' B' := by
  obtain ⟨-, hended, halive, hinbox, heffect⟩ := ht
  refine h.set hA hB (halive.trans (h.alive p)) ?_ ?_ ?_
  · intro e c x hx
    rw [hinbox] at hx
    exact hB p e x (h.inbox p e c x hx)
  · intro r' hr'
    rw [hended] at hr'
    cases hr'
  · intro producer x hx
    obtain ⟨-, -, hout⟩ | ⟨he, message, hdispatch, -, hout⟩ := heffect
    · obtain hx | hroute | hroute := hout producer x hx
      · exact hA p x (h.outgoing p producer x hx)
      · exact (rules'.other p x .internetwork hroute (by decide)).1
      · exact (rules'.other p x .validator hroute (by decide)).1
    · obtain hx | ⟨sent, hmem, index, rfl⟩ := hout producer x hx
      · exact hA p x (h.outgoing p producer x hx)
      · exact hsent he message hdispatch sent hmem index

theorem act_finish_of_none (h : (d.modules p).running = none) : d.act setup (.finish p) = d := by
  simp only [act, BlockchainModule.finish, h, setModule, Function.update_eq_self]

/-- Every message waits for the thread whose callback handles its type. -/
def Routed (d : Deployment shards peers) : Prop :=
  d.Carries (fun _ m => (route m.messageType).isSome) (fun _ e m => route m.messageType = some e)

theorem rules_routed : Rules setup (fun _ m => (route m.messageType).isSome = true)
    (fun _ e m => route m.messageType = some e) where
  known := fun _ _ h => Option.isSome_iff_exists.mp h
  other := fun _ _ _ h _ => ⟨by rw [h]; rfl, h⟩
  deliver := fun _ _ _ _ _ h _ => h
  echo := fun _ _ _ h _ => h

theorem Routed.step {a : DeploymentAction shards peers} (h : d.Routed) (hfits : d.Proper a) :
    (d.step setup a).Routed := by
  rw [Deployment.step, if_neg (by rw [h.alive]; exact Bool.false_ne_true)]
  cases a with
  | announce p uri data index => exact h.announce rules_routed hfits
  | fromPeer p q k => exact h.fromPeer rules_routed q k
  | fromSelf p k => exact h.fromSelf rules_routed k
  | tick p => exact h.tick rules_routed
  | publish p producer => exact h.publish hfits
  | take p e c now => exact h.take hfits
  | finish p =>
    cases hr : (d.modules p).running with
    | none =>
      rw [act_finish_of_none hr]
      exact h
    | some r =>
      have hturn := BlockchainModule.finish_cases (setup.keys p) (setup.context p) (setup.mode p.1)
        hr (h.running p r hr)
      exact h.turn rules_routed (fun _ _ hm => hm) (fun _ _ _ hm => hm) hturn
        fun _ _ _ sent _ index => BlockchainModule.route_ofMessage _ index sent

section
variable (setup) (nets : Fin shards → Network peers)

/-- A consensus message on its way to the sockets is one that the node has sent in its network. -/
def Sent (p : Party shards peers) (m : DevcashMessage) : Prop :=
  ∃ e, route m.messageType = some e ∧ (e = .consensus → m.uri = (setup.context p).getShardUri ∧
    ∃ message ∈ (nets p.1).sent p.2, dispatch m = some message)

/-- A consensus message that waits is one that another node of the shard has sent. -/
def Owed (p : Party shards peers) (e : Executor) (m : DevcashMessage) : Prop :=
  route m.messageType = some e ∧ (e = .consensus →
    ∃ sender, sender ≠ p.2 ∧ ∃ message ∈ (nets p.1).sent sender, dispatch m = some message)

/-- The processes show the nodes of the networks. -/
structure Matches (d : Deployment shards peers) (nets : Fin shards → Network peers) : Prop where
  nodes : ∀ p, (d.modules p).node = (nets p.1).nodes p.2
  carries : d.Carries (Sent setup nets) (Owed nets)

end

variable {nets nets' : Fin shards → Network peers}

theorem rules_sent (hshards : shards ≤ 10) : Rules setup (Sent setup nets) (Owed nets) where
  known := fun _ _ h => ⟨h.choose, h.choose_spec.1⟩
  other := fun _ _ e h he => ⟨⟨e, h, fun hc => absurd hc he⟩, h, fun hc => absurd hc he⟩
  deliver := by
    rintro p q m hqp ⟨e, hroute', hsent⟩ hroute hhears
    obtain rfl := Option.some.inj (hroute'.symm.trans hroute)
    obtain ⟨huri, message, hmem, hdispatch⟩ := hsent rfl
    rw [huri, TransactionClient.hears_shardUri_iff setup.byPrefix] at hhears
    have hp : (setup.context p).currentShard = p.1 := setup.currentShard p.1 p.2
    have hq : (setup.context q).currentShard = q.1 := setup.currentShard q.1 q.2
    rw [hp, hq] at hhears
    have hshard : p.1 = q.1 := Fin.ext (eq_of_begins (Nat.lt_of_lt_of_le q.1.isLt hshards)
      hhears.1 hhears.2)
    refine ⟨hroute, fun _ => ⟨q.2, ?_, message, ?_, hdispatch⟩⟩
    · intro heq
      exact hqp (Prod.ext hshard.symm heq)
    · rw [hshard]
      exact hmem
  echo := by
    rintro p m ⟨e, hroute', hsent⟩ hroute hhears
    obtain rfl := Option.some.inj (hroute'.symm.trans hroute)
    rw [(hsent rfl).1, TransactionClient.not_loopback_hears_shardUri setup.byPrefix] at hhears
    exact absurd hhears Bool.false_ne_true

theorem Sent.mono (h : ∀ x i, ∀ message ∈ (nets x).sent i, message ∈ (nets' x).sent i)
    {p : Party shards peers} {m : DevcashMessage} (hm : Sent setup nets p m) :
    Sent setup nets' p m := by
  obtain ⟨e, hroute, hsent⟩ := hm
  refine ⟨e, hroute, fun he => ?_⟩
  obtain ⟨huri, message, hmem, hdispatch⟩ := hsent he
  exact ⟨huri, message, h p.1 p.2 message hmem, hdispatch⟩

theorem Owed.mono (h : ∀ x i, ∀ message ∈ (nets x).sent i, message ∈ (nets' x).sent i)
    {p : Party shards peers} {e : Executor} {m : DevcashMessage} (hm : Owed nets p e m) :
    Owed nets' p e m := by
  refine ⟨hm.1, fun he => ?_⟩
  obtain ⟨sender, hne, message, hmem, hdispatch⟩ := hm.2 he
  exact ⟨sender, hne, message, h p.1 sender message hmem, hdispatch⟩

/-- The node of a process handles a message in its network. -/
def actIn (setup : Setup o shards peers) (nets : Fin shards → Network peers) (p : Party shards peers)
    (e : Event) : Fin shards → Network peers :=
  Function.update nets p.1 ((nets p.1).act (setup.shard p.1) p.2 e)

theorem sent_actIn (e : Event) (x : Fin shards) (i : Fin peers) {message : Message}
    (h : message ∈ (nets x).sent i) : message ∈ (actIn setup nets p e x).sent i := by
  by_cases hx : x = p.1
  · subst hx
    rw [actIn, Function.update_self, Network.act]
    by_cases hi : i = p.2
    · subst hi
      rw [Network.sent_set_self]
      exact List.mem_append_left _ h
    · rw [Network.sent_set_of_ne _ _ _ hi]
      exact h
  · rw [actIn, Function.update_of_ne hx]
    exact h

theorem Matches.handle (hshards : shards ≤ 10) (h : Matches setup d nets) {r : Callback}
    {m : BlockchainModule} {message : Message}
    (ht : BlockchainModule.Turn (setup.keys p) (setup.context p) (d.modules p) r m)
    (hdispatch : dispatch r.ptr = some message)
    (hnode : m.node = ((d.modules p).node.handle (setup.keys p).toKeyRing (setup.context p)
      ⟨r.now, message⟩).1) :
    Matches setup (d.setModule p m) (actIn setup nets p ⟨r.now, message⟩) where
  nodes := by
    intro q
    by_cases hq : q = p
    · subst hq
      rw [modules_setModule_self, hnode, h.nodes, actIn, Function.update_self, Network.act,
        Network.nodes_set_self]
      rfl
    · rw [modules_setModule_of_ne hq, h.nodes, actIn]
      by_cases hshard : q.1 = p.1
      · have hi : q.2 ≠ p.2 := fun hi => hq (Prod.ext hshard hi)
        rw [hshard, Function.update_self, Network.act, Network.nodes_set_of_ne _ _ _ hi]
      · rw [Function.update_of_ne hshard]
  carries := by
    have hmono : ∀ x i, ∀ y ∈ (nets x).sent i, y ∈ (actIn setup nets p ⟨r.now, message⟩ x).sent i :=
      fun x i _ hy => sent_actIn _ x i hy
    refine h.carries.turn (rules_sent hshards) (fun _ _ => Sent.mono hmono)
      (fun _ _ _ => Owed.mono hmono) ht ?_
    intro _ message' hdispatch' sent hsent index
    obtain rfl := Option.some.inj (hdispatch.symm.trans hdispatch')
    obtain ⟨e', he'⟩ := Option.isSome_iff_exists.mp
      (BlockchainModule.route_ofMessage (setup.context p).getShardUri index sent)
    refine ⟨e', he', fun _ => ⟨BlockchainModule.uri_ofMessage .., sent, ?_, dispatch_ofMessage ..⟩⟩
    rw [actIn, Function.update_self, Network.act, Network.sent_set_self, ← h.nodes]
    exact List.mem_append_right _ hsent

theorem node_setModule {m : BlockchainModule} (h : m.node = (d.modules p).node)
    (q : Party shards peers) : ((d.setModule p m).modules q).node = (d.modules q).node := by
  by_cases hq : q = p
  · rw [hq, modules_setModule_self, h]
  · rw [modules_setModule_of_ne hq]

theorem node_arrive (c : Client) (frame : Bytes × Bytes) (q : Party shards peers) :
    ((d.arrive setup p c frame).modules q).node = (d.modules q).node := by
  rw [arrive]
  split_ifs
  · exact node_setModule (BlockchainModule.node_processIncomingMessage ..) q
  · rfl

/-- A callback with an announcement or with a message that was sent by another node of the shard
ends, and the node has handled it. -/
structure Took (setup : Setup o shards peers) (d : Deployment shards peers)
    (nets : Fin shards → Network peers) (a : DeploymentAction shards peers) (p : Party shards peers)
    (event : Event) : Prop where
  turn : a = .finish p ∧ ∃ r, (d.modules p).running = some r ∧ r.now = event.now ∧
    dispatch r.ptr = some event.message
  source : (∃ data, event.message = .transactionAnnouncement data) ∨
    ∃ sender, sender ≠ p.2 ∧ event.message ∈ (nets p.1).sent sender
  shows : Matches setup (d.step setup a) (actIn setup nets p event)

/-- What the end of a callback is in the network: nothing, an announcement, or the delivery of a
message. -/
theorem Matches.finish (hshards : shards ≤ 10) (h : Matches setup d nets) {r : Callback}
    (hstep : d.step setup (.finish p) = d.act setup (.finish p))
    (ht : BlockchainModule.Turn (setup.keys p) (setup.context p) (d.modules p) r
      ((d.modules p).finish (setup.keys p) (setup.context p) (setup.mode p.1))) :
    Matches setup (d.step setup (.finish p)) nets ∨
      ∃ event, Took setup d nets (.finish p) p event := by
  have howed := h.carries.running p r ht.running
  obtain ⟨he, hnode, -⟩ | ⟨he, message, hdispatch, hnode, -⟩ := ht.effect
  · left
    rw [hstep]
    refine ⟨fun q => (node_setModule hnode q).trans (h.nodes q), ?_⟩
    exact h.carries.turn (rules_sent hshards) (fun _ _ hm => hm) (fun _ _ _ hm => hm) ht (absurd he)
  · right
    refine ⟨⟨r.now, message⟩, ⟨rfl, r, ht.running, rfl, hdispatch⟩, ?_, ?_⟩
    · cases hexec : r.executor with
      | internetwork => exact absurd hexec he
      | validator =>
        rw [hexec] at howed
        have hannounce := BlockchainModule.dispatch_of_route_validator howed.1
        exact Or.inl ⟨r.ptr.data, Option.some.inj (hdispatch.symm.trans hannounce)⟩
      | consensus =>
        obtain ⟨sender, hne, message', hmem, hdispatch'⟩ := howed.2 hexec
        obtain rfl := Option.some.inj (hdispatch'.symm.trans hdispatch)
        exact Or.inr ⟨sender, hne, hmem⟩
    · rw [hstep]
      exact h.handle hshards ht hdispatch hnode

theorem Matches.cases (hshards : shards ≤ 10) (h : Matches setup d nets)
    {a : DeploymentAction shards peers} (hfits : d.Proper a) :
    Matches setup (d.step setup a) nets ∨ ∃ p event, Took setup d nets a p event := by
  have rules : Rules setup (Sent setup nets) (Owed nets) := rules_sent hshards
  have hstep : d.step setup a = d.act setup a := by
    rw [Deployment.step, if_neg (by rw [h.carries.alive]; exact Bool.false_ne_true)]
  -- Only callbacks that end touch a node.
  have hquiet (hnodes : ∀ q, ((d.act setup a).modules q).node = (d.modules q).node)
      (hcarries : (d.act setup a).Carries (Sent setup nets) (Owed nets)) :
      Matches setup (d.step setup a) nets ∨ ∃ p event, Took setup d nets a p event := by
    rw [hstep]
    exact Or.inl ⟨fun q => (hnodes q).trans (h.nodes q), hcarries⟩
  cases a with
  | announce p uri data index =>
    exact hquiet (fun q => node_arrive _ _ q) (h.carries.announce rules hfits)
  | fromPeer p q k =>
    refine hquiet (fun x => ?_) (h.carries.fromPeer rules q k)
    simp only [act]
    split_ifs
    · rfl
    · cases (d.published q)[k]? with
      | none => rfl
      | some frame => exact node_arrive ..
  | fromSelf p k =>
    refine hquiet (fun x => ?_) (h.carries.fromSelf rules k)
    simp only [act]
    cases (d.published p)[k]? with
    | none => rfl
    | some frame => exact node_arrive ..
  | tick p =>
    exact hquiet (node_setModule (BlockchainModule.node_tick ..)) (h.carries.tick rules)
  | publish p producer =>
    refine hquiet (fun x => ?_) (h.carries.publish hfits)
    simp only [act, BlockchainModule.popOutgoing]
    cases (d.modules p).outgoing producer with
    | nil => rfl
    | cons message rest =>
      exact node_setModule (m := { d.modules p with
        outgoing := Function.update (d.modules p).outgoing producer rest }) rfl x
  | take p e c now =>
    refine hquiet (fun x => ?_) (h.carries.take hfits)
    simp only [act]
    refine node_setModule ?_ x
    obtain hsame | ⟨ptr, rest, -, htake⟩ :=
      BlockchainModule.take_cases (setup.overlap p) e c now hfits
    · rw [hsame]
    · rw [htake]
      rfl
  | finish p =>
    cases hr : (d.modules p).running with
    | none =>
      left
      rw [hstep, act_finish_of_none hr]
      exact h
    | some r =>
      have hturn := BlockchainModule.finish_cases (setup.keys p) (setup.context p) (setup.mode p.1)
        hr (h.carries.running p r hr).1
      obtain hsame | htook := h.finish hshards hstep hturn
      · exact Or.inl hsame
      · exact Or.inr ⟨p, htook⟩

theorem Took.step {a : DeploymentAction shards peers} {event : Event}
    (h : Took setup d nets a p event) : ∃ b, stepNetworks setup nets b = actIn setup nets p event := by
  obtain ⟨now, message⟩ := event
  obtain ⟨data, rfl⟩ | ⟨sender, hne, hmem⟩ := h.source
  · exact ⟨(p.1, .announce p.2 now data), rfl⟩
  · obtain ⟨k, hk⟩ := List.mem_iff_getElem?.mp hmem
    refine ⟨(p.1, .deliver sender p.2 k now), ?_⟩
    simp only [stepNetworks, Network.step, if_neg hne, hk, actIn]

theorem Matches.step (hshards : shards ≤ 10) (h : Matches setup d nets)
    {a : DeploymentAction shards peers} (hfits : d.Proper a) :
    ∃ l, Matches setup (d.step setup a) (Run.after (stepNetworks setup) nets l) := by
  obtain hsame | ⟨p, event, htook⟩ := h.cases hshards hfits
  · exact ⟨[], hsame⟩
  · obtain ⟨b, hb⟩ := htook.step
    refine ⟨[b], ?_⟩
    rw [Run.after_cons, Run.after_nil, hb]
    exact htook.shows

/-- In every run of the processes of at most ten shards in which the callbacks of a process do not
overlap, whatever the order of the other threads and of the messages, each process shows the node
that a run of the networks of the shards shows: every step of a node is an announcement or the
delivery of a message that another node of its own shard has sent. -/
theorem deployment_refines (setup : Setup o shards peers) (hshards : shards ≤ 10)
    {l : List (DeploymentAction shards peers)} (hl : Run.Each (step setup) Proper (init setup) l) :
    ∃ m : List (Fin shards × Action peers), ∀ p,
      ((Run.after (step setup) (init setup) l).modules p).node =
        (Run.after (stepNetworks setup) (initNetworks setup) m p.1).nodes p.2 := by
  have hinit : Matches setup (init setup) (initNetworks setup) := ⟨fun _ => rfl, carries_init⟩
  obtain ⟨m, hm⟩ := Run.simulates (fun _ _ _ h => h.step hshards) hinit hl
  exact ⟨m, hm.nodes⟩

/-- Two shards of three nodes. -/
def sampleSetup : Setup Ossl.toy 2 3 where
  shard := fun x =>
    { Shard.toy with
      context := fun i => ⟨i, x, 3, .t1⟩
      getPeerCount := fun _ => rfl
      getCurrentNode := by decide +revert }
  wallets := fun _ => []
  mode := fun _ => .t1
  maxTxPerBlock := fun _ => 10
  remoteBlocks := fun _ => 0
  overlap := fun _ m => m
  socket := .sample
  currentShard := fun _ _ => rfl
  byPrefix := SubSocket.byPrefix_sample

/-- An announcer sends a transaction to a process. -/
def sampleAnnounce (p : Party 2 3) : DeploymentAction 2 3 :=
  .announce p (sampleSetup.context p).getUri (Tier1Transaction.sampleMove 1 2 5).getCanonical 0

/-- The validator of the process takes it up and proposes it. -/
def sampleSteps (p : Party 2 3) : List (DeploymentAction 2 3) :=
  [sampleAnnounce p, .take p .validator .peer 0, .finish p]

instance (d : Deployment shards peers) :
    ∀ a : DeploymentAction shards peers, Decidable (d.Proper a)
  | .announce .. => inferInstanceAs (Decidable (_ < _))
  | .publish p producer =>
    inferInstanceAs (Decidable (∀ message ∈ (d.modules p).outgoing producer, _ < _))
  | .take p .. => decidable_of_iff ((d.modules p).running.isNone = true) Option.isNone_iff_eq_none
  | .fromPeer .. | .fromSelf .. | .finish _ | .tick _ => inferInstanceAs (Decidable True)

theorem deployment_refines_sampleSteps :
    ((Run.after (step sampleSetup) (init sampleSetup) (sampleSteps (0, 0))).modules
        (0, 0)).node.utxPool.hasProposal = true ∧
      ∃ m : List (Fin 2 × Action 3), ∀ p,
        ((Run.after (step sampleSetup) (init sampleSetup) (sampleSteps (0, 0))).modules p).node =
          (Run.after (stepNetworks sampleSetup) (initNetworks sampleSetup) m p.1).nodes p.2 := by
  have hrun : Run.Each (step sampleSetup) Proper (init sampleSetup) (sampleSteps (0, 0)) ∧
      ((Run.after (step sampleSetup) (init sampleSetup) (sampleSteps (0, 0))).modules
        (0, 0)).node.utxPool.hasProposal = true := by
    decide +kernel
  exact ⟨hrun.2, deployment_refines sampleSetup (by decide) hrun.1⟩

end Deployment
end Devcash
