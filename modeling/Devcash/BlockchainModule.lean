import Devcash.CatchUp
import Devcash.DevcashMessage
import Devcash.Topics

/-! A process of the program: the node with the clients that read from the sockets, the executors
with their queues and threads, and the queue of the server. A callback starts and ends in steps of
their own, between which the other threads go on. The callbacks of different executors share the
chain and the pool and are not kept apart by any mutex; what they do when they overlap is left
open. -/
namespace Devcash
open DevcashMessage

/-- The three executors; each has one thread. -/
inductive Executor where
  | validator | consensus | internetwork
  deriving DecidableEq, Repr

/-- The client for the peers and the one for the own server; each has a thread that reads. -/
inductive Client where
  | peer | loopback
  deriving DecidableEq, Repr

/-- The threads that queue messages at the server. -/
inductive Producer where
  | executor (e : Executor) | main
  deriving DecidableEq, Repr

/-- The switch of `BlockchainModule::handleMessage`. -/
def route (messageType : UInt32) : Option Executor :=
  if messageType = EMessageType.transactionAnnouncement.word then some .validator
  else if messageType = EMessageType.getBlocksSince.word then some .internetwork
  else if messageType = EMessageType.blocksSince.word then some .internetwork
  else if messageType = EMessageType.requestBlock.word then some .internetwork
  else if messageType = EMessageType.finalBlock.word then some .consensus
  else if messageType = EMessageType.proposalBlock.word then some .consensus
  else if messageType = EMessageType.valid.word then some .consensus
  else none

/-- A callback that has started: its executor, the message and the time. -/
structure Callback where
  executor : Executor
  ptr : DevcashMessage
  now : Nat

/-- `BlockchainModule`. A queue with several producers keeps the order of each of them, so there
is a list for each. `remoteBlocks` is the member of the internetwork controller and
`requestedBlocks` that of the module. -/
structure BlockchainModule where
  node : Node
  internetworkFailure : Option Error
  remoteBlocks : Nat
  requestedBlocks : Nat
  inbox : Executor → Client → List DevcashMessage
  outgoing : Producer → List DevcashMessage
  running : Option Callback
  terminated : Bool

namespace BlockchainModule

def init (mode : AppMode) (maxTxPerBlock remoteBlocks : Nat) : BlockchainModule where
  node := Node.init mode maxTxPerBlock
  internetworkFailure := none
  remoteBlocks := remoteBlocks
  requestedBlocks := 0
  inbox := fun _ _ => []
  outgoing := fun _ => []
  running := none
  terminated := false

def setInbox (m : BlockchainModule) (e : Executor) (client : Client) (messages : List DevcashMessage) :
    BlockchainModule :=
  { m with inbox := Function.update m.inbox e (Function.update (m.inbox e) client messages) }

/-- `queueMessage` for each of the messages. -/
def queue (m : BlockchainModule) (producer : Producer) (messages : List DevcashMessage) :
    BlockchainModule :=
  { m with outgoing := Function.update m.outgoing producer (m.outgoing producer ++ messages) }

/-- A type that the switch does not know is thrown out of a function that is `noexcept`. -/
def handleMessage (m : BlockchainModule) (client : Client) (message : DevcashMessage) :
    BlockchainModule :=
  match route message.messageType with
  | some e => m.setInbox e client (m.inbox e client ++ [message])
  | none => { m with terminated := true }

/-- `processIncomingMessage` on the two frames of a message. -/
def processIncomingMessage (m : BlockchainModule) (client : Client) (uri mess : Bytes) :
    BlockchainModule :=
  if uri = [] then m
  else if mess = [] then m
  else
    match deserialize mess with
    | .error _ => { m with terminated := true }
    | .ok message => m.handleMessage client message

/-- A message of a handler as it is queued: under the uri of the shard, a proposal with an index
of its own and the others with that of the message they answer. -/
def outgoingMessage (context : DevcashContext) (height : Nat) (index : UInt32) (message : Message) :
    DevcashMessage :=
  match message with
  | .proposalBlock data => ofMessage context.getShardUri
      (UInt32.ofNat (height + 1 + (context.getCurrentNode + 1) * 1000000)) (.proposalBlock data)
  | message => ofMessage context.getShardUri index message

/-- What the controller for the other shards makes of a message, by its type. -/
def incoming (now : Nat) (message : DevcashMessage) : Option Incoming :=
  if message.messageType = EMessageType.requestBlock.word then some .requestBlock
  else if message.messageType = EMessageType.getBlocksSince.word then
    some (.getBlocksSince message.data)
  else if message.messageType = EMessageType.blocksSince.word then some (.blocksSince now message.data)
  else none

def AnswerType.word : AnswerType → UInt32
  | .transactionAnnouncement => EMessageType.transactionAnnouncement.word
  | .blocksSince => EMessageType.blocksSince.word

/-- What it sends, as it is queued. -/
def outgoingRequest (remoteBlocks : Nat) (index : UInt32) : Outgoing → DevcashMessage
  | .getBlocksSince node data =>
    ⟨DevcashContext.getUriFromIndex node, EMessageType.getBlocksSince.word, data,
      UInt32.ofNat remoteBlocks⟩
  | .answer message =>
    ⟨DevcashContext.getUriFromIndex message.node, AnswerType.word message.messageType, message.data,
      index⟩

section
variable {o : Ossl} (keys : WalletRing o) (context : DevcashContext)

/-- A node handles a message, and what it sends is queued by its thread. -/
def handleWith (m : BlockchainModule) (e : Executor) (now : Nat) (index : UInt32) (message : Message) :
    BlockchainModule :=
  let r := m.node.handle keys.toKeyRing context ⟨now, message⟩
  { m with node := r.1 }.queue (.executor e)
    (r.2.map (outgoingMessage context r.1.finalChain.length index))

def consensusCallback (m : BlockchainModule) (now : Nat) (ptr : DevcashMessage) : BlockchainModule :=
  match dispatch ptr with
  | none | some (.transactionAnnouncement _) =>
    let e := Error.message
      ("consensusCallback(): Unexpected message type:" ++ toString ptr.messageType.toNat)
    { m with node := { m.node with consensusFailure := some e } }
  | some message => m.handleWith keys context .consensus now ptr.index message

def validatorCallback (m : BlockchainModule) (now : Nat) (ptr : DevcashMessage) : BlockchainModule :=
  match dispatch ptr with
  | some (.transactionAnnouncement data) =>
    m.handleWith keys context .validator now ptr.index (.transactionAnnouncement data)
  | _ =>
    let e := Error.message ("Wrong message type arrived: " ++ toString ptr.messageType.toNat)
    { m with node := { m.node with validatorFailure := some e } }

/-- `messageCallback`: an unexpected message is ignored and a `DeserializationError` is logged. -/
def messageCallback (mode : AppMode) (m : BlockchainModule) (now : Nat) (ptr : DevcashMessage) :
    BlockchainModule :=
  match incoming now ptr with
  | none => m
  | some message =>
    match (InternetworkController.mk keys context mode).messageCallback m.node.finalChain
        m.remoteBlocks message with
    | .error (.deserialization _) => m
    | .error e => { m with internetworkFailure := some e }
    | .ok (remoteBlocks, sent) =>
      { m with remoteBlocks := remoteBlocks }.queue (.executor .internetwork)
        (sent.map (outgoingRequest m.remoteBlocks ptr.index))

/-- What has ended the thread of an executor. -/
def failure (m : BlockchainModule) : Executor → Option Error
  | .validator => m.node.validatorFailure
  | .consensus => m.node.consensusFailure
  | .internetwork => m.internetworkFailure

/-- The callback ends: what it does to the node and to the queue of the server. -/
def finish (mode : AppMode) (m : BlockchainModule) : BlockchainModule :=
  match m.running with
  | none => m
  | some r =>
    let m := { m with running := none }
    match r.executor with
    | .validator => m.validatorCallback keys context r.now r.ptr
    | .consensus => m.consensusCallback keys context r.now r.ptr
    | .internetwork => m.messageCallback keys context mode r.now r.ptr

end

/-- `message_callback_(thread_queue_.pop())`: the thread of an executor takes the next message of a
client, unless a callback of it has thrown before. `overlap` is what comes of a callback that starts
while that of another executor runs. -/
def take (overlap : BlockchainModule → BlockchainModule) (m : BlockchainModule) (e : Executor)
    (client : Client) (now : Nat) : BlockchainModule :=
  if (m.failure e).isSome then m
  else
    match m.inbox e client with
    | [] => m
    | ptr :: rest =>
      match m.running with
      | none => { m.setInbox e client rest with running := some ⟨e, ptr, now⟩ }
      | some r => if r.executor = e then m else overlap m

/-- One turn of the loop in `start`. -/
def tick (context : DevcashContext) (m : BlockchainModule) : BlockchainModule :=
  if m.requestedBlocks < m.node.finalChain.length then
    { m with requestedBlocks := m.node.finalChain.length }.queue .main
      [⟨context.getUri, EMessageType.requestBlock.word, [], UInt32.ofNat m.requestedBlocks⟩]
  else m

/-- The thread of the server takes the next message of a producer. -/
def popOutgoing (m : BlockchainModule) (producer : Producer) :
    Option (DevcashMessage × BlockchainModule) :=
  match m.outgoing producer with
  | [] => none
  | message :: rest =>
    some (message, { m with outgoing := Function.update m.outgoing producer rest })

section
variable {m : BlockchainModule} {e : Executor} {client : Client} {l : List DevcashMessage}
  {producer : Producer}

theorem mem_inbox_setInbox {e' : Executor} {client' : Client} {x : DevcashMessage}
    (h : x ∈ (m.setInbox e client l).inbox e' client') :
    x ∈ m.inbox e' client' ∨ e' = e ∧ client' = client ∧ x ∈ l := by
  by_cases he : e' = e
  · subst he
    simp only [setInbox, Function.update_self] at h
    by_cases hc : client' = client
    · subst hc
      rw [Function.update_self] at h
      exact Or.inr ⟨rfl, rfl, h⟩
    · rw [Function.update_of_ne hc] at h
      exact Or.inl h
  · simp only [setInbox, Function.update_of_ne he] at h
    exact Or.inl h

theorem mem_outgoing_queue {producer' : Producer} {x : DevcashMessage}
    (h : x ∈ (m.queue producer l).outgoing producer') : x ∈ m.outgoing producer' ∨ x ∈ l := by
  by_cases hp : producer' = producer
  · subst hp
    simp only [queue, Function.update_self] at h
    exact List.mem_append.mp h
  · simp only [queue, Function.update_of_ne hp] at h
    exact Or.inl h

end

theorem node_processIncomingMessage (m : BlockchainModule) (client : Client) (uri mess : Bytes) :
    (m.processIncomingMessage client uri mess).node = m.node := by
  simp only [processIncomingMessage]
  split_ifs
  · rfl
  · rfl
  · cases deserialize mess with
    | error e => rfl
    | ok message =>
      simp only [handleMessage]
      cases route message.messageType <;> rfl

theorem node_tick (context : DevcashContext) (m : BlockchainModule) : (m.tick context).node = m.node := by
  simp only [tick]
  split_ifs <;> rfl

theorem route_outgoingRequest (remoteBlocks : Nat) (index : UInt32) (message : Outgoing) :
    route (outgoingRequest remoteBlocks index message).messageType = some .internetwork ∨
      route (outgoingRequest remoteBlocks index message).messageType = some .validator := by
  cases message with
  | getBlocksSince node data => exact Or.inl rfl
  | answer message =>
    obtain ⟨node, messageType, data⟩ := message
    cases messageType with
    | transactionAnnouncement => exact Or.inr rfl
    | blocksSince => exact Or.inl rfl

theorem outgoingMessage_eq (context : DevcashContext) (height : Nat) (index : UInt32)
    (message : Message) : ∃ index', outgoingMessage context height index message =
      ofMessage context.getShardUri index' message := by
  cases message <;> exact ⟨_, rfl⟩

theorem uri_ofMessage (uri : Bytes) (index : UInt32) (message : Message) :
    (ofMessage uri index message).uri = uri := by
  cases message <;> rfl

theorem route_ofMessage (uri : Bytes) (index : UInt32) (message : Message) :
    (route (ofMessage uri index message).messageType).isSome = true := by
  cases message <;> rfl

theorem type_of_route {messageType : UInt32} {e : Executor} (h : route messageType = some e) :
    (e = .consensus → messageType = EMessageType.finalBlock.word ∨
      messageType = EMessageType.proposalBlock.word ∨ messageType = EMessageType.valid.word) ∧
    (e = .validator → messageType = EMessageType.transactionAnnouncement.word) := by
  simp only [route] at h
  split_ifs at h <;> cases h <;> simp_all

theorem dispatch_of_route {ptr : DevcashMessage} (h : route ptr.messageType = some .consensus) :
    ∃ message, dispatch ptr = some message ∧ ∀ data, message ≠ .transactionAnnouncement data := by
  rcases (type_of_route h).1 rfl with ht | ht | ht
  · exact ⟨.finalBlock ptr.data, by simp [dispatch, ht, EMessageType.word], nofun⟩
  · exact ⟨.proposalBlock ptr.data, by simp [dispatch, ht, EMessageType.word], nofun⟩
  · exact ⟨.valid ptr.data, by simp [dispatch, ht, EMessageType.word], nofun⟩

theorem dispatch_of_route_validator {ptr : DevcashMessage}
    (h : route ptr.messageType = some .validator) :
    dispatch ptr = some (.transactionAnnouncement ptr.data) := by
  simp [dispatch, (type_of_route h).2 rfl]

/-- The callback of a thread ends. -/
structure Turn {o : Ossl} (keys : WalletRing o) (context : DevcashContext) (m : BlockchainModule)
    (r : Callback) (m' : BlockchainModule) : Prop where
  running : m.running = some r
  ended : m'.running = none
  alive : m'.terminated = m.terminated
  inbox : m'.inbox = m.inbox
  effect : r.executor = .internetwork ∧ m'.node = m.node ∧
      (∀ producer, ∀ x ∈ m'.outgoing producer, x ∈ m.outgoing producer ∨
        route x.messageType = some .internetwork ∨ route x.messageType = some .validator) ∨
    r.executor ≠ .internetwork ∧ ∃ message, dispatch r.ptr = some message ∧
      m'.node = (m.node.handle keys.toKeyRing context ⟨r.now, message⟩).1 ∧
      ∀ producer, ∀ x ∈ m'.outgoing producer, x ∈ m.outgoing producer ∨
        ∃ sent ∈ (m.node.handle keys.toKeyRing context ⟨r.now, message⟩).2, ∃ index,
          x = ofMessage context.getShardUri index sent

section
variable {o : Ossl} {keys : WalletRing o} {context : DevcashContext}

theorem mem_outgoing_handleWith {m : BlockchainModule} {e : Executor} {now : Nat} {index : UInt32}
    {message : Message} {producer : Producer} {x : DevcashMessage}
    (h : x ∈ (m.handleWith keys context e now index message).outgoing producer) :
    x ∈ m.outgoing producer ∨
      ∃ sent ∈ (m.node.handle keys.toKeyRing context ⟨now, message⟩).2, ∃ index,
        x = ofMessage context.getShardUri index sent := by
  obtain h | h := mem_outgoing_queue h
  · exact Or.inl h
  · obtain ⟨sent, hsent, rfl⟩ := List.mem_map.mp h
    exact Or.inr ⟨sent, hsent, outgoingMessage_eq ..⟩

variable (keys context) in
theorem finish_cases {m : BlockchainModule} (mode : AppMode) {r : Callback} (hr : m.running = some r)
    (hroute : route r.ptr.messageType = some r.executor) :
    Turn keys context m r (m.finish keys context mode) := by
  obtain ⟨e, ptr, now⟩ := r
  cases e with
  | validator =>
    have hdispatch := dispatch_of_route_validator hroute
    have hfinish : m.finish keys context mode =
        ({ m with running := none } : BlockchainModule).handleWith keys context .validator now
          ptr.index (.transactionAnnouncement ptr.data) := by
      simp [finish, hr, validatorCallback, hdispatch]
    rw [hfinish]
    exact ⟨hr, rfl, rfl, rfl, Or.inr ⟨nofun, _, hdispatch, rfl,
      fun _ _ hx => mem_outgoing_handleWith hx⟩⟩
  | consensus =>
    obtain ⟨message, hdispatch, hne⟩ := dispatch_of_route hroute
    have hfinish : m.finish keys context mode =
        ({ m with running := none } : BlockchainModule).handleWith keys context .consensus now
          ptr.index message := by
      cases message <;> simp_all [finish, consensusCallback]
    rw [hfinish]
    exact ⟨hr, rfl, rfl, rfl, Or.inr ⟨nofun, _, hdispatch, rfl,
      fun _ _ hx => mem_outgoing_handleWith hx⟩⟩
  | internetwork =>
    have hfinish : m.finish keys context mode =
        ({ m with running := none } : BlockchainModule).messageCallback keys context mode now ptr := by
      simp [finish, hr]
    rw [hfinish, messageCallback]
    cases incoming now ptr with
    | none => exact ⟨hr, rfl, rfl, rfl, Or.inl ⟨rfl, rfl, fun _ _ hx => Or.inl hx⟩⟩
    | some message =>
      simp only
      split
      · exact ⟨hr, rfl, rfl, rfl, Or.inl ⟨rfl, rfl, fun _ _ hx => Or.inl hx⟩⟩
      · exact ⟨hr, rfl, rfl, rfl, Or.inl ⟨rfl, rfl, fun _ _ hx => Or.inl hx⟩⟩
      · refine ⟨hr, rfl, rfl, rfl, Or.inl ⟨rfl, rfl, fun _ x hx => ?_⟩⟩
        obtain hx | hx := mem_outgoing_queue hx
        · exact Or.inl hx
        · obtain ⟨sent, -, rfl⟩ := List.mem_map.mp hx
          exact Or.inr (route_outgoingRequest ..)

end

theorem take_cases (overlap : BlockchainModule → BlockchainModule) {m : BlockchainModule}
    (e : Executor) (client : Client) (now : Nat) (hidle : m.running = none) :
    m.take overlap e client now = m ∨ ∃ ptr rest, m.inbox e client = ptr :: rest ∧
      m.take overlap e client now =
        { m.setInbox e client rest with running := some ⟨e, ptr, now⟩ } := by
  rw [take]
  split_ifs
  · exact Or.inl rfl
  · cases hin : m.inbox e client with
    | nil => exact Or.inl rfl
    | cons ptr rest =>
      simp only [hidle]
      exact Or.inr ⟨ptr, rest, rfl, rfl⟩

end BlockchainModule
end Devcash
