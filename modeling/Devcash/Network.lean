import Devcash.Lib.Run
import Devcash.Node

/-! The nodes of a shard and the messages between them. Every node runs the handlers of
`Node`, and what it sends can be delivered to the others at any time. -/
namespace Devcash

/-- A shard of `peers` nodes; node `i` has the number `i`. -/
structure Shard (o : Ossl) (peers : Nat) where
  keys : Fin peers → KeyRing o
  context : Fin peers → DevcashContext
  getPeerCount : ∀ i, (context i).getPeerCount = peers
  getCurrentNode : ∀ i, (context i).getCurrentNode % peers = i

/-- The nodes and what each of them has sent so far. -/
structure Network (peers : Nat) where
  nodes : Fin peers → Node
  sent : Fin peers → List Message

/-- A client announces transactions to a node, or the `k`-th message of a node is
delivered to another one. -/
inductive Action (peers : Nat) where
  | announce (receiver : Fin peers) (now : Nat) (data : Bytes)
  | deliver (sender receiver : Fin peers) (k : Nat) (now : Nat)

namespace Network
variable {o : Ossl} {peers : Nat} (shard : Shard o peers)

/-- Nodes with empty chains. -/
def init (mode : AppMode) (maxTxPerBlock : Nat) : Network peers where
  nodes := fun _ => Node.init mode maxTxPerBlock
  sent := fun _ => []

/-- A node has a new state and sends messages. -/
def set (s : Network peers) (i : Fin peers) (n : Node) (sent : List Message) : Network peers where
  nodes := Function.update s.nodes i n
  sent := Function.update s.sent i (s.sent i ++ sent)

section
variable (s : Network peers) (n : Node) (sent : List Message) {i j : Fin peers}

@[simp] theorem nodes_set_self : (s.set i n sent).nodes i = n := Function.update_self ..

theorem nodes_set_of_ne (h : j ≠ i) : (s.set i n sent).nodes j = s.nodes j :=
  Function.update_of_ne h ..

@[simp] theorem sent_set_self : (s.set i n sent).sent i = s.sent i ++ sent :=
  Function.update_self ..

theorem sent_set_of_ne (h : j ≠ i) : (s.set i n sent).sent j = s.sent j :=
  Function.update_of_ne h ..

end

/-- A node handles a message. -/
def act (s : Network peers) (i : Fin peers) (e : Event) : Network peers :=
  let r := (s.nodes i).handle (shard.keys i) (shard.context i) e
  s.set i r.1 r.2

def step (s : Network peers) : Action peers → Network peers
  | .announce receiver now data => s.act shard receiver ⟨now, .transactionAnnouncement data⟩
  | .deliver sender receiver k now =>
    if sender = receiver then s
    else
      match (s.sent sender)[k]? with
      | none => s
      | some message => s.act shard receiver ⟨now, message⟩

end Network

namespace Action
variable {peers : Nat}

/-- The numbers of the messages of a sender that a receiver gets, in their order. -/
def deliveries (sender receiver : Fin peers) (l : List (Action peers)) : List Nat :=
  l.filterMap (fun
    | .deliver i j k _ => if i = sender ∧ j = receiver then some k else none
    | .announce .. => none)

/-- The messages of one sender to one receiver arrive once and in the order sent. -/
def InOrder (l : List (Action peers)) : Prop :=
  ∀ i j, deliveries i j l = List.range (deliveries i j l).length

instance (l : List (Action peers)) : Decidable (InOrder l) :=
  inferInstanceAs (Decidable (∀ _ _, _ = _))

end Action

/-- Three nodes with the toy keys. -/
def Shard.toy : Shard Ossl.toy 3 where
  keys := fun _ => KeyRing.toy
  context := fun i => DevcashContext.sample i
  getPeerCount := fun _ => rfl
  getCurrentNode := by decide

namespace Network

/-- The second node votes for the block of the first one and gets it. -/
def sampleRound : List (Action 3) :=
  [.announce 0 0 (Tier1Transaction.sampleMove 1 2 5).getCanonical,
    .deliver 0 1 0 0, .deliver 1 0 0 0, .deliver 0 1 1 0]

/-- The transaction was announced to the second node too, which proposes it after it has
got the block; the third node votes. -/
def reproposingRound : List (Action 3) :=
  [.announce 0 0 (Tier1Transaction.sampleMove 1 2 5).getCanonical,
    .announce 1 0 (Tier1Transaction.sampleMove 1 2 5).getCanonical,
    .deliver 0 1 0 0, .deliver 1 0 0 0, .deliver 0 1 1 0, .deliver 1 2 0 0, .deliver 1 2 1 0,
    .deliver 2 1 0 0]

/-- The second node goes on with the third one, which still waits for the first block. -/
def overtakingRound : List (Action 3) :=
  sampleRound ++ [.announce 1 0 (Tier1Transaction.sampleMove 3 4 7).getCanonical,
    .deliver 1 2 0 0, .deliver 1 2 1 0, .deliver 2 1 0 0, .deliver 1 2 2 0]

end Network
end Devcash
