import Mathlib
import Devcash.Agreement
import Devcash.Deployment

/-! Agreement of the processes of a shard. The networks that the processes refine keep their
invariant as long as the blocks that the consensus threads handle extend the chains, so the chains
of the processes agree in every run whose callbacks do not overlap. -/
namespace Devcash
open DevcashMessage

/-- A final block decodes to itself and extends the chain, unless the consensus thread has ended. -/
def Node.extendedBy {o : Ossl} (keys : KeyRing o) (n : Node) : Message → Bool
  | .finalBlock data =>
    n.consensusFailure.isSome ||
      match FinalBlock.decode keys n.utxPool.mode data with
      | .ok fields =>
        decide (fields.getCanonical = data) && decide (fields.prevHash = n.finalChain.tipHash o)
      | .error _ => true
  | _ => true

theorem Node.extendedBy_finalBlock {o : Ossl} {keys : KeyRing o} {n : Node} {data : Bytes}
    {fields : BlockFields} (h : n.extendedBy keys (.finalBlock data) = true)
    (hup : n.consensusFailure = none)
    (hd : FinalBlock.decode keys n.utxPool.mode data = .ok fields) :
    fields.getCanonical = data ∧ fields.prevHash = n.finalChain.tipHash o := by
  simpa only [extendedBy, hup, hd, Option.isSome_none, Bool.false_or, Bool.and_eq_true,
    decide_eq_true_eq] using h

namespace Deployment
variable {o : Ossl} {shards peers : Nat} {setup : Setup o shards peers}

/-- The blocks of the chain of a process, as bytes. -/
def canonicals (d : Deployment shards peers) (p : Party shards peers) : List Bytes :=
  (d.modules p).node.finalChain.map (fun b => b.getCanonical)

/-- Of any two chains of a shard one is a prefix of the other. -/
def Agreement (d : Deployment shards peers) : Prop :=
  ∀ x i j, d.canonicals (x, i) <+: d.canonicals (x, j) ∨ d.canonicals (x, j) <+: d.canonicals (x, i)

/-- The bytes whose hashes link the chains of a shard. -/
def hashed (d : Deployment shards peers) (x : Fin shards) : List Bytes :=
  Ossl.genesis :: (List.finRange peers).flatMap (fun i => d.canonicals (x, i))

def NoCollision (o : Ossl) (d : Deployment shards peers) : Prop :=
  ∀ x, ∀ a ∈ d.hashed x, ∀ b ∈ d.hashed x, o.devcashHash a = o.devcashHash b → a = b

/-- A callback that ends has handled a message that extends the chain of its process. -/
def handlesNext (setup : Setup o shards peers) (d : Deployment shards peers) :
    DeploymentAction shards peers → Bool
  | .finish p =>
    ((d.modules p).running.bind (fun r => dispatch r.ptr)).all
      ((d.modules p).node.extendedBy (setup.keys p).toKeyRing)
  | _ => true

/-- The condition on one step and the state before it. -/
structure Orderly (setup : Setup o shards peers) (d : Deployment shards peers)
    (a : DeploymentAction shards peers) : Prop where
  proper : d.Proper a
  handles : d.handlesNext setup a = true
  distinct : d.NoCollision o

instance (d : Deployment shards peers) (a : DeploymentAction shards peers) :
    Decidable (d.Orderly setup a) :=
  have : Decidable (d.NoCollision o) :=
    inferInstanceAs (Decidable (∀ x, ∀ a ∈ d.hashed x, ∀ b ∈ d.hashed x, _ → _))
  decidable_of_iff (d.Proper a ∧ d.handlesNext setup a = true ∧ d.NoCollision o)
    ⟨fun h => ⟨h.1, h.2.1, h.2.2⟩, fun h => ⟨h.proper, h.handles, h.distinct⟩⟩

variable {d : Deployment shards peers} {nets : Fin shards → Network peers} {p : Party shards peers}

theorem Matches.canonicals (h : Matches setup d nets) (x : Fin shards) (i : Fin peers) :
    (nets x).canonicals i = d.canonicals (x, i) := by
  rw [Network.canonicals, Deployment.canonicals, h.nodes (x, i)]

theorem Matches.noCollision (h : Matches setup d nets) (hc : d.NoCollision o) (x : Fin shards) :
    (nets x).NoCollision o := by
  have hhashed : (nets x).hashed = d.hashed x := by
    rw [Network.hashed, Deployment.hashed, funext (h.canonicals x)]
  rw [Network.NoCollision, hhashed]
  exact hc x

theorem Took.delivered {a : DeploymentAction shards peers} {event : Event}
    (h : Took setup d nets a p event) (hm : Matches setup d nets) (ha : d.handlesNext setup a = true) :
    (nets p.1).Delivered (setup.shard p.1) p.2 event := by
  intro data fields hdata hup hd
  obtain ⟨rfl, r, hr, -, hdispatch⟩ := h.turn
  rw [hdata] at hdispatch
  rw [handlesNext, hr, Option.bind_some, hdispatch, Option.all_some, hm.nodes] at ha
  obtain ⟨hcanon, hprev⟩ := Node.extendedBy_finalBlock ha hup hd
  obtain ⟨data', hannounce⟩ | ⟨sender, hne, hmem⟩ := h.source
  · exact absurd (hdata.symm.trans hannounce) (by simp)
  · exact ⟨hcanon, hprev, sender, hne, hdata ▸ hmem⟩

theorem Matches.orderly (hshards : shards ≤ 10) {a : DeploymentAction shards peers}
    (h : Matches setup d nets ∧ ∀ x, Network.AgreeInv o (nets x)) (ha : d.Orderly setup a) :
    ∃ l, Matches setup (d.step setup a) (Run.after (stepNetworks setup) nets l) ∧
      ∀ x, Network.AgreeInv o (Run.after (stepNetworks setup) nets l x) := by
  obtain ⟨hm, hinv⟩ := h
  obtain hsame | ⟨p, event, htook⟩ := hm.cases hshards ha.proper
  · exact ⟨[], hsame, hinv⟩
  · obtain ⟨b, hb⟩ := htook.step
    refine ⟨[b], ?_⟩
    rw [Run.after_cons, Run.after_nil, hb]
    refine ⟨htook.shows, fun x => ?_⟩
    by_cases hx : x = p.1
    · subst hx
      rw [actIn, Function.update_self]
      exact Network.agreeInv_act (hinv p.1) (hm.noCollision ha.distinct p.1)
        (htook.delivered hm ha.handles)
    · rw [actIn, Function.update_of_ne hx]
      exact hinv x

/-- In every run of the processes of at most ten shards in which the callbacks of a process do not
overlap, each final block that a consensus thread handles extends the chain of its process and no
two blocks of a shard have one hash, the chains of a shard agree in every state. -/
theorem chains_agree (hshards : shards ≤ 10) {l : List (DeploymentAction shards peers)}
    (hl : Run.Each (step setup) (Orderly setup) (init setup) l) :
    Run.Always (step setup) Agreement (init setup) l := by
  have hinit : Matches setup (init setup) (initNetworks setup) ∧
      ∀ x, Network.AgreeInv o (initNetworks setup x) :=
    ⟨⟨fun _ => rfl, carries_init⟩, fun _ => Network.agreeInv_init _ _⟩
  intro l1 hl1
  obtain ⟨m, hm, hinv⟩ := Run.simulates
    (R := fun d nets => Matches setup d nets ∧ ∀ x, Network.AgreeInv o (nets x))
    (fun _ _ _ h ha => Matches.orderly hshards h ha) hinit (hl.part hl1)
  intro x i j
  rw [← hm.canonicals, ← hm.canonicals]
  exact (hinv x).sourced.comparable i j

/-- A process proposes what is announced to it, another one votes for it, and the block goes
there and is taken. -/
def sampleBlock (p q : Party 2 3) : List (DeploymentAction 2 3) :=
  sampleSteps p ++ [.publish p (.executor .validator), .fromPeer q p 0,
    .take q .consensus .peer 0, .finish q, .publish q (.executor .consensus),
    .fromPeer p q 0, .take p .consensus .peer 0, .finish p,
    .publish p (.executor .consensus), .fromPeer q p 1, .take q .consensus .peer 0, .finish q]

theorem chains_agree_sampleBlock :
    let d := Run.after (step sampleSetup) (init sampleSetup) (sampleBlock (0, 0) (0, 1))
    (d.modules (0, 1)).node.finalChain.length = 1 ∧ d.Agreement := by
  have hrun : Run.Each (step sampleSetup) (Orderly sampleSetup) (init sampleSetup)
        (sampleBlock (0, 0) (0, 1)) ∧
      ((Run.after (step sampleSetup) (init sampleSetup) (sampleBlock (0, 0) (0, 1))).modules
        (0, 1)).node.finalChain.length = 1 := by
    decide +kernel
  exact ⟨hrun.2, chains_agree (by decide) hrun.1 _ (List.prefix_refl _)⟩

end Deployment
end Devcash
