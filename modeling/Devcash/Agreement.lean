import Devcash.HashLinks
import Devcash.Lib.RoundRobin
import Devcash.Network

/-! Agreement of the chains of a shard. The turns make the chains logs in which each
place belongs to one node; a received block keeps to that when it extends the chain of
the receiver. -/
namespace Devcash
namespace Network
variable {o : Ossl} {peers : Nat} {shard : Shard o peers}

/-- The blocks of a node's chain, as bytes. -/
def canonicals (s : Network peers) (i : Fin peers) : List Bytes :=
  (s.nodes i).finalChain.map (fun b => b.getCanonical)

/-- Of any two chains one is a prefix of the other. -/
def Agreement (s : Network peers) : Prop :=
  ∀ i j, s.canonicals i <+: s.canonicals j ∨ s.canonicals j <+: s.canonicals i

/-- The bytes whose hashes link the chains. -/
def hashed (s : Network peers) : List Bytes :=
  Ossl.genesis :: (List.finRange peers).flatMap s.canonicals

def NoCollision (o : Ossl) (s : Network peers) : Prop :=
  ∀ x ∈ s.hashed, ∀ y ∈ s.hashed, o.devcashHash x = o.devcashHash y → x = y

/-- A final block that is delivered decodes to itself and extends the receiver's chain. -/
def extendsReceiver (shard : Shard o peers) (s : Network peers) : Action peers → Bool
  | .announce .. => true
  | .deliver sender receiver k _ =>
    match (s.sent sender)[k]? with
    | some (.finalBlock data) =>
      decide (sender = receiver) || (s.nodes receiver).consensusFailure.isSome ||
        match FinalBlock.decode (shard.keys receiver) (s.nodes receiver).utxPool.mode data with
        | .ok fields => decide (fields.getCanonical = data) &&
            decide (fields.prevHash = (s.nodes receiver).finalChain.tipHash o)
        | .error _ => true
    | _ => true

/-- The condition on one action and the state before it. -/
def Orderly (shard : Shard o peers) (s : Network peers) (a : Action peers) : Prop :=
  s.extendsReceiver shard a = true ∧ s.NoCollision o

instance (s : Network peers) : Decidable (s.NoCollision o) :=
  inferInstanceAs (Decidable (∀ x ∈ s.hashed, ∀ y ∈ s.hashed, _ → _))

instance (s : Network peers) (a : Action peers) : Decidable (s.Orderly shard a) :=
  inferInstanceAs (Decidable (_ ∧ _))

/-- The chains are linked, a proposal is made in turn, each place of a chain belongs to
the node whose turn it is, and a final block in flight is one of its sender's. -/
structure AgreeInv (o : Ossl) (s : Network peers) : Prop where
  linked : ∀ i, Node.LinkInv o (s.nodes i)
  turn : ∀ i, (s.nodes i).utxPool.hasProposal = true → (s.nodes i).finalChain.length % peers = i
  sourced : RoundRobin.Sourced s.canonicals
  flight : ∀ (i : Fin peers) data, .finalBlock data ∈ s.sent i →
    ∃ k, k % peers = i ∧ (s.canonicals i)[k]? = some data

theorem agreeInv_init (mode : AppMode) (maxTxPerBlock : Nat) :
    AgreeInv o (init mode maxTxPerBlock : Network peers) where
  linked := fun _ => Node.linkInv_init mode maxTxPerBlock
  turn := fun _ h => nomatch h
  sourced := RoundRobin.sourced_empty
  flight := fun _ _ h => absurd h List.not_mem_nil

theorem mem_hashed {s : Network peers} {i : Fin peers} {b : FinalBlock}
    (h : b ∈ (s.nodes i).finalChain) : b.getCanonical ∈ s.hashed :=
  List.mem_cons_of_mem _ (List.mem_flatMap.mpr
    ⟨i, List.mem_finRange i, List.mem_map_of_mem h⟩)

/-- The hash of a block is not the genesis hash: the bytes are too many. -/
theorem hash_ne_genesis {s : Network peers} (hc : s.NoCollision o) {i : Fin peers} {b : FinalBlock}
    (h : b ∈ (s.nodes i).finalChain) : o.devcashHash b.getCanonical ≠ o.genesisHash := by
  intro he
  have hb := hc _ (mem_hashed h) _ List.mem_cons_self he
  have hlen := b.length_getCanonical
  rw [hb] at hlen
  exact absurd hlen (by decide)

theorem height_of_extends {s : Network peers} (hs : AgreeInv o s) (hc : s.NoCollision o)
    {i j : Fin peers} {k : Nat} {data : Bytes} {fields : BlockFields}
    (hk : (s.canonicals i)[k]? = some data) (hcanon : fields.getCanonical = data)
    (hprev : fields.prevHash = (s.nodes j).finalChain.tipHash o) :
    (s.nodes j).finalChain.length = k := by
  rw [canonicals, List.getElem?_map, Option.map_eq_some_iff] at hk
  obtain ⟨b, hb, hdata⟩ := hk
  obtain ⟨hlt, rfl⟩ := List.getElem?_eq_some_iff.mp hb
  have hsplit : (s.nodes i).finalChain = (s.nodes i).finalChain.take k ++
      (s.nodes i).finalChain[k] :: (s.nodes i).finalChain.drop (k + 1) := by
    rw [List.getElem_cons_drop, List.take_append_drop]
  have hlink := (hs.linked i).linked
  have hbprev : ((s.nodes i).finalChain[k]).prevHash =
      Blockchain.tipHash o ((s.nodes i).finalChain.take k) := hlink _ _ _ hsplit
  rw [hsplit] at hlink
  have htip : Blockchain.tipHash o (s.nodes j).finalChain =
      Blockchain.tipHash o ((s.nodes i).finalChain.take k) := by
    rw [← hprev, ← hbprev]
    exact BlockFields.prevHash_eq_of_getCanonical (hcanon.trans hdata.symm)
  have hmap := @HashChain.map_eq_of_tip_eq _ _ _ _ _ _ (fun b : FinalBlock => b.getCanonical) _ _
    (fun a _ b _ h => BlockFields.prevHash_eq_of_getCanonical h)
    (fun a ha b hb h => hc _ (mem_hashed ha) _ (mem_hashed (List.mem_of_mem_take hb)) h)
    (fun a ha => hash_ne_genesis hc ha)
    (fun b hb => hash_ne_genesis hc (List.mem_of_mem_take hb))
    (hs.linked j).linked (HashChain.Linked.of_append hlink) htip
  have hlen := congrArg List.length hmap
  rw [List.length_map, List.length_map, List.length_take] at hlen
  omega

/-- A node's chain stays or grows by a block for its next place, which is the node's own
or stands there in the chain of the node whose turn it is. A final block is sent only
when it is the node's own. -/
inductive Grows (s : Network peers) (j : Fin peers) (n' : Node) (sent : List Message) : Prop where
  | same (chain : n'.finalChain = (s.nodes j).finalChain) (quiet : Quiet sent)
  | pushed (b : FinalBlock) (chain : n'.finalChain = (s.nodes j).finalChain ++ [b])
      (source : ∀ i : Fin peers, (s.nodes j).finalChain.length % peers = i →
        i = j ∨ (s.canonicals i)[(s.nodes j).finalChain.length]? = some b.getCanonical)
      (output : ∀ data, .finalBlock data ∈ sent →
        (s.nodes j).finalChain.length % peers = j ∧ data = b.getCanonical)

theorem canonicals_set (s : Network peers) (j : Fin peers) (n' : Node) (sent : List Message) :
    (s.set j n' sent).canonicals =
      Function.update s.canonicals j (n'.finalChain.map (fun b => b.getCanonical)) := by
  funext i
  by_cases hi : i = j
  · rw [hi, canonicals, nodes_set_self, Function.update_self]
  · rw [canonicals, nodes_set_of_ne s n' sent hi, Function.update_of_ne hi, canonicals]

theorem canonicals_same {s : Network peers} {j : Fin peers} {n' : Node} {sent : List Message}
    (h : n'.finalChain = (s.nodes j).finalChain) : (s.set j n' sent).canonicals = s.canonicals := by
  rw [canonicals_set, h]
  exact Function.update_eq_self j s.canonicals

theorem canonicals_pushed {s : Network peers} {j : Fin peers} {n' : Node} {sent : List Message}
    {b : FinalBlock} (h : n'.finalChain = (s.nodes j).finalChain ++ [b]) :
    (s.set j n' sent).canonicals =
      Function.update s.canonicals j (s.canonicals j ++ [b.getCanonical]) := by
  rw [canonicals_set, h, List.map_append, List.map_singleton, canonicals]

theorem Grows.keeps {s : Network peers} {j : Fin peers} {n' : Node} {sent : List Message}
    (hg : s.Grows j n' sent) {i : Fin peers} {k : Nat} {x : Bytes}
    (h : (s.canonicals i)[k]? = some x) : ((s.set j n' sent).canonicals i)[k]? = some x := by
  cases hg with
  | same chain quiet =>
    rw [canonicals_same chain]
    exact h
  | pushed b chain source output =>
    rw [canonicals_pushed chain]
    exact RoundRobin.getElem?_update_append j _ h

theorem Grows.sourced {s : Network peers} {j : Fin peers} {n' : Node} {sent : List Message}
    (hg : s.Grows j n' sent) (hs : RoundRobin.Sourced s.canonicals) :
    RoundRobin.Sourced (s.set j n' sent).canonicals := by
  cases hg with
  | same chain quiet =>
    rw [canonicals_same chain]
    exact hs
  | pushed b chain source output =>
    have hlen : (s.canonicals j).length = (s.nodes j).finalChain.length := List.length_map _
    rw [canonicals_pushed chain]
    exact hs.append (by rw [hlen]; exact source)

theorem agreeInv_set {s : Network peers} {j : Fin peers} {n' : Node} {sent : List Message}
    (hs : AgreeInv o s) (hl : Node.LinkInv o n')
    (ht : n'.utxPool.hasProposal = true → n'.finalChain.length % peers = j)
    (hg : s.Grows j n' sent) : AgreeInv o (s.set j n' sent) := by
  refine ⟨fun i => ?_, fun i => ?_, hg.sourced hs.sourced, fun i data h => ?_⟩
  · by_cases hi : i = j
    · rw [hi, nodes_set_self]
      exact hl
    · rw [nodes_set_of_ne s n' sent hi]
      exact hs.linked i
  · by_cases hi : i = j
    · rw [hi, nodes_set_self]
      exact ht
    · rw [nodes_set_of_ne s n' sent hi]
      exact hs.turn i
  · have hold (h : .finalBlock data ∈ s.sent i) : ∃ k, k % peers = i ∧
        ((s.set j n' sent).canonicals i)[k]? = some data := by
      obtain ⟨k, hk, hx⟩ := hs.flight i data h
      exact ⟨k, hk, hg.keeps hx⟩
    by_cases hi : i = j
    · subst hi
      rw [sent_set_self] at h
      cases List.mem_append.mp h with
      | inl h => exact hold h
      | inr hnew =>
        cases hg with
        | same chain quiet => exact absurd hnew (quiet data)
        | pushed b chain source output =>
          obtain ⟨hturn, hdata⟩ := output data hnew
          refine ⟨_, hturn, ?_⟩
          rw [hdata, canonicals_pushed chain, Function.update_self,
            ← List.length_map (fun b : FinalBlock => b.getCanonical)]
          exact List.getElem?_concat_length
    · rw [sent_set_of_ne s n' sent hi] at h
      exact hold h

theorem turn_of_myTurn {j : Fin peers} {chain : Blockchain}
    (h : myTurn (shard.context j) chain = true) : chain.length % peers = j := by
  rw [myTurn, shard.getPeerCount, beq_iff_eq] at h
  exact h.trans (shard.getCurrentNode j)

/-- What a handled event must be: a final block is one in flight that extends the chain. -/
def Delivered (shard : Shard o peers) (s : Network peers) (j : Fin peers) (e : Event) : Prop :=
  ∀ data fields, e.message = .finalBlock data → (s.nodes j).consensusFailure = none →
    FinalBlock.decode (shard.keys j) (s.nodes j).utxPool.mode data = .ok fields →
      fields.getCanonical = data ∧ fields.prevHash = (s.nodes j).finalChain.tipHash o ∧
        ∃ i, i ≠ j ∧ .finalBlock data ∈ s.sent i

/-- A delivered block stands at the receiver's next place in the sender's chain, so it is
not the receiver's turn. -/
theorem place_of_delivered {s : Network peers} (hs : AgreeInv o s) (hc : s.NoCollision o)
    {j : Fin peers} {e : Event} (he : s.Delivered shard j e) {data : Bytes} {fields : BlockFields}
    (hm : e.message = .finalBlock data) (hup : (s.nodes j).consensusFailure = none)
    (hd : FinalBlock.decode (shard.keys j) (s.nodes j).utxPool.mode data = .ok fields) :
    ∃ i, i ≠ j ∧ (s.nodes j).finalChain.length % peers = i ∧
      (s.canonicals i)[(s.nodes j).finalChain.length]? = some fields.getCanonical := by
  obtain ⟨hcanon, hprev, i, hij, hsent⟩ := he data fields hm hup hd
  obtain ⟨k, hk, hx⟩ := hs.flight i data hsent
  have hheight := height_of_extends hs hc hx hcanon hprev
  refine ⟨i, hij, by rw [hheight, hk], ?_⟩
  rw [hheight, hx, hcanon]

theorem grows_handle {s : Network peers} (hs : AgreeInv o s) (hc : s.NoCollision o)
    {j : Fin peers} {e : Event} (he : s.Delivered shard j e) :
    s.Grows j ((s.nodes j).handle (shard.keys j) (shard.context j) e).1
      ((s.nodes j).handle (shard.keys j) (shard.context j) e).2 := by
  cases @Node.handle_moves o (shard.keys j) (shard.context j) (s.nodes j) e with
  | rested chain pool failed quiet => exact .same chain quiet
  | announced data message chain failed pool quiet => exact .same chain quiet
  | counted data message up f effect output counts =>
    rw [effect, output]
    cases counts with
    | counted p same null chain sent proposal txs => exact .same chain (by rw [sent]; exact quiet_nil)
    | finalized p same notNull chain sent proposal txs =>
      have hturn := hs.turn j notNull
      refine .pushed _ chain (fun i hi => ?_) (fun data hdata => ⟨hturn, ?_⟩)
      · exact Or.inl (Fin.ext (hi.symm.trans hturn))
      · rw [sent, List.mem_singleton, Message.finalBlock.injEq] at hdata
        exact hdata
  | adopted data message fields up decoded f effect output adopts =>
    rw [effect, output]
    obtain ⟨i, -, hi, hx⟩ := place_of_delivered hs hc he message up decoded
    refine .pushed _ adopts.1 (fun i' hi' => ?_) (fun data hdata => absurd hdata (adopts.2.1 data))
    rw [Fin.ext (hi'.symm.trans hi)]
    exact Or.inr hx

theorem turn_handle {s : Network peers} (hs : AgreeInv o s) (hc : s.NoCollision o)
    {j : Fin peers} {e : Event} (he : s.Delivered shard j e)
    (hp : ((s.nodes j).handle (shard.keys j) (shard.context j) e).1.utxPool.hasProposal = true) :
    ((s.nodes j).handle (shard.keys j) (shard.context j) e).1.finalChain.length % peers = j := by
  cases @Node.handle_moves o (shard.keys j) (shard.context j) (s.nodes j) e with
  | rested chain pool failed quiet =>
    rw [pool] at hp
    rw [chain]
    exact hs.turn j hp
  | announced data message chain failed pool quiet =>
    rw [chain]
    obtain hadd | hprop := pool
    · rw [hadd, UnrecordedTransactionPool.addSerial_hasProposal] at hp
      exact hs.turn j hp
    · exact turn_of_myTurn hprop.1
  | counted data message up f effect output counts =>
    rw [effect, Node.consensus_utxPool] at hp
    rw [effect, Node.consensus_finalChain]
    cases counts with
    | counted p same null chain sent proposal txs =>
      rw [chain]
      exact hs.turn j
        (UnrecordedTransactionPool.hasProposal_of_kept (fun h => proposal.trans (null h)) hp)
    | finalized p same notNull chain sent proposal txs =>
      rw [UnrecordedTransactionPool.hasProposal_of_setNull proposal] at hp
      cases hp
  | adopted data message fields up decoded f effect output adopts =>
    rw [effect, Node.consensus_utxPool] at hp
    rw [effect, Node.consensus_finalChain]
    obtain ⟨i, hij, hi, -⟩ := place_of_delivered hs hc he message up decoded
    -- It is the sender's turn, so the receiver had no proposal.
    have hnone : (s.nodes j).utxPool.hasProposal ≠ true :=
      fun h => hij (Fin.ext (hi.symm.trans (hs.turn j h)))
    obtain ⟨hchain, -, ⟨hsame, -⟩ | ⟨hsome, -⟩ | hprop⟩ := adopts
    · rw [hsame] at hp
      exact absurd hp hnone
    · exact absurd hsome hnone
    · rw [hchain]
      exact turn_of_myTurn hprop.1

theorem agreeInv_act {s : Network peers} (hs : AgreeInv o s) (hc : s.NoCollision o)
    {j : Fin peers} {e : Event} (he : s.Delivered shard j e) : AgreeInv o (s.act shard j e) := by
  refine agreeInv_set hs ?_ (turn_handle hs hc he) (grows_handle hs hc he)
  refine Node.linkInv_step (hs.linked j) ?_
  intro data fields hm hup hd
  exact (he data fields hm hup hd).2.1

theorem agreeInv_step {s : Network peers} {a : Action peers} (hs : AgreeInv o s)
    (ha : s.Orderly shard a) : AgreeInv o (s.step shard a) := by
  obtain ⟨hext, hc⟩ := ha
  cases a with
  | announce receiver now data => exact agreeInv_act hs hc (fun data' fields hm => nomatch hm)
  | deliver sender receiver k now =>
    simp only [step]
    split_ifs with hself
    · exact hs
    · cases hsent : (s.sent sender)[k]? with
      | none => exact hs
      | some message =>
        refine agreeInv_act hs hc ?_
        intro data fields hm hup hd
        obtain rfl : message = .finalBlock data := hm
        simp only [extendsReceiver, hsent, hself, hup, hd, decide_false, Option.isSome_none,
          Bool.false_or, Bool.and_eq_true, decide_eq_true_eq] at hext
        exact ⟨hext.1, hext.2, sender, hself, List.mem_of_getElem? hsent⟩

/-- The chains agree in every state of a run in which every final block that is delivered
extends the chain of its receiver and no two blocks have one hash. -/
theorem finalChain_agreement {mode : AppMode} {maxTxPerBlock : Nat} {l : List (Action peers)}
    (h : Run.Each (step shard) (Orderly shard) (init mode maxTxPerBlock) l) :
    Run.Always (step shard) Agreement (init mode maxTxPerBlock) l := by
  have hinv : Run.Always (step shard) (AgreeInv o) (init mode maxTxPerBlock) l :=
    Run.always_of_each (fun s a => agreeInv_step) (agreeInv_init mode maxTxPerBlock) h
  intro l1 hl1 i j
  exact (hinv l1 hl1).sourced.comparable i j

theorem finalChain_agreement_sampleRound :
    ((Run.after (step Shard.toy) (init .t1 10) sampleRound).nodes 1).finalChain.length = 1 ∧
      (Run.after (step Shard.toy) (init .t1 10) sampleRound).Agreement := by
  have hrun : Run.Each (step Shard.toy) (Orderly Shard.toy) (init .t1 10) sampleRound ∧
      ((Run.after (step Shard.toy) (init .t1 10) sampleRound).nodes 1).finalChain.length = 1 := by
    decide +kernel
  exact ⟨hrun.2, finalChain_agreement hrun.1 sampleRound (List.prefix_refl _)⟩

/-- The third node takes the second block for its first. -/
theorem overtakingRound_forks : Action.InOrder overtakingRound ∧
    ¬(Run.after (step Shard.toy) (init .t1 10) overtakingRound).Agreement :=
  ⟨by decide, fun h => absurd (h 0 2) (by decide +kernel)⟩

end Network
end Devcash
