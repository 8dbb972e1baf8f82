import Devcash.Lib.Locks
import Devcash.Pool
import Mathlib.Data.Fintype.Order

/-! The two mutexes of `UnrecordedTransactionPool`: every public method with the locks it takes,
and any number of threads that call them. -/
namespace Devcash
open Locks Locks.Code

inductive Mutex where
  | pendingProposal | txs
  deriving DecidableEq, Repr

namespace Mutex

/-- `pending_proposal_mutex_` comes before `txs_mutex_`. -/
def rank : Mutex → Nat
  | .pendingProposal => 0
  | .txs => 1

instance : Preorder Mutex := Preorder.lift rank

instance : Fintype Mutex := ⟨{.pendingProposal, .txs}, fun m => by cases m <;> decide⟩

end Mutex

abbrev PoolCode := Code UnrecordedTransactionPool Mutex

namespace PoolCode
variable {o : Ossl} (keys : KeyRing o) (context : DevcashContext) (prevHash : Hash)
  (prior : ChainState)

/-- A look at the pool. -/
def inspect {α : Type} (f : UnrecordedTransactionPool → α) : PoolCode α :=
  atomically (fun pool => (f pool, pool))

/-- `AddTransactions(txs, keys)`. -/
def addTransactions (txs : List Transaction) : PoolCode (Result Bool) :=
  guarded .txs (atomically (fun pool => pool.addTransactions keys txs))

/-- The decoded transactions are added. -/
def addDecoded : Result (List Transaction) → PoolCode (Result Bool)
  | .error e => return .error e
  | .ok temp => addTransactions keys temp

/-- `AddTransactions(serial, keys)`: the decoding is done before the lock is taken. -/
def addSerial (serial : Bytes) : PoolCode (Result Bool) := do
  let temp ← inspect (fun pool =>
    UnrecordedTransactionPool.decodeAnnouncement keys pool.mode serial)
  addDecoded keys temp

/-- The loop of `AddAndVerifyTransactions`. What the map does not hold is looked at through the
end iterator. -/
def addAndVerifyFrom (txs : TxMap) : List Transaction → Books → Result Bool × Books
  | [], b => (.ok true, b)
  | item :: l, b =>
    match item.getSignature with
    | .error e => (.error e, b)
    | .ok sig =>
      match txs.find? sig with
      | none => (.error .badAccess, b)
      | some tx =>
        match tx.isValid keys b with
        | (.ok true, b') => addAndVerifyFrom txs l b'
        | r => r

def addAndVerifyTransactions (l : List Transaction) (b : Books) : PoolCode (Result Bool × Books) :=
  guarded .txs (inspect (fun pool => addAndVerifyFrom keys pool.txs l b))

/-- `getJSON` joins the texts of these transactions. -/
def getJSON : PoolCode (List Transaction) := guarded .txs (inspect (fun pool => pool.pending))

def getCanonical : PoolCode Bytes :=
  guarded .txs (inspect (fun pool => pool.pending.flatMap Transaction.getCanonical))

def hasPendingTransactions : PoolCode Bool :=
  guarded .txs (inspect (fun pool => pool.hasPendingTransactions))

def numPendingTransactions : PoolCode Nat :=
  guarded .txs (inspect (fun pool => pool.txs.size))

def collectValidTransactions : PoolCode (Result (List Transaction × Books)) :=
  guarded .txs (inspect (fun pool => pool.collectValidTransactions keys prior))

/-- The signed proposal is stored. -/
def storeProposal : Result ProposedBlock → PoolCode (Result Bool)
  | .error e => return .error e
  | .ok newProposal =>
    guarded .pendingProposal
      (atomically (fun pool => (.ok true, { pool with pendingProposal := newProposal })))

/-- `ProposeBlock`: the transactions are collected under one lock, and the proposal is stored
under the other. -/
def proposeBlock : PoolCode (Result Bool) := do
  let collected ← collectValidTransactions keys prior
  storeProposal (do
    let (validated, b) ← collected
    (ProposedBlock.ofTransactions prevHash validated b.summary Validation.empty b.state).signBlock
      keys context)

def hasProposal : PoolCode Bool :=
  guarded .pendingProposal (inspect (fun pool => pool.hasProposal))

def getProposal : PoolCode Bytes :=
  guarded .pendingProposal (inspect (fun pool => pool.getProposal))

def reverifyTransactions : PoolCode (Result Bool) :=
  guarded .txs (inspect (fun pool => pool.reverifyTransactions keys prior))

/-- What `ReverifyProposal` does once it has verified the transactions again. -/
def afterReverify : Result Bool → PoolCode (Result Bool)
  | .error e => return .error e
  | .ok true => atomically (fun pool => (.ok true, pool.moveTo prevHash))
  | .ok false => do
    let proposed ← proposeBlock keys context prevHash prior
    return proposed.map (fun _ => false)

/-- `ReverifyProposal` keeps the lock of the proposal to its end. -/
def reverifyProposal : PoolCode (Result Bool) :=
  guarded .pendingProposal (do
    if ← inspect (fun pool => pool.pendingProposal.isNull) then return .ok false
    else
      let verified ← reverifyTransactions keys prior
      afterReverify keys context prevHash prior verified)

def checkValidation (data : Bytes) : PoolCode (Result Bool) :=
  guarded .pendingProposal (atomically (fun pool =>
    match pool.checkValidation context data with
    | .error e => (.error e, pool)
    | .ok (enough, pool') => (.ok enough, pool')))

def removeTransactions : PoolCode (Result Unit) :=
  guarded .txs (atomically (fun pool =>
    let r := UnrecordedTransactionPool.removeTransactions
      pool.pendingProposal.transactionVector pool.txs
    (r.1, { pool with txs := r.2 })))

/-- What `FinalizeLocalBlock` does once the transactions are removed. -/
def afterRemove (o : Ossl) (now : Nat) : Result Unit → PoolCode (Result FinalBlock)
  | .error e => return .error e
  | .ok _ =>
    atomically (fun pool => (.ok (FinalBlock.ofProposed o now pool.pendingProposal),
      { pool with pendingProposal := pool.pendingProposal.setNull }))

def finalizeLocalBlock (o : Ossl) (now : Nat) : PoolCode (Result FinalBlock) :=
  guarded .pendingProposal (do
    let removed ← removeTransactions
    afterRemove o now removed)

/-- `FinalizeRemoteBlock` takes no lock. -/
def finalizeRemoteBlock (data : Bytes) : PoolCode (Result FinalBlock) :=
  inspect (fun pool => do
    let fields ← FinalBlock.decode keys pool.mode data
    .ok (FinalBlock.ofFields fields prior))

section
variable {keys context prevHash prior} {Q : List Mutex → UnrecordedTransactionPool → Prop}

theorem follows_guarded {α : Type} (m : Mutex)
    (run : UnrecordedTransactionPool → α × UnrecordedTransactionPool) :
    Follows Q [] (guarded m (atomically run)) [] :=
  Follows.guarded (fun _ h => absurd h List.not_mem_nil) (Follows.atomically run _)

theorem lt_txs {h : Mutex} (hh : h ∈ [Mutex.pendingProposal]) : h < .txs := by
  rw [List.mem_singleton.mp hh]
  exact Nat.zero_lt_one

theorem follows_addSerial (serial : Bytes) : Follows Q [] (addSerial keys serial) [] := by
  refine Follows.bind (Follows.atomically _ _) fun temp => ?_
  cases temp with
  | error e => exact Follows.ret [] _
  | ok temp => exact follows_guarded .txs _

theorem follows_proposeBlock : Follows Q [] (proposeBlock keys context prevHash prior) [] := by
  refine Follows.bind (follows_guarded .txs _) fun collected => ?_
  generalize (do
    let (validated, b) ← collected
    (ProposedBlock.ofTransactions prevHash validated b.summary Validation.empty b.state).signBlock
      keys context : Result ProposedBlock) = signed
  cases signed with
  | error e => exact Follows.ret [] _
  | ok newProposal => exact follows_guarded .pendingProposal _

/-- As long as the transactions stay valid, the lock of the proposal is not taken again. -/
theorem follows_reverifyProposal
    (hQ : ∀ pool, Q [.txs, .pendingProposal] pool →
      pool.reverifyTransactions keys prior ≠ .ok false) :
    Follows Q [] (reverifyProposal keys context prevHash prior) [] := by
  refine Follows.guarded (fun _ h => absurd h List.not_mem_nil) ?_
  refine Follows.bind (Follows.atomically _ _) fun isNull => ?_
  cases isNull with
  | true => exact Follows.ret _ _
  | false =>
    refine Follows.guardedStep (fun h hh => lt_txs hh) fun pool hpool => ?_
    have hne := hQ pool hpool
    change Follows Q _ (afterReverify keys context prevHash prior
      (pool.reverifyTransactions keys prior)) _
    generalize pool.reverifyTransactions keys prior = verified at hne ⊢
    cases verified with
    | error e => exact Follows.ret _ _
    | ok verified =>
      cases verified with
      | true => exact Follows.atomically _ _
      | false => exact absurd rfl hne

theorem follows_finalizeLocalBlock (now : Nat) : Follows Q [] (finalizeLocalBlock o now) [] := by
  refine Follows.guarded (fun _ h => absurd h List.not_mem_nil) ?_
  refine Follows.bind (Follows.guarded (fun h hh => lt_txs hh) (Follows.atomically _ _))
    fun removed => ?_
  cases removed with
  | error e => exact Follows.ret _ _
  | ok u => exact Follows.atomically _ _

end

theorem alone_guarded_step {α : Type} {held : List Mutex} {m : Mutex} (hm : m ∉ held)
    (run : UnrecordedTransactionPool → α × UnrecordedTransactionPool)
    (pool : UnrecordedTransactionPool) :
    (guarded m (atomically run)).alone held pool = some ((run pool).1, held, (run pool).2) := by
  rw [alone_guarded hm]
  change some ((run pool).1, (m :: held).erase m, (run pool).2) = _
  rw [List.erase_cons_head]

section
variable {keys context prevHash prior} {pool : UnrecordedTransactionPool}

theorem alone_proposeBlock (held : List Mutex) (htxs : .txs ∉ held) :
    (proposeBlock keys context prevHash prior).alone held pool =
      (storeProposal (pool.newProposal keys context prevHash prior)).alone held pool :=
  alone_guardedStep htxs _ _ pool

theorem alone_reverifyProposal (hnull : pool.pendingProposal.isNull = false) :
    (reverifyProposal keys context prevHash prior).alone [] pool =
      ((afterReverify keys context prevHash prior (pool.reverifyTransactions keys prior)).alone
        [.pendingProposal] pool).bind
        (fun r => some (r.1, r.2.1.erase .pendingProposal, r.2.2)) := by
  rw [reverifyProposal, alone_guarded List.not_mem_nil]
  congr 1
  change Code.alone [Mutex.pendingProposal] (if pool.pendingProposal.isNull = true then _ else _) pool = _
  rw [hnull]
  exact alone_guardedStep (by decide) _ _ pool

theorem alone_afterReverify_false :
    (afterReverify keys context prevHash prior (.ok false)).alone [.pendingProposal] pool =
      ((storeProposal (pool.newProposal keys context prevHash prior)).alone
        [.pendingProposal] pool).bind (fun r => some (r.1.map (fun _ => false), r.2)) := by
  have h := alone_bind (proposeBlock keys context prevHash prior)
    (fun proposed => .ret (proposed.map (fun _ => false))) [.pendingProposal] pool
  rw [alone_proposeBlock [.pendingProposal] (by decide)] at h
  exact h

theorem alone_finalizeLocalBlock (now : Nat) :
    (finalizeLocalBlock o now).alone [] pool =
      ((afterRemove o now (UnrecordedTransactionPool.removeTransactions
        pool.pendingProposal.transactionVector pool.txs).1).alone [.pendingProposal]
        { pool with txs := (UnrecordedTransactionPool.removeTransactions
          pool.pendingProposal.transactionVector pool.txs).2 }).bind
        (fun r => some (r.1, r.2.1.erase .pendingProposal, r.2.2)) := by
  rw [finalizeLocalBlock, alone_guarded List.not_mem_nil]
  exact congrArg (Option.bind · _) (alone_guardedStep (by decide) _ _ pool)

end

end PoolCode

/-- The public methods with their arguments. -/
inductive PoolCall (o : Ossl) where
  | addSerial (keys : KeyRing o) (serial : Bytes)
  | addTransactions (keys : KeyRing o) (txs : List Transaction)
  | addAndVerifyTransactions (keys : KeyRing o) (txs : List Transaction) (b : Books)
  | getJSON
  | getCanonical
  | hasPendingTransactions
  | numPendingTransactions
  | proposeBlock (keys : KeyRing o) (context : DevcashContext) (prevHash : Hash) (prior : ChainState)
  | hasProposal
  | getProposal
  | reverifyProposal (keys : KeyRing o) (context : DevcashContext) (prevHash : Hash)
      (prior : ChainState)
  | checkValidation (context : DevcashContext) (data : Bytes)
  | finalizeLocalBlock (now : Nat)
  | finalizeRemoteBlock (keys : KeyRing o) (data : Bytes) (prior : ChainState)
  | garbageCollect
  | getElapsedTime
  | getTransactionCreationManager

namespace PoolCall
variable {o : Ossl}

/-- What the call does, without its result. -/
def body : PoolCall o → PoolCode Unit
  | .addSerial keys serial => (PoolCode.addSerial keys serial).discard
  | .addTransactions keys txs => (PoolCode.addTransactions keys txs).discard
  | .addAndVerifyTransactions keys txs b => (PoolCode.addAndVerifyTransactions keys txs b).discard
  | .getJSON => PoolCode.getJSON.discard
  | .getCanonical => PoolCode.getCanonical.discard
  | .hasPendingTransactions => PoolCode.hasPendingTransactions.discard
  | .numPendingTransactions => PoolCode.numPendingTransactions.discard
  | .proposeBlock keys context prevHash prior =>
    (PoolCode.proposeBlock keys context prevHash prior).discard
  | .hasProposal => PoolCode.hasProposal.discard
  | .getProposal => PoolCode.getProposal.discard
  | .reverifyProposal keys context prevHash prior =>
    (PoolCode.reverifyProposal keys context prevHash prior).discard
  | .checkValidation context data => (PoolCode.checkValidation context data).discard
  | .finalizeLocalBlock now => (PoolCode.finalizeLocalBlock o now).discard
  | .finalizeRemoteBlock keys data prior => (PoolCode.finalizeRemoteBlock keys prior data).discard
  | .garbageCollect => .ret ()
  | .getElapsedTime => .ret ()
  | .getTransactionCreationManager => .ret ()

/-- The keys and the state with which the call verifies the proposal again. -/
def reverified : PoolCall o → Option (KeyRing o × ChainState)
  | .reverifyProposal keys _ _ prior => some (keys, prior)
  | _ => none

/-- A thread that verifies its proposal again, which it does under both locks, finds all its
transactions valid, or the check throws. -/
def Reverifies (c : PoolCall o) (held : List Mutex) (pool : UnrecordedTransactionPool) : Prop :=
  held = [.txs, .pendingProposal] →
    ∀ r ∈ c.reverified, pool.reverifyTransactions r.1 r.2 ≠ .ok false

instance (c : PoolCall o) (held : List Mutex) (pool : UnrecordedTransactionPool) :
    Decidable (c.Reverifies held pool) := inferInstanceAs (Decidable (_ → _))

theorem follows_body (c : PoolCall o) : (body c).Follows c.Reverifies [] [] := by
  cases c with
  | addSerial keys serial => exact (PoolCode.follows_addSerial serial).discard
  | proposeBlock keys context prevHash prior => exact PoolCode.follows_proposeBlock.discard
  | reverifyProposal keys context prevHash prior =>
    exact (PoolCode.follows_reverifyProposal fun pool h => h rfl (keys, prior) rfl).discard
  | finalizeLocalBlock now => exact (PoolCode.follows_finalizeLocalBlock now).discard
  | finalizeRemoteBlock keys data prior => exact (Follows.atomically _ []).discard
  | garbageCollect => exact Follows.ret [] ()
  | getElapsedTime => exact Follows.ret [] ()
  | getTransactionCreationManager => exact Follows.ret [] ()
  | hasProposal => exact (PoolCode.follows_guarded .pendingProposal _).discard
  | getProposal => exact (PoolCode.follows_guarded .pendingProposal _).discard
  | checkValidation context data => exact (PoolCode.follows_guarded .pendingProposal _).discard
  | addTransactions keys txs => exact (PoolCode.follows_guarded .txs _).discard
  | addAndVerifyTransactions keys txs b => exact (PoolCode.follows_guarded .txs _).discard
  | getJSON => exact (PoolCode.follows_guarded .txs _).discard
  | getCanonical => exact (PoolCode.follows_guarded .txs _).discard
  | hasPendingTransactions => exact (PoolCode.follows_guarded .txs _).discard
  | numPendingTransactions => exact (PoolCode.follows_guarded .txs _).discard

/-- Any number of threads that call any methods in any order: as long as no thread finds its
proposal invalid in `ReverifyProposal`, no mutex is taken twice by a thread, the mutexes are
taken in their order, and no threads wait for each other. -/
theorem calls_disciplined {ι : Type} [DecidableEq ι] (pool : UnrecordedTransactionPool)
    {l : List (Action (PoolCall o) ι)}
    (h : Run.Each (Config.step body) (Config.Meets Reverifies) (Config.idle pool) l) :
    Run.Always (Config.step body) Config.Disciplined (Config.idle pool) l :=
  Config.always_disciplined follows_body h

/-- The first node of the toy key ring verifies its proposal against a state. -/
def sampleReverify (prior : ChainState) : PoolCall Ossl.toy :=
  .reverifyProposal KeyRing.toy (DevcashContext.sample 0) Ossl.toy.genesisHash prior

/-- One thread is in `ReverifyTransactions` while another one wants to finalize the block. -/
theorem calls_disciplined_sampleReverify :
    let pool := UnrecordedTransactionPool.sampleProposed ChainState.empty [.sampleMove 1 2 5]
    let l : List (Action (PoolCall Ossl.toy) Bool) :=
      [.start false (sampleReverify ChainState.empty), .start true (.finalizeLocalBlock 0), .go false,
        .go true, .go false, .go false, .go false]
    ((Run.after (Config.step body) (Config.idle pool) l).thread false).held =
        [.txs, .pendingProposal] ∧
      Run.Always (Config.step body) Config.Disciplined (Config.idle pool) l := by
  intro pool l
  have h : ((Run.after (Config.step body) (Config.idle pool) l).thread false).held =
        [.txs, .pendingProposal] ∧
      Run.Each (Config.step body) (Config.Meets Reverifies) (Config.idle pool) l := by
    decide +kernel
  exact ⟨h.1, calls_disciplined pool h.2⟩

/-- The call verifies a proposal again that has become invalid, and makes a new one. -/
def SelfLocks : PoolCall o → UnrecordedTransactionPool → Prop
  | .reverifyProposal keys context prevHash prior, pool =>
    pool.pendingProposal.isNull = false ∧ pool.reverifyTransactions keys prior = .ok false ∧
      ∃ newProposal, pool.newProposal keys context prevHash prior = .ok newProposal
  | _, _ => False

/-- The pool after the call, as the sequential model has it. -/
def after : PoolCall o → UnrecordedTransactionPool → UnrecordedTransactionPool
  | .addSerial keys serial, pool => (pool.addSerial keys serial).2
  | .addTransactions keys txs, pool => (pool.addTransactions keys txs).2
  | .proposeBlock keys context prevHash prior, pool =>
    (pool.proposeBlock keys context prevHash prior).toOption.getD pool
  | .reverifyProposal keys context prevHash prior, pool =>
    (pool.reverifyProposal keys context prevHash prior).toOption.getD pool
  | .checkValidation context data, pool =>
    ((pool.checkValidation context data).toOption.map Prod.snd).getD pool
  | .finalizeLocalBlock now, pool => (pool.finalizeLocalBlock o now).2
  | _, pool => pool

theorem alone_reverifyProposal_body {keys : KeyRing o} {context : DevcashContext} {prevHash : Hash}
    {prior : ChainState} {pool : UnrecordedTransactionPool}
    (h : ¬ (PoolCall.reverifyProposal keys context prevHash prior).SelfLocks pool) :
    (body (.reverifyProposal keys context prevHash prior)).alone [] pool =
      some ((), [], (PoolCall.reverifyProposal keys context prevHash prior).after pool) := by
  rw [body, alone_discard, after, UnrecordedTransactionPool.reverifyProposal]
  cases hnull : pool.pendingProposal.isNull with
  | true =>
    rw [PoolCode.reverifyProposal, alone_guarded List.not_mem_nil]
    change Option.map _ (Option.bind (Code.alone [Mutex.pendingProposal]
      (if pool.pendingProposal.isNull = true then _ else _) pool) _) = _
    rw [hnull]
    rfl
  | false =>
    rw [PoolCode.alone_reverifyProposal hnull]
    cases hverified : pool.reverifyTransactions keys prior with
    | error e => rfl
    | ok verified =>
      cases verified with
      | true => rfl
      | false =>
        cases hnew : pool.newProposal keys context prevHash prior with
        | ok newProposal => exact absurd ⟨hnull, hverified, newProposal, hnew⟩ h
        | error e =>
          rw [PoolCode.alone_afterReverify_false, hnew]
          rfl

theorem alone_body {c : PoolCall o} {pool : UnrecordedTransactionPool} (h : ¬ c.SelfLocks pool) :
    (body c).alone [] pool = some ((), [], c.after pool) := by
  cases c with
  | addSerial keys serial =>
    rw [body, alone_discard, after, UnrecordedTransactionPool.addSerial]
    change Option.map _ ((PoolCode.addDecoded keys
      (UnrecordedTransactionPool.decodeAnnouncement keys pool.mode serial)).alone [] pool) = _
    cases UnrecordedTransactionPool.decodeAnnouncement keys pool.mode serial with
    | error e => rfl
    | ok temp => rfl
  | proposeBlock keys context prevHash prior =>
    rw [body, alone_discard, PoolCode.alone_proposeBlock [] List.not_mem_nil, after,
      UnrecordedTransactionPool.proposeBlock]
    cases pool.newProposal keys context prevHash prior with
    | error e => rfl
    | ok newProposal => rfl
  | reverifyProposal keys context prevHash prior => exact alone_reverifyProposal_body h
  | finalizeLocalBlock now =>
    rw [body, alone_discard, PoolCode.alone_finalizeLocalBlock, after,
      UnrecordedTransactionPool.finalizeLocalBlock]
    cases UnrecordedTransactionPool.removeTransactions pool.pendingProposal.transactionVector
      pool.txs with
    | mk removed txs =>
      cases removed with
      | error e => rfl
      | ok u => rfl
  | checkValidation context data =>
    rw [body, alone_discard, PoolCode.checkValidation, PoolCode.alone_guarded_step List.not_mem_nil,
      after]
    cases pool.checkValidation context data with
    | error e => rfl
    | ok r => rfl
  | finalizeRemoteBlock keys data prior => rfl
  | garbageCollect => rfl
  | getElapsedTime => rfl
  | getTransactionCreationManager => rfl
  | hasProposal => rfl
  | getProposal => rfl
  | addTransactions keys txs => rfl
  | addAndVerifyTransactions keys txs b => rfl
  | getJSON => rfl
  | getCanonical => rfl
  | hasPendingTransactions => rfl
  | numPendingTransactions => rfl

/-- The second lock of the proposal is never given. -/
theorem alone_body_of_selfLocks {c : PoolCall o} {pool : UnrecordedTransactionPool}
    (h : c.SelfLocks pool) : (body c).alone [] pool = none := by
  cases c with
  | reverifyProposal keys context prevHash prior =>
    obtain ⟨hnull, hverified, newProposal, hnew⟩ := h
    rw [body, alone_discard, PoolCode.alone_reverifyProposal hnull, hverified,
      PoolCode.alone_afterReverify_false, hnew]
    rfl
  | _ => exact absurd h id

/-- A call that finds its proposal invalid waits for itself. -/
theorem waits_of_selfLocks {ι : Type} [DecidableEq ι] (i : ι) {c : PoolCall o}
    {pool : UnrecordedTransactionPool} (h : c.SelfLocks pool) :
    ∃ n, (Run.after (Config.step body) (Config.idle pool)
      (.start i c :: List.replicate n (.go i))).WaitsFor i i :=
  Config.waits_of_start (alone_body_of_selfLocks h)

/-- A wallet with so many coins of type 1. -/
def sampleFunds (amount : Nat) : ChainState :=
  ChainState.empty.addCoin (SmartCoin.make (Address.sample 1) 1 amount)

/-- Both moves of 5 and 7 coins can be proposed from a state with 12 coins, and not from one
without. -/
theorem selfLocks_staleProposal : (sampleReverify (sampleFunds 0)).SelfLocks
    (UnrecordedTransactionPool.sampleProposed (sampleFunds 12)
      [.sampleMove 1 0 5, .sampleMove 1 0 7]) := by
  have hstale : (UnrecordedTransactionPool.sampleProposed (sampleFunds 12)
        [.sampleMove 1 0 5, .sampleMove 1 0 7]).pendingProposal.isNull = false ∧
      (UnrecordedTransactionPool.sampleProposed (sampleFunds 12)
        [.sampleMove 1 0 5, .sampleMove 1 0 7]).reverifyTransactions KeyRing.toy (sampleFunds 0) =
          .ok false ∧
      ((UnrecordedTransactionPool.sampleProposed (sampleFunds 12)
        [.sampleMove 1 0 5, .sampleMove 1 0 7]).newProposal KeyRing.toy (DevcashContext.sample 0)
          Ossl.toy.genesisHash (sampleFunds 0)).toOption.isSome = true := by
    decide +kernel
  obtain ⟨hnull, hverified, hnew⟩ := hstale
  exact ⟨hnull, hverified, Result.exists_ok hnew⟩

/-- After a block that spends the coins, `ReverifyProposal` waits for the mutex it holds. -/
theorem staleProposal_waits :
    let pool := UnrecordedTransactionPool.sampleProposed (sampleFunds 12)
      [.sampleMove 1 0 5, .sampleMove 1 0 7]
    ∃ n, ¬ (Run.after (Config.step body) (Config.idle pool)
      (.start () (sampleReverify (sampleFunds 0)) :: List.replicate n (.go ()))).Disciplined := by
  intro pool
  obtain ⟨n, hn⟩ := waits_of_selfLocks () selfLocks_staleProposal
  refine ⟨n, fun hd => hd.noDeadlock ⟨{()}, Set.singleton_nonempty (), fun i hi => ?_⟩⟩
  exact ⟨(), rfl, hn⟩

end PoolCall
end Devcash
