import Devcash.Lib.Run
import Mathlib.Order.WellFounded
import Mathlib.Data.Set.Basic

/-! Threads that work on a shared state under non-recursive locks. A program whose locks are
taken in increasing order and given back in the reverse one keeps every number of threads
free of deadlocks. -/
namespace Locks
variable {σ L α β : Type}

/-- What a thread does: it takes a lock, gives one back, or changes the shared state in one
step and goes on according to the state it found. -/
inductive Code (σ L α : Type) where
  | ret (a : α)
  | lock (m : L) (next : Code σ L α)
  | unlock (m : L) (next : Code σ L α)
  | act (update : σ → σ) (next : σ → Code σ L α)

namespace Code

def bind : Code σ L α → (α → Code σ L β) → Code σ L β
  | .ret a, f => f a
  | .lock m next, f => .lock m (next.bind f)
  | .unlock m next, f => .unlock m (next.bind f)
  | .act update next, f => .act update (fun s => (next s).bind f)

instance : Monad (Code σ L) where
  pure := .ret
  bind := bind

/-- One step on the shared state with a result. -/
def atomically (run : σ → α × σ) : Code σ L α := .act (fun s => (run s).2) (fun s => .ret (run s).1)

/-- A block with a lock guard: the lock is given back however the block ends. -/
def guarded (m : L) (body : Code σ L α) : Code σ L α :=
  .lock m (body.bind (fun a => .unlock m (.ret a)))

/-- The program without its result. -/
def discard (c : Code σ L α) : Code σ L Unit := c.bind (fun _ => .ret ())

/-- From the locks `held`, the latest first, the program takes each lock above those it holds,
gives them back in reverse order and ends with `rest`, provided each of its steps on the
shared state finds a state that `Q` allows. -/
def Follows [LT L] (Q : List L → σ → Prop) : List L → Code σ L α → List L → Prop
  | held, .ret _, rest => held = rest
  | held, .lock m next, rest => (∀ h ∈ held, h < m) ∧ Follows Q (m :: held) next rest
  | held, .unlock m next, rest => ∃ held', held = m :: held' ∧ Follows Q held' next rest
  | held, .act _ next, rest => ∀ s, Q held s → Follows Q held (next s) rest

section
variable [LT L] {Q : List L → σ → Prop}

theorem Follows.ret (held : List L) (a : α) : Follows Q held (.ret a) held := rfl

theorem Follows.bind {c : Code σ L α} {f : α → Code σ L β} {held mid rest : List L}
    (hc : Follows Q held c mid) (hf : ∀ a, Follows Q mid (f a) rest) :
    Follows Q held (c.bind f) rest := by
  induction c generalizing held with
  | ret a =>
    cases hc
    exact hf a
  | lock m next ih => exact ⟨hc.1, ih hc.2⟩
  | unlock m next ih =>
    obtain ⟨held', rfl, hnext⟩ := hc
    exact ⟨held', rfl, ih hnext⟩
  | act update next ih => exact fun s hs => ih s (hc s hs)

theorem Follows.discard {c : Code σ L α} {held rest : List L} (h : Follows Q held c rest) :
    Follows Q held c.discard rest := h.bind fun _ => Follows.ret rest ()

/-- A step under a lock, and what follows once the lock is given back. -/
theorem Follows.guardedStep {m : L} {run : σ → α × σ} {f : α → Code σ L β} {held rest : List L}
    (hm : ∀ h ∈ held, h < m)
    (hf : ∀ s, Q (m :: held) s → Follows Q held (f (run s).1) rest) :
    Follows Q held ((guarded m (Code.atomically run)).bind f) rest :=
  ⟨hm, fun s hs => ⟨held, rfl, hf s hs⟩⟩

theorem Follows.guarded {m : L} {body : Code σ L α} {held : List L} (hm : ∀ h ∈ held, h < m)
    (hbody : Follows Q (m :: held) body (m :: held)) : Follows Q held (guarded m body) held :=
  ⟨hm, hbody.bind fun a => ⟨held, rfl, Follows.ret held a⟩⟩

theorem Follows.mono {Q' : List L → σ → Prop} (hQ : ∀ held s, Q' held s → Q held s)
    {c : Code σ L α} {held rest : List L} (h : Follows Q held c rest) : Follows Q' held c rest := by
  induction c generalizing held with
  | ret a => exact h
  | lock m next ih => exact ⟨h.1, ih h.2⟩
  | unlock m next ih =>
    obtain ⟨held', rfl, hnext⟩ := h
    exact ⟨held', rfl, ih hnext⟩
  | act update next ih => exact fun s hs => ih s (h s (hQ held s hs))

theorem Follows.atomically (run : σ → α × σ) (held : List L) :
    Follows Q held (Code.atomically run) held := fun _ _ => rfl

end

/-- What the program does when no other thread holds a lock: the result, the locks and the state
at its end, or nothing if it waits for itself. -/
def alone [DecidableEq L] : List L → Code σ L α → σ → Option (α × List L × σ)
  | held, .ret a, s => some (a, held, s)
  | held, .lock m next, s => if m ∈ held then none else alone (m :: held) next s
  | held, .unlock m next, s => alone (held.erase m) next s
  | held, .act update next, s => alone held (next s) (update s)

section
variable [DecidableEq L]

theorem alone_bind (c : Code σ L α) (f : α → Code σ L β) (held : List L) (s : σ) :
    alone held (c.bind f) s = (alone held c s).bind (fun r => alone r.2.1 (f r.1) r.2.2) := by
  induction c generalizing held s with
  | ret a => rfl
  | lock m next ih =>
    rw [Code.bind, alone, alone]
    split_ifs
    · rfl
    · exact ih _ s
  | unlock m next ih => exact ih _ s
  | act update next ih => exact ih s held (update s)

theorem alone_guarded {m : L} {held : List L} (hm : m ∉ held) (body : Code σ L α) (s : σ) :
    alone held (guarded m body) s =
      (alone (m :: held) body s).bind (fun r => some (r.1, r.2.1.erase m, r.2.2)) := by
  rw [guarded, alone, if_neg hm, alone_bind]
  rfl

theorem alone_discard (c : Code σ L α) (held : List L) (s : σ) :
    alone held c.discard s = (alone held c s).map (fun r => ((), r.2)) := by
  rw [discard, alone_bind]
  cases alone held c s with
  | none => rfl
  | some r => rfl

theorem alone_guardedStep {m : L} {held : List L} (hm : m ∉ held) (run : σ → α × σ)
    (f : α → Code σ L β) (s : σ) :
    alone held ((guarded m (Code.atomically run)).bind f) s = alone held (f (run s).1) (run s).2 := by
  rw [alone_bind, alone_guarded hm]
  change alone ((m :: held).erase m) (f (run s).1) (run s).2 = _
  rw [List.erase_cons_head]

end

end Code

variable {ι C : Type}

/-- A thread with the call it works on, the locks it holds and what is left of its program. -/
structure Thread (σ L C : Type) where
  call : Option C
  held : List L
  code : Code σ L Unit

structure Config (σ L C ι : Type) where
  shared : σ
  owner : L → Option ι
  thread : ι → Thread σ L C

/-- A thread that has nothing to do starts a call, or a thread tries to take a step. -/
inductive Action (C ι : Type) where
  | start (i : ι) (c : C)
  | go (i : ι)

namespace Config

/-- No thread is in a call. -/
def idle (s : σ) : Config σ L C ι := ⟨s, fun _ => none, fun _ => ⟨none, [], .ret ()⟩⟩

/-- A thread gets to the rest of its program. -/
def resume [DecidableEq ι] (s : Config σ L C ι) (i : ι) (held : List L) (code : Code σ L Unit) :
    Config σ L C ι :=
  { s with thread := Function.update s.thread i { s.thread i with held, code } }

/-- A thread whose next step is a lock that is taken stays where it is. -/
def go [DecidableEq ι] [DecidableEq L] (s : Config σ L C ι) (i : ι) : Config σ L C ι :=
  match (s.thread i).code with
  | .ret _ => s
  | .lock m next =>
    match s.owner m with
    | some _ => s
    | none =>
      { s.resume i (m :: (s.thread i).held) next with
        owner := Function.update s.owner m (some i) }
  | .unlock m next =>
    { s.resume i ((s.thread i).held.erase m) next with owner := Function.update s.owner m none }
  | .act update next =>
    { s.resume i (s.thread i).held (next s.shared) with shared := update s.shared }

def step [DecidableEq ι] [DecidableEq L] (body : C → Code σ L Unit) (s : Config σ L C ι) :
    Action C ι → Config σ L C ι
  | .start i c =>
    match (s.thread i).code with
    | .ret _ =>
      { s with thread := Function.update s.thread i { s.thread i with call := some c, code := body c } }
    | _ => s
  | .go i => s.go i

section
variable [DecidableEq ι] [DecidableEq L] {s : Config σ L C ι} {i : ι}

theorem go_lock {m : L} {next : Code σ L Unit} (hcode : (s.thread i).code = .lock m next)
    (hfree : s.owner m = none) : s.go i =
      { s.resume i (m :: (s.thread i).held) next with
        owner := Function.update s.owner m (some i) } := by
  simp only [go, hcode, hfree]

theorem go_blocked {m : L} {next : Code σ L Unit} {j : ι}
    (hcode : (s.thread i).code = .lock m next) (htaken : s.owner m = some j) : s.go i = s := by
  simp only [go, hcode, htaken]

theorem go_unlock {m : L} {next : Code σ L Unit} (hcode : (s.thread i).code = .unlock m next) :
    s.go i =
      { s.resume i ((s.thread i).held.erase m) next with
        owner := Function.update s.owner m none } := by
  simp only [go, hcode]

theorem go_act {update : σ → σ} {next : σ → Code σ L Unit}
    (hcode : (s.thread i).code = .act update next) : s.go i =
      { s.resume i (s.thread i).held (next s.shared) with shared := update s.shared } := by
  simp only [go, hcode]

end

/-- Thread `i` needs a lock that thread `j` holds. -/
def WaitsFor (s : Config σ L C ι) (i j : ι) : Prop :=
  ∃ m next, (s.thread i).code = .lock m next ∧ s.owner m = some j

/-- Each thread of a set waits for one of the set. -/
def Deadlocked (s : Config σ L C ι) : Prop :=
  ∃ S : Set ι, S.Nonempty ∧ ∀ i ∈ S, ∃ j ∈ S, s.WaitsFor i j

/-- No thread takes a lock it holds, each thread has taken its locks in increasing order, and
there is no deadlock. -/
structure Disciplined [LT L] (s : Config σ L C ι) : Prop where
  noReacquire : ∀ i m next, (s.thread i).code = .lock m next → m ∉ (s.thread i).held
  increasing : ∀ i, (s.thread i).held.Pairwise (fun later earlier => earlier < later)
  noDeadlock : ¬ s.Deadlocked

/-- The step of a thread finds a state that its call allows. -/
def Meets (Q : C → List L → σ → Prop) (s : Config σ L C ι) : Action C ι → Prop
  | .start _ _ => True
  | .go i => ∀ c ∈ (s.thread i).call, Q c (s.thread i).held s.shared

instance {Q : C → List L → σ → Prop} [∀ c held x, Decidable (Q c held x)] (s : Config σ L C ι) :
    ∀ a, Decidable (s.Meets Q a)
  | .start _ _ => isTrue trivial
  | .go i => inferInstanceAs (Decidable (∀ c ∈ (s.thread i).call, Q c (s.thread i).held s.shared))

/-- Every thread is inside a program that follows the order, and the owners are those who
hold the locks. -/
structure Inv [LT L] (Q : C → List L → σ → Prop) (s : Config σ L C ι) : Prop where
  follows : ∀ i, (s.thread i).code.Follows
    (fun held s' => ∀ c ∈ (s.thread i).call, Q c held s') (s.thread i).held []
  increasing : ∀ i, (s.thread i).held.Pairwise (fun later earlier => earlier < later)
  owner : ∀ m i, s.owner m = some i ↔ m ∈ (s.thread i).held

section
variable [Preorder L] {Q : C → List L → σ → Prop} {s : Config σ L C ι}

theorem inv_idle (s : σ) : (idle s : Config σ L C ι).Inv Q where
  follows := fun _ => rfl
  increasing := fun _ => List.Pairwise.nil
  owner := fun _ _ => iff_of_false (fun h => Option.some_ne_none _ h.symm) List.not_mem_nil

/-- The invariant after a step of thread `i`, from what the step does to this thread and to
the owners. -/
theorem Inv.of_thread {s' : Config σ L C ι} (h : s.Inv Q) (i : ι)
    (hothers : ∀ j, j ≠ i → s'.thread j = s.thread j)
    (hfollows : (s'.thread i).code.Follows
      (fun held x => ∀ c ∈ (s'.thread i).call, Q c held x) (s'.thread i).held [])
    (hincreasing : (s'.thread i).held.Pairwise (fun later earlier => earlier < later))
    (hown : ∀ m, s'.owner m = some i ↔ m ∈ (s'.thread i).held)
    (hforeign : ∀ m j, j ≠ i → (s'.owner m = some j ↔ s.owner m = some j)) : s'.Inv Q := by
  refine ⟨fun j => ?_, fun j => ?_, fun m j => ?_⟩ <;> by_cases hj : j = i
  · rw [hj]
    exact hfollows
  · rw [hothers j hj]
    exact h.follows j
  · rw [hj]
    exact hincreasing
  · rw [hothers j hj]
    exact h.increasing j
  · rw [hj]
    exact hown m
  · rw [hothers j hj, hforeign m j hj]
    exact h.owner m j

/-- A thread that waits needs a lock above all it holds, so that no set of threads can wait
for each other: among the locks they need there is a greatest one. -/
theorem Inv.disciplined [WellFoundedGT L] (h : s.Inv Q) : s.Disciplined where
  noReacquire := by
    intro i m next hcode hmem
    have hfollows := h.follows i
    rw [hcode] at hfollows
    exact lt_irrefl m (hfollows.1 m hmem)
  increasing := h.increasing
  noDeadlock := by
    intro hdead
    obtain ⟨S, ⟨i, hi⟩, hS⟩ := hdead
    have hneeded : {m | ∃ i ∈ S, ∃ next, (s.thread i).code = .lock m next}.Nonempty := by
      obtain ⟨j, -, m, next, hcode, -⟩ := hS i hi
      exact ⟨m, i, hi, next, hcode⟩
    obtain ⟨m, ⟨j, hj, next, hcode⟩, hmax⟩ := wellFounded_gt.has_min _ hneeded
    obtain ⟨k, hk, m1, next1, hcode1, howner⟩ := hS j hj
    obtain ⟨-, -, m2, next2, hcode2, -⟩ := hS k hk
    rw [hcode] at hcode1
    cases hcode1
    have hfollows := h.follows k
    rw [hcode2] at hfollows
    exact hmax m2 ⟨k, hk, next2, hcode2⟩ (hfollows.1 m ((h.owner m k).mp howner))

variable [DecidableEq ι]

theorem Inv.act (h : s.Inv Q) {i : ι} {update : σ → σ} {next : σ → Code σ L Unit}
    (hcode : (s.thread i).code = .act update next)
    (hmeets : ∀ c ∈ (s.thread i).call, Q c (s.thread i).held s.shared) :
    Inv Q { s.resume i (s.thread i).held (next s.shared) with shared := update s.shared } := by
  have hfollows := h.follows i
  rw [hcode] at hfollows
  refine h.of_thread i (fun j hj => Function.update_of_ne hj ..) ?_ ?_ ?_ (fun _ _ _ => Iff.rfl)
  · simp only [resume, Function.update_self]
    exact hfollows s.shared hmeets
  · simp only [resume, Function.update_self]
    exact h.increasing i
  · intro m
    simp only [resume, Function.update_self]
    exact h.owner m i

variable [DecidableEq L] {body : C → Code σ L Unit}

theorem Inv.start (hbody : ∀ c, (body c).Follows (Q c) [] []) (h : s.Inv Q) (i : ι) (c : C) :
    (s.step body (.start i c)).Inv Q := by
  rw [step]
  have hfollows := h.follows i
  cases hcode : (s.thread i).code with
  | lock m next => exact h
  | unlock m next => exact h
  | act update next => exact h
  | ret a =>
    rw [hcode] at hfollows
    have hheld : (s.thread i).held = [] := hfollows
    refine h.of_thread i (fun j hj => Function.update_of_ne hj ..) ?_ ?_ ?_ (fun _ _ _ => Iff.rfl)
    · simp only [Function.update_self, hheld]
      exact (hbody c).mono fun held x hx => hx c rfl
    · simp only [Function.update_self]
      exact h.increasing i
    · intro m
      simp only [Function.update_self]
      exact h.owner m i

theorem Inv.lock (h : s.Inv Q) {i : ι} {m : L} {next : Code σ L Unit}
    (hcode : (s.thread i).code = .lock m next) (hfree : s.owner m = none) :
    Inv Q { s.resume i (m :: (s.thread i).held) next with
      owner := Function.update s.owner m (some i) } := by
  have hfollows := h.follows i
  rw [hcode] at hfollows
  refine h.of_thread i (fun j hj => Function.update_of_ne hj ..) ?_ ?_ ?_ ?_
  · simp only [resume, Function.update_self]
    exact hfollows.2
  · simp only [resume, Function.update_self]
    exact List.pairwise_cons.mpr ⟨hfollows.1, h.increasing i⟩
  · intro m'
    simp only [resume, Function.update_self, Function.update_apply, List.mem_cons]
    split_ifs with hm
    · exact iff_of_true rfl (Or.inl hm)
    · rw [h.owner m' i, or_iff_right hm]
  · intro m' j hj
    simp only [Function.update_apply]
    split_ifs with hm
    · rw [hm, hfree]
      exact iff_of_false (fun he => hj (Option.some.inj he).symm)
        (fun he => Option.some_ne_none _ he.symm)
    · exact Iff.rfl

theorem Inv.unlock (h : s.Inv Q) {i : ι} {m : L} {next : Code σ L Unit}
    (hcode : (s.thread i).code = .unlock m next) :
    Inv Q { s.resume i ((s.thread i).held.erase m) next with
      owner := Function.update s.owner m none } := by
  have hfollows := h.follows i
  have hincreasing := h.increasing i
  rw [hcode] at hfollows
  obtain ⟨held', hheld, hnext⟩ := hfollows
  rw [hheld, List.pairwise_cons] at hincreasing
  have herase : (s.thread i).held.erase m = held' := by rw [hheld, List.erase_cons_head]
  have hmem : m ∈ (s.thread i).held := by
    rw [hheld]
    exact List.mem_cons_self
  refine h.of_thread i (fun j hj => Function.update_of_ne hj ..) ?_ ?_ ?_ ?_
  · simp only [resume, Function.update_self, herase]
    exact hnext
  · simp only [resume, Function.update_self, herase]
    exact hincreasing.2
  · intro m'
    simp only [resume, Function.update_self, Function.update_apply, herase]
    split_ifs with hm
    · rw [hm]
      exact iff_of_false id (fun he => lt_irrefl m (hincreasing.1 m he))
    · rw [h.owner m' i, hheld, List.mem_cons, or_iff_right hm]
  · intro m' j hj
    simp only [Function.update_apply]
    split_ifs with hm
    · rw [hm, (h.owner m i).mpr hmem]
      exact iff_of_false id (fun he => hj (Option.some.inj he).symm)
    · exact Iff.rfl

theorem Inv.step (hbody : ∀ c, (body c).Follows (Q c) [] []) (h : s.Inv Q) {a : Action C ι}
    (ha : s.Meets Q a) : (s.step body a).Inv Q := by
  cases a with
  | start i c => exact h.start hbody i c
  | go i =>
    rw [Config.step]
    cases hcode : (s.thread i).code with
    | ret a =>
      rw [go, hcode]
      exact h
    | lock m next =>
      cases howner : s.owner m with
      | some j =>
        rw [go_blocked hcode howner]
        exact h
      | none =>
        rw [go_lock hcode howner]
        exact h.lock hcode howner
    | unlock m next =>
      rw [go_unlock hcode]
      exact h.unlock hcode
    | act update next =>
      rw [go_act hcode]
      exact h.act hcode ha

/-- If every call follows the order in the states it allows, then every run whose steps find
such states is disciplined throughout. -/
theorem always_disciplined [WellFoundedGT L] (hbody : ∀ c, (body c).Follows (Q c) [] []) {x : σ}
    {l : List (Action C ι)} (h : Run.Each (step body) (Meets Q) (idle x) l) :
    Run.Always (step body) Disciplined (idle x) l := by
  have hinv : Run.Always (step body) (Inv Q) (idle x) l :=
    Run.always_of_each (fun _ _ hs ha => hs.step hbody ha) (inv_idle x) h
  exact fun l1 hl => (hinv l1 hl).disciplined

end

section
variable [DecidableEq ι] [DecidableEq L] {body : C → Code σ L Unit} {s : Config σ L C ι} {i : ι}

/-- All locks in use are those of thread `i`. -/
structure Sole (s : Config σ L C ι) (i : ι) : Prop where
  owner : ∀ m, s.owner m = if m ∈ (s.thread i).held then some i else none
  nodup : (s.thread i).held.Nodup

theorem Sole.lock (h : s.Sole i) {m : L} (hm : m ∉ (s.thread i).held) (next : Code σ L Unit) :
    Sole { s.resume i (m :: (s.thread i).held) next with
      owner := Function.update s.owner m (some i) } i where
  owner := by
    intro m'
    simp only [resume, Function.update_self, Function.update_apply, List.mem_cons, h.owner m']
    by_cases hm' : m' = m
    · rw [if_pos hm', if_pos (Or.inl hm')]
    · rw [if_neg hm']
      simp only [hm', false_or]
  nodup := by
    simp only [resume, Function.update_self]
    exact List.nodup_cons.mpr ⟨hm, h.nodup⟩

theorem Sole.unlock (h : s.Sole i) (m : L) (next : Code σ L Unit) :
    Sole { s.resume i ((s.thread i).held.erase m) next with
      owner := Function.update s.owner m none } i where
  owner := by
    intro m'
    simp only [resume, Function.update_self, Function.update_apply, h.owner m',
      h.nodup.mem_erase_iff]
    by_cases hm' : m' = m
    · rw [if_pos hm', if_neg (fun hmem => hmem.1 hm')]
    · rw [if_neg hm']
      simp only [ne_eq, hm', not_false_eq_true, true_and]
  nodup := by
    simp only [resume, Function.update_self]
    exact h.nodup.erase m

theorem Sole.act (h : s.Sole i) (update : σ → σ) (next : Code σ L Unit) :
    Sole { s.resume i (s.thread i).held next with shared := update s.shared } i where
  owner := by
    intro m
    simp only [resume, Function.update_self]
    exact h.owner m
  nodup := by
    simp only [resume, Function.update_self]
    exact h.nodup

theorem waits_later {s' : Config σ L C ι} (hs' : s.go i = s')
    (h : ∃ n, (Run.after (step body) s' (List.replicate n (.go i))).WaitsFor i i) :
    ∃ n, (Run.after (step body) s (List.replicate n (.go i))).WaitsFor i i := by
  obtain ⟨n, hn⟩ := h
  refine ⟨n + 1, ?_⟩
  rw [List.replicate_succ, Run.after_cons, step, hs']
  exact hn

/-- A thread that would wait for itself when no other thread holds a lock does so. -/
theorem waits_of_alone (h : s.Sole i)
    (hnone : (s.thread i).code.alone (s.thread i).held s.shared = none) :
    ∃ n, (Run.after (step body) s (List.replicate n (.go i))).WaitsFor i i := by
  generalize hcode : (s.thread i).code = code at hnone
  induction code generalizing s with
  | ret a => cases hnone
  | lock m next ih =>
    rw [Code.alone] at hnone
    split_ifs at hnone with hm
    · refine ⟨0, m, next, hcode, ?_⟩
      rw [Run.after, List.replicate_zero, List.foldl_nil, h.owner m, if_pos hm]
    · have hfree : s.owner m = none := by rw [h.owner m, if_neg hm]
      refine waits_later (go_lock hcode hfree) (ih (h.lock hm next) ?_ ?_)
      · simp only [resume, Function.update_self]
      · simp only [resume, Function.update_self]
        exact hnone
  | unlock m next ih =>
    refine waits_later (go_unlock hcode) (ih (h.unlock m next) ?_ ?_)
    · simp only [resume, Function.update_self]
    · simp only [resume, Function.update_self]
      exact hnone
  | act update next ih =>
    refine waits_later (go_act hcode) (ih s.shared (h.act update (next s.shared)) ?_ ?_)
    · simp only [resume, Function.update_self]
    · simp only [resume, Function.update_self]
      exact hnone

/-- The same for the first call of a thread while all others are idle. -/
theorem waits_of_start {c : C} {x : σ} (hnone : (body c).alone [] x = none) :
    ∃ n, (Run.after (step body) (idle x) (.start i c :: List.replicate n (.go i))).WaitsFor i i := by
  have hthread : ((idle x : Config σ L C ι).step body (.start i c)).thread i =
      ⟨some c, [], body c⟩ := by
    simp only [step, idle, Function.update_self]
  refine waits_of_alone ⟨fun m => ?_, ?_⟩ ?_
  · rw [hthread, if_neg List.not_mem_nil]
    rfl
  · rw [hthread]
    exact List.nodup_nil
  · rw [hthread]
    exact hnone

end

end Config
end Locks
