import Mathlib
import Devcash.Lib.Ring
import Devcash.Lib.Run

/-! The ring queue for messages, access by access: producers call `push` one after the other
(`pushLock_`), and each consumer passes `popGuard` and then pops. `push` and `pop` work under
`update_`, but `popGuard` does not take it and can run inside both. A waiting thread is one that
does not step. A test of two counters is one step: `popAt_` is written by consumers only, so a
single consumer cannot be interrupted in it, and with more of them the results need one run. -/
namespace Devcash

/-- `DevcashRingQueue`; an empty slot has the null pointer. -/
structure DevcashRingQueue (α : Type) where
  kRingSize : Nat
  ptrRing : List (Option α)
  pushAt : Nat
  popAt : Nat
  pending : Int
  isEmpty : Bool
  isFull : Bool

namespace DevcashRingQueue
variable {α : Type}

def make (size : Nat) : DevcashRingQueue α where
  kRingSize := size
  ptrRing := List.replicate size none
  pushAt := 0
  popAt := 0
  pending := 0
  isEmpty := true
  isFull := false

/-- The two tests of `popGuard` for the last message. -/
def isLast (q : DevcashRingQueue α) : Bool := q.popAt + 1 = q.pushAt

def isLastWrapped (q : DevcashRingQueue α) : Bool := q.kRingSize ≤ q.popAt + 1 ∧ q.pushAt = 0

/-- What `popGuard` does on a test that answered `last`. -/
def setEmpty (q : DevcashRingQueue α) (last : Bool) : DevcashRingQueue α :=
  if last then { q with isEmpty := true } else q

end DevcashRingQueue

/-- What the producer behind the waiting loop of `push` does next, if there is one. -/
inductive PushPhase (α : Type) where
  | idle
  | store (pointer : α)
  | readPending
  | writePending (pending : Int)
  | testFull
  | testEmpty
  | clearEmpty
  | advance
  | wrap
  | compare

namespace PushPhase
variable {α : Type}

/-- Whether the producer has `update_`, which it takes with the store. -/
def updates : PushPhase α → Bool
  | .idle => false
  | .store _ => false
  | _ => true

/-- By how much `pushAt_` is behind the slots. -/
def lag : PushPhase α → Nat
  | .idle => 0
  | .store _ => 0
  | .wrap => 0
  | .compare => 0
  | _ => 1

/-- By how much `pushAt_` may be over the end of the ring. -/
def excess : PushPhase α → Nat
  | .wrap => 1
  | _ => 0

theorem lag_of_updates {pusher : PushPhase α} (h : pusher.updates = false) :
    pusher.lag = 0 ∧ pusher.excess = 0 := by
  cases pusher <;> first | exact ⟨rfl, rfl⟩ | cases h

/-- The producer has stored its message and will yet clear `isEmpty_`. -/
def clears : PushPhase α → Bool
  | .readPending => true
  | .writePending _ => true
  | .testFull => true
  | .testEmpty => true
  | .clearEmpty => true
  | _ => false

theorem updates_of_clears {pusher : PushPhase α} (h : pusher.clears = true) :
    pusher.updates = true := by
  cases pusher <;> first | rfl | cases h

end PushPhase

/-- What a consumer does next: wait in `popGuard`, go on in it, or go on in `pop`. -/
inductive PopPhase where
  | outside
  | readPending
  | writePending (pending : Int)
  | testLast
  | writeLast (last : Bool)
  | testWrapped
  | writeWrapped (last : Bool)
  | take
  | clearFull
  | advance
  | wrap
  | compare
  deriving DecidableEq, Repr

namespace PopPhase

/-- Whether the consumer has `popGuardLock_`. -/
def guards : PopPhase → Bool
  | .readPending => true
  | .writePending _ => true
  | .testLast => true
  | .writeLast _ => true
  | .testWrapped => true
  | .writeWrapped _ => true
  | _ => false

/-- Whether the consumer has `update_`, which it takes with the message. -/
def updates : PopPhase → Bool
  | .clearFull => true
  | .advance => true
  | .wrap => true
  | .compare => true
  | _ => false

theorem guards_of_updates {phase : PopPhase} (h : phase.updates = true) : phase.guards = false := by
  cases phase <;> first | rfl | cases h

/-- By how much `popAt_` is behind the slots. -/
def lag : PopPhase → Nat
  | .clearFull => 1
  | .advance => 1
  | _ => 0

/-- By how much `popAt_` may be over the end of the ring. -/
def excess : PopPhase → Nat
  | .wrap => 1
  | _ => 0

theorem lag_of_updates {phase : PopPhase} (h : phase.updates = false) :
    phase.lag = 0 ∧ phase.excess = 0 := by
  cases phase <;> first | exact ⟨rfl, rfl⟩ | cases h

end PopPhase

/-- The queue with its producers and consumers; what it has taken and what it has given out. -/
structure RingSystem (α : Type) (consumers : Nat) where
  queue : DevcashRingQueue α
  pusher : PushPhase α
  phases : Fin consumers → PopPhase
  accepted : List α
  delivered : List (Option α)

/-- A producer calls `push` with a message, the producer in `push` goes one access on, or a
consumer does. -/
inductive RingAction (α : Type) (consumers : Nat) where
  | push (pointer : α)
  | proceed
  | turn (i : Fin consumers)

namespace RingSystem
variable {α : Type} {consumers : Nat}

def init (size consumers : Nat) : RingSystem α consumers where
  queue := .make size
  pusher := .idle
  phases := fun _ => .outside
  accepted := []
  delivered := []

/-- The producer in `push` is in a new phase, with the queue as it leaves it. -/
def shift (s : RingSystem α consumers) (pusher : PushPhase α) (queue : DevcashRingQueue α) :
    RingSystem α consumers :=
  { s with queue := queue, pusher := pusher }

/-- A consumer is in a new phase, with the queue as it leaves it. -/
def move (s : RingSystem α consumers) (i : Fin consumers) (phase : PopPhase)
    (queue : DevcashRingQueue α) : RingSystem α consumers :=
  { s with queue := queue, phases := Function.update s.phases i phase }

/-- Nobody has `update_`. -/
def mayUpdate (s : RingSystem α consumers) : Prop :=
  s.pusher.updates = false ∧ ∀ j, (s.phases j).updates = false

instance (s : RingSystem α consumers) : Decidable s.mayUpdate :=
  inferInstanceAs (Decidable (_ ∧ _))

/-- A consumer may pass the waiting loop of `popGuard`. -/
def mayEnter (s : RingSystem α consumers) : Prop :=
  s.queue.isEmpty = false ∧ ∀ j, (s.phases j).guards = false

instance (s : RingSystem α consumers) : Decidable s.mayEnter :=
  inferInstanceAs (Decidable (_ ∧ _))

/-- A producer calls `push`: it waits for `pushLock_` and, in the loop, while the queue is full. -/
def push (s : RingSystem α consumers) (pointer : α) : RingSystem α consumers :=
  match s.pusher with
  | .idle => if s.queue.isFull then s else s.shift (.store pointer) s.queue
  | _ => s

/-- The next access of `push` behind its loop; it returns false where `at` throws. -/
def proceed (s : RingSystem α consumers) : RingSystem α consumers :=
  let q := s.queue
  match s.pusher with
  | .idle => s
  | .store pointer =>
    if s.mayUpdate then
      if q.pushAt < q.ptrRing.length then
        { s.shift .readPending { q with ptrRing := q.ptrRing.set q.pushAt (some pointer) } with
          accepted := s.accepted ++ [pointer] }
      else s.shift .idle q
    else s
  | .readPending => s.shift (.writePending q.pending) q
  | .writePending pending => s.shift .testFull { q with pending := pending + 1 }
  | .testFull => s.shift .testEmpty (if q.pushAt + 1 = q.popAt then { q with isFull := true } else q)
  | .testEmpty =>
    s.shift .clearEmpty
      (if q.kRingSize ≤ q.pushAt + 1 ∧ q.popAt = 0 then { q with isEmpty := true } else q)
  | .clearEmpty => s.shift .advance { q with isEmpty := false }
  | .advance => s.shift .wrap { q with pushAt := q.pushAt + 1 }
  | .wrap => s.shift .compare (if q.kRingSize ≤ q.pushAt then { q with pushAt := 0 } else q)
  | .compare =>
    s.shift .idle (if q.pushAt = q.popAt then { q with isFull := true } else { q with isFull := false })

/-- The next access of a consumer, which repeats `popGuard` and `pop`; `pop` returns the null
pointer where `at` throws. -/
def turn (s : RingSystem α consumers) (i : Fin consumers) : RingSystem α consumers :=
  let q := s.queue
  match s.phases i with
  | .outside => if s.mayEnter then s.move i .readPending q else s
  | .readPending => s.move i (.writePending q.pending) q
  | .writePending pending => s.move i .testLast { q with pending := pending - 1 }
  | .testLast => s.move i (.writeLast q.isLast) q
  | .writeLast last => s.move i .testWrapped (q.setEmpty last)
  | .testWrapped => s.move i (.writeWrapped q.isLastWrapped) q
  | .writeWrapped last => s.move i .take (q.setEmpty last)
  | .take =>
    if s.mayUpdate then
      match q.ptrRing[q.popAt]? with
      | none => { s.move i .outside q with delivered := s.delivered ++ [none] }
      | some out =>
        { s.move i .clearFull { q with ptrRing := q.ptrRing.set q.popAt none } with
          delivered := s.delivered ++ [out] }
    else s
  | .clearFull => s.move i .advance { q with isFull := false }
  | .advance => s.move i .wrap { q with popAt := q.popAt + 1 }
  | .wrap => s.move i .compare (if q.kRingSize ≤ q.popAt then { q with popAt := 0 } else q)
  | .compare =>
    s.move i .outside
      (if q.popAt = q.pushAt then { q with isEmpty := true } else { q with isEmpty := false })

def step (s : RingSystem α consumers) : RingAction α consumers → RingSystem α consumers
  | .push pointer => s.push pointer
  | .proceed => s.proceed
  | .turn i => s.turn i

/-- What was given out is what came in, the oldest first, up to what the queue still holds. -/
def Fifo (size : Nat) (s : RingSystem α consumers) : Prop :=
  ∃ backlog : List α, s.accepted.map some = s.delivered ++ backlog.map some ∧ backlog.length ≤ size

variable {s : RingSystem α consumers} {i : Fin consumers} {phase : PopPhase} {backlog : List α}

/-- The slots hold the backlog between the counters, and a counter that its thread has still to
move is counted as moved. -/
structure Layout (q : DevcashRingQueue α) (pusher : PushPhase α) (phase : PopPhase)
    (backlog : List α) : Prop extends
    Ring.Holds q.ptrRing ((q.popAt + phase.lag) % q.kRingSize) backlog where
  size : q.ptrRing.length = q.kRingSize
  place : (q.pushAt + pusher.lag) % q.kRingSize =
    (q.popAt + phase.lag + backlog.length) % q.kRingSize
  pushAt_lt : q.pushAt < q.kRingSize + pusher.excess
  popAt_lt : q.popAt < q.kRingSize + phase.excess

/-- What the threads know by where they are. A producer that has passed its loop has room and a
consumer that has passed its own has a message; `isEmpty_` is exact outside `popGuard` once a
producer has cleared it, and `isFull_` is exact while `update_` is free. -/
structure Flags (q : DevcashRingQueue α) (pusher : PushPhase α) (phase : PopPhase)
    (backlog : List α) : Prop where
  apart : pusher.updates = true → phase.updates = false
  room : ∀ pointer, pusher = .store pointer → backlog.length < q.kRingSize
  stored : pusher.updates = true → backlog ≠ []
  busy : phase.guards = true ∨ phase = .take → backlog ≠ []
  taken : phase.updates = true → backlog.length < q.kRingSize
  isEmpty : phase = .outside → pusher.clears = true ∨ q.isEmpty = backlog.isEmpty
  isFull : pusher.updates = true ∨ phase = .clearFull ∨
    q.isFull = decide (backlog.length = q.kRingSize)

/-- The state of a run with at most one consumer, which is in `phase`. -/
structure Inv (s : RingSystem α consumers) (phase : PopPhase) (backlog : List α) : Prop where
  only : ∀ i, s.phases i = phase
  absent : consumers = 0 → phase = .outside
  logs : s.accepted.map some = s.delivered ++ backlog.map some
  layout : Layout s.queue s.pusher phase backlog
  flags : Flags s.queue s.pusher phase backlog

theorem inv_init {size : Nat} (hsize : 0 < size) :
    (init size consumers : RingSystem α consumers).Inv .outside [] where
  only := fun _ => rfl
  absent := fun _ => rfl
  logs := rfl
  layout := {
    toHolds := Ring.holds_replicate (Nat.mod_lt _ hsize)
    size := List.length_replicate
    place := rfl
    pushAt_lt := hsize
    popAt_lt := hsize }
  flags := {
    apart := nofun
    room := nofun
    stored := nofun
    busy := by rintro (h | h) <;> cases h
    taken := nofun
    isEmpty := fun _ => Or.inr rfl
    isFull := Or.inr (Or.inr (decide_eq_false (Nat.ne_of_lt hsize)).symm) }

section
variable {q : DevcashRingQueue α} {pusher : PushPhase α}

theorem Layout.size_pos (h : Layout q pusher phase backlog) : 0 < q.kRingSize :=
  h.size ▸ Nat.zero_lt_of_lt h.start_lt

theorem Layout.length_le_size (h : Layout q pusher phase backlog) : backlog.length ≤ q.kRingSize :=
  h.size ▸ h.length_le

theorem Layout.of_pusher {q' : DevcashRingQueue α} {pusher' : PushPhase α}
    (h : Layout q pusher phase backlog) (hring : q'.ptrRing = q.ptrRing)
    (hsize : q'.kRingSize = q.kRingSize) (hpop : q'.popAt = q.popAt)
    (hplace : (q'.pushAt + pusher'.lag) % q.kRingSize = (q.pushAt + pusher.lag) % q.kRingSize)
    (hlt : q'.pushAt < q.kRingSize + pusher'.excess) : Layout q' pusher' phase backlog where
  toHolds := by
    rw [hring, hpop, hsize]
    exact h.toHolds
  size := by rw [hring, hsize, h.size]
  place := by rw [hsize, hpop, hplace, h.place]
  pushAt_lt := hsize ▸ hlt
  popAt_lt := by
    rw [hpop, hsize]
    exact h.popAt_lt

theorem Layout.of_popper {q' : DevcashRingQueue α} {phase' : PopPhase}
    (h : Layout q pusher phase backlog) (hring : q'.ptrRing = q.ptrRing)
    (hsize : q'.kRingSize = q.kRingSize) (hpush : q'.pushAt = q.pushAt)
    (hplace : (q'.popAt + phase'.lag) % q.kRingSize = (q.popAt + phase.lag) % q.kRingSize)
    (hlt : q'.popAt < q.kRingSize + phase'.excess) : Layout q' pusher phase' backlog where
  toHolds := by
    rw [hring, hsize, hplace]
    exact h.toHolds
  size := by rw [hring, hsize, h.size]
  place := by
    rw [hsize, hpush, h.place, Nat.add_mod, Nat.add_mod (q'.popAt + _), hplace]
  pushAt_lt := by
    rw [hpush, hsize]
    exact h.pushAt_lt
  popAt_lt := hsize ▸ hlt

/-- A counter that starts again at 0 is where it was around the ring. -/
theorem wrap_mod {n at_ : Nat} (h : at_ < n + 1) : (if n ≤ at_ then 0 else at_) % n = at_ % n := by
  split_ifs with hle
  · rw [show at_ = n by omega, Nat.mod_self, Nat.zero_mod]
  · rfl

theorem wrap_lt {n at_ : Nat} (hn : 0 < n) : (if n ≤ at_ then 0 else at_) < n := by
  split_ifs with hle
  · exact hn
  · exact Nat.lt_of_not_le hle

theorem Layout.meet_iff (h : Layout q .compare phase backlog) (hphase : phase.updates = false)
    (hne : backlog ≠ []) : q.pushAt = q.popAt ↔ backlog.length = q.kRingSize := by
  have hlag := PopPhase.lag_of_updates hphase
  have hpush : q.pushAt < q.kRingSize := h.pushAt_lt
  have hpop := h.popAt_lt
  have hplace := h.place
  rw [hlag.2, Nat.add_zero] at hpop
  rw [hlag.1, Nat.add_zero, show PushPhase.lag (.compare : PushPhase α) = 0 from rfl, Nat.add_zero,
    Nat.mod_eq_of_lt hpush] at hplace
  rw [hplace]
  exact Ring.place_eq_start hpop (List.length_pos_iff.mpr hne) h.length_le_size

theorem Layout.meet_iff_nil (h : Layout q pusher .compare backlog) (hpusher : pusher.updates = false)
    (hlt : backlog.length < q.kRingSize) : q.popAt = q.pushAt ↔ backlog = [] := by
  have hlag := PushPhase.lag_of_updates hpusher
  have hpop : q.popAt < q.kRingSize := h.popAt_lt
  have hpush := h.pushAt_lt
  have hplace := h.place
  rw [hlag.2, Nat.add_zero] at hpush
  rw [hlag.1, Nat.add_zero, show PopPhase.lag .compare = 0 from rfl, Nat.add_zero,
    Nat.mod_eq_of_lt hpush] at hplace
  have hstart : q.popAt = (q.popAt + 0) % q.kRingSize := (Nat.mod_eq_of_lt hpop).symm
  rw [hplace, ← List.length_eq_zero_iff, eq_comm (a := backlog.length)]
  nth_rewrite 1 [hstart]
  exact Ring.place_inj h.size_pos hlt

end

theorem Inv.push (h : s.Inv phase backlog) (pointer : α) : (s.push pointer).Inv phase backlog := by
  rw [RingSystem.push]
  cases hp : s.pusher with
  | idle =>
    have hflags := h.flags
    rw [hp] at hflags
    simp only
    split_ifs with hfull
    · exact h
    · have hroom : backlog.length < s.queue.kRingSize := by
        obtain hup | hclear | hexact := hflags.isFull
        · cases hup
        · exact hflags.taken (hclear ▸ rfl)
        · have hne : ¬ backlog.length = s.queue.kRingSize := fun heq => hfull (by simp [hexact, heq])
          exact Nat.lt_of_le_of_ne h.layout.length_le_size hne
      have hlt := h.layout.pushAt_lt
      rw [hp] at hlt
      exact {
        only := h.only
        absent := h.absent
        logs := h.logs
        layout := h.layout.of_pusher rfl rfl rfl (by rw [hp]; rfl) hlt
        flags := { hflags with
          apart := nofun
          room := fun _ _ => hroom
          stored := nofun } }
  | _ => exact h

theorem Layout.store {q : DevcashRingQueue α} {pointer : α}
    (h : Layout q (.store pointer) phase backlog) (hroom : backlog.length < q.kRingSize) :
    Layout { q with ptrRing := q.ptrRing.set q.pushAt (some pointer) } .readPending phase
      (backlog ++ [pointer]) := by
  have hlt : q.pushAt < q.kRingSize := h.pushAt_lt
  have hplace : q.pushAt = (q.popAt + phase.lag + backlog.length) % q.kRingSize := by
    rw [← h.place]
    exact (Nat.mod_eq_of_lt hlt).symm
  have hholds := h.toHolds.push (h.size ▸ hroom) pointer
  rw [h.size, Nat.mod_add_mod, ← hplace] at hholds
  refine ⟨hholds, (List.length_set ..).trans h.size, ?_, hlt, h.popAt_lt⟩
  change (q.pushAt + 1) % q.kRingSize = (q.popAt + phase.lag + _) % q.kRingSize
  rw [hplace, Nat.mod_add_mod, List.length_append, List.length_singleton, Nat.add_assoc _ _ 1]

theorem Layout.take {q : DevcashRingQueue α} {pusher : PushPhase α} {x : α}
    (h : Layout q pusher .take (x :: backlog)) :
    q.ptrRing[q.popAt]? = some (some x) ∧
      Layout { q with ptrRing := q.ptrRing.set q.popAt none } pusher .clearFull backlog := by
  have hlt : q.popAt < q.kRingSize := h.popAt_lt
  have hstart : (q.popAt + PopPhase.take.lag) % q.kRingSize = q.popAt := Nat.mod_eq_of_lt hlt
  have hold := h.toHolds
  rw [hstart] at hold
  have hholds := hold.pop
  rw [h.size] at hholds
  refine ⟨hold.first, hholds, (List.length_set ..).trans h.size, ?_, h.pushAt_lt, hlt⟩
  change _ = (q.popAt + 1 + backlog.length) % q.kRingSize
  rw [h.place, List.length_cons, Nat.add_comm backlog.length, ← Nat.add_assoc]
  rfl

theorem Inv.updates_of_mayUpdate (h : s.Inv phase backlog) (hmay : s.mayUpdate) :
    phase.updates = false := by
  obtain rfl | hpos := Nat.eq_zero_or_pos consumers
  · rw [h.absent rfl]
    rfl
  · rw [← h.only ⟨0, hpos⟩]
    exact hmay.2 _

theorem Inv.store {pointer : α} (h : s.Inv phase backlog) (hp : s.pusher = .store pointer) :
    ∃ backlog', s.proceed.Inv phase backlog' := by
  have hlayout := h.layout
  have hflags := h.flags
  rw [hp] at hlayout hflags
  have hlt : s.queue.pushAt < s.queue.kRingSize := hlayout.pushAt_lt
  simp only [RingSystem.proceed, hp]
  split_ifs with hmay hat
  · have hfree := h.updates_of_mayUpdate hmay
    refine ⟨backlog ++ [pointer], h.only, h.absent, ?_, hlayout.store (hflags.room pointer rfl), ?_⟩
    · change (s.accepted ++ [pointer]).map some = s.delivered ++ _
      rw [List.map_append, List.map_append, h.logs, List.append_assoc]
    · exact {
        apart := fun _ => hfree
        room := nofun
        stored := fun _ => by simp
        busy := fun _ => by simp
        taken := fun hup => by rw [hfree] at hup; cases hup
        isEmpty := fun _ => Or.inl rfl
        isFull := Or.inl rfl }
  · exact absurd (hlayout.size ▸ hlt) hat
  · exact ⟨backlog, h⟩

/-- An access of `push` under `update_`: whatever it does to `isFull_` and `pending_`, the slots
stay as they are. -/
theorem Inv.write {pusher : PushPhase α} {q : DevcashRingQueue α} (h : s.Inv phase backlog)
    (hup : s.pusher.updates = true) (hpusher : pusher.updates = true)
    (hring : q.ptrRing = s.queue.ptrRing) (hsize : q.kRingSize = s.queue.kRingSize)
    (hpop : q.popAt = s.queue.popAt)
    (hplace : (q.pushAt + pusher.lag) % s.queue.kRingSize =
      (s.queue.pushAt + s.pusher.lag) % s.queue.kRingSize)
    (hlt : q.pushAt < s.queue.kRingSize + pusher.excess)
    (hempty : phase = .outside → pusher.clears = true ∨ q.isEmpty = backlog.isEmpty) :
    (s.shift pusher q).Inv phase backlog where
  only := h.only
  absent := h.absent
  logs := h.logs
  layout := h.layout.of_pusher hring hsize hpop hplace hlt
  flags := {
    apart := fun _ => h.flags.apart hup
    room := by
      intro pointer heq
      change pusher = _ at heq
      rw [heq] at hpusher
      cases hpusher
    stored := fun _ => h.flags.stored hup
    busy := h.flags.busy
    taken := hsize ▸ h.flags.taken
    isEmpty := hempty
    isFull := Or.inl hpusher }

theorem Inv.compare (h : s.Inv phase backlog) (hp : s.pusher = .compare) :
    s.proceed.Inv phase backlog := by
  have hlayout := h.layout
  have hflags := h.flags
  rw [hp] at hlayout hflags
  have hmeet := hlayout.meet_iff (hflags.apart rfl) (hflags.stored rfl)
  have hqueue : (if s.queue.pushAt = s.queue.popAt then { s.queue with isFull := true }
      else { s.queue with isFull := false } : DevcashRingQueue α) =
      { s.queue with isFull := decide (backlog.length = s.queue.kRingSize) } := by
    by_cases heq : s.queue.pushAt = s.queue.popAt
    · rw [if_pos heq, decide_eq_true (hmeet.mp heq)]
    · rw [if_neg heq, decide_eq_false (fun hlen => heq (hmeet.mpr hlen))]
  simp only [proceed, hp, hqueue]
  exact {
    only := h.only
    absent := h.absent
    logs := h.logs
    layout := hlayout.of_pusher rfl rfl rfl rfl hlayout.pushAt_lt
    flags := {
      apart := nofun
      room := nofun
      stored := nofun
      busy := hflags.busy
      taken := hflags.taken
      isEmpty := hflags.isEmpty
      isFull := Or.inr (Or.inr rfl) } }

theorem Inv.proceed (h : s.Inv phase backlog) : ∃ backlog', s.proceed.Inv phase backlog' := by
  have hlt := h.layout.pushAt_lt
  have hempty := h.flags.isEmpty
  have hne := h.flags.stored
  cases hp : s.pusher with
  | idle =>
    simp only [RingSystem.proceed, hp]
    exact ⟨backlog, h⟩
  | store pointer => exact h.store hp
  | compare => exact ⟨backlog, h.compare hp⟩
  | readPending =>
    rw [hp] at hlt
    simp only [RingSystem.proceed, hp]
    exact ⟨backlog, h.write (hp ▸ rfl) rfl rfl rfl rfl (by rw [hp]; rfl) hlt fun _ => Or.inl rfl⟩
  | writePending pending =>
    rw [hp] at hlt
    simp only [RingSystem.proceed, hp]
    exact ⟨backlog, h.write (hp ▸ rfl) rfl rfl rfl rfl (by rw [hp]; rfl) hlt fun _ => Or.inl rfl⟩
  | testFull =>
    rw [hp] at hlt
    simp only [RingSystem.proceed, hp]
    refine ⟨backlog, ?_⟩
    split_ifs
    all_goals
      exact h.write (hp ▸ rfl) rfl rfl rfl rfl (by rw [hp]; rfl) hlt fun _ => Or.inl rfl
  | testEmpty =>
    rw [hp] at hlt
    simp only [RingSystem.proceed, hp]
    refine ⟨backlog, ?_⟩
    split_ifs
    all_goals
      exact h.write (hp ▸ rfl) rfl rfl rfl rfl (by rw [hp]; rfl) hlt fun _ => Or.inl rfl
  | clearEmpty =>
    rw [hp] at hlt hne
    simp only [RingSystem.proceed, hp]
    refine ⟨backlog, h.write (hp ▸ rfl) rfl rfl rfl rfl (by rw [hp]; rfl) hlt fun _ => Or.inr ?_⟩
    exact (List.isEmpty_eq_false_iff.mpr (hne rfl)).symm
  | advance =>
    rw [hp] at hlt hempty
    simp only [RingSystem.proceed, hp]
    exact ⟨backlog, h.write (hp ▸ rfl) rfl rfl rfl rfl (by rw [hp]; rfl) (Nat.succ_lt_succ hlt)
      fun hout => Or.inr ((hempty hout).resolve_left nofun)⟩
  | wrap =>
    rw [hp] at hlt hempty
    have hqueue : (if s.queue.kRingSize ≤ s.queue.pushAt then { s.queue with pushAt := 0 }
        else s.queue : DevcashRingQueue α) =
        { s.queue with pushAt := if s.queue.kRingSize ≤ s.queue.pushAt then 0 else s.queue.pushAt } := by
      split_ifs <;> rfl
    simp only [RingSystem.proceed, hp, hqueue]
    refine ⟨backlog, h.write (hp ▸ rfl) rfl rfl rfl rfl ?_ (wrap_lt h.layout.size_pos)
      fun hout => Or.inr ((hempty hout).resolve_left nofun)⟩
    rw [hp]
    exact wrap_mod hlt

theorem Inv.ne_nil_of_mayEnter (h : s.Inv .outside backlog) (hmay : s.mayEnter) : backlog ≠ [] := by
  obtain hclears | hexact := h.flags.isEmpty rfl
  · -- A producer has stored its message and not cleared the flag yet.
    exact h.flags.stored (PushPhase.updates_of_clears hclears)
  · rw [hmay.1] at hexact
    exact List.isEmpty_eq_false_iff.mp hexact.symm

section
variable {q : DevcashRingQueue α} {pusher : PushPhase α}

theorem Flags.pusher_updates (h : Flags q pusher phase backlog) (hphase : phase.updates = true) :
    pusher.updates = false := by
  cases hup : pusher.updates with
  | false => rfl
  | true =>
    have hno := h.apart hup
    rw [hphase] at hno
    cases hno

theorem Flags.isFull_eq (h : Flags q pusher phase backlog) (hpusher : pusher.updates = false)
    (hphase : phase ≠ .clearFull) : q.isFull = decide (backlog.length = q.kRingSize) := by
  obtain hup | hclear | hexact := h.isFull
  · rw [hpusher] at hup
    cases hup
  · exact absurd hclear hphase
  · exact hexact

theorem Flags.pop {q' : DevcashRingQueue α} {phase' : PopPhase}
    (h : Flags q pusher phase backlog) (hphase : phase.updates = true)
    (hphase' : phase'.updates = true) (hsize : q'.kRingSize = q.kRingSize)
    (hfull : q'.isFull = decide (backlog.length = q.kRingSize)) : Flags q' pusher phase' backlog where
  apart := by
    intro hup
    rw [h.pusher_updates hphase] at hup
    cases hup
  room := hsize ▸ h.room
  stored := h.stored
  busy := by
    rintro (hb | hb)
    · rw [PopPhase.guards_of_updates hphase'] at hb
      cases hb
    · rw [hb] at hphase'
      cases hphase'
  taken := fun _ => hsize ▸ h.taken hphase
  isEmpty := by
    intro hout
    rw [hout] at hphase'
    cases hphase'
  isFull := Or.inr (Or.inr (hsize ▸ hfull))

end

theorem phases_move [Subsingleton (Fin consumers)] (phase' : PopPhase) (q : DevcashRingQueue α)
    (j : Fin consumers) : (s.move i phase' q).phases j = phase' := by
  rw [Subsingleton.elim j i]
  exact Function.update_self ..

section
variable [Subsingleton (Fin consumers)]

/-- An access of the consumer that does not take a message: the slots stay as they are. -/
theorem Inv.access {phase' : PopPhase} {q : DevcashRingQueue α} (h : s.Inv phase backlog)
    (hring : q.ptrRing = s.queue.ptrRing) (hsize : q.kRingSize = s.queue.kRingSize)
    (hpush : q.pushAt = s.queue.pushAt)
    (hplace : (q.popAt + phase'.lag) % s.queue.kRingSize =
      (s.queue.popAt + phase.lag) % s.queue.kRingSize)
    (hlt : q.popAt < s.queue.kRingSize + phase'.excess)
    (hflags : Flags q s.pusher phase' backlog) : (s.move i phase' q).Inv phase' backlog where
  only := phases_move phase' q
  absent := fun h0 => absurd i.isLt (by omega)
  logs := h.logs
  layout := h.layout.of_popper hring hsize hpush hplace hlt
  flags := hflags

theorem Inv.guard {phase' : PopPhase} {q : DevcashRingQueue α} (h : s.Inv phase backlog)
    (hphase : phase.guards = true ∨ phase = .outside) (hphase' : phase'.guards = true ∨ phase' = .take)
    (hne : backlog ≠ []) (hq : q = { s.queue with pending := q.pending, isEmpty := q.isEmpty }) :
    (s.move i phase' q).Inv phase' backlog := by
  have hold : phase.lag = 0 ∧ phase.excess = 0 ∧ phase ≠ .clearFull := by
    cases phase <;> simp_all [PopPhase.guards, PopPhase.lag, PopPhase.excess]
  have hnew : phase'.lag = 0 ∧ phase'.excess = 0 ∧ phase'.updates = false ∧ phase' ≠ .outside := by
    cases phase' <;> simp_all [PopPhase.guards, PopPhase.lag, PopPhase.excess, PopPhase.updates]
  have hlt := h.layout.popAt_lt
  rw [hold.2.1] at hlt
  rw [hq]
  refine h.access rfl rfl rfl (by rw [hold.1, hnew.1]) (by rw [hnew.2.1]; exact hlt) ?_
  exact {
    apart := fun _ => hnew.2.2.1
    room := h.flags.room
    stored := h.flags.stored
    busy := fun _ => hne
    taken := fun hup => by rw [hnew.2.2.1] at hup; cases hup
    isEmpty := fun hout => absurd hout hnew.2.2.2
    isFull := by
      obtain hup | hclear | hexact := h.flags.isFull
      · exact Or.inl hup
      · exact absurd hclear hold.2.2
      · exact Or.inr (Or.inr hexact) }

theorem setEmpty_eq (q : DevcashRingQueue α) (last : Bool) : q.setEmpty last =
    { q with pending := (q.setEmpty last).pending, isEmpty := (q.setEmpty last).isEmpty } := by
  cases last <;> rfl

theorem Inv.take (h : s.Inv .take backlog) (hi : s.phases i = .take) :
    ∃ phase' backlog', (s.turn i).Inv phase' backlog' := by
  simp only [RingSystem.turn, hi]
  split_ifs with hmay
  · cases backlog with
    | nil => exact absurd rfl (h.flags.busy (Or.inr rfl))
    | cons x backlog =>
      obtain ⟨hout, hlayout⟩ := h.layout.take
      have hlen : backlog.length < s.queue.kRingSize := h.layout.length_le_size
      rw [hout]
      refine ⟨.clearFull, backlog, phases_move .clearFull s.queue, fun h0 => absurd i.isLt (by omega), ?_,
        hlayout, ?_⟩
      · change s.accepted.map some = s.delivered ++ [some x] ++ backlog.map some
        rw [h.logs, List.append_assoc]
        rfl
      · have hfree := hmay.1
        exact {
          apart := fun hup => by
            change s.pusher.updates = true at hup
            rw [hfree] at hup
            cases hup
          room := fun _ _ => hlen
          stored := fun hup => by
            change s.pusher.updates = true at hup
            rw [hfree] at hup
            cases hup
          busy := by rintro (hb | hb) <;> cases hb
          taken := fun _ => hlen
          isEmpty := nofun
          isFull := Or.inr (Or.inl rfl) }
  · exact ⟨.take, backlog, h⟩

theorem Inv.leave (h : s.Inv .compare backlog) (hi : s.phases i = .compare) :
    (s.turn i).Inv .outside backlog := by
  have hfree := h.flags.pusher_updates rfl
  have hlt := h.flags.taken rfl
  have hmeet := h.layout.meet_iff_nil hfree hlt
  have hqueue : (if s.queue.popAt = s.queue.pushAt then { s.queue with isEmpty := true }
      else { s.queue with isEmpty := false } : DevcashRingQueue α) =
      { s.queue with isEmpty := backlog.isEmpty } := by
    by_cases heq : s.queue.popAt = s.queue.pushAt
    · rw [if_pos heq, List.isEmpty_iff.mpr (hmeet.mp heq)]
    · rw [if_neg heq, List.isEmpty_eq_false_iff.mpr (fun hnil => heq (hmeet.mpr hnil))]
  simp only [turn, hi, hqueue]
  refine h.access rfl rfl rfl rfl h.layout.popAt_lt ?_
  exact {
    apart := fun _ => rfl
    room := h.flags.room
    stored := h.flags.stored
    busy := by rintro (hb | hb) <;> cases hb
    taken := nofun
    isEmpty := fun _ => Or.inr rfl
    isFull := Or.inr (Or.inr (h.flags.isFull_eq hfree nofun)) }

theorem Inv.turn (h : s.Inv phase backlog) (i : Fin consumers) :
    ∃ phase' backlog', (s.turn i).Inv phase' backlog' := by
  have hi := h.only i
  cases phase with
  | outside =>
    simp only [RingSystem.turn, hi]
    split_ifs with hmay
    · exact ⟨_, _, h.guard (Or.inr rfl) (Or.inl rfl) (h.ne_nil_of_mayEnter hmay) rfl⟩
    · exact ⟨_, _, h⟩
  | take => exact h.take hi
  | compare => exact ⟨_, _, h.leave hi⟩
  | clearFull =>
    simp only [RingSystem.turn, hi]
    have hroom := (decide_eq_false (Nat.ne_of_lt (h.flags.taken rfl))).symm
    exact ⟨_, _, h.access rfl rfl rfl rfl h.layout.popAt_lt (h.flags.pop rfl rfl rfl hroom)⟩
  | advance =>
    simp only [RingSystem.turn, hi]
    have hfull := h.flags.isFull_eq (h.flags.pusher_updates rfl) nofun
    exact ⟨_, _, h.access rfl rfl rfl rfl (Nat.succ_lt_succ h.layout.popAt_lt)
      (h.flags.pop rfl rfl rfl hfull)⟩
  | wrap =>
    have hqueue : (if s.queue.kRingSize ≤ s.queue.popAt then { s.queue with popAt := 0 }
        else s.queue : DevcashRingQueue α) =
        { s.queue with popAt := if s.queue.kRingSize ≤ s.queue.popAt then 0 else s.queue.popAt } := by
      split_ifs <;> rfl
    have hfull := h.flags.isFull_eq (h.flags.pusher_updates rfl) nofun
    simp only [RingSystem.turn, hi, hqueue]
    exact ⟨_, _, h.access rfl rfl rfl (wrap_mod h.layout.popAt_lt) (wrap_lt h.layout.size_pos)
      (h.flags.pop rfl rfl rfl hfull)⟩
  | readPending =>
    simp only [RingSystem.turn, hi]
    exact ⟨_, _, h.guard (Or.inl rfl) (Or.inl rfl) (h.flags.busy (Or.inl rfl)) rfl⟩
  | writePending pending =>
    simp only [RingSystem.turn, hi]
    exact ⟨_, _, h.guard (Or.inl rfl) (Or.inl rfl) (h.flags.busy (Or.inl rfl)) rfl⟩
  | testLast =>
    simp only [RingSystem.turn, hi]
    exact ⟨_, _, h.guard (Or.inl rfl) (Or.inl rfl) (h.flags.busy (Or.inl rfl)) rfl⟩
  | testWrapped =>
    simp only [RingSystem.turn, hi]
    exact ⟨_, _, h.guard (Or.inl rfl) (Or.inl rfl) (h.flags.busy (Or.inl rfl)) rfl⟩
  | writeLast last =>
    simp only [RingSystem.turn, hi]
    exact ⟨_, _, h.guard (Or.inl rfl) (Or.inl rfl) (h.flags.busy (Or.inl rfl)) (setEmpty_eq ..)⟩
  | writeWrapped last =>
    simp only [RingSystem.turn, hi]
    exact ⟨_, _, h.guard (Or.inl rfl) (Or.inr rfl) (h.flags.busy (Or.inl rfl)) (setEmpty_eq ..)⟩

theorem Inv.step (h : s.Inv phase backlog) (a : RingAction α consumers) :
    ∃ phase' backlog', (s.step a).Inv phase' backlog' := by
  cases a with
  | push pointer => exact ⟨phase, backlog, h.push pointer⟩
  | proceed => exact ⟨phase, h.proceed⟩
  | turn i => exact h.turn i

end

theorem kRingSize_setEmpty (q : DevcashRingQueue α) (last : Bool) :
    (q.setEmpty last).kRingSize = q.kRingSize := by
  cases last <;> rfl

theorem kRingSize_step (a : RingAction α consumers) :
    (s.step a).queue.kRingSize = s.queue.kRingSize := by
  cases a with
  | push pointer =>
    simp only [step, push]
    cases s.pusher with
    | idle =>
      simp only
      split_ifs <;> rfl
    | _ => rfl
  | proceed =>
    simp only [step, proceed]
    cases s.pusher <;> simp only [shift] <;> split_ifs <;> rfl
  | turn i =>
    simp only [step, turn]
    cases s.phases i with
    | take =>
      simp only
      split_ifs
      · cases s.queue.ptrRing[s.queue.popAt]? <;> rfl
      · rfl
    | _ => simp only [move, kRingSize_setEmpty] <;> split_ifs <;> rfl

theorem inv_after {size : Nat} (hsize : 0 < size) (h : consumers ≤ 1)
    (l : List (RingAction α consumers)) : ∃ phase backlog,
      (Run.after step (init size consumers) l).Inv phase backlog ∧
      (Run.after step (init size consumers) l).queue.kRingSize = size := by
  have : Subsingleton (Fin consumers) := ⟨fun i j => Fin.ext (by omega)⟩
  have hstep : ∀ (s : RingSystem α consumers) a,
      (∃ phase backlog, s.Inv phase backlog ∧ s.queue.kRingSize = size) → True →
      ∃ phase backlog, (s.step a).Inv phase backlog ∧ (s.step a).queue.kRingSize = size := by
    rintro s a ⟨phase, backlog, hinv, hs⟩ -
    obtain ⟨phase', backlog', hinv'⟩ := hinv.step a
    exact ⟨phase', backlog', hinv', (kRingSize_step a).trans hs⟩
  exact Run.always_of_each hstep ⟨.outside, [], inv_init hsize, rfl⟩ (fun _ _ _ _ => trivial) l
    (List.prefix_refl l)

/-- A queue without slots refuses every message and lets nobody pass. -/
theorem logs_of_size_zero (l : List (RingAction α consumers)) :
    let s := Run.after step (init 0 consumers) l
    s.accepted = [] ∧ s.delivered = [] := by
  have hstep : ∀ (s : RingSystem α consumers) a,
      (∃ pusher, pusher.updates = false ∧ s = (init 0 consumers).shift pusher (.make 0)) → True →
      ∃ pusher, pusher.updates = false ∧ s.step a = (init 0 consumers).shift pusher (.make 0) := by
    rintro s a ⟨pusher, hpusher, rfl⟩ -
    cases a with
    | push pointer =>
      cases pusher with
      | idle => exact ⟨.store pointer, rfl, rfl⟩
      | store pointer' => exact ⟨.store pointer', rfl, rfl⟩
      | _ => cases hpusher
    | proceed =>
      cases pusher with
      | idle => exact ⟨.idle, rfl, rfl⟩
      | store pointer =>
        have hmay : ((init 0 consumers : RingSystem α consumers).shift (.store pointer)
            (.make 0)).mayUpdate := ⟨rfl, fun _ => rfl⟩
        exact ⟨.idle, rfl, if_pos hmay⟩
      | _ => cases hpusher
    | turn i =>
      refine ⟨pusher, hpusher, ?_⟩
      simp [step, turn, shift, init, mayEnter, DevcashRingQueue.make]
  obtain ⟨pusher, -, heq⟩ := Run.always_of_each hstep ⟨.idle, rfl, rfl⟩ (fun _ _ _ _ => trivial) l
    (List.prefix_refl l)
  intro s
  rw [show s = _ from heq]
  exact ⟨rfl, rfl⟩

/-- Two consumers are where it says and the others outside. -/
def pair (a b : Fin consumers) (queue : DevcashRingQueue α) (pusher : PushPhase α) (pa pb : PopPhase)
    (accepted : List α) (delivered : List (Option α)) : RingSystem α consumers where
  queue := queue
  pusher := pusher
  phases := Function.update (Function.update (fun _ => .outside) a pa) b pb
  accepted := accepted
  delivered := delivered

section
variable {a b : Fin consumers} {q q' : DevcashRingQueue α} {pusher pusher' : PushPhase α}
  {pa pb pa' pb' : PopPhase} {accepted accepted' : List α} {delivered delivered' : List (Option α)}

theorem init_eq_pair (size : Nat) : (init size consumers : RingSystem α consumers) =
    pair a b (.make size) .idle .outside .outside [] [] := by
  simp [init, pair]

@[simp] theorem pair_queue : (pair a b q pusher pa pb accepted delivered).queue = q := rfl

@[simp] theorem pair_pusher : (pair a b q pusher pa pb accepted delivered).pusher = pusher := rfl

@[simp] theorem pair_accepted :
    (pair a b q pusher pa pb accepted delivered).accepted = accepted := rfl

@[simp] theorem pair_delivered :
    (pair a b q pusher pa pb accepted delivered).delivered = delivered := rfl

@[simp] theorem pair_phases_right : (pair a b q pusher pa pb accepted delivered).phases b = pb :=
  Function.update_self ..

theorem pair_phases_left (hab : a ≠ b) :
    (pair a b q pusher pa pb accepted delivered).phases a = pa := by
  simp only [pair, Function.update_of_ne hab, Function.update_self]

@[simp] theorem mk_pair_phases : (⟨q', pusher', (pair a b q pusher pa pb accepted delivered).phases, accepted',
    delivered'⟩ : RingSystem α consumers) = pair a b q' pusher' pa pb accepted' delivered' := rfl

@[simp] theorem pair_shift : (pair a b q pusher pa pb accepted delivered).shift pusher' q' =
    pair a b q' pusher' pa pb accepted delivered := rfl

@[simp] theorem pair_move_right : (pair a b q pusher pa pb accepted delivered).move b pb' q' =
    pair a b q' pusher pa pb' accepted delivered := by
  simp [pair, move]

theorem pair_move_left (hab : a ≠ b) :
    (pair a b q pusher pa pb accepted delivered).move a pa' q' =
      pair a b q' pusher pa' pb accepted delivered := by
  simp only [pair, move]
  rw [Function.update_comm hab.symm, Function.update_idem]

theorem pair_forall (hab : a ≠ b) (f : PopPhase → Bool) (hout : f .outside = false) :
    (∀ j, f ((pair a b q pusher pa pb accepted delivered).phases j) = false) ↔
      f pa = false ∧ f pb = false := by
  constructor
  · intro h
    have ha := h a
    have hb := h b
    rw [pair_phases_left hab] at ha
    rw [pair_phases_right] at hb
    exact ⟨ha, hb⟩
  · rintro ⟨ha, hb⟩ j
    by_cases hjb : j = b
    · rw [hjb, pair_phases_right]
      exact hb
    · by_cases hja : j = a
      · rw [hja, pair_phases_left hab]
        exact ha
      · simp only [pair, Function.update_of_ne hjb, Function.update_of_ne hja]
        exact hout

theorem pair_mayEnter (hab : a ≠ b) : (pair a b q pusher pa pb accepted delivered).mayEnter ↔
    q.isEmpty = false ∧ pa.guards = false ∧ pb.guards = false := by
  rw [mayEnter, pair_forall hab PopPhase.guards rfl]
  rfl

theorem pair_mayUpdate (hab : a ≠ b) : (pair a b q pusher pa pb accepted delivered).mayUpdate ↔
    pusher.updates = false ∧ pa.updates = false ∧ pb.updates = false := by
  rw [mayUpdate, pair_forall hab PopPhase.updates rfl]
  rfl

end

/-- A producer stores its message and clears `isEmpty_`, and a consumer passes `popGuard`, which
makes its two tests before and after `pushAt_` is moved and in neither finds the message to be the
last one; so the other consumer passes for the same message. -/
def overdrawing (a b : Fin consumers) (pointer : α) : List (RingAction α consumers) :=
  .push pointer :: List.replicate 6 .proceed ++ List.replicate 5 (.turn a) ++ .proceed ::
    List.replicate 2 (.turn a) ++ List.replicate 7 (.turn b)

theorem after_overdrawing (size : Nat) {a b : Fin consumers} (hab : a ≠ b) (pointer : α) :
    Run.after step (init (size + 1) consumers) (overdrawing a b pointer) =
      pair a b ⟨size + 1, some pointer :: List.replicate size none, 1, 0, -1, true, false⟩
        .wrap .take .take [pointer] [] := by
  rw [init_eq_pair (a := a) (b := b)]
  simp [overdrawing, List.replicate, step, push, proceed, turn, DevcashRingQueue.make,
    DevcashRingQueue.isLast, DevcashRingQueue.isLastWrapped, DevcashRingQueue.setEmpty,
    PopPhase.guards, PopPhase.updates, PushPhase.updates, pair_phases_left hab, pair_move_left hab,
    pair_mayEnter hab, pair_mayUpdate hab]

/-- The producer ends its call, and both consumers pop: one of them the null pointer. -/
theorem logs_overdrawing (size : Nat) {a b : Fin consumers} (hab : a ≠ b) (pointer : α) :
    let s := Run.after step (init (size + 1) consumers) (overdrawing a b pointer ++
      (List.replicate 2 .proceed ++ List.replicate 5 (.turn a) ++ [.turn b]))
    s.accepted = [pointer] ∧ s.delivered = [some pointer, none] := by
  rw [Run.after_append, after_overdrawing size hab]
  -- With one slot both counters start again at 0, with more of them they go on to the next slot.
  cases size <;> simp [List.replicate, step, proceed, turn, PopPhase.updates, PushPhase.updates,
    pair_phases_left hab, pair_move_left hab, pair_mayUpdate hab]

/-- For every size of the ring and number of consumers, in every interleaving of the accesses
messages are given out whole, once and in their order, exactly if there is a single consumer (or
no slot at all). -/
theorem fifo_iff [Inhabited α] (size consumers : Nat) :
    (∀ l : List (RingAction α consumers), (Run.after step (init size consumers) l).Fifo size) ↔
      size = 0 ∨ consumers ≤ 1 := by
  constructor
  · intro h
    by_contra hmany
    obtain ⟨hsize, hconsumers⟩ := not_or.mp hmany
    obtain ⟨size, rfl⟩ := Nat.exists_eq_succ_of_ne_zero hsize
    have hab : (⟨0, by omega⟩ : Fin consumers) ≠ ⟨1, by omega⟩ := by simp
    obtain ⟨haccepted, hdelivered⟩ := logs_overdrawing size hab (default : α)
    obtain ⟨backlog, hlogs, -⟩ := h (overdrawing ⟨0, by omega⟩ ⟨1, by omega⟩ default ++ _)
    rw [haccepted, hdelivered] at hlogs
    have hlength := congrArg List.length hlogs
    simp at hlength
  · rintro (rfl | hone) l
    · obtain ⟨haccepted, hdelivered⟩ := logs_of_size_zero l
      exact ⟨[], by rw [haccepted, hdelivered]; rfl, Nat.le_refl 0⟩
    · obtain rfl | hpos := Nat.eq_zero_or_pos size
      · obtain ⟨haccepted, hdelivered⟩ := logs_of_size_zero l
        exact ⟨[], by rw [haccepted, hdelivered]; rfl, Nat.le_refl 0⟩
      · obtain ⟨phase, backlog, hinv, hsize⟩ := inv_after hpos hone l
        exact ⟨backlog, hinv.logs, hsize ▸ hinv.layout.length_le_size⟩

/-- With a single consumer, what was accepted and not yet delivered is what the slots hold from
`popAt_` up to `pushAt_` whenever `update_` is free. Then `isFull_` says that all slots are taken,
and `isEmpty_`, read by the consumer in its waiting loop, that none is. -/
theorem flags_exact (size : Nat) (l : List (RingAction α 1)) :
    let s := Run.after step (init (size + 1) 1) l
    ∃ backlog : List α, s.accepted.map some = s.delivered ++ backlog.map some ∧
      (s.mayUpdate →
        Ring.Holds s.queue.ptrRing s.queue.popAt backlog ∧
        s.queue.pushAt = (s.queue.popAt + backlog.length) % (size + 1) ∧
        (s.queue.isFull = true ↔ backlog.length = size + 1) ∧
        (s.phases 0 = .outside → (s.queue.isEmpty = true ↔ backlog = []))) := by
  intro s
  obtain ⟨phase, backlog, hinv, hsize⟩ := inv_after (Nat.succ_pos size) (Nat.le_refl 1) l
  change s.queue.kRingSize = size + 1 at hsize
  change s.Inv phase backlog at hinv
  refine ⟨backlog, hinv.logs, fun hmay => ?_⟩
  have hphase := hinv.updates_of_mayUpdate hmay
  obtain ⟨hpushlag, hpushlt⟩ := PushPhase.lag_of_updates hmay.1
  obtain ⟨hpoplag, hpoplt⟩ := PopPhase.lag_of_updates hphase
  have hlayout := hinv.layout
  have hpush := hlayout.pushAt_lt
  have hpop := hlayout.popAt_lt
  have hplace := hlayout.place
  have hholds := hlayout.toHolds
  rw [hpushlt, Nat.add_zero] at hpush
  rw [hpoplt, Nat.add_zero] at hpop
  rw [hpushlag, hpoplag, Nat.add_zero, Nat.add_zero, Nat.mod_eq_of_lt hpush, hsize] at hplace
  rw [hpoplag, Nat.add_zero, Nat.mod_eq_of_lt hpop] at hholds
  refine ⟨hholds, hplace, ?_, fun hout => ?_⟩
  · have hne : phase ≠ .clearFull := by
      rintro rfl
      cases hphase
    rw [hinv.flags.isFull_eq hmay.1 hne, hsize, decide_eq_true_eq]
  · have hclears : ¬ s.pusher.clears = true := by
      intro hclears
      have hup := hmay.1
      rw [PushPhase.updates_of_clears hclears] at hup
      cases hup
    have hexact := (hinv.flags.isEmpty ((hinv.only 0).symm.trans hout)).resolve_left hclears
    rw [hexact, List.isEmpty_iff]

end RingSystem
end Devcash
