import Hallucinate.Lib.Trans
import Hallucinate.Sched.Core

/-!
# Threads, mutexes and wait queues (`kernel/sched/sched.c`, `kernel/sched/mutex.c` and their users)

One CPU: kernel code between `cpu_irq_save` and `cpu_irq_restore` runs without interruption, up to the
context switch in `schedule()`. Each such section is one function here, on the state of the scheduler
and of everything that holds threads: the mutexes, the wait queues of `pipe.c` and `socket.c`, the
waiter slots of `process.c` and the reader slot of `devfs.c`. All queues use `thread->next`.

* A failed `KASSERT` is an `Except.error`, one constructor of `Panic` for each.
* What a ring buffer or the process table holds decides which branch a call of `pipe_read`,
  `process_wait4` and so on takes. It is not part of this state: the branch is an argument, and runs
  take any branch.
* A thread that blocks inside `mutex_lock` or `thread_join` has code left to run, with interrupts
  still off, when it is switched to again: `cont` says which, and `resume` runs it.
* Stack pointers, address spaces, names, ids and the thread count are left out.

`Sys` adds what the comments of the source promise something about and no code stores: the threads that
have been joined, the threads between the return of `mutex_lock` and `mutex_unlock`, and the order in
which contenders queued and got the lock.
-/

namespace Hallucinate.Sched

open Lib Function

/-- The queues of blocked threads: of a mutex, of the two sides of a pipe, and of the two sides of
each channel of a socket pair. -/
inductive WaitQ
  | mutex (m : Nat)
  | pipeRead (p : Nat)
  | pipeWrite (p : Nat)
  | chanRead (p : Nat) (c : Bool)
  | chanWrite (p : Nat) (c : Bool)
  deriving DecidableEq

/-- The places for a single blocked thread: `reader` of the console, `waiter` of a process. -/
inductive Slot
  | console
  | waiter (i : Nat)
  deriving DecidableEq

/-- What a thread does when it is next switched to, before interrupts go on again. -/
inductive Cont
  | none
  | lock (m : Nat)
  | join (t : Tid)
  deriving DecidableEq

/-- The assertions of the source. -/
inductive Panic
  | wakeNotBlocked
  | idleBlocks
  | lockRecursive
  | lockNotOwner
  | unlockNotOwner
  | joinSelf
  | joinerTaken
  | joinNotZombie
  | slotTaken
  | timerOff
  deriving DecidableEq

/-- The scheduler's state and every place that holds threads. `alloc` says which control blocks are
allocated. -/
structure Kern where
  core : SchedCore
  joiner : Tid → Option Tid
  alloc : Tid → Bool
  cont : Tid → Cont
  current : Tid
  idle : Tid
  needResched : Bool
  ticks : Nat
  waitHead : WaitQ → Option Tid
  waitTail : WaitQ → Option Tid
  owner : Nat → Option Tid
  slot : Slot → Option Tid

/-! ## `sched.c` -/

def Kern.setState (k : Kern) (t : Tid) (st : ThreadState) : Kern :=
  { k with core := { k.core with state := update k.core.state t st } }

def Kern.setNext (k : Kern) (t : Tid) (v : Option Tid) : Kern :=
  { k with core := { k.core with next := update k.core.next t v } }

def Kern.enqueue (k : Kern) (t : Tid) : Kern := { k with core := schedCoreEnqueue k.core t }

/-- The end of `schedule`: `next` runs. -/
def switchTo (k : Kern) (prev next : Tid) : Kern :=
  if next = prev then k.setState prev .running
  else { k.setState next .running with current := next }

/-- `schedule`. -/
def schedule (k : Kern) : Kern :=
  match schedCoreDequeue k.core with
  | (none, core) =>
    if core.state k.current = .running then { k with core := core }
    else switchTo { k with core := core } k.current k.idle
  | (some next, core) => switchTo { k with core := core } k.current next

/-- `sched_timer_tick`. -/
def schedTimerTick (k : Kern) (now : Nat) : Kern :=
  let core := (schedCoreWakeDue k.core now).1
  { k with core := core, needResched := k.needResched || schedCoreHasReady core }

/-- The running thread goes to the end of the ready queue, unless it is the idle thread. -/
def requeue (k : Kern) : Kern := if k.current ≠ k.idle then k.enqueue k.current else k

/-- `sched_preempt`, after `sched_init`. -/
def schedPreempt (k : Kern) : Kern :=
  if k.needResched then schedule (requeue { k with needResched := false }) else k

/-- `thread_create` with the zeroed control block `t`. -/
def threadCreate (k : Kern) (t : Tid) : Kern :=
  Kern.enqueue { k with
    alloc := update k.alloc t true
    joiner := update k.joiner t none
    cont := update k.cont t .none
    core := { k.core with
      state := update k.core.state t .ready
      wakeTick := update k.core.wakeTick t 0
      next := update k.core.next t none } } t

/-- `sched_yield`. -/
def schedYield (k : Kern) : Kern := schedule (requeue k)

/-- `sched_sleep_ticks`. -/
def schedSleepTicks (k : Kern) (ticks : Nat) : Except Panic Kern :=
  if ticks = 0 then .ok (schedYield k)
  else if k.current = k.idle then .error .idleBlocks
  else .ok (schedule
    { k with core := schedCoreSleep k.core k.current ((k.ticks + ticks) % 2 ^ 64) })

/-- The ticks `sched_sleep_ms` sleeps for. -/
def sleepMsTicks (hz ms : Nat) : Nat :=
  let ticks := (ms * hz % 2 ^ 64 + 999) % 2 ^ 64 / 1000
  if ticks > 0 then ticks else 1

/-- `sched_sleep_ms`, where `timer_hz` returns `hz`. -/
def schedSleepMs (k : Kern) (hz ms : Nat) : Except Panic Kern :=
  if hz = 0 then .error .timerOff else schedSleepTicks k (sleepMsTicks hz ms)

/-- `sched_block`. -/
def schedBlock (k : Kern) : Except Panic Kern :=
  if k.current = k.idle then .error .idleBlocks else .ok (schedule (k.setState k.current .blocked))

/-- `sched_wake`. -/
def schedWake (k : Kern) (t : Tid) : Except Panic Kern :=
  if k.core.state t = .blocked then .ok (k.enqueue t) else .error .wakeNotBlocked

/-- The joiner of `self` is made ready. -/
def wakeJoiner (k : Kern) (self : Tid) : Kern :=
  match k.joiner self with
  | some j => { k.enqueue j with joiner := update k.joiner self none }
  | none => k

/-- `thread_exit`. -/
def threadExit (k : Kern) : Except Panic Kern :=
  if k.current = k.idle then .error .idleBlocks
  else .ok (schedule (wakeJoiner (k.setState k.current .zombie) k.current))

/-- The end of `thread_join`: the control block of the zombie is freed. -/
def reapThread (k : Kern) (t : Tid) : Except Panic Kern :=
  if k.core.state t = .zombie then .ok { k with alloc := update k.alloc t false }
  else .error .joinNotZombie

/-- `thread_join`, up to the context switch if it blocks. -/
def threadJoin (k : Kern) (t : Tid) : Except Panic Kern :=
  if t = k.current ∨ t = k.idle then .error .joinSelf
  else if k.core.state t = .zombie then reapThread k t
  else if k.joiner t ≠ none then .error .joinerTaken
  else .ok (schedule (Kern.setState { k with
    joiner := update k.joiner t (some k.current)
    cont := update k.cont k.current (.join t) } k.current .blocked))

/-! ## Wait queues -/

/-- `wq_push`. -/
def wqPush (k : Kern) (q : WaitQ) (t : Tid) : Kern :=
  let r := pushBack k.core.next (k.waitHead q) (k.waitTail q) t
  { k with
    core := { k.core with next := r.1 }
    waitHead := update k.waitHead q r.2.1
    waitTail := update k.waitTail q r.2.2 }

/-- The head `t` of the queue is taken off. -/
def wqPop (k : Kern) (q : WaitQ) (t : Tid) : Kern :=
  let r := popFront k.core.next (k.waitTail q) t
  { k with
    core := { k.core with next := r.1 }
    waitHead := update k.waitHead q r.2.1
    waitTail := update k.waitTail q r.2.2 }

/-- `wq_wake_one`. -/
def wqWakeOne (k : Kern) (q : WaitQ) : Except Panic Kern :=
  match k.waitHead q with
  | none => .ok k
  | some t => schedWake (wqPop k q t) t

/-- The loop of `wq_wake_all`. -/
def wakeAllLoop : Nat → Kern → Option Tid → Except Panic Kern
  | 0, k, _ => .ok k
  | _ + 1, k, none => .ok k
  | n + 1, k, some t => do
    let next := k.core.next t
    let k ← schedWake (k.setNext t none) t
    wakeAllLoop n k next

/-- `wq_wake_all`. -/
def wqWakeAll (k : Kern) (q : WaitQ) : Except Panic Kern :=
  wakeAllLoop maxThreads { k with
    waitHead := update k.waitHead q none
    waitTail := update k.waitTail q none } (k.waitHead q)

/-- `mutex_lock`, up to the context switch if it blocks. The mutex's queue is pushed as in
`wq_push`. -/
def mutexLock (k : Kern) (m : Nat) : Except Panic Kern :=
  if k.owner m = some k.current then .error .lockRecursive
  else if k.owner m = none then .ok { k with owner := update k.owner m (some k.current) }
  else schedBlock { wqPush k (.mutex m) k.current with
    cont := update k.cont k.current (.lock m) }

/-- `mutex_unlock`. -/
def mutexUnlock (k : Kern) (m : Nat) : Except Panic Kern :=
  if k.owner m ≠ some k.current then .error .unlockNotOwner
  else match k.waitHead (.mutex m) with
    | some next =>
      schedWake { wqPop k (.mutex m) next with owner := update k.owner m (some next) } next
    | none => .ok { k with owner := update k.owner m none }

/-- The code behind a context switch: of `mutex_lock` or of `thread_join`. -/
def resume (k : Kern) : Except Panic Kern :=
  match k.cont k.current with
  | .none => .ok k
  | .lock m =>
    if k.owner m = some k.current then
      .ok { k with cont := update k.cont k.current .none }
    else .error .lockNotOwner
  | .join t => reapThread { k with cont := update k.cont k.current .none } t

/-! ## Pipes, sockets, `wait4` and the console -/

/-- The branches of one pass of a reader's loop: bytes were read, there is nothing and never will be,
or there is nothing yet. -/
inductive ReadPass
  | data
  | eof
  | block

/-- The branches of one pass of a writer's loop: nobody reads, all is written, or something is left
(`moved`: some bytes went into the ring). -/
inductive WritePass
  | refused
  | done
  | part (moved : Bool)

/-- One pass of a reader. -/
def readPass (k : Kern) (readQ writeQ : WaitQ) : ReadPass → Except Panic Kern
  | .data => wqWakeOne k writeQ
  | .eof => .ok k
  | .block => schedBlock (wqPush k readQ k.current)

/-- One pass of a writer. -/
def writePass (k : Kern) (readQ writeQ : WaitQ) : WritePass → Except Panic Kern
  | .refused => .ok k
  | .done => wqWakeOne k readQ
  | .part true => do
    let k ← wqWakeOne k readQ
    schedBlock (wqPush k writeQ k.current)
  | .part false => schedBlock (wqPush k writeQ k.current)

/-- `pipe_read`. -/
def pipeRead (k : Kern) (p : Nat) : ReadPass → Except Panic Kern :=
  readPass k (.pipeRead p) (.pipeWrite p)

/-- `pipe_write`. -/
def pipeWrite (k : Kern) (p : Nat) : WritePass → Except Panic Kern :=
  writePass k (.pipeRead p) (.pipeWrite p)

/-- `pipe_release_read`; `last` if no reader is left. -/
def pipeReleaseRead (k : Kern) (p : Nat) (last : Bool) : Except Panic Kern :=
  if last then wqWakeAll k (.pipeWrite p) else .ok k

/-- `pipe_release_write`. -/
def pipeReleaseWrite (k : Kern) (p : Nat) (last : Bool) : Except Panic Kern :=
  if last then wqWakeAll k (.pipeRead p) else .ok k

/-- `socket_read` on end `e`, which reads the other channel. -/
def socketRead (k : Kern) (p : Nat) (e : Bool) : ReadPass → Except Panic Kern :=
  readPass k (.chanRead p (!e)) (.chanWrite p (!e))

/-- `socket_write` on end `e`. -/
def socketWrite (k : Kern) (p : Nat) (e : Bool) : WritePass → Except Panic Kern :=
  writePass k (.chanRead p e) (.chanWrite p e)

/-- `socket_release` of end `e`. -/
def socketRelease (k : Kern) (p : Nat) (e : Bool) : Except Panic Kern := do
  let k ← wqWakeAll k (.chanWrite p e)
  wqWakeAll k (.chanRead p (!e))

/-- The running thread blocks in a slot. -/
def slotBlock (k : Kern) (i : Slot) : Except Panic Kern :=
  if k.slot i ≠ none then .error .slotTaken
  else schedBlock { k with slot := update k.slot i (some k.current) }

/-- The thread in a slot, if any, is woken. -/
def slotWake (k : Kern) (i : Slot) : Except Panic Kern :=
  match k.slot i with
  | none => .ok k
  | some t => schedWake { k with slot := update k.slot i none } t

/-- `process_wait4`, where it blocks. -/
def wait4Block (k : Kern) (i : Nat) : Except Panic Kern := slotBlock k (.waiter i)

/-- `con_read`, where it blocks. -/
def conReadBlock (k : Kern) : Except Panic Kern := slotBlock k .console

/-- `kbd_input_notify`. -/
def kbdInputNotify (k : Kern) : Except Panic Kern := slotWake k .console

/-- `proc_die`; `parent` is the live parent, if there is one. -/
def procDie (k : Kern) (parent : Option Nat) : Except Panic Kern := do
  let k ← match parent with
    | some i => slotWake k (.waiter i)
    | none => .ok k
  threadExit k

/-! ## Interrupts -/

inductive Irq
  | timer
  | keyboard (pushed : Bool)
  | other

/-- The handlers. -/
def irqHandler (k : Kern) : Irq → Except Panic Kern
  | .timer =>
    let now := (k.ticks + 1) % 2 ^ 64
    .ok (schedTimerTick { k with ticks := now } now)
  | .keyboard true => kbdInputNotify k
  | .keyboard false => .ok k
  | .other => .ok k

/-- `irq_dispatch`. -/
def irqDispatch (k : Kern) (i : Irq) : Except Panic Kern := do
  let k ← irqHandler k i
  .ok (schedPreempt k)

/-! ## The system -/

/-- The calls of a running thread. -/
inductive Call
  | create (t : Tid)
  | yield
  | sleepTicks (ticks : Nat)
  | lock (m : Nat)
  | unlock (m : Nat)
  | pipeRead (p : Nat) (r : ReadPass)
  | pipeWrite (p : Nat) (w : WritePass)
  | pipeReleaseRead (p : Nat) (last : Bool)
  | pipeReleaseWrite (p : Nat) (last : Bool)
  | socketRead (p : Nat) (e : Bool) (r : ReadPass)
  | socketWrite (p : Nat) (e : Bool) (w : WritePass)
  | socketRelease (p : Nat) (e : Bool)
  | wait4 (i : Nat)
  | conRead
  | exit
  | die (parent : Option Nat)
  | join (t : Tid)

def Call.run (k : Kern) : Call → Except Panic Kern
  | .create t => .ok (threadCreate k t)
  | .yield => .ok (schedYield k)
  | .sleepTicks ticks => schedSleepTicks k ticks
  | .lock m => mutexLock k m
  | .unlock m => mutexUnlock k m
  | .pipeRead p r => Sched.pipeRead k p r
  | .pipeWrite p w => Sched.pipeWrite k p w
  | .pipeReleaseRead p last => Sched.pipeReleaseRead k p last
  | .pipeReleaseWrite p last => Sched.pipeReleaseWrite k p last
  | .socketRead p e r => Sched.socketRead k p e r
  | .socketWrite p e w => Sched.socketWrite k p e w
  | .socketRelease p e => Sched.socketRelease k p e
  | .wait4 i => wait4Block k i
  | .conRead => conReadBlock k
  | .exit => threadExit k
  | .die parent => procDie k parent
  | .join t => threadJoin k t

structure Sys where
  k : Kern
  /-- Threads that have been passed to `thread_join`. -/
  joined : Tid → Bool
  /-- Threads between the return of `mutex_lock` and `mutex_unlock`. -/
  inside : Nat → List Tid
  /-- Threads that queued on the mutex, in order. -/
  queued : Nat → List Tid
  /-- Threads whose `mutex_lock` returned after queueing, in order. -/
  granted : Nat → List Tid

/-- How calls are made: a new control block is one that is not allocated, and each thread is joined
once (`sched.h`). -/
def Sys.Admits (s : Sys) : Call → Prop
  | .create t => s.k.alloc t = false ∧ t < maxThreads
  | .join t => s.k.alloc t = true ∧ s.joined t = false
  | _ => True

/-- The state after a call that led to `k'`. -/
def Sys.after (s : Sys) (k' : Kern) : Call → Sys
  | .create t => { s with k := k', joined := update s.joined t false }
  | .join t => { s with k := k', joined := update s.joined t true }
  | .lock m =>
    if s.k.owner m = none then
      { s with k := k', inside := update s.inside m (s.inside m ++ [s.k.current]) }
    else { s with k := k', queued := update s.queued m (s.queued m ++ [s.k.current]) }
  | .unlock m =>
    { s with k := k', inside := update s.inside m ((s.inside m).erase s.k.current) }
  | _ => { s with k := k' }

/-- The state after `resume` led to `k'`. -/
def Sys.resumed (s : Sys) (k' : Kern) : Sys :=
  match s.k.cont s.k.current with
  | .lock m =>
    { s with
      k := k'
      inside := update s.inside m (s.inside m ++ [s.k.current])
      granted := update s.granted m (s.granted m ++ [s.k.current]) }
  | _ => { s with k := k' }

inductive Ev
  | call (t : Tid) (c : Call)
  | irq (i : Irq)
  | resume (t : Tid)

/-- A thread other than idle calls into the kernel, an interrupt arrives, or the thread that was
switched to runs what it has left to do. Interrupts and calls wait for the latter. -/
inductive Step : Sys → Ev → Sys → Prop
  | call (s : Sys) (c : Call) (k' : Kern) (hcont : s.k.cont s.k.current = .none)
      (hidle : s.k.current ≠ s.k.idle) (hadm : s.Admits c) (hrun : c.run s.k = .ok k') :
      Step s (.call s.k.current c) (s.after k' c)
  | irq (s : Sys) (i : Irq) (k' : Kern) (hcont : s.k.cont s.k.current = .none)
      (hrun : irqDispatch s.k i = .ok k') : Step s (.irq i) { s with k := k' }
  | resume (s : Sys) (k' : Kern) (hcont : s.k.cont s.k.current ≠ .none)
      (hrun : resume s.k = .ok k') : Step s (.resume s.k.current) (s.resumed k')

/-- Memory before `sched_init`: everything is zero, and only the boot thread exists. -/
def zeroKern (boot idle : Tid) : Kern where
  core := ⟨fun _ => .ready, fun _ => 0, fun _ => none, none, none, none⟩
  joiner := fun _ => none
  alloc := fun t => t == boot
  cont := fun _ => .none
  current := boot
  idle := idle
  needResched := false
  ticks := 0
  waitHead := fun _ => none
  waitTail := fun _ => none
  owner := fun _ => none
  slot := fun _ => none

/-- `sched_init`: the boot thread runs, and the idle thread is created and taken off the queue. -/
def schedInit (boot idle : Tid) : Kern :=
  let k := zeroKern boot idle
  let k := { k with core := schedCoreInit k.core }
  let k := threadCreate (k.setState boot .running) idle
  Kern.setState { k with core := (schedCoreDequeue k.core).2 } idle .ready

def Sys.start (boot idle : Tid) : Sys :=
  ⟨schedInit boot idle, fun _ => false, fun _ => [], fun _ => [], fun _ => []⟩

end Hallucinate.Sched
