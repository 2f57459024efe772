import Hallucinate.Fs.PipeCore
import Hallucinate.Fs.Stream
import Mathlib.Data.List.Nodup

/-!
# One blocking channel: a ring with two wait queues

`pipe.c` and `socket.c` carry the same read and write loop over a ring with a read and a write
wait queue; only where the "other side is gone" flag lives differs. `readPass` and `writePass` are
one pass of those loops, from entry or wakeup to the return or the `sched_block`. A pass holds
interrupts off, so it is atomic.

The wait queues are lists of threads, oldest first (`wq_push` appends, `wq_wake_one` takes the
head). A thread woken from a queue is `ready` and will run the loop again.

Results: a pass is a step of the abstract stream (`pass_refines`), and it keeps the queues and the
thread states in agreement (`QueuesOk.pass`).
-/

namespace Hallucinate.Fs

open Hallucinate.Lib Function List

/-- `struct sock_chan`, and the same fields of `struct pipe`. -/
structure Chan where
  core : PipeCore
  readWait : List Tid
  writeWait : List Tid

/-- Where a thread is: not started or exited, running code outside the channel, inside a call and
able to run, or asleep in a call. -/
inductive ThreadSt (κ : Type)
  | out
  | user
  | ready (c : κ)
  | blocked (c : κ)
  deriving DecidableEq, Repr

/-- The call a thread is in. -/
def ThreadSt.call? {κ : Type} : ThreadSt κ → Option κ
  | .ready c | .blocked c => some c
  | _ => none

/-- `sched_wake` on one thread. -/
def ThreadSt.woken {κ : Type} : ThreadSt κ → ThreadSt κ
  | .blocked c => .ready c
  | st => st

/-- `sched_wake` on each of `ws`. -/
def wake {κ : Type} (ws : List Tid) (thr : Tid → ThreadSt κ) : Tid → ThreadSt κ :=
  fun t => if t ∈ ws then (thr t).woken else thr t

/-- `wq_push`. -/
def wqPush (q : List Tid) (t : Tid) : List Tid := q ++ [t]

/-- `wq_wake_all`: the queue after, and the threads woken. -/
def wqWakeAll (q : List Tid) : List Tid × List Tid := ([], q)

/-- `wq_wake_one`. -/
def wqWakeOne (q : List Tid) : List Tid × List Tid := (q.drop 1, q.take 1)

/-- `if (n > 0) wq_wake_one(..)`. -/
def wqWakeIf (n : Nat) (q : List Tid) : List Tid × List Tid :=
  if n > 0 then wqWakeOne q else (q, [])

/-- How a pass ends: the call returns, or the thread sleeps in it. -/
inductive Next
  | ret (v : Int)
  | block (c : Call)

@[simp] def Next.ret? : Next → Option Int
  | .ret v => some v
  | .block _ => none

@[simp] def Next.call? : Next → Option Call
  | .ret _ => none
  | .block c => some c

/-- The channel after a pass, the threads it woke, the bytes it moved, and how it ended. -/
structure PassResult where
  chan : Chan
  woken : List Tid
  moved : List UInt8
  next : Next

/-- One pass of the loop of `pipe_read` / `socket_read`; `gone` is "no writer is left". -/
def readPass (gone : Bool) (ch : Chan) (t : Tid) (len : Nat) : PassResult :=
  if len = 0 then ⟨ch, [], [], .ret 0⟩
  else
    let r := pipeCoreRead ch.core len
    if r.1.length > 0 then
      let w := wqWakeOne ch.writeWait
      ⟨{ ch with core := r.2, writeWait := w.1 }, w.2, r.1, .ret r.1.length⟩
    else if gone then ⟨{ ch with core := r.2 }, [], r.1, .ret 0⟩
    else ⟨{ ch with core := r.2, readWait := wqPush ch.readWait t }, [], r.1, .block (.read len)⟩

/-- One pass of the loop of `pipe_write` / `socket_write`; `gone` is "no reader is left". -/
def writePass (gone : Bool) (ch : Chan) (t : Tid) (src : List UInt8) (done : Nat) : PassResult :=
  if src.length = 0 then ⟨ch, [], [], .ret 0⟩
  else if gone then ⟨ch, [], [], .ret (if done > 0 then done else -ePipe)⟩
  else
    let r := pipeCoreWrite ch.core (src.drop done)
    let w := wqWakeIf r.1 ch.readWait
    let moved := (src.drop done).take r.1
    if done + r.1 = src.length then
      ⟨{ ch with core := r.2, readWait := w.1 }, w.2, moved, .ret (done + r.1 : Nat)⟩
    else
      ⟨{ core := r.2, readWait := w.1, writeWait := wqPush ch.writeWait t }, w.2, moved,
        .block (.write src (done + r.1))⟩

/-- The thread states after a pass by `t`: the wakeups, then `t` out of its call or asleep. -/
def settle {κ : Type} (lift : Call → κ) (thr : Tid → ThreadSt κ) (t : Tid) (r : PassResult) :
    Tid → ThreadSt κ :=
  update (wake r.woken thr) t
    (match r.next with
      | .ret _ => .user
      | .block c => .blocked (lift c))

/-- A call as it is entered. -/
def Call.Fresh : Call → Prop
  | .read _ => True
  | .write _ done => done = 0

/-- Which of the two queues a call sleeps on. -/
def Call.isRead : Call → Bool
  | .read _ => true
  | .write _ _ => false

/-- The call has something to transfer. -/
def Call.Busy : Call → Prop
  | .read len => 0 < len
  | .write src _ => src ≠ []

variable {ch : Chan} {t : Tid} {gone : Bool}

/-! ## What a pass does -/

variable {len done : Nat} {src : List UInt8} {rg wg : Bool}

section

variable (hok : RingOk ch.core)
include hok

/-- The three ends of a read pass with `len > 0`. -/
theorem readPass_cases (hlen : 0 < len) (gone : Bool) (t : Tid) :
    (0 < ch.core.count ∧ readPass gone ch t len =
      ⟨⟨(pipeCoreRead ch.core len).2, ch.readWait, ch.writeWait.drop 1⟩, ch.writeWait.take 1,
        (content ch.core).take len, .ret ((content ch.core).take len).length⟩) ∨
    (ch.core.count = 0 ∧ gone = true ∧ readPass gone ch t len =
      ⟨⟨(pipeCoreRead ch.core len).2, ch.readWait, ch.writeWait⟩, [], [], .ret 0⟩) ∨
    (ch.core.count = 0 ∧ gone = false ∧ readPass gone ch t len =
      ⟨⟨(pipeCoreRead ch.core len).2, ch.readWait ++ [t], ch.writeWait⟩, [], [],
        .block (.read len)⟩) := by
  unfold readPass
  simp only [pipeCoreRead_bytes hok, if_neg (Nat.pos_iff_ne_zero.mp hlen), length_take, content_length,
    wqWakeOne, wqPush]
  by_cases hc : 0 < ch.core.count
  · left
    rw [if_pos (by omega)]
    exact ⟨hc, rfl⟩
  · right
    have hnil : content ch.core = [] := (content_eq_nil_iff _).mpr (by omega)
    rw [if_neg (by omega), hnil, take_nil]
    cases gone with
    | true => exact Or.inl ⟨by omega, rfl, rfl⟩
    | false => exact Or.inr ⟨by omega, rfl, rfl⟩

/-- The ends of a write pass with something to write and a reader left. `n` bytes are accepted,
and a reader is woken if that is any; the call is finished, or the ring is full. -/
theorem writePass_cases {n : Nat} (hd : done ≤ src.length) (hsrc : src ≠ []) (t : Tid)
    (hn : n = min (src.length - done) (ch.core.cap - ch.core.count)) :
    (done + n = src.length ∧ writePass false ch t src done =
      ⟨⟨(pipeCoreWrite ch.core (src.drop done)).2, (wqWakeIf n ch.readWait).1, ch.writeWait⟩,
        (wqWakeIf n ch.readWait).2, (src.drop done).take n, .ret (done + n : Nat)⟩) ∨
    (done + n < src.length ∧ ch.core.count + n = ch.core.cap ∧ writePass false ch t src done =
      ⟨⟨(pipeCoreWrite ch.core (src.drop done)).2, (wqWakeIf n ch.readWait).1,
          ch.writeWait ++ [t]⟩,
        (wqWakeIf n ch.readWait).2, (src.drop done).take n, .block (.write src (done + n))⟩) := by
  have hc := hok.count_le
  have hfst : (pipeCoreWrite ch.core (src.drop done)).1 = n := by
    rw [pipeCoreWrite_fst, length_drop, hn]
  have hne : ¬ src.length = 0 := fun h => hsrc (eq_nil_of_length_eq_zero h)
  unfold writePass
  simp only [hfst, if_neg hne, wqPush, Bool.false_eq_true, if_false]
  by_cases hall : done + n = src.length
  · left
    rw [if_pos hall]
    exact ⟨hall, rfl⟩
  · right
    rw [if_neg hall]
    exact ⟨by omega, by omega, rfl⟩

/-! ## Refinement of the abstract stream -/

/-- One pass of call `c`, given both flags. -/
def pass (readerGone writerGone : Bool) (ch : Chan) (t : Tid) : Call → PassResult
  | .read len => readPass writerGone ch t len
  | .write src done => writePass readerGone ch t src done

theorem pass_ringOk (rg wg : Bool) (c : Call) :
    RingOk (pass rg wg ch t c).chan.core ∧ (pass rg wg ch t c).chan.core.cap = ch.core.cap := by
  cases c with
  | read len =>
    have hr := ringOk_pipeCoreRead hok len
    unfold pass readPass
    simp only
    split
    · exact ⟨hok, rfl⟩
    · split
      · exact ⟨hr, rfl⟩
      · split <;> exact ⟨hr, rfl⟩
  | write src done =>
    have hw := ringOk_pipeCoreWrite hok (src.drop done)
    unfold pass writePass
    simp only
    split
    · exact ⟨hok, rfl⟩
    · split
      · exact ⟨hok, rfl⟩
      · split <;> exact ⟨hw, rfl⟩

/-- The call a pass goes to sleep in is of the same kind, has something to transfer, and a
write's count is within its length. -/
theorem pass_block {c c' : Call} (hdone : ∀ src done, c = .write src done →
    done ≤ src.length) (h : (pass rg wg ch t c).next = .block c') :
    c'.isRead = c.isRead ∧ c'.Busy ∧ ∀ src done, c' = .write src done → done ≤ src.length := by
  cases c with
  | read len =>
    by_cases hlen : len = 0
    · subst hlen; cases h
    rcases readPass_cases hok (Nat.pos_of_ne_zero hlen) wg t with ⟨-, e⟩ | ⟨-, -, e⟩ | ⟨-, -, e⟩
    · simp only [pass, e] at h; cases h
    · simp only [pass, e] at h; cases h
    · simp only [pass, e] at h
      cases h
      exact ⟨rfl, Nat.pos_of_ne_zero hlen, fun _ _ e => by cases e⟩
  | write src done =>
    by_cases hsrc : src = []
    · subst hsrc; cases h
    have hne : ¬ src.length = 0 := fun h => hsrc (eq_nil_of_length_eq_zero h)
    cases rg with
    | true => simp only [pass, writePass, if_neg hne, if_true] at h; cases h
    | false =>
      rcases writePass_cases hok (hdone src done rfl) hsrc t rfl with ⟨-, e⟩ | ⟨hlt, -, e⟩
      · simp only [pass, e] at h; cases h
      · simp only [pass, e] at h
        cases h
        exact ⟨rfl, hsrc, fun _ _ e => by cases e; omega⟩

end

/-- A pass wakes only threads of the channel's own queues. -/
theorem pass_woken (rg wg : Bool) (ch : Chan) (t : Tid) (c : Call) :
    ∀ x ∈ (pass rg wg ch t c).woken, x ∈ ch.readWait ∨ x ∈ ch.writeWait := by
  intro x hx
  cases c with
  | read len =>
    simp only [pass, readPass] at hx
    split at hx
    · cases hx
    · split at hx
      · exact Or.inr (mem_of_mem_take hx)
      · split at hx <;> cases hx
  | write src done =>
    have hw : ∀ n, x ∈ (wqWakeIf n ch.readWait).2 → x ∈ ch.readWait := by
      intro n hx
      unfold wqWakeIf at hx
      split at hx
      · exact mem_of_mem_take hx
      · cases hx
    simp only [pass, writePass] at hx
    split at hx
    · cases hx
    · split at hx
      · cases hx
      · split at hx <;> exact Or.inl (hw _ hx)

/-- **A pass is a step of the abstract stream.** -/
theorem pass_refines (hok : RingOk ch.core) {s : Stream} {c : Call} (hq : s.queue = content ch.core)
    (hcap : s.cap = ch.core.cap) (hcall : s.calls t = some c)
    (hdone : ∀ src done, c = .write src done → done ≤ src.length) :
    let r := pass s.readerGone s.writerGone ch t c
    Stream.Step s (.pass t c r.moved r.next.ret?)
      ((s.setQueue (content r.chan.core)).setCall t r.next.call?) := by
  cases c with
  | read len =>
    have htake := Stream.Step.take s t len hcall
    rw [hq, ← content_pipeCoreRead, content_eq_nil_iff] at htake
    by_cases hlen : len = 0
    · subst hlen
      rw [take_zero] at htake
      have hs := htake fun h => absurd h (by omega)
      rw [content_pipeCoreRead, drop_zero] at hs
      exact hs
    · rcases readPass_cases hok (Nat.pos_of_ne_zero hlen) s.writerGone t with
        ⟨hc, e⟩ | ⟨hc, hg, e⟩ | ⟨hc, hg, e⟩
      · simp only [pass, e]
        exact htake fun _ h => by omega
      · rw [(content_eq_nil_iff _).mpr hc, take_nil] at htake
        simp only [pass, e]
        exact htake fun _ _ => hg
      · -- nothing moved: the reader sleeps and the stream is as it was
        have hnil : s.queue = [] := by rw [hq]; exact (content_eq_nil_iff _).mpr hc
        have hafter : content (pipeCoreRead ch.core len).2 = s.queue := by
          rw [content_pipeCoreRead, ← hq, hnil, drop_nil]
        simp only [pass, e, hafter, Stream.setQueue, Stream.setCall, Next.call?, ← hcall,
          update_eq_self]
        exact Stream.Step.starve s t len hcall hnil
  | write src done =>
    have hd := hdone src done rfl
    by_cases hsrc : src = []
    · subst hsrc
      obtain rfl : done = 0 := Nat.le_zero.mp hd
      have hs := Stream.Step.give s t [] 0 0 hcall rfl (by rw [hq, content_length, hcap]; exact hok.count_le)
      rw [hq] at hs
      simpa [pass, writePass] using hs
    cases hg : s.readerGone with
    | true =>
      have hne : ¬ src.length = 0 := fun h => hsrc (eq_nil_of_length_eq_zero h)
      simp only [pass, writePass, if_neg hne, if_true, ← hq, Next.ret?, Next.call?]
      by_cases hpos : done > 0
      · rw [if_pos hpos]
        exact Stream.Step.cut s t src done hcall hg hpos
      · obtain rfl : done = 0 := by omega
        rw [if_neg hpos]
        exact Stream.Step.broken s t src hcall hg
    | false =>
      have hcont := content_pipeCoreWrite hok (src.drop done)
      rw [pipeCoreWrite_fst, length_drop] at hcont
      have hroom : s.queue.length + min (src.length - done) (ch.core.cap - ch.core.count) ≤ s.cap := by
        have := hok.count_le
        rw [hq, content_length, hcap]
        omega
      rcases writePass_cases hok hd hsrc t rfl with ⟨hall, e⟩ | ⟨hpart, hfull, e⟩
      · simp only [pass, e, hcont, ← hq]
        exact Stream.Step.give s t src done _ hcall hall hroom
      · simp only [pass, e, hcont, ← hq]
        exact Stream.Step.feed s t src done _ hcall hpart hroom

/-! ## The wait queues and the thread states agree -/

/-- A queue holds exactly the threads asleep in a call of its kind, once each. -/
structure QueueOk (b : Bool) (q : List Tid) (thr : Tid → ThreadSt Call) : Prop where
  nodup : q.Nodup
  mem : ∀ t, t ∈ q ↔ ∃ c, c.isRead = b ∧ thr t = .blocked c

/-- Both queues of a channel. -/
structure QueuesOk (ch : Chan) (thr : Tid → ThreadSt Call) : Prop where
  reads : QueueOk true ch.readWait thr
  writes : QueueOk false ch.writeWait thr

variable {b : Bool} {q q' ws : List Tid} {thr : Tid → ThreadSt Call}

variable {κ : Type}

theorem wake_of_mem {ws : List Tid} {thr : Tid → ThreadSt κ} (h : t ∈ ws) :
    wake ws thr t = (thr t).woken := if_pos h

theorem wake_of_not_mem {ws : List Tid} {thr : Tid → ThreadSt κ} (h : t ∉ ws) :
    wake ws thr t = thr t := if_neg h

/-- A thread asleep after a wakeup slept before and was not woken. -/
theorem wake_eq_blocked {ws : List Tid} {thr : Tid → ThreadSt κ} {c : κ} :
    wake ws thr t = .blocked c ↔ t ∉ ws ∧ thr t = .blocked c := by
  by_cases h : t ∈ ws
  · rw [wake_of_mem h]
    cases thr t <;> simp [ThreadSt.woken, h]
  · rw [wake_of_not_mem h]
    simp [h]

/-- Only a thread asleep in a call is changed by a wakeup. -/
theorem wake_of_not_blocked {ws : List Tid} {thr : Tid → ThreadSt κ} (h : ∀ c, thr t ≠ .blocked c) :
    wake ws thr t = thr t := by
  unfold wake
  split
  · cases ht : thr t with
    | blocked c => exact absurd ht (h c)
    | _ => rfl
  · rfl

variable {st : ThreadSt Call}

section

variable (h : QueueOk b q thr)
include h

/-- Waking the front part of a queue leaves the rest of it. -/
theorem QueueOk.wake_own (hq : q = ws ++ q') : QueueOk b q' (wake ws thr) := by
  subst hq
  obtain ⟨-, hnd, hdis⟩ := nodup_append.mp h.nodup
  refine ⟨hnd, fun t => ?_⟩
  have hmem := h.mem t
  rw [mem_append] at hmem
  constructor
  · intro ht
    obtain ⟨c, hc, hb⟩ := hmem.mp (Or.inr ht)
    exact ⟨c, hc, wake_eq_blocked.mpr ⟨fun hw => hdis t hw t ht rfl, hb⟩⟩
  · rintro ⟨c, hc, hb⟩
    obtain ⟨hw, hb⟩ := wake_eq_blocked.mp hb
    exact (hmem.mpr ⟨c, hc, hb⟩).resolve_left hw

/-- Waking threads of the other queue leaves a queue alone. -/
theorem QueueOk.wake_other (ho : QueueOk (!b) q' thr) (hws : ws ⊆ q') :
    QueueOk b q (wake ws thr) := by
  refine ⟨h.nodup, fun t => ?_⟩
  rw [h.mem t]
  constructor
  · rintro ⟨c, hc, hb⟩
    refine ⟨c, hc, wake_eq_blocked.mpr ⟨fun hw => ?_, hb⟩⟩
    obtain ⟨c', hc', hb'⟩ := (ho.mem t).mp (hws hw)
    rw [hb] at hb'
    injection hb' with e
    subst e
    rw [hc] at hc'
    cases b <;> cases hc'
  · rintro ⟨c, hc, hb⟩
    exact ⟨c, hc, (wake_eq_blocked.mp hb).2⟩

/-- A thread that does not sleep in a call of the queue's kind may change to any other such
state. -/
theorem QueueOk.set (hold : ∀ c, thr t = .blocked c → c.isRead ≠ b)
    (hnew : ∀ c, st = .blocked c → c.isRead ≠ b) : QueueOk b q (update thr t st) := by
  refine ⟨h.nodup, fun t' => ?_⟩
  rw [h.mem t']
  by_cases htt : t' = t
  · subst htt
    rw [update_self]
    exact ⟨fun ⟨c, hc, hb⟩ => absurd hc (hold c hb), fun ⟨c, hc, hb⟩ => absurd hc (hnew c hb)⟩
  · rw [update_of_ne htt]

/-- A thread that goes to sleep joins the queue. -/
theorem QueueOk.push {c : Call} (hc : c.isRead = b) (hold : ∀ c, thr t ≠ .blocked c) :
    QueueOk b (q ++ [t]) (update thr t (.blocked c)) := by
  have hnot : t ∉ q := fun ht => by
    obtain ⟨c', -, hb⟩ := (h.mem t).mp ht
    exact hold c' hb
  refine ⟨?_, fun t' => ?_⟩
  · rw [nodup_append]
    refine ⟨h.nodup, nodup_singleton t, fun a ha a' ha' e => ?_⟩
    rw [mem_singleton] at ha'
    subst e ha'
    exact hnot ha
  · rw [mem_append, mem_singleton]
    by_cases htt : t' = t
    · subst htt
      rw [update_self]
      exact ⟨fun _ => ⟨c, hc, rfl⟩, fun _ => Or.inr rfl⟩
    · rw [update_of_ne htt, h.mem t']
      exact ⟨fun h => h.resolve_right htt, Or.inl⟩

end

theorem wqWakeIf_split (n : Nat) (q : List Tid) : q = (wqWakeIf n q).2 ++ (wqWakeIf n q).1 := by
  unfold wqWakeIf wqWakeOne
  split
  · exact (take_append_drop 1 q).symm
  · rfl

variable {core : PipeCore} {rq wq : List Tid} {c : Call}

theorem QueuesOk.wakeReaders (h : QueuesOk ch thr) (hq : ch.readWait = ws ++ rq) :
    QueuesOk ⟨ch.core, rq, ch.writeWait⟩ (wake ws thr) :=
  ⟨h.reads.wake_own hq, h.writes.wake_other h.reads (hq ▸ subset_append_left ws rq)⟩

theorem QueuesOk.wakeWriters (h : QueuesOk ch thr) (hq : ch.writeWait = ws ++ wq) :
    QueuesOk ⟨ch.core, ch.readWait, wq⟩ (wake ws thr) :=
  ⟨h.reads.wake_other h.writes (hq ▸ subset_append_left ws wq), h.writes.wake_own hq⟩

variable {core' : PipeCore}

section

variable (h : QueuesOk ⟨core, rq, wq⟩ thr) (hold : ∀ c, thr t ≠ .blocked c)
include h hold

/-- A thread that is awake before and after is on no queue. -/
theorem QueuesOk.awake (hnew : ∀ c, st ≠ .blocked c) : QueuesOk ⟨core', rq, wq⟩ (update thr t st) :=
  ⟨h.reads.set (fun c e => absurd e (hold c)) fun c e => absurd e (hnew c),
    h.writes.set (fun c e => absurd e (hold c)) fun c e => absurd e (hnew c)⟩

theorem QueuesOk.sleepRead :
    QueuesOk ⟨core', rq ++ [t], wq⟩ (update thr t (.blocked (.read len))) :=
  ⟨h.reads.push rfl hold, h.writes.set (fun c e => absurd e (hold c)) fun c e => by
    cases e; exact Bool.noConfusion⟩

theorem QueuesOk.sleepWrite :
    QueuesOk ⟨core', rq, wq ++ [t]⟩ (update thr t (.blocked (.write src done))) :=
  ⟨h.reads.set (fun c e => absurd e (hold c)) fun c e => by
    cases e; exact Bool.noConfusion, h.writes.push rfl hold⟩

end

/-- **A pass keeps queues and threads in agreement.** -/
theorem QueuesOk.pass (h : QueuesOk ch thr) (hok : RingOk ch.core) (ht : thr t = .ready c)
    (hdone : ∀ src done, c = .write src done → done ≤ src.length) (rg wg : Bool) :
    QueuesOk (pass rg wg ch t c).chan (settle id thr t (pass rg wg ch t c)) := by
  have hawake : ∀ c, thr t ≠ .blocked c := fun c' e => by rw [ht] at e; cases e
  have hwoke : ∀ ws c, wake ws thr t ≠ .blocked c := fun ws c' e =>
    hawake c' (wake_eq_blocked.mp e).2
  have huser : ∀ c : Call, ThreadSt.user ≠ .blocked c := fun _ e => by cases e
  have hnone : QueuesOk ch (wake [] thr) := h.wakeReaders (nil_append _).symm
  cases c with
  | read len =>
    by_cases hlen : len = 0
    · subst hlen
      exact hnone.awake (hwoke []) huser
    rcases readPass_cases hok (Nat.pos_of_ne_zero hlen) wg t with
      ⟨-, e⟩ | ⟨-, -, e⟩ | ⟨-, -, e⟩
    · simp only [Fs.pass, e]
      exact (h.wakeWriters (take_append_drop 1 _).symm).awake (hwoke _) huser
    · simp only [Fs.pass, e]
      exact hnone.awake (hwoke []) huser
    · simp only [Fs.pass, e]
      exact hnone.sleepRead (hwoke [])
  | write src done =>
    by_cases hsrc : src = []
    · subst hsrc
      exact hnone.awake (hwoke []) huser
    have hne : ¬ src.length = 0 := fun h => hsrc (eq_nil_of_length_eq_zero h)
    cases rg with
    | true =>
      simp only [Fs.pass, writePass, if_neg hne, if_true]
      exact hnone.awake (hwoke []) huser
    | false =>
      have hwk := fun n => h.wakeReaders (wqWakeIf_split n ch.readWait)
      rcases writePass_cases hok (hdone src done rfl) hsrc t rfl with ⟨-, e⟩ | ⟨-, -, e⟩
      · simp only [Fs.pass, e]
        exact (hwk _).awake (hwoke _) huser
      · simp only [Fs.pass, e]
        exact (hwk _).sleepWrite (hwoke _)

theorem wake_comm (ws ws' : List Tid) (thr : Tid → ThreadSt κ) :
    wake ws (wake ws' thr) = wake ws' (wake ws thr) := by
  funext t
  unfold wake
  by_cases h : t ∈ ws <;> by_cases h' : t ∈ ws' <;> simp [h, h']

@[simp] theorem wake_call? (ws : List Tid) (thr : Tid → ThreadSt κ) (t : Tid) :
    (wake ws thr t).call? = (thr t).call? := by
  unfold wake
  split
  · cases thr t <;> rfl
  · rfl

/-- The call a thread is in after a pass. -/
theorem settle_call? (lift : Call → κ) (thr : Tid → ThreadSt κ) (t : Tid) (r : PassResult)
    (t' : Tid) : (settle lift thr t r t').call? =
      if t' = t then r.next.call?.map lift else (thr t').call? := by
  unfold settle
  by_cases htt : t' = t
  · subst htt
    rw [update_self, if_pos rfl]
    cases r.next <;> rfl
  · rw [update_of_ne htt, if_neg htt, wake_call?]

end Hallucinate.Fs
