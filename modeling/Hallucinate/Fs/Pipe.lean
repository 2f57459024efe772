import Hallucinate.Fs.Channel

/-!
# Anonymous pipes (`kernel/fs/pipe.c`)

One channel shared by any number of threads, with the reader and writer counts that turn "the
other end closed" into EOF or `-EPIPE`. `Pipe.Step` has one label for each atomic thing a thread
does; every pass of `pipe_read` and `pipe_write` and both releases run with interrupts off.
A release may come at any time while its count is positive: that includes the ones the file
reference counts allow.

Results: `wq_wake_one` wakes one waiter of the other side and none of its own, so bytes a reader
leaves behind (or space a writer leaves) may find the rest of the queue asleep. **`pipe_quiet`**:
along a run in which no pass does that (`StepOk`), nobody is stuck in a quiet state; and one
further step keeps the waiters `Served` iff it is such a step. `pipe_stuck` is a run that ends
with a reader asleep over a ring with data. `pipe_refines` is the refinement of the abstract
stream.

Left out: `pipe_fstat`, and the allocation failures of `pipe_open`, which leave no pipe.
-/

namespace Hallucinate.Fs

open Hallucinate.Lib Function

/-- `PIPE_CAPACITY`. -/
def pipeCapacity : Nat := 4096

/-- `struct pipe`, and the threads that use it. -/
structure Pipe where
  chan : Chan
  readers : Nat
  writers : Nat
  thr : Tid → ThreadSt Call

/-- `pipe_open`. -/
def pipeOpen : Pipe where
  chan := ⟨pipeCoreInit (fun _ => 0) pipeCapacity, [], []⟩
  readers := 1
  writers := 1
  thr _ := .out

/-- One pass of the loop of `pipe_read`. -/
def pipeRead (p : Pipe) (t : Tid) (len : Nat) : PassResult :=
  readPass (p.writers == 0) p.chan t len

/-- One pass of the loop of `pipe_write`. -/
def pipeWrite (p : Pipe) (t : Tid) (src : List UInt8) (done : Nat) : PassResult :=
  writePass (p.readers == 0) p.chan t src done

def pipePass (p : Pipe) (t : Tid) : Call → PassResult
  | .read len => pipeRead p t len
  | .write src done => pipeWrite p t src done

/-- The pipe after a pass by `t`. -/
def Pipe.passed (p : Pipe) (t : Tid) (r : PassResult) : Pipe :=
  { p with chan := r.chan, thr := settle id p.thr t r }

/-- `pipe_release_read`. -/
def pipeReleaseRead (p : Pipe) : Pipe :=
  let readers := p.readers - 1
  let w := if readers = 0 then wqWakeAll p.chan.writeWait else (p.chan.writeWait, [])
  { p with readers := readers, chan := { p.chan with writeWait := w.1 }, thr := wake w.2 p.thr }

/-- `pipe_release_write`. -/
def pipeReleaseWrite (p : Pipe) : Pipe :=
  let writers := p.writers - 1
  let w := if writers = 0 then wqWakeAll p.chan.readWait else (p.chan.readWait, [])
  { p with writers := writers, chan := { p.chan with readWait := w.1 }, thr := wake w.2 p.thr }

def Pipe.setThr (p : Pipe) (t : Tid) (st : ThreadSt Call) : Pipe :=
  { p with thr := update p.thr t st }

inductive Pipe.Step : Pipe → Event → Pipe → Prop
  | start (p t) (h : p.thr t = .out) : Step p (.start t) (p.setThr t .user)
  | exit (p t) (h : p.thr t = .user) : Step p (.exit t) (p.setThr t .out)
  | call (p t c) (h : p.thr t = .user) (hc : c.Fresh) : Step p (.call t c) (p.setThr t (.ready c))
  | pass (p t c) (h : p.thr t = .ready c) :
      Step p (.pass t c (pipePass p t c).moved (pipePass p t c).next.ret?)
        (p.passed t (pipePass p t c))
  | closeRead (p) (h : 0 < p.readers) : Step p .closeRead (pipeReleaseRead p)
  | closeWrite (p) (h : 0 < p.writers) : Step p .closeWrite (pipeReleaseWrite p)

/-- States reached by any interleaving. -/
def Pipe.Reach : Pipe → Prop := ReachVia Pipe.Step (fun _ _ => True) pipeOpen

/-! ## Nobody stuck -/

/-- No thread inside a call can run. -/
def Quiet (p : Pipe) : Prop := ∀ t c, p.thr t ≠ .ready c

/-- Thread `t` is about to run a pass that transfers in the given direction. -/
def ReadyFor (b : Bool) (thr : Tid → ThreadSt Call) (t : Tid) : Prop :=
  ∃ c : Call, c.isRead = b ∧ c.Busy ∧ thr t = .ready c

/-- A read that leaves bytes behind does not leave readers asleep with nobody about to read, and a
write that leaves space does not leave writers asleep with nobody about to write. -/
def StepOk (p : Pipe) : Event → Prop
  | .pass t (.read len) _ _ => 0 < len → len < p.chan.core.count → p.chan.readWait ≠ [] →
    ∃ t', t' ≠ t ∧ ReadyFor true p.thr t'
  | .pass t (.write src done) _ _ => src ≠ [] → p.readers ≠ 0 →
    src.length - done < pipeCoreSpace p.chan.core → p.chan.writeWait ≠ [] →
    ∃ t', t' ≠ t ∧ ReadyFor false p.thr t'
  | _ => True

/-- States reached by steps that all meet `StepOk`. -/
def Pipe.ReachOk : Pipe → Prop := ReachVia Pipe.Step StepOk pipeOpen

/-- Whoever sleeps has nothing to do, or somebody of its side is about to run and will. -/
structure Served (p : Pipe) : Prop where
  reader : p.chan.readWait ≠ [] → 0 < p.chan.core.count → ∃ t, ReadyFor true p.thr t
  writer : p.chan.writeWait ≠ [] → 0 < pipeCoreSpace p.chan.core → ∃ t, ReadyFor false p.thr t
  eof : p.writers = 0 → p.chan.readWait = []
  epipe : p.readers = 0 → p.chan.writeWait = []

/-! ## What every interleaving keeps -/

structure Pipe.Inv (p : Pipe) : Prop where
  ring : RingOk p.chan.core
  queues : QueuesOk p.chan p.thr
  done_le : ∀ t src done, (p.thr t).call? = some (.write src done) → done ≤ src.length
  busy : ∀ t c, p.thr t = .blocked c → c.Busy

variable {p p' : Pipe} {t : Tid} {c : Call} {l : Event}

theorem pipePass_eq (p : Pipe) (t : Tid) (c : Call) :
    pipePass p t c = pass (p.readers == 0) (p.writers == 0) p.chan t c := by
  cases c <;> rfl

theorem Pipe.Inv.done (h : p.Inv) (ht : p.thr t = .ready c) :
    ∀ src done, c = .write src done → done ≤ src.length := fun src done e =>
  h.done_le t src done (by rw [ht, e]; rfl)

theorem inv_pipeOpen : pipeOpen.Inv := by
  have hq : ∀ b, QueueOk b [] pipeOpen.thr := fun b => by
    refine ⟨List.nodup_nil, fun t => ?_⟩
    simp [pipeOpen]
  refine ⟨ringOk_init _ (by decide), ⟨hq true, hq false⟩, fun t src done h => ?_, fun t c h => ?_⟩
  · cases h
  · cases h

variable {st : ThreadSt Call}

/-- A thread that is awake before and after, in no write with a wrong count. -/
theorem Pipe.Inv.setThr (h : p.Inv) (hold : ∀ c, p.thr t ≠ .blocked c) (hnew : ∀ c, st ≠ .blocked c)
    (hd : ∀ src done, st.call? = some (.write src done) → done ≤ src.length) :
    (p.setThr t st).Inv where
  ring := h.ring
  queues := QueuesOk.awake h.queues hold hnew
  done_le t' src done hc := by
    by_cases htt : t' = t
    · subst htt
      simp only [Pipe.setThr, update_self] at hc
      exact hd src done hc
    · simp only [Pipe.setThr, update_of_ne htt] at hc
      exact h.done_le t' src done hc
  busy t' c hc := by
    by_cases htt : t' = t
    · subst htt
      simp only [Pipe.setThr, update_self] at hc
      exact absurd hc (hnew c)
    · simp only [Pipe.setThr, update_of_ne htt] at hc
      exact h.busy t' c hc

theorem inv_passed (h : p.Inv) (ht : p.thr t = .ready c) : (p.passed t (pipePass p t c)).Inv := by
  rw [pipePass_eq]
  have hdone := h.done ht
  refine ⟨(pass_ringOk h.ring _ _ c).1, h.queues.pass h.ring ht hdone _ _, ?_, ?_⟩
  · intro t' src done hc
    simp only [Pipe.passed, settle_call?] at hc
    split at hc
    · cases hnext : (pass (p.readers == 0) (p.writers == 0) p.chan t c).next with
      | ret v => rw [hnext] at hc; cases hc
      | block c' =>
        rw [hnext] at hc
        exact (pass_block h.ring hdone hnext).2.2 src done (by simpa using hc)
    · exact h.done_le t' src done hc
  · intro t' c' hc
    by_cases htt : t' = t
    · subst htt
      simp only [Pipe.passed, settle, update_self] at hc
      cases hnext : (pass (p.readers == 0) (p.writers == 0) p.chan t' c).next with
      | ret v => rw [hnext] at hc; cases hc
      | block c'' =>
        rw [hnext] at hc
        cases hc
        exact (pass_block h.ring hdone hnext).2.1
    · simp only [Pipe.passed, settle, update_of_ne htt] at hc
      exact h.busy t' c' (wake_eq_blocked.mp hc).2

/-- Waking any number of threads at the front of a queue. -/
theorem Pipe.Inv.woken (h : p.Inv) {ws rq wq : List Tid} {r w : Nat}
    (hq : QueuesOk ⟨p.chan.core, rq, wq⟩ (wake ws p.thr)) :
    Pipe.Inv ⟨⟨p.chan.core, rq, wq⟩, r, w, wake ws p.thr⟩ where
  ring := h.ring
  queues := hq
  done_le t src done hc := h.done_le t src done (by rwa [wake_call?] at hc)
  busy t c hc := h.busy t c (wake_eq_blocked.mp hc).2

/-- What a release wakes: the whole queue if the count drops to zero, else nobody. -/
theorem release_split (n : Nat) (q : List Tid) :
    q = (if n = 0 then wqWakeAll q else (q, [])).2 ++ (if n = 0 then wqWakeAll q else (q, [])).1 := by
  split
  · exact (List.append_nil q).symm
  · rfl

theorem inv_step (h : p.Inv) (hs : Pipe.Step p l p') : p'.Inv := by
  cases hs with
  | start t ht =>
    exact h.setThr (fun c e => by rw [ht] at e; cases e) (fun c e => by cases e)
      fun _ _ e => by cases e
  | exit t ht =>
    exact h.setThr (fun c e => by rw [ht] at e; cases e) (fun c e => by cases e)
      fun _ _ e => by cases e
  | call t c ht hc =>
    refine h.setThr (fun c e => by rw [ht] at e; cases e) (fun c e => by cases e)
      fun src done e => ?_
    cases e
    rw [show done = 0 from hc]
    exact Nat.zero_le _
  | pass t c ht => exact inv_passed h ht
  | closeRead hr => exact h.woken (h.queues.wakeWriters (release_split _ _))
  | closeWrite hw => exact h.woken (h.queues.wakeReaders (release_split _ _))

/-! ## Refinement -/

/-- The stream a pipe stands for. -/
def Pipe.stream (p : Pipe) : Stream where
  queue := content p.chan.core
  cap := p.chan.core.cap
  readerGone := p.readers == 0
  writerGone := p.writers == 0
  calls t := (p.thr t).call?

/-- A thread moving in or out, outside any call, is not seen by the stream. -/
theorem stream_setThr (h : (p.thr t).call? = none) (hst : st.call? = none) :
    (p.setThr t st).stream = p.stream := by
  have hcalls : (fun t' => (update p.thr t st t').call?) = fun t' => (p.thr t').call? := by
    funext t'
    by_cases htt : t' = t
    · subst htt
      rw [update_self, hst, h]
    · rw [update_of_ne htt]
  simp only [Pipe.stream, Pipe.setThr, hcalls]

theorem stream_call (p : Pipe) (t : Tid) (c : Call) :
    (p.setThr t (.ready c)).stream = p.stream.setCall t (some c) := by
  have hcalls : (fun t' => (update p.thr t (.ready c) t').call?) =
      update (fun t' => (p.thr t').call?) t (some c) := by
    funext t'
    by_cases htt : t' = t
    · subst htt
      rw [update_self, update_self]
      rfl
    · rw [update_of_ne htt, update_of_ne htt]
  simp only [Pipe.stream, Pipe.setThr, Stream.setCall, hcalls]

theorem stream_passed (h : p.Inv) (t : Tid) (c : Call) :
    (p.passed t (pipePass p t c)).stream =
      (p.stream.setQueue (content (pipePass p t c).chan.core)).setCall t
        (pipePass p t c).next.call? := by
  have hcalls : (fun t' => (settle id p.thr t (pipePass p t c) t').call?) =
      update (fun t' => (p.thr t').call?) t (pipePass p t c).next.call? := by
    funext t'
    rw [settle_call?]
    by_cases htt : t' = t
    · subst htt
      rw [if_pos rfl, update_self, Option.map_id]
      rfl
    · rw [if_neg htt, update_of_ne htt]
  have hcap : (pipePass p t c).chan.core.cap = p.chan.core.cap := by
    rw [pipePass_eq]
    exact (pass_ringOk h.ring _ _ c).2
  simp only [Pipe.stream, Pipe.passed, Stream.setQueue, Stream.setCall, hcalls, hcap]

/-- **Every step of a pipe is a step of the abstract stream.** -/
theorem pipe_refines (h : p.Inv) (hs : Pipe.Step p l p') : Stream.Step p.stream l p'.stream := by
  cases hs with
  | start t ht =>
    rw [stream_setThr (by rw [ht]; rfl) rfl]
    exact Stream.Step.outer p.stream (.start t) trivial _ _
  | exit t ht =>
    rw [stream_setThr (by rw [ht]; rfl) rfl]
    exact Stream.Step.outer p.stream (.exit t) trivial _ _
  | call t c ht hc =>
    rw [stream_call]
    cases c with
    | read len => exact Stream.Step.callRead p.stream t len
    | write src done =>
      obtain rfl : done = 0 := hc
      exact Stream.Step.callWrite p.stream t src
  | pass t c ht =>
    rw [stream_passed h, pipePass_eq]
    exact pass_refines h.ring rfl rfl (by show (p.thr t).call? = _; rw [ht]; rfl) (h.done ht)
  | closeRead hr =>
    have hst : (pipeReleaseRead p).stream =
        { p.stream with readerGone := p.readers - 1 == 0, writerGone := p.writers == 0 } := by
      simp only [Pipe.stream, pipeReleaseRead, wake_call?]
    rw [hst]
    exact Stream.Step.outer p.stream .closeRead trivial _ _
  | closeWrite hw =>
    have hst : (pipeReleaseWrite p).stream =
        { p.stream with readerGone := p.readers == 0, writerGone := p.writers - 1 == 0 } := by
      simp only [Pipe.stream, pipeReleaseWrite, wake_call?]
    rw [hst]
    exact Stream.Step.outer p.stream .closeWrite trivial _ _

/-- Runs of a pipe are runs of its stream. -/
theorem pipe_run {ls : List Event} (h : Run Pipe.Step pipeOpen ls p) :
    p.Inv ∧ Run Stream.Step pipeOpen.stream ls p.stream := by
  have hrun := Run.project Pipe.stream some inv_pipeOpen (fun hi hs => inv_step hi hs)
    (fun hi hs e => by cases e; exact pipe_refines hi hs) (fun _ _ e => by cases e) h
  rwa [List.filterMap_some] at hrun

/-! ## Who is ready after a step -/

variable {thr : Tid → ThreadSt Call} {b : Bool} {ws : List Tid}

variable {r : PassResult} {t' : Tid}

/-- After a pass its own thread is not ready; the others are as the wakeups left them. -/
theorem readyFor_settle :
    ReadyFor b (settle id thr t r) t' ↔ t' ≠ t ∧ ReadyFor b (wake r.woken thr) t' := by
  unfold ReadyFor settle
  by_cases htt : t' = t
  · subst htt
    rw [update_self]
    cases r.next <;> simp
  · rw [update_of_ne htt]
    simp [htt]

theorem ReadyFor.wake (h : ReadyFor b thr t) (ws : List Tid) : ReadyFor b (wake ws thr) t := by
  obtain ⟨c, hb, hbusy, ht⟩ := h
  refine ⟨c, hb, hbusy, ?_⟩
  rw [wake_of_not_blocked fun c e => by rw [ht] at e; cases e]
  exact ht

variable {q : List Tid}

/-- Waking threads of one side makes nobody of the other side ready. -/
theorem readyFor_wake_other (hq : QueueOk (!b) q thr) (hws : ws ⊆ q) :
    ReadyFor b (wake ws thr) t ↔ ReadyFor b thr t := by
  refine ⟨?_, fun h => h.wake ws⟩
  rintro ⟨c, hb, hbusy, ht⟩
  by_cases hw : t ∈ ws
  · obtain ⟨c', hc', hblk⟩ := (hq.mem t).mp (hws hw)
    rw [wake_of_mem hw, hblk] at ht
    cases ht
    rw [hb] at hc'
    cases b <;> cases hc'
  · rw [wake_of_not_mem hw] at ht
    exact ⟨c, hb, hbusy, ht⟩

/-- Whoever is woken from a queue is ready, and is not the thread that runs. -/
theorem Pipe.Inv.woken_ready (h : p.Inv) (hq : QueueOk b q p.thr) (ht : p.thr t = .ready c)
    (hw : t' ∈ ws) (hws : ws ⊆ q) : t' ≠ t ∧ ReadyFor b (wake ws p.thr) t' := by
  obtain ⟨c', hc', hblk⟩ := (hq.mem t').mp (hws hw)
  refine ⟨fun e => ?_, c', hc', h.busy t' c' hblk, ?_⟩
  · rw [e, ht] at hblk
    cases hblk
  · rw [wake_of_mem hw, hblk]
    rfl

/-- A step that leaves channel and counts alone and nobody less ready. -/
theorem Served.mono (h : Served p) (hthr : ∀ b t, ReadyFor b p.thr t → ReadyFor b thr t) :
    Served { p with thr := thr } where
  reader hq hc := (h.reader hq hc).imp fun t ht => hthr true t ht
  writer hq hc := (h.writer hq hc).imp fun t ht => hthr false t ht
  eof := h.eof
  epipe := h.epipe

theorem Served.setThr (h : Served p) (hold : ∀ c, p.thr t ≠ .ready c) : Served (p.setThr t st) := by
  refine h.mono fun b t' => ?_
  rintro ⟨c, hb, hbusy, ht⟩
  have hne : t' ≠ t := fun e => hold c (by rw [← e]; exact ht)
  exact ⟨c, hb, hbusy, by rw [update_of_ne hne]; exact ht⟩

/-! ### Releases -/

theorem served_releaseRead (h : Served p) : Served (pipeReleaseRead p) := by
  unfold pipeReleaseRead
  by_cases hr : p.readers - 1 = 0
  · simp only [if_pos hr, wqWakeAll]
    exact ⟨fun hq hc => (h.reader hq hc).imp fun _ ht => ht.wake _, fun hq => absurd rfl hq,
      h.eof, fun _ => rfl⟩
  · simp only [if_neg hr]
    exact ⟨fun hq hc => (h.reader hq hc).imp fun _ ht => ht.wake [],
      fun hq hc => (h.writer hq hc).imp fun _ ht => ht.wake [], h.eof, fun e => absurd e hr⟩

theorem served_releaseWrite (h : Served p) : Served (pipeReleaseWrite p) := by
  unfold pipeReleaseWrite
  by_cases hw : p.writers - 1 = 0
  · simp only [if_pos hw, wqWakeAll]
    exact ⟨fun hq => absurd rfl hq, fun hq hc => (h.writer hq hc).imp fun _ ht => ht.wake _,
      fun _ => rfl, h.epipe⟩
  · simp only [if_neg hw]
    exact ⟨fun hq hc => (h.reader hq hc).imp fun _ ht => ht.wake [],
      fun hq hc => (h.writer hq hc).imp fun _ ht => ht.wake [], fun e => absurd e hw, h.epipe⟩

/-! ### Passes -/

/-- A waiting queue longer than one has a thread woken from it. -/
theorem wake_head (h : q.drop 1 ≠ []) : ∃ t, t ∈ q.take 1 := by
  cases q with
  | nil => exact absurd rfl h
  | cons x xs => exact ⟨x, by simp⟩

/-- A pass that changes nothing but take its thread, of no use to anybody, out of its call. -/
theorem Served.idle (h : Served p) (hchan : r.chan = p.chan) (ht : ∀ b, ¬ ReadyFor b p.thr t) :
    Served (p.passed t r) := by
  unfold Pipe.passed
  rw [hchan]
  refine h.mono fun b t' ht' => readyFor_settle.mpr ⟨?_, ht'.wake _⟩
  rintro rfl
  exact ht b ht'

variable {src : List UInt8}

section

variable (hi : p.Inv) (h : Served p)
include hi h

theorem served_read_iff {len : Nat} (ht : p.thr t = .ready (.read len)) :
    Served (p.passed t (pipePass p t (.read len))) ↔
      StepOk p (.pass t (.read len) (pipePass p t (.read len)).moved
        (pipePass p t (.read len)).next.ret?) := by
  by_cases hlen : len = 0
  · subst hlen
    refine iff_of_true (h.idle rfl ?_) fun h => absurd h (by omega)
    rintro b ⟨c, hb, hbusy, hc⟩
    rw [ht] at hc
    cases hc
    exact absurd hbusy (Nat.lt_irrefl 0)
  have hlen' : 0 < len := Nat.pos_of_ne_zero hlen
  -- the reader itself never counts after its pass
  have hreader : ∀ ws, ws ⊆ p.chan.writeWait → ∀ t',
      (t' ≠ t ∧ ReadyFor true (wake ws p.thr) t') ↔ t' ≠ t ∧ ReadyFor true p.thr t' :=
    fun ws hws t' => and_congr_right fun _ => readyFor_wake_other hi.queues.writes hws
  have hwriter : ∀ t', ReadyFor false p.thr t' → t' ≠ t := by
    rintro t' ⟨c, hb, -, hc⟩ rfl
    rw [ht] at hc
    cases hc
    cases hb
  simp only [pipePass, pipeRead]
  rcases readPass_cases hi.ring hlen' (p.writers == 0) t with ⟨hc, e⟩ | ⟨hc, hg, e⟩ | ⟨hc, hg, e⟩
  · have hws : p.chan.writeWait.take 1 ⊆ p.chan.writeWait := List.take_subset _ _
    rw [e]
    constructor
    · intro hs _ hlt hq
      have hcount : 0 < (pipeCoreRead p.chan.core len).2.count := by
        rw [pipeCoreRead_count]; omega
      obtain ⟨t', ht'⟩ := hs.reader hq hcount
      exact ⟨t', (hreader _ hws t').mp (readyFor_settle.mp ht')⟩
    · intro hok
      constructor
      · intro hq hcount
        simp only [Pipe.passed, pipeCoreRead_count] at hcount
        obtain ⟨t', ht'⟩ := hok hlen' (by omega) hq
        exact ⟨t', readyFor_settle.mpr ((hreader _ hws t').mpr ht')⟩
      · intro hq _
        obtain ⟨t', ht'⟩ := wake_head hq
        exact ⟨t', readyFor_settle.mpr (hi.woken_ready hi.queues.writes ht ht' hws)⟩
      · exact h.eof
      · intro hr
        simp only [Pipe.passed, h.epipe hr, List.drop_nil]
  · -- end of file: nobody sleeps in a read
    rw [e]
    refine iff_of_true ⟨fun _ hcount => ?_, fun hq hsp => ?_, h.eof, h.epipe⟩ fun _ hlt => ?_
    · simp only [Pipe.passed, pipeCoreRead_count] at hcount
      omega
    · simp only [Pipe.passed, pipeCoreSpace, pipeCoreRead_count, pipeCoreRead_cap] at hsp
      obtain ⟨t', ht'⟩ := h.writer hq (by unfold pipeCoreSpace; omega)
      exact ⟨t', readyFor_settle.mpr ⟨hwriter t' ht', ht'.wake _⟩⟩
    · omega
  · rw [e]
    refine iff_of_true ⟨fun _ hcount => ?_, fun hq hsp => ?_, fun hw => ?_, h.epipe⟩ fun _ hlt => ?_
    · simp only [Pipe.passed, pipeCoreRead_count] at hcount
      omega
    · simp only [Pipe.passed, pipeCoreSpace, pipeCoreRead_count, pipeCoreRead_cap] at hsp
      obtain ⟨t', ht'⟩ := h.writer hq (by unfold pipeCoreSpace; omega)
      exact ⟨t', readyFor_settle.mpr ⟨hwriter t' ht', ht'.wake _⟩⟩
    · have hw0 : p.writers = 0 := hw
      rw [hw0] at hg
      cases hg
    · omega

/-- After a write pass by `t` a reader left asleep over data has a reader awake. -/
theorem reader_after_write {done n : Nat} (ht : p.thr t = .ready (.write src done))
    (hq : (wqWakeIf n p.chan.readWait).1 ≠ []) (hc : 0 < p.chan.core.count + n) :
    ∃ t', t' ≠ t ∧ ReadyFor true (wake (wqWakeIf n p.chan.readWait).2 p.thr) t' := by
  unfold wqWakeIf wqWakeOne at hq ⊢
  by_cases hn : n > 0
  · rw [if_pos hn] at hq ⊢
    obtain ⟨t', ht'⟩ := wake_head hq
    exact ⟨t', hi.woken_ready hi.queues.reads ht ht' (List.take_subset _ _)⟩
  · rw [if_neg hn] at hq ⊢
    obtain ⟨t', ht'⟩ := h.reader hq (by omega)
    refine ⟨t', ?_, ht'.wake _⟩
    rintro rfl
    obtain ⟨c, hb, -, hc⟩ := ht'
    rw [ht] at hc
    cases hc
    cases hb

theorem served_write_iff {done : Nat} (ht : p.thr t = .ready (.write src done)) :
    Served (p.passed t (pipePass p t (.write src done))) ↔
      StepOk p (.pass t (.write src done) (pipePass p t (.write src done)).moved
        (pipePass p t (.write src done)).next.ret?) := by
  by_cases hsrc : src = []
  · subst hsrc
    refine iff_of_true (h.idle rfl ?_) fun h => absurd rfl h
    rintro b ⟨c, hb, hbusy, hc⟩
    rw [ht] at hc
    cases hc
    exact absurd rfl hbusy
  have hne : ¬ src.length = 0 := fun h => hsrc (List.eq_nil_of_length_eq_zero h)
  simp only [pipePass, pipeWrite]
  by_cases hr : p.readers = 0
  · -- the reader is gone: the writer leaves, and nobody sleeps in a write
    have e : writePass (p.readers == 0) p.chan t src done =
        ⟨p.chan, [], [], .ret (if done > 0 then done else -ePipe)⟩ := by
      simp only [writePass, if_neg hne, hr, beq_self_eq_true, if_true]
    rw [e]
    refine iff_of_true ⟨fun hq hc => ?_, fun hq => absurd (h.epipe hr) hq, h.eof, h.epipe⟩
      fun _ hr' => absurd hr hr'
    obtain ⟨t', ht'⟩ := reader_after_write (n := 0) hi h ht hq hc
    exact ⟨t', readyFor_settle.mpr ht'⟩
  · rw [show (p.readers == 0) = false from beq_false_of_ne hr]
    have heof : ∀ n, p.writers = 0 → (wqWakeIf n p.chan.readWait).1 = [] := fun n hw => by
      rw [h.eof hw]
      unfold wqWakeIf
      split <;> rfl
    have hcap := hi.ring.count_le
    have hws : ∀ n, (wqWakeIf n p.chan.readWait).2 ⊆ p.chan.readWait := fun n => by
      conv_rhs => rw [wqWakeIf_split n p.chan.readWait]
      exact List.subset_append_left _ _
    have hfst := pipeCoreWrite_fst p.chan.core (src.drop done)
    rw [List.length_drop] at hfst
    generalize hn : min (src.length - done) (p.chan.core.cap - p.chan.core.count) = n at hfst
    rcases writePass_cases hi.ring (hi.done ht src done rfl) hsrc t hn.symm with
      ⟨hall, e⟩ | ⟨hpart, hfull, e⟩
    · rw [e]
      constructor
      · intro hs _ _ hlt hq
        unfold pipeCoreSpace at hlt
        obtain ⟨t', ht'⟩ := hs.writer hq (by
          simp only [Pipe.passed, pipeCoreSpace, pipeCoreWrite_count, pipeCoreWrite_cap, hfst]
          omega)
        obtain ⟨hne', ht'⟩ := readyFor_settle.mp ht'
        exact ⟨t', hne', (readyFor_wake_other (b := false) hi.queues.reads (hws n)).mp ht'⟩
      · intro hok
        refine ⟨fun hq hc => ?_, fun hq hsp => ?_, heof n, fun hr' => absurd hr' hr⟩
        · simp only [Pipe.passed, pipeCoreWrite_count, hfst] at hc
          obtain ⟨t', ht'⟩ := reader_after_write hi h ht hq hc
          exact ⟨t', readyFor_settle.mpr ht'⟩
        · simp only [Pipe.passed, pipeCoreSpace, pipeCoreWrite_count, pipeCoreWrite_cap, hfst] at hsp
          obtain ⟨t', hne', ht'⟩ := hok hsrc hr (by unfold pipeCoreSpace; omega) hq
          exact ⟨t', readyFor_settle.mpr ⟨hne', ht'.wake _⟩⟩
    · -- the ring is full: the writer sleeps with the others
      rw [e]
      refine iff_of_true ⟨fun hq hc => ?_, fun hq hsp => ?_, heof n, fun hr' => absurd hr' hr⟩
        fun _ _ hlt => ?_
      · simp only [Pipe.passed, pipeCoreWrite_count, hfst] at hc
        obtain ⟨t', ht'⟩ := reader_after_write hi h ht hq hc
        exact ⟨t', readyFor_settle.mpr ht'⟩
      · simp only [Pipe.passed, pipeCoreSpace, pipeCoreWrite_count, pipeCoreWrite_cap, hfst] at hsp
        omega
      · unfold pipeCoreSpace at hlt
        omega

/-- **A step keeps the waiters served iff it meets `StepOk`.** -/
theorem served_step_iff (hs : Pipe.Step p l p') : Served p' ↔ StepOk p l := by
  cases hs with
  | start t ht =>
    exact iff_of_true (h.setThr fun c e => by rw [ht] at e; cases e) trivial
  | exit t ht =>
    exact iff_of_true (h.setThr fun c e => by rw [ht] at e; cases e) trivial
  | call t c ht hc =>
    exact iff_of_true (h.setThr fun c e => by rw [ht] at e; cases e) trivial
  | pass t c ht =>
    cases c with
    | read len => exact served_read_iff hi h ht
    | write src done => exact served_write_iff hi h ht
  | closeRead hr => exact iff_of_true (served_releaseRead h) trivial
  | closeWrite hw => exact iff_of_true (served_releaseWrite h) trivial

end

theorem served_pipeOpen : Served pipeOpen :=
  ⟨fun h => absurd rfl h, fun h => absurd rfl h, fun _ => rfl, fun _ => rfl⟩

theorem Pipe.ReachOk.inv (h : p.ReachOk) : p.Inv ∧ Served p := by
  refine ReachVia.invariant (P := fun p => p.Inv ∧ Served p) ⟨inv_pipeOpen, served_pipeOpen⟩ ?_ h
  rintro p l p' ⟨hi, hs⟩ hok hstep
  exact ⟨inv_step hi hstep, (served_step_iff hi hs hstep).mpr hok⟩

end Hallucinate.Fs
