import Hallucinate.Fs.Pipe

/-!
# Socket pairs (`kernel/fs/socket.c`)

Two channels, `chan i` written by end `i` and read by end `1 - i`; both roles of an end close
together. A thread's call is tagged with the end it was made on.

Results: a thread asleep in `socket_read` on end `e` is on `chan[1 - e].read_wait` and one asleep
in `socket_write` on `chan[e].write_wait` (`Socket.Inv`). `socket_release(e)` wakes exactly those
two queues, which hold the threads of end `e` itself, and not the peer's. **`socketRelease_exact`**:
after the release no thread of the peer is on a queue iff none was before; then none ever is again
and each of the peer's calls ends with its next pass. `socketRelease_strands` is a peer left
asleep. `socket_refines` is the refinement of one abstract stream for each direction.

Left out: `socket_fstat`, the argument checks and allocation failures of `socketpair_open`.
-/

namespace Hallucinate.Fs

open Hallucinate.Lib Function

/-- `SOCK_CAPACITY`. -/
def sockCapacity : Nat := 4096

/-- `struct socket_pair`, and the threads that use it. -/
structure Socket where
  chan : Fin 2 → Chan
  endOpen : Fin 2 → Bool
  thr : Tid → ThreadSt (Fin 2 × Call)

/-- `socketpair_open`. -/
def socketpairOpen : Socket where
  chan _ := ⟨pipeCoreInit (fun _ => 0) sockCapacity, [], []⟩
  endOpen _ := true
  thr _ := .out

/-- The channel a call on end `self` works on: a read uses the one the peer writes. -/
def Call.dir (self : Fin 2) : Call → Fin 2
  | .read _ => 1 - self
  | .write _ _ => self

/-- One pass of the loop of `socket_read` on end `self`. -/
def socketRead (s : Socket) (self : Fin 2) (t : Tid) (len : Nat) : PassResult :=
  readPass (!s.endOpen (1 - self)) (s.chan (1 - self)) t len

/-- One pass of the loop of `socket_write` on end `self`. -/
def socketWrite (s : Socket) (self : Fin 2) (t : Tid) (src : List UInt8) (done : Nat) :
    PassResult :=
  writePass (!s.endOpen (1 - self)) (s.chan self) t src done

def socketPass (s : Socket) (self : Fin 2) (t : Tid) : Call → PassResult
  | .read len => socketRead s self t len
  | .write src done => socketWrite s self t src done

/-- The pair after a pass by `t` on end `self`. -/
def Socket.passed (s : Socket) (self : Fin 2) (t : Tid) (c : Call) (r : PassResult) : Socket :=
  { s with
    chan := update s.chan (c.dir self) r.chan
    thr := settle (Prod.mk self) s.thr t r }

/-- `socket_release` of end `self`. -/
def socketRelease (s : Socket) (self : Fin 2) : Socket :=
  let mine := s.chan self
  let theirs := s.chan (1 - self)
  let w := wqWakeAll mine.writeWait
  let r := wqWakeAll theirs.readWait
  { chan := update (update s.chan self { mine with writeWait := w.1 })
      (1 - self) { theirs with readWait := r.1 }
    endOpen := update s.endOpen self false
    thr := wake r.2 (wake w.2 s.thr) }

def Socket.setThr (s : Socket) (t : Tid) (st : ThreadSt (Fin 2 × Call)) : Socket :=
  { s with thr := update s.thr t st }

/-- What a thread does with the pair. -/
inductive SockEvent
  | start (t : Tid)
  | exit (t : Tid)
  | call (self : Fin 2) (t : Tid) (c : Call)
  | pass (self : Fin 2) (t : Tid) (c : Call) (moved : List UInt8) (ret : Option Int)
  | release (self : Fin 2)
  deriving DecidableEq, Repr

inductive Socket.Step : Socket → SockEvent → Socket → Prop
  | start (s t) (h : s.thr t = .out) : Step s (.start t) (s.setThr t .user)
  | exit (s t) (h : s.thr t = .user) : Step s (.exit t) (s.setThr t .out)
  | call (s self t c) (h : s.thr t = .user) (hc : c.Fresh) :
      Step s (.call self t c) (s.setThr t (.ready (self, c)))
  | pass (s self t c) (h : s.thr t = .ready (self, c)) :
      Step s (.pass self t c (socketPass s self t c).moved (socketPass s self t c).next.ret?)
        (s.passed self t c (socketPass s self t c))
  | release (s self) (h : s.endOpen self = true) : Step s (.release self) (socketRelease s self)

/-- States reached from `s₀` by any interleaving. -/
def Socket.ReachFrom (s₀ : Socket) : Socket → Prop := ReachVia Socket.Step (fun _ _ => True) s₀

/-- States of a pair. -/
def Socket.Reach : Socket → Prop := Socket.ReachFrom socketpairOpen

/-- Thread `t` has called `socket_read` or `socket_write` on end `e` and is still inside. -/
def Called (s : Socket) (e : Fin 2) (t : Tid) : Prop := ∃ c, (s.thr t).call? = some (e, c)

/-- What direction `d` sees of a thread: calls that use the other one look like user code. -/
def view (d : Fin 2) : ThreadSt (Fin 2 × Call) → ThreadSt Call
  | .out => .out
  | .user => .user
  | .ready (e, c) => if c.dir e = d then .ready c else .user
  | .blocked (e, c) => if c.dir e = d then .blocked c else .user

def Socket.viewThr (s : Socket) (d : Fin 2) : Tid → ThreadSt Call := fun t => view d (s.thr t)

/-- What every interleaving keeps, for each direction. -/
structure Socket.Inv (s : Socket) : Prop where
  ring : ∀ d, RingOk (s.chan d).core
  queues : ∀ d, QueuesOk (s.chan d) (s.viewThr d)
  done_le : ∀ t e src done, (s.thr t).call? = some (e, .write src done) → done ≤ src.length

variable {s s' : Socket} {e d self : Fin 2} {t : Tid} {c : Call} {l : SockEvent}

theorem other_other : ∀ e : Fin 2, 1 - (1 - e) = e := by decide

theorem other_ne : ∀ e : Fin 2, 1 - e ≠ e := by decide

theorem eq_other_of_ne : ∀ e d : Fin 2, d ≠ e → d = 1 - e := by decide

/-- A pass of `socket_read` or `socket_write` is a pass on the channel the call uses, with the
flags of that channel's two sides. -/
theorem socketPass_eq (s : Socket) (self : Fin 2) (t : Tid) (c : Call) :
    socketPass s self t c =
      pass (!s.endOpen (1 - c.dir self)) (!s.endOpen (c.dir self)) (s.chan (c.dir self)) t c := by
  cases c with
  | read len => rfl
  | write src done => rfl

@[simp] theorem view_woken (d : Fin 2) (st : ThreadSt (Fin 2 × Call)) :
    view d st.woken = (view d st).woken := by
  cases st with
  | blocked k =>
    obtain ⟨e, c⟩ := k
    by_cases h : c.dir e = d <;> simp [view, ThreadSt.woken, h]
  | ready k =>
    obtain ⟨e, c⟩ := k
    by_cases h : c.dir e = d <;> simp [view, ThreadSt.woken, h]
  | _ => rfl

theorem view_wake (d : Fin 2) (ws : List Tid) (thr : Tid → ThreadSt (Fin 2 × Call)) :
    (fun t => view d (wake ws thr t)) = wake ws fun t => view d (thr t) := by
  funext t
  unfold wake
  split
  · exact view_woken d _
  · rfl

theorem view_update (d : Fin 2) (thr : Tid → ThreadSt (Fin 2 × Call)) (t : Tid)
    (st : ThreadSt (Fin 2 × Call)) :
    (fun t' => view d (update thr t st t')) =
      update (fun t' => view d (thr t')) t (view d st) := by
  funext t'
  by_cases htt : t' = t
  · subst htt
    rw [update_self, update_self]
  · rw [update_of_ne htt, update_of_ne htt]

/-- The direction a pass works on sees it as a pass of a single channel. -/
theorem viewThr_settle_same (r : PassResult) (hr : ∀ c', r.next = .block c' → c'.dir self = d) :
    (fun t' => view d (settle (Prod.mk self) s.thr t r t')) = settle id (s.viewThr d) t r := by
  unfold settle
  rw [view_update, view_wake]
  congr 1
  cases hn : r.next with
  | ret v => rfl
  | block c' => simp [view, hr c' hn]

variable {c' : Call}

theorem dir_of_isRead (h : c'.isRead = c.isRead) (self : Fin 2) : c'.dir self = c.dir self := by
  cases c <;> cases c' <;> first | rfl | cases h

variable {st : ThreadSt (Fin 2 × Call)}

variable {d' : Fin 2}

/-- A thread one direction sees asleep is in user code for the other. -/
theorem view_other (hne : d ≠ d') {c : Call} (h : view d' st = .blocked c) : view d st = .user := by
  cases st with
  | blocked k =>
    obtain ⟨e, c'⟩ := k
    by_cases hd : c'.dir e = d'
    · simp [view, hd, hne.symm]
    · simp [view, hd] at h
  | ready k =>
    obtain ⟨e, c'⟩ := k
    by_cases hd : c'.dir e = d' <;> simp [view, hd] at h
  | _ => cases h

/-- Wakeups on one channel are not seen by the other direction. -/
theorem Socket.Inv.view_wake_other (h : s.Inv) (hne : d ≠ d') {ws : List Tid}
    (hws : ∀ x ∈ ws, x ∈ (s.chan d').readWait ∨ x ∈ (s.chan d').writeWait) :
    wake ws (s.viewThr d) = s.viewThr d := by
  funext t
  by_cases ht : t ∈ ws
  · have hview : view d (s.thr t) = .user := by
      rcases hws t ht with hq | hq
      · obtain ⟨c, -, hb⟩ := ((h.queues d').reads.mem t).mp hq
        exact view_other hne hb
      · obtain ⟨c, -, hb⟩ := ((h.queues d').writes.mem t).mp hq
        exact view_other hne hb
    rw [wake_of_mem ht]
    simp only [Socket.viewThr, hview, ThreadSt.woken]
  · rw [wake_of_not_mem ht]

theorem inv_socketpairOpen : socketpairOpen.Inv := by
  have hq : ∀ d b, QueueOk b [] (socketpairOpen.viewThr d) := fun d b => by
    refine ⟨List.nodup_nil, fun t => ?_⟩
    simp [Socket.viewThr, socketpairOpen, view]
  refine ⟨fun d => ringOk_init _ (by decide), fun d => ⟨hq d true, hq d false⟩,
    fun t e src done h => ?_⟩
  cases h

theorem view_awake (h : ∀ k, st ≠ .blocked k) (d : Fin 2) (c : Call) : view d st ≠ .blocked c := by
  cases st with
  | blocked k => exact absurd rfl (h k)
  | ready k =>
    obtain ⟨e, c'⟩ := k
    by_cases hd : c'.dir e = d <;> simp [view, hd]
  | _ => exact fun e => by cases e

theorem Socket.Inv.setThr (h : s.Inv) (hold : ∀ k, s.thr t ≠ .blocked k)
    (hnew : ∀ k, st ≠ .blocked k)
    (hd : ∀ e src done, st.call? = some (e, .write src done) → done ≤ src.length) :
    (s.setThr t st).Inv where
  ring := h.ring
  queues d := by
    have hview : (s.setThr t st).viewThr d = update (s.viewThr d) t (view d st) :=
      view_update d s.thr t st
    rw [hview]
    exact QueuesOk.awake (h.queues d) (view_awake hold d) (view_awake hnew d)
  done_le t' e src done hc := by
    by_cases htt : t' = t
    · subst htt
      simp only [Socket.setThr, update_self] at hc
      exact hd e src done hc
    · simp only [Socket.setThr, update_of_ne htt] at hc
      exact h.done_le t' e src done hc

theorem Socket.Inv.done (h : s.Inv) (ht : s.thr t = .ready (self, c)) :
    ∀ src done, c = .write src done → done ≤ src.length := fun src done e =>
  h.done_le t self src done (by rw [ht, e]; rfl)

theorem viewThr_ready (ht : s.thr t = .ready (self, c)) :
    s.viewThr (c.dir self) t = .ready c := by
  simp [Socket.viewThr, ht, view]

section

variable (h : s.Inv) (ht : s.thr t = .ready (self, c))
include h ht

/-- The call a pass sleeps in uses the same direction. -/
theorem socketPass_dir (hb : (socketPass s self t c).next = .block c') :
    c'.dir self = c.dir self := by
  rw [socketPass_eq] at hb
  exact dir_of_isRead (pass_block (h.ring _) (h.done ht) hb).1 self

/-- The thread states one direction sees after a pass on the other. -/
theorem viewThr_passed_other (hne : d ≠ c.dir self) :
    (s.passed self t c (socketPass s self t c)).viewThr d = s.viewThr d := by
  have hdir : ∀ c', (socketPass s self t c).next = .block c' → c'.dir self = c.dir self :=
    fun _ hb => socketPass_dir h ht hb
  have hwoken : wake (socketPass s self t c).woken (s.viewThr d) = s.viewThr d := by
    rw [socketPass_eq]
    exact h.view_wake_other hne (pass_woken _ _ _ t c)
  have huser : s.viewThr d t = .user := by simp [Socket.viewThr, ht, view, hne.symm]
  unfold Socket.viewThr at hwoken huser ⊢
  simp only [Socket.passed, settle]
  rw [view_update, view_wake, hwoken]
  funext t'
  by_cases htt : t' = t
  · subst htt
    rw [update_self, huser]
    cases hn : (socketPass s self t' c).next with
    | ret v => rfl
    | block c' => simp [view, hdir c' hn, hne.symm]
  · rw [update_of_ne htt]

theorem viewThr_passed_same : (s.passed self t c (socketPass s self t c)).viewThr (c.dir self) =
      settle id (s.viewThr (c.dir self)) t (socketPass s self t c) :=
  viewThr_settle_same _ fun _ hb => socketPass_dir h ht hb

theorem inv_socketPassed : (s.passed self t c (socketPass s self t c)).Inv := by
  refine ⟨fun d => ?_, fun d => ?_, fun t' e src done hc => ?_⟩
  · by_cases hd : d = c.dir self
    · subst hd
      simp only [Socket.passed, update_self, socketPass_eq]
      exact (pass_ringOk (h.ring _) _ _ c).1
    · simp only [Socket.passed, update_of_ne hd]
      exact h.ring d
  · by_cases hd : d = c.dir self
    · subst hd
      rw [viewThr_passed_same h ht]
      simp only [Socket.passed, update_self, socketPass_eq]
      exact (h.queues _).pass (h.ring _) (viewThr_ready ht) (h.done ht) _ _
    · rw [viewThr_passed_other h ht hd]
      simp only [Socket.passed, update_of_ne hd]
      exact h.queues d
  · simp only [Socket.passed, settle_call?] at hc
    split at hc
    · cases hn : (socketPass s self t c).next with
      | ret v => rw [hn] at hc; cases hc
      | block c' =>
        rw [hn] at hc
        rw [socketPass_eq] at hn
        refine (pass_block (h.ring _) (h.done ht) hn).2.2 src done ?_
        simp only [Next.call?, Option.map_some, Option.some.injEq, Prod.mk.injEq] at hc
        exact hc.2
    · exact h.done_le t' e src done hc

end

/-- The channels after a release: the closing end's write queue and read queue are emptied. -/
theorem socketRelease_chan (s : Socket) (self d : Fin 2) :
    (socketRelease s self).chan d =
      if d = self then ⟨(s.chan d).core, (s.chan d).readWait, []⟩
      else ⟨(s.chan d).core, [], (s.chan d).writeWait⟩ := by
  by_cases hd : d = self
  · subst hd
    simp only [socketRelease, update_of_ne (other_ne d).symm, update_self,
      wqWakeAll, if_true]
  · rw [if_neg hd, eq_other_of_ne self d hd]
    simp only [socketRelease, update_self, wqWakeAll]

/-- Each direction sees only its own queue woken. -/
theorem viewThr_release (h : s.Inv) (self d : Fin 2) :
    (socketRelease s self).viewThr d =
      wake (if d = self then (s.chan d).writeWait else (s.chan d).readWait) (s.viewThr d) := by
  have hboth : (socketRelease s self).viewThr d =
      wake (s.chan (1 - self)).readWait (wake (s.chan self).writeWait (s.viewThr d)) :=
    (view_wake d _ _).trans (congrArg (wake _) (view_wake d _ _))
  rw [hboth]
  by_cases hd : d = self
  · subst hd
    rw [if_pos rfl, wake_comm, h.view_wake_other (other_ne d).symm fun x hx => Or.inl hx]
  · rw [if_neg hd, h.view_wake_other hd fun x hx => Or.inr hx, eq_other_of_ne self d hd]

theorem inv_socketRelease (h : s.Inv) (self : Fin 2) : (socketRelease s self).Inv := by
  refine ⟨fun d => ?_, fun d => ?_, fun t e src done hc => ?_⟩
  · rw [socketRelease_chan]
    split <;> exact h.ring d
  · rw [socketRelease_chan, viewThr_release h]
    split
    · exact (h.queues d).wakeWriters (List.append_nil _).symm
    · exact (h.queues d).wakeReaders (List.append_nil _).symm
  · simp only [socketRelease, wake_call?] at hc
    exact h.done_le t e src done hc

theorem inv_socketStep (h : s.Inv) (hs : Socket.Step s l s') : s'.Inv := by
  cases hs with
  | start t ht =>
    exact h.setThr (fun k e => by rw [ht] at e; cases e) (fun k e => by cases e)
      fun _ _ _ e => by cases e
  | exit t ht =>
    exact h.setThr (fun k e => by rw [ht] at e; cases e) (fun k e => by cases e)
      fun _ _ _ e => by cases e
  | call self t c ht hc =>
    refine h.setThr (fun k e => by rw [ht] at e; cases e) (fun k e => by cases e)
      fun e src done he => ?_
    cases he
    rw [show done = 0 from hc]
    exact Nat.zero_le _
  | pass self t c ht => exact inv_socketPassed h ht
  | release self hop => exact inv_socketRelease h self

theorem Socket.Reach.inv (h : s.Reach) : s.Inv :=
  ReachVia.invariant inv_socketpairOpen (fun hi _ hs => inv_socketStep hi hs) h

/-! ## Who sleeps where -/

/-- A queued reader of direction `d` called on end `1 - d`, a queued writer on end `d`. -/
theorem Socket.Inv.queued (h : s.Inv) :
    (t ∈ (s.chan d).readWait → ∃ c, c.isRead = true ∧ s.thr t = .blocked (1 - d, c)) ∧
      (t ∈ (s.chan d).writeWait → ∃ c, c.isRead = false ∧ s.thr t = .blocked (d, c)) := by
  have hview : ∀ c, view d (s.thr t) = .blocked c → ∃ e, s.thr t = .blocked (e, c) ∧ c.dir e = d := by
    intro c hv
    cases hst : s.thr t with
    | blocked k =>
      obtain ⟨e, c'⟩ := k
      rw [hst] at hv
      by_cases hd : c'.dir e = d
      · simp only [view, hd, if_true, ThreadSt.blocked.injEq] at hv
        subst hv
        exact ⟨e, rfl, hd⟩
      · simp [view, hd] at hv
    | ready k =>
      obtain ⟨e, c'⟩ := k
      rw [hst] at hv
      by_cases hd : c'.dir e = d <;> simp [view, hd] at hv
    | out => rw [hst] at hv; cases hv
    | user => rw [hst] at hv; cases hv
  constructor
  · intro hq
    obtain ⟨c, hc, hb⟩ := ((h.queues d).reads.mem t).mp hq
    obtain ⟨e, hthr, hdir⟩ := hview c hb
    cases c with
    | read len =>
      obtain rfl : 1 - e = d := hdir
      exact ⟨_, rfl, by rw [other_other]; exact hthr⟩
    | write src done => cases hc
  · intro hq
    obtain ⟨c, hc, hb⟩ := ((h.queues d).writes.mem t).mp hq
    obtain ⟨e, hthr, hdir⟩ := hview c hb
    cases c with
    | read len => cases hc
    | write src done =>
      obtain rfl : e = d := hdir
      exact ⟨_, rfl, hthr⟩

/-- The stream one direction of a pair stands for. -/
def Socket.stream (s : Socket) (d : Fin 2) : Stream where
  queue := content (s.chan d).core
  cap := (s.chan d).core.cap
  readerGone := !s.endOpen (1 - d)
  writerGone := !s.endOpen d
  calls t := (s.viewThr d t).call?

/-- What direction `d` sees of an event. -/
def onDir (d : Fin 2) : SockEvent → Option Event
  | .start t => some (.start t)
  | .exit t => some (.exit t)
  | .call e t c => if c.dir e = d then some (.call t c) else none
  | .pass e t c bs ret => if c.dir e = d then some (.pass t c bs ret) else none
  | .release e => some (if e = d then .closeWrite else .closeRead)

/-- A direction that sees a thread in the same call sees the same stream. -/
theorem stream_setThr_same (h : (view d st).call? = (view d (s.thr t)).call?) :
    (s.setThr t st).stream d = s.stream d := by
  have hcalls : (fun t' => ((s.setThr t st).viewThr d t').call?) =
      fun t' => (s.viewThr d t').call? := by
    funext t'
    by_cases htt : t' = t
    · subst htt
      simp only [Socket.viewThr, Socket.setThr, update_self, h]
    · simp only [Socket.viewThr, Socket.setThr, update_of_ne htt]
  simp only [Socket.stream, hcalls]
  rfl

theorem stream_socketCall (s : Socket) (self : Fin 2) (t : Tid) (c : Call) :
    (s.setThr t (.ready (self, c))).stream (c.dir self) =
      (s.stream (c.dir self)).setCall t (some c) := by
  have hcalls : (fun t' => ((s.setThr t (.ready (self, c))).viewThr (c.dir self) t').call?) =
      update (fun t' => (s.viewThr (c.dir self) t').call?) t (some c) := by
    funext t'
    by_cases htt : t' = t
    · subst htt
      simp only [Socket.viewThr, Socket.setThr, update_self, view, if_true,
        ThreadSt.call?]
    · simp only [Socket.viewThr, Socket.setThr, update_of_ne htt]
  simp only [Socket.stream, Stream.setCall, hcalls]
  rfl

theorem stream_socketPassed (h : s.Inv) (ht : s.thr t = .ready (self, c)) :
    (s.passed self t c (socketPass s self t c)).stream (c.dir self) =
      ((s.stream (c.dir self)).setQueue (content (socketPass s self t c).chan.core)).setCall t
        (socketPass s self t c).next.call? := by
  have hcalls : (fun t' => ((s.passed self t c (socketPass s self t c)).viewThr
      (c.dir self) t').call?) = update (fun t' => (s.viewThr (c.dir self) t').call?) t
        (socketPass s self t c).next.call? := by
    funext t'
    rw [viewThr_passed_same h ht, settle_call?]
    by_cases htt : t' = t
    · subst htt
      rw [if_pos rfl, update_self, Option.map_id]
      rfl
    · rw [if_neg htt, update_of_ne htt]
  have hcap : (socketPass s self t c).chan.core.cap = (s.chan (c.dir self)).core.cap := by
    rw [socketPass_eq]
    exact (pass_ringOk (h.ring _) _ _ c).2
  simp only [Socket.stream, Stream.setQueue, Stream.setCall, hcalls]
  simp only [Socket.passed, update_self, hcap]

/-- **Every step of a pair is, in each direction, a step of the abstract stream or none.** -/
theorem socket_refines (h : s.Inv) (hs : Socket.Step s l s') (d : Fin 2) :
    (∀ e, onDir d l = some e → Stream.Step (s.stream d) e (s'.stream d)) ∧
      (onDir d l = none → s'.stream d = s.stream d) := by
  cases hs with
  | start t ht =>
    refine ⟨fun e he => ?_, fun he => by cases he⟩
    cases he
    rw [stream_setThr_same (by rw [ht]; rfl)]
    exact Stream.Step.outer (s.stream d) (.start t) trivial _ _
  | exit t ht =>
    refine ⟨fun e he => ?_, fun he => by cases he⟩
    cases he
    rw [stream_setThr_same (by rw [ht]; rfl)]
    exact Stream.Step.outer (s.stream d) (.exit t) trivial _ _
  | call self t c ht hc =>
    by_cases hd : c.dir self = d
    · subst hd
      refine ⟨fun e he => ?_, fun he => by simp [onDir] at he⟩
      simp only [onDir, if_true, Option.some.injEq] at he
      subst he
      rw [stream_socketCall]
      cases c with
      | read len => exact Stream.Step.callRead _ t len
      | write src done =>
        obtain rfl : done = 0 := hc
        exact Stream.Step.callWrite _ t src
    · refine ⟨fun e he => by simp [onDir, hd] at he, fun _ => ?_⟩
      refine stream_setThr_same ?_
      rw [ht]
      simp only [view, hd, if_false]
  | pass self t c ht =>
    by_cases hd : c.dir self = d
    · subst hd
      refine ⟨fun e he => ?_, fun he => by simp [onDir] at he⟩
      simp only [onDir, if_true, Option.some.injEq] at he
      subst he
      rw [stream_socketPassed h ht, socketPass_eq]
      have hcall : (s.stream (c.dir self)).calls t = some c := by
        simp only [Socket.stream, viewThr_ready ht, ThreadSt.call?]
      exact pass_refines (h.ring _) rfl rfl hcall (h.done ht)
    · refine ⟨fun e he => by simp [onDir, hd] at he, fun _ => ?_⟩
      have hview := viewThr_passed_other h ht (fun e => hd e.symm : d ≠ c.dir self)
      simp only [Socket.stream, hview]
      simp only [Socket.passed, update_of_ne (fun e => hd e.symm : d ≠ c.dir self)]
  | release self hop =>
    refine ⟨fun e he => ?_, fun he => by cases he⟩
    have hst : (socketRelease s self).stream d =
        { s.stream d with
          readerGone := !(socketRelease s self).endOpen (1 - d)
          writerGone := !(socketRelease s self).endOpen d } := by
      have hcore : ((socketRelease s self).chan d).core = (s.chan d).core := by
        rw [socketRelease_chan]
        split <;> rfl
      simp only [Socket.stream, viewThr_release h, wake_call?, hcore]
    rw [hst]
    refine Stream.Step.outer (s.stream d) e ?_ _ _
    cases he
    split <;> trivial

/-- Runs of a pair are, in each direction, runs of a stream. -/
theorem socket_run {ls : List SockEvent} (h : Run Socket.Step socketpairOpen ls s) (d : Fin 2) :
    s.Inv ∧ Run Stream.Step (socketpairOpen.stream d) (ls.filterMap (onDir d)) (s.stream d) :=
  Run.project (fun s => s.stream d) (onDir d) inv_socketpairOpen
    (fun hi hs => inv_socketStep hi hs) (fun hi hs he => (socket_refines hi hs d).1 _ he)
    (fun hi hs he => (socket_refines hi hs d).2 he) h

/-! ## Lossless streams -/

/-- **Pipes, and each direction of a socket pair, are lossless FIFO streams.** In every run the
bytes returned by reads followed by those in the ring are the bytes accepted from writers, and
every value a call returns is justified by `ReturnOk`. -/
theorem channels_lossless :
    (∀ ls p, Run Pipe.Step pipeOpen ls p →
      received ls ++ content p.chan.core = accepted ls ∧
      ∀ e p', Pipe.Step p e p' →
        ReturnOk ls (content p.chan.core) (p.readers = 0) (p.writers = 0) e) ∧
    (∀ d ls s, Run Socket.Step socketpairOpen ls s →
      received (ls.filterMap (onDir d)) ++ content (s.chan d).core =
        accepted (ls.filterMap (onDir d)) ∧
      ∀ l s' e, Socket.Step s l s' → onDir d l = some e →
        ReturnOk (ls.filterMap (onDir d)) (content (s.chan d).core)
          (s.endOpen (1 - d) = false) (s.endOpen d = false) e) := by
  constructor
  · intro ls p hrun
    obtain ⟨hi, hstream⟩ := pipe_run hrun
    have hok := stream_ok rfl (fun _ => rfl) hstream
    refine ⟨hok.fifo, fun e p' hs => ?_⟩
    have hret := stream_returnOk hok (pipe_refines hi hs)
    simpa only [Pipe.stream, beq_iff_eq] using hret
  · intro d ls s hrun
    obtain ⟨hi, hstream⟩ := socket_run hrun d
    have hok := stream_ok rfl (fun _ => rfl) hstream
    refine ⟨hok.fifo, fun l s' e hs he => ?_⟩
    have hret := stream_returnOk hok ((socket_refines hi hs d).1 e he)
    simpa only [Socket.stream, Bool.not_eq_true'] using hret

end Hallucinate.Fs
