import Hallucinate.Sched.Runs

/-!
# What an interrupt does to a thread it wakes

`sched_timer_tick` flags a reschedule when a thread is ready, and `sched_preempt` acts on the flag at
the end of `irq_dispatch`. `sched_wake` does not flag one, so a handler that wakes a thread through it
(`kbd_input_notify`) returns to the interrupted thread and leaves the woken one on the ready queue.

* `run_needResched`: between two sections the flag is clear, as only the timer sets it and the same
  interrupt consumes it.
* `Good.timer_switches`: the timer interrupt switches whenever a thread is ready.
* `woken_runs_iff_timer`: of the interrupts that make a thread ready, exactly those of the timer leave
  no thread ready when they return without a switch.
-/

namespace Hallucinate.Sched

open Lib

/-- The handler of `i` makes a thread ready. -/
def Readies (k : Kern) (i : Irq) : Prop :=
  ∃ k₁ t, irqHandler k i = .ok k₁ ∧ k.core.state t ≠ .ready ∧ k₁.core.state t = .ready

/-- When the interrupt returns without having switched threads, no thread is ready. -/
def RunsWoken (k : Kern) (i : Irq) : Prop :=
  ∃ k', irqDispatch k i = .ok k' ∧ (k'.current = k.current → schedCoreHasReady k'.core = false)

variable {s : Sys} {k k' : Kern} {pl pl' : Tid → Place} {ls ls' : Lists} {t : Tid}

/-! ## The flag -/

@[simp] theorem switchTo_needResched (k : Kern) (prev next : Tid) :
    (switchTo k prev next).needResched = k.needResched := by
  unfold switchTo
  split <;> rfl

@[simp] theorem schedule_needResched (k : Kern) : (schedule k).needResched = k.needResched := by
  unfold schedule
  split
  · split
    · rfl
    · exact switchTo_needResched ..
  · exact switchTo_needResched ..

@[simp] theorem requeue_needResched (k : Kern) : (requeue k).needResched = k.needResched := by
  unfold requeue
  split <;> rfl

@[simp] theorem wakeJoiner_needResched (k : Kern) (self : Tid) :
    (wakeJoiner k self).needResched = k.needResched := by
  unfold wakeJoiner
  split <;> rfl

/-- The section, if it does not panic, leaves the flag at `b`. -/
def LeavesFlag (b : Bool) (r : Except Panic Kern) : Prop := ∀ k', r = .ok k' → k'.needResched = b

variable {b : Bool} {r : Except Panic Kern}

theorem LeavesFlag.ok (h : k.needResched = b) : LeavesFlag b (.ok k) := fun _ e =>
  Except.ok.inj e ▸ h

theorem LeavesFlag.error {e : Panic} : LeavesFlag b (.error e) := nofun

theorem LeavesFlag.ite {p : Prop} [Decidable p] {r' : Except Panic Kern} (h : LeavesFlag b r)
    (h' : LeavesFlag b r') : LeavesFlag b (if p then r else r') := by
  split
  · exact h
  · exact h'

theorem LeavesFlag.bind {f : Kern → Except Panic Kern} (h : LeavesFlag b r)
    (hf : ∀ k, k.needResched = b → LeavesFlag b (f k)) : LeavesFlag b (r >>= f) := by
  intro k' hk'
  cases r with
  | error e => cases hk'
  | ok k => exact hf k (h k rfl) k' hk'

theorem LeavesFlag.block (k : Kern) : LeavesFlag k.needResched (schedBlock k) :=
  .ite .error (.ok (schedule_needResched _))

theorem LeavesFlag.wake (k : Kern) (t : Tid) : LeavesFlag k.needResched (schedWake k t) :=
  .ite (.ok rfl) .error

theorem LeavesFlag.reap (k : Kern) (t : Tid) : LeavesFlag k.needResched (reapThread k t) :=
  .ite (.ok rfl) .error

theorem LeavesFlag.wakeOne (k : Kern) (q : WaitQ) : LeavesFlag k.needResched (wqWakeOne k q) := by
  unfold wqWakeOne
  split
  · exact .ok rfl
  · exact .wake (wqPop k q _) _

theorem LeavesFlag.wakeAllLoop (n : Nat) (k : Kern) (p : Option Tid) :
    LeavesFlag k.needResched (wakeAllLoop n k p) := by
  induction n generalizing k p with
  | zero => exact .ok rfl
  | succ n ih =>
    cases p with
    | none => exact .ok rfl
    | some t =>
      refine LeavesFlag.bind (.wake (k.setNext t none) t) fun k₁ hk₁ => ?_
      have hrest := ih k₁ (k.core.next t)
      rw [hk₁] at hrest
      exact hrest

section

variable (k : Kern)

theorem LeavesFlag.wakeAll (q : WaitQ) : LeavesFlag k.needResched (wqWakeAll k q) :=
  .wakeAllLoop _ _ _

theorem LeavesFlag.slotWake (i : Slot) : LeavesFlag k.needResched (slotWake k i) := by
  unfold Sched.slotWake
  split
  · exact .ok rfl
  · exact .wake { k with slot := Function.update k.slot i none } _

theorem LeavesFlag.slotBlock (i : Slot) : LeavesFlag k.needResched (slotBlock k i) :=
  .ite .error (.block { k with slot := _ })

theorem LeavesFlag.exit : LeavesFlag k.needResched (threadExit k) := by
  refine .ite .error (.ok ?_)
  rw [schedule_needResched, wakeJoiner_needResched]
  rfl

theorem LeavesFlag.readPass (readQ writeQ : WaitQ) (r : ReadPass) :
    LeavesFlag k.needResched (readPass k readQ writeQ r) := by
  cases r with
  | data => exact .wakeOne k writeQ
  | eof => exact .ok rfl
  | block => exact .block (wqPush k readQ k.current)

theorem LeavesFlag.writePass (readQ writeQ : WaitQ) (w : WritePass) :
    LeavesFlag k.needResched (writePass k readQ writeQ w) := by
  cases w with
  | refused => exact .ok rfl
  | done => exact .wakeOne k readQ
  | part moved =>
    cases moved with
    | false => exact .block (wqPush k writeQ k.current)
    | true =>
      refine LeavesFlag.bind (.wakeOne k readQ) fun k₁ hk₁ => ?_
      have hblock := LeavesFlag.block (wqPush k₁ writeQ k₁.current)
      rw [← hk₁]
      exact hblock

theorem LeavesFlag.unlock (m : Nat) : LeavesFlag k.needResched (mutexUnlock k m) := by
  refine .ite .error ?_
  split
  · exact .wake { wqPop k (.mutex m) _ with owner := _ } _
  · exact .ok rfl

theorem LeavesFlag.join (t : Tid) : LeavesFlag k.needResched (threadJoin k t) := by
  refine .ite .error (.ite (.reap k t) (.ite .error (.ok ?_)))
  rw [schedule_needResched]
  rfl

theorem LeavesFlag.die (parent : Option Nat) : LeavesFlag k.needResched (procDie k parent) := by
  have hexit : ∀ k₁ : Kern, k₁.needResched = k.needResched →
      LeavesFlag k.needResched (threadExit k₁) := fun k₁ hk₁ => hk₁ ▸ .exit k₁
  cases parent with
  | none => exact .bind (.ok rfl) hexit
  | some i => exact .bind (.slotWake k (.waiter i)) hexit

/-- **No call touches the flag.** -/
theorem LeavesFlag.call (c : Call) : LeavesFlag k.needResched (c.run k) := by
  cases c with
  | create t => exact .ok rfl
  | yield => exact .ok (by simp [schedYield])
  | sleepTicks ticks => exact .ite (.ok (by simp [schedYield])) (.ite .error (.ok (by simp)))
  | lock m => exact .ite .error (.ite (.ok rfl) (.block { wqPush k (.mutex m) k.current with cont := _ }))
  | unlock m => exact .unlock k m
  | pipeRead p r => exact .readPass k _ _ r
  | pipeWrite p w => exact .writePass k _ _ w
  | pipeReleaseRead p last => exact .ite (.wakeAll k _) (.ok rfl)
  | pipeReleaseWrite p last => exact .ite (.wakeAll k _) (.ok rfl)
  | socketRead p e r => exact .readPass k _ _ r
  | socketWrite p e w => exact .writePass k _ _ w
  | socketRelease p e =>
    refine LeavesFlag.bind (.wakeAll k _) fun k₁ hk₁ => ?_
    rw [← hk₁]
    exact .wakeAll k₁ _
  | wait4 i => exact .slotBlock k (.waiter i)
  | conRead => exact .slotBlock k .console
  | exit => exact .exit k
  | die parent => exact .die k parent
  | join t => exact .join k t

theorem LeavesFlag.resume : LeavesFlag k.needResched (resume k) := by
  unfold Sched.resume
  split
  · exact .ok rfl
  · exact .ite (.ok rfl) .error
  · exact .reap { k with cont := _ } _

/-- `sched_preempt` consumes the flag. -/
theorem schedPreempt_needResched : (schedPreempt k).needResched = false := by
  unfold schedPreempt
  by_cases hn : k.needResched = true
  · rw [if_pos hn, schedule_needResched, requeue_needResched]
  · rw [if_neg hn]
    exact Bool.eq_false_iff.mpr hn

theorem LeavesFlag.irq (i : Irq) : LeavesFlag false (irqDispatch k i) := by
  intro k' hk'
  rw [irqDispatch] at hk'
  cases hh : irqHandler k i with
  | error e =>
    rw [hh] at hk'
    cases hk'
  | ok k₁ =>
    rw [hh] at hk'
    rw [← Except.ok.inj hk']
    exact schedPreempt_needResched k₁

end

/-- **Between sections no reschedule is flagged.** -/
theorem run_needResched {boot idle : Tid} {evs : List Ev}
    (hr : Run Step (Sys.start boot idle) evs s) : s.k.needResched = false := by
  refine Run.invariant (P := fun _ s => s.k.needResched = false) rfl (fun {_ s _ _} h hs => ?_) hr
  cases hs with
  | call c k' hcont hidle hadm hrun =>
    have hk' : k'.needResched = false := (LeavesFlag.call s.k c k' hrun).trans h
    cases c <;> try exact hk'
    simp only [Sys.after]
    split <;> exact hk'
  | irq i k' hcont hrun => exact LeavesFlag.irq s.k i k' hrun
  | resume k' hcont hrun =>
    have hk' : k'.needResched = false := (LeavesFlag.resume s.k k' hrun).trans h
    unfold Sys.resumed
    split <;> exact hk'

/-! ## The end of an interrupt -/

theorem Inv.hasReady (h : Inv k pl ls) : schedCoreHasReady k.core = !ls.ready.isEmpty := by
  rw [schedCoreHasReady, h.linked.rep.queue.head_eq]
  cases ls.ready <;> rfl

/-- `schedule` hands over to the thread at the head of the ready queue. -/
theorem Inv.schedule_head (h : Inv k pl ls) {r : List Tid} (hr : ls.ready = t :: r) :
    (Sched.schedule k).current = t := by
  obtain ⟨core, hdeq, -, -⟩ := h.dequeue hr
  rw [Sched.schedule, hdeq]
  exact switchTo_current { k with core := core } t

theorem Stable.current_not_ready (h : Stable k pl ls) : k.current ∉ ls.ready := by
  refine h.ready_listed ?_
  by_cases hidle : k.current = k.idle
  · rw [(h.fields.idle _).mpr hidle]
    rfl
  · rw [(h.running _).mpr ⟨rfl, hidle⟩]
    rfl

/-- With a ready thread, requeueing the running one and `schedule` hand over to another thread. -/
theorem Stable.requeue_switches (h : Stable k pl ls) (hready : ls.ready ≠ []) :
    (schedule (requeue k)).current ≠ k.current := by
  obtain ⟨n, r, hn⟩ := List.exists_cons_of_ne_nil hready
  have hne : n ≠ k.current := fun e =>
    h.current_not_ready (e ▸ hn ▸ List.mem_cons_self)
  unfold requeue
  by_cases hidle : k.current = k.idle
  · rw [if_neg (not_not.mpr hidle), h.toInv.schedule_head hn]
    exact hne
  · rw [if_pos hidle]
    -- The running thread goes behind `n`.
    have hinv := h.toInv.enqueue (h.loose_current hidle)
    rw [hinv.schedule_head (r := r ++ [k.current]) (by rw [hn]; rfl)]
    exact hne

section Results

variable {boot idle : Tid} {evs : List Ev} {i : Irq}

/-- **The timer interrupt switches whenever a thread is ready**, also one that was ready before. -/
theorem Good.timer_switches (h : Good s pl ls) (hflag : s.k.needResched = false) :
    RunsWoken s.k .timer := by
  obtain ⟨k₁, pl₁, ls₁, hrun, hw⟩ := h.stable.wakes_handler h.conts .timer
  refine ⟨schedPreempt k₁, by rw [irqDispatch, hrun]; rfl, fun hcur => ?_⟩
  have hset : k₁.needResched = schedCoreHasReady k₁.core := by
    rw [← Except.ok.inj hrun, schedTimerTick]
    simp only [hflag, Bool.false_or]
  by_cases hready : schedCoreHasReady k₁.core = true
  · have hls : ls₁.ready ≠ [] := by
      rw [hw.stable.hasReady] at hready
      simpa using hready
    rw [schedPreempt, if_pos (hset.trans hready)] at hcur
    exact absurd (hcur.trans hw.current.symm)
      (Stable.requeue_switches (hw.stable.setFlags false k₁.ticks) hls)
  · rw [schedPreempt, if_neg (hset ▸ hready)]
    exact Bool.eq_false_iff.mpr hready

/-- **The keyboard's handler leaves the woken thread on the ready queue** and returns to the
interrupted thread. -/
theorem Stable.keyboard_resumes (h : Stable k pl ls) (hflag : k.needResched = false)
    {pushed : Bool} (hready : Readies k (.keyboard pushed)) : ¬RunsWoken k (.keyboard pushed) := by
  obtain ⟨k₁, t, hrun, hbefore, hafter⟩ := hready
  rintro ⟨k', hdisp, hruns⟩
  cases pushed with
  | false =>
    obtain rfl : k = k₁ := Except.ok.inj hrun
    exact hbefore hafter
  | true =>
    have hwake : Sched.slotWake k .console = .ok k₁ := hrun
    cases hslot : k.slot .console with
    | none =>
      rw [Sched.slotWake, hslot] at hwake
      obtain rfl : k = k₁ := Except.ok.inj hwake
      exact hbefore hafter
    | some u =>
      obtain ⟨-, hst, hinv⟩ := h.clearSlot hslot
      have henq := hinv.enqueue (t := u) (by rw [moveTo_self]; rfl)
      have hk₁ : Kern.enqueue { k with slot := Function.update k.slot .console none } u = k₁ := by
        rw [Sched.slotWake, hslot] at hwake
        exact Except.ok.inj ((if_pos hst).symm.trans hwake)
      rw [hk₁] at henq
      have hkeep : schedPreempt k₁ = k₁ := by
        rw [schedPreempt, if_neg]
        rw [← hk₁]
        exact Bool.eq_false_iff.mp hflag
      have hk' : k₁ = k' := by
        rw [irqDispatch, hrun] at hdisp
        exact hkeep.symm.trans (Except.ok.inj hdisp)
      have hnone := hruns (by rw [← hk', ← hk₁]; rfl)
      rw [← hk', henq.hasReady] at hnone
      simp at hnone

/-- **A thread made ready by an interrupt runs at its end exactly if it is the timer's.** In every
state of every run and for every interrupt whose handler makes a thread ready: whenever the interrupt
returns without a switch no thread is ready, if and only if it is the timer interrupt. -/
theorem woken_runs_iff_timer (hne : boot ≠ idle) (hboot : boot < maxThreads)
    (hidle : idle < maxThreads) (hr : Run Step (Sys.start boot idle) evs s)
    (hready : Readies s.k i) : RunsWoken s.k i ↔ i = .timer := by
  obtain ⟨pl, ls, hg⟩ := run_fits hne hboot hidle hr
  have hflag := run_needResched hr
  cases i with
  | timer => exact ⟨fun _ => rfl, fun _ => hg.timer_switches hflag⟩
  | keyboard pushed =>
    exact ⟨fun h => absurd h (hg.stable.keyboard_resumes hflag hready), nofun⟩
  | other =>
    obtain ⟨k₁, t, hrun, hbefore, hafter⟩ := hready
    obtain rfl : s.k = k₁ := Except.ok.inj hrun
    exact absurd hafter hbefore

/-- The boot thread sleeps for one tick; the timer interrupt hits idle and wakes it. -/
theorem woken_runs_iff_timer_sleeper : ∃ s : Sys, s.k.current = s.k.idle ∧ Readies s.k .timer ∧
    RunsWoken s.k .timer := by
  have h0 : Run Step (Sys.start 0 1) [] _ := Run.nil
  have h1 := h0.snoc (Step.call _ (.sleepTicks 1) _ rfl (by decide) trivial rfl)
  have hready : Readies (schedule { schedInit 0 1 with
      core := schedCoreSleep (schedInit 0 1).core 0 1 }) .timer := ⟨_, 0, rfl, nofun, rfl⟩
  exact ⟨_, rfl, hready, (woken_runs_iff_timer (by decide) (by decide) (by decide) h1 hready).mpr rfl⟩

/-- The boot thread blocks in `con_read`; a key arrives while idle runs. Idle is resumed, and the
woken thread stays on the ready queue. -/
theorem idle_resumed_with_ready : ∃ (evs : List Ev) (s : Sys), Run Step (Sys.start 0 1) evs s ∧
    s.k.current = s.k.idle ∧ Readies s.k (.keyboard true) ∧ ∃ k',
      irqDispatch s.k (.keyboard true) = .ok k' ∧ k'.current = s.k.current ∧
      schedCoreHasReady k'.core = true := by
  have h0 : Run Step (Sys.start 0 1) [] _ := Run.nil
  have h1 := h0.snoc (Step.call _ .conRead _ rfl (by decide) trivial rfl)
  exact ⟨_, _, h1, rfl, ⟨_, 0, rfl, nofun, rfl⟩, _, rfl, rfl, rfl⟩

end Results

end Hallucinate.Sched
