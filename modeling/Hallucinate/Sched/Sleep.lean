import Hallucinate.Sched.CoreRuns
import Hallucinate.Sched.Kernel

/-!
# Sleeping (`sched_sleep_ticks` and `sched_sleep_ms`)

A sleeper is on the sleep list until the first tick whose count is not below its wake tick. The wake
tick and the counter are 64-bit: `WakesAt` says that a thread leaves the sleep list with the `n`-th
tick from now and not before, whatever other threads do in between, and `sleep_exact_iff` for which
arguments a sleep does.
-/

namespace Hallucinate.Sched

open Lib

/-- The ready queue, as the links give it. -/
def readyList (sc : SchedCore) : List Tid := walk sc.next maxThreads sc.readyHead

/-- The sleep list. -/
def sleepList (sc : SchedCore) : List Tid := walk sc.next maxThreads sc.sleepers

/-- The number of timer ticks. -/
def ticks : List CoreCall → Nat
  | [] => 0
  | .wakeDue _ :: calls => ticks calls + 1
  | _ :: calls => ticks calls

/-- The calls of `sched_core_wake_due` are those of `sched_timer_tick`, from counter `n` on. -/
def Clocked : Nat → List CoreCall → Prop
  | _, [] => True
  | n, .wakeDue now :: calls => now = (n + 1) % 2 ^ 64 ∧ Clocked now calls
  | n, _ :: calls => Clocked n calls

/-- Over every interleaving of ticks with other calls, `t` is on the sleep list before the `n`-th
tick from counter `now` on, and this tick is the one that moves it to the ready queue. -/
def WakesAt (sc : SchedCore) (a : TwoLists) (now : Nat) (t : Tid) (n : Nat) : Prop :=
  ∀ calls, Admits listCall Fresh a calls → Clocked now calls → ticks calls < n →
    t ∈ sleepList (answers coreCall sc calls).2 ∧
    (t ∈ readyList (coreCall (answers coreCall sc calls).2
      (.wakeDue ((now + ticks calls + 1) % 2 ^ 64))).2 ↔ ticks calls + 1 = n)

variable {sc : SchedCore} {a : TwoLists} {now n : Nat} {x : Sleeper} {calls : List CoreCall}

theorem Represents.lists (h : Represents sc a) :
    readyList sc = a.ready ∧ sleepList sc = a.asleep.map (·.thread) := by
  refine ⟨h.rep.queue.list.walk_list ?_, h.rep.sleepers.walk_list ?_⟩
  · exact length_le_maxThreads h.rep.ready_nodup fun t ht => h.bound t (List.mem_append_left _ ht)
  · exact length_le_maxThreads h.rep.sleep_nodup fun t ht => h.bound t (List.mem_append_right _ ht)

/-- A sleeper stays through every tick that comes too early for it. -/
theorem stays_asleep (hcl : Clocked now calls) (hx : x ∈ a.asleep)
    (hlt : ∀ j, 0 < j → j ≤ ticks calls → (now + j) % 2 ^ 64 < x.tick) :
    x ∈ (answers listCall a calls).2.asleep := by
  induction calls generalizing a now with
  | nil => exact hx
  | cons c calls ih =>
    cases c with
    | enqueue t => exact ih hcl hx hlt
    | dequeue => exact ih hcl hx hlt
    | sleep t w =>
      refine ih hcl ?_ hlt
      simp only [listCall, TwoLists.due, TwoLists.later, List.mem_append, List.mem_cons,
        List.mem_filter, hx, true_and, decide_eq_true_eq]
      omega
    | wakeDue now' =>
      obtain ⟨rfl, hcl⟩ := hcl
      have hticks : ticks (.wakeDue ((now + 1) % 2 ^ 64) :: calls) = ticks calls + 1 := rfl
      refine ih hcl ?_ fun j hj hle => ?_
      · have h1 := hlt 1 (by decide) (by omega)
        simpa [listCall, TwoLists.later] using ⟨hx, h1⟩
      · rw [Nat.mod_add_mod, Nat.add_assoc, Nat.add_comm 1 j]
        exact hlt (j + 1) (by omega) (by omega)

/-- A sleeper that is due is moved. -/
theorem Represents.tick_ready (h : Represents sc a) (hx : x ∈ a.asleep) (now : Nat) :
    x.thread ∈ readyList (coreCall sc (.wakeDue now)).2 ↔ x.tick ≤ now := by
  have hafter := (h.call (.wakeDue now) trivial).2
  rw [hafter.lists.1]
  constructor
  · intro hm
    by_contra hlt
    have hlater : x ∈ a.later now := by
      simpa [TwoLists.later] using ⟨hx, Nat.lt_of_not_le hlt⟩
    exact hafter.rep.disjoint hm (List.mem_map_of_mem hlater)
  · intro hle
    have hdue : x ∈ a.due now := by simpa [TwoLists.due] using ⟨hx, hle⟩
    exact List.mem_append_right _ (List.mem_map_of_mem hdue)

/-- `m` ticks and nothing else. -/
def tickRun : Nat → Nat → List CoreCall
  | _, 0 => []
  | now, m + 1 => .wakeDue ((now + 1) % 2 ^ 64) :: tickRun ((now + 1) % 2 ^ 64) m

theorem tickRun_spec (a : TwoLists) (now m : Nat) : Admits listCall Fresh a (tickRun now m) ∧
    Clocked now (tickRun now m) ∧ ticks (tickRun now m) = m := by
  induction m generalizing a now with
  | zero => exact ⟨trivial, trivial, rfl⟩
  | succ m ih =>
    obtain ⟨h1, h2, h3⟩ := ih (listCall a (.wakeDue ((now + 1) % 2 ^ 64))).2 ((now + 1) % 2 ^ 64)
    exact ⟨⟨trivial, h1⟩, ⟨rfl, h2⟩, congrArg (· + 1) h3⟩

/-- **When a sleeper wakes**: with the first tick whose count is not below its wake tick. -/
theorem Represents.wakesAt_iff (h : Represents sc a) (hx : x ∈ a.asleep) (hn : 0 < n) :
    WakesAt sc a now x.thread n ↔
      (∀ j, 0 < j → j < n → (now + j) % 2 ^ 64 < x.tick) ∧ x.tick ≤ (now + n) % 2 ^ 64 := by
  have hsim := fun calls (hadm : Admits listCall Fresh a calls) =>
    (answers_sim (fun c h hf => Represents.call c h hf) h hadm).2
  constructor
  · intro hw
    have hat : ∀ j, j < n → (∀ i, 0 < i → i ≤ j → (now + i) % 2 ^ 64 < x.tick) →
        (x.tick ≤ (now + (j + 1)) % 2 ^ 64 ↔ j + 1 = n) := by
      intro j hj hbefore
      obtain ⟨hadm, hcl, hticks⟩ := tickRun_spec a now j
      have hstay := stays_asleep hcl hx (hticks.symm ▸ hbefore)
      have hmove := (hw _ hadm hcl (hticks.symm ▸ hj)).2
      rwa [(hsim _ hadm).tick_ready hstay, hticks] at hmove
    have hall : ∀ j, j < n → ∀ i, 0 < i → i ≤ j → (now + i) % 2 ^ 64 < x.tick := by
      intro j
      induction j with
      | zero => exact fun _ i hi hle => absurd hi (by omega)
      | succ j ih =>
        intro hj i hi hle
        rcases Nat.lt_or_eq_of_le hle with hlt | rfl
        · exact ih (by omega) i hi (by omega)
        · have hno := hat j (by omega) (ih (by omega))
          omega
    refine ⟨fun j hj hlt => hall j hlt j hj (Nat.le_refl j), ?_⟩
    obtain ⟨m, rfl⟩ : ∃ m, n = m + 1 := ⟨n - 1, by omega⟩
    exact (hat m (by omega) (hall m (by omega))).mpr rfl
  · rintro ⟨hbefore, hdue⟩ calls hadm hcl hlt
    have hrep := hsim calls hadm
    have hstay := stays_asleep hcl hx fun j hj hle => hbefore j hj (by omega)
    refine ⟨?_, ?_⟩
    · rw [hrep.lists.2]
      exact List.mem_map_of_mem hstay
    · rw [hrep.tick_ready hstay, Nat.add_assoc]
      by_cases he : ticks calls + 1 = n
      · rw [he]
        exact ⟨fun _ => rfl, fun _ => hdue⟩
      · have hlt' := hbefore (ticks calls + 1) (by omega) (by omega)
        omega

/-! ## `sched_sleep_ticks` and `sched_sleep_ms` -/

theorem schedule_core (k : Kern) :
    ∃ st, (schedule k).core = { (schedCoreDequeue k.core).2 with state := st } := by
  have hswitch : ∀ (k : Kern) (prev next : Tid),
      ∃ st, (switchTo k prev next).core = { k.core with state := st } := fun k prev next => by
    unfold switchTo
    split <;> exact ⟨_, rfl⟩
  unfold schedule
  rcases schedCoreDequeue k.core with ⟨_ | t, core⟩
  · simp only
    split
    · exact ⟨_, rfl⟩
    · exact hswitch _ _ _
  · exact hswitch _ _ _

variable {k : Kern}

/-- `schedule` takes the oldest ready thread off the queue. -/
theorem Represents.schedule (h : Represents k.core a) :
    Represents (schedule k).core (listCall a .dequeue).2 := by
  obtain ⟨hrep, htick, hsorted, hseq, hbound, hkept⟩ := h.dequeue.2
  obtain ⟨st, hcore⟩ := schedule_core k
  rw [hcore]
  exact ⟨⟨hrep.queue, hrep.sleepers, hrep.nodup⟩, htick, hsorted, hseq, hbound, hkept⟩

/-- `sched_sleep_ticks` puts the caller to sleep, and the oldest ready thread runs. -/
theorem Represents.sleepTicks (h : Represents k.core a)
    (hcur : k.current < maxThreads ∧ k.current ∉ a.threads) (hidle : k.current ≠ k.idle)
    (hn : 0 < n) : ∃ k' a', schedSleepTicks k n = .ok k' ∧ Represents k'.core a' ∧
      ⟨k.current, (k.ticks + n) % 2 ^ 64, a.entered.length⟩ ∈ a'.asleep := by
  refine ⟨_, _, ?_, (h.sleep hcur.1 hcur.2 ((k.ticks + n) % 2 ^ 64)).schedule
    (k := { k with core := schedCoreSleep k.core k.current ((k.ticks + n) % 2 ^ 64) }), ?_⟩
  · rw [schedSleepTicks, if_neg (by omega), if_neg hidle]
  · simp [listCall]

/-- A wake tick `n` past the counter comes with the `n`-th tick and no earlier one. -/
theorem deadline_iff {now : Nat} (hnow : now < 2 ^ 64) (hn : 0 < n) (hn' : n < 2 ^ 64) :
    (∀ j, 0 < j → j < n → (now + j) % 2 ^ 64 < (now + n) % 2 ^ 64) ↔
      now + n < 2 ^ 64 ∨ now + 1 = 2 ^ 64 := by
  constructor
  · intro h
    by_contra hno
    have h1 := h 1 (by decide) (by omega)
    omega
  · intro h j hj hlt
    omega

/-- **When sleeping is exact**: `sched_sleep_ticks n` wakes with the `n`-th tick and not before, and
`sched_sleep_ms` with the tick that completes the time asked for, exactly if neither the wake tick nor
the product overflows. A wake tick that overflows does no harm only in front of the counter's own
overflow. `sched_sleep_ticks 0` yields. -/
theorem sleep_exact_iff {k : Kern} (h : Represents k.core a)
    (hcur : k.current < maxThreads ∧ k.current ∉ a.threads) (hidle : k.current ≠ k.idle)
    (hnow : k.ticks < 2 ^ 64) :
    schedSleepTicks k 0 = .ok (schedYield k) ∧
    (∀ n, 0 < n → n < 2 ^ 64 → ∃ k' a', schedSleepTicks k n = .ok k' ∧ Represents k'.core a' ∧
      (WakesAt k'.core a' k.ticks k.current n ↔ k.ticks + n < 2 ^ 64 ∨ k.ticks + 1 = 2 ^ 64)) ∧
    ∀ hz ms, 0 < hz → ∃ k' a', schedSleepMs k hz ms = .ok k' ∧ Represents k'.core a' ∧
      (WakesAt k'.core a' k.ticks k.current (max 1 ((ms * hz + 999) / 1000)) ↔
        ms * hz + 999 < 2 ^ 64 ∧
          (k.ticks + max 1 ((ms * hz + 999) / 1000) < 2 ^ 64 ∨ k.ticks + 1 = 2 ^ 64)) := by
  refine ⟨rfl, fun n hn hn' => ?_, fun hz ms hhz => ?_⟩
  · obtain ⟨k', a', hrun, hrep, hmem⟩ := h.sleepTicks hcur hidle hn
    refine ⟨k', a', hrun, hrep, (hrep.wakesAt_iff hmem hn).trans ?_⟩
    rw [← deadline_iff hnow hn hn']
    exact and_iff_left (Nat.le_refl _)
  · generalize hc : sleepMsTicks hz ms = c
    have hpos : 0 < c := by
      rw [← hc, sleepMsTicks]
      split <;> omega
    obtain ⟨k', a', hrun, hrep, hmem⟩ := h.sleepTicks hcur hidle hpos
    refine ⟨k', a', ?_, hrep, (hrep.wakesAt_iff hmem (by omega)).trans ?_⟩
    · rw [schedSleepMs, if_neg (by omega), hc]
      exact hrun
    simp only [sleepMsTicks] at hc
    generalize ms * hz = p at *
    by_cases hover : p + 999 < 2 ^ 64
    · have hsame : max 1 ((p + 999) / 1000) = c := by
        rw [← hc, Nat.mod_eq_of_lt (show p < 2 ^ 64 by omega), Nat.mod_eq_of_lt hover]
        split <;> omega
      rw [hsame, ← deadline_iff hnow hpos (by omega)]
      simp only [hover, true_and]
      exact and_iff_left (Nat.le_refl _)
    · -- the product overflows, and the thread wakes with an earlier tick
      have hless : c < max 1 ((p + 999) / 1000) := by
        rw [← hc]
        split <;> omega
      refine iff_of_false (fun hw => ?_) fun hw => hover hw.1
      exact Nat.lt_irrefl _ (hw.1 c hpos hless)

/-- The boot thread runs, and the counter stands at 1. -/
def bootKern : Kern := { schedInit 0 1 with ticks := 1 }

/-- **A sleep of `2 ^ 64 - 1` ticks ends with the first tick.** -/
theorem sleep_ends_early : ∃ k', schedSleepTicks bootKern (2 ^ 64 - 1) = .ok k' ∧
    sleepList k'.core = [0] ∧ readyList (schedTimerTick k' 2).core = [0] :=
  ⟨_, rfl, by decide, by decide⟩

theorem sleep_exact_iff_boot : Represents bootKern.core .empty ∧
    ∃ k' a', schedSleepTicks bootKern 5 = .ok k' ∧ Represents k'.core a' ∧
      WakesAt k'.core a' 1 0 5 := by
  have hrep : Represents bootKern.core .empty :=
    ⟨⟨⟨rfl, rfl⟩, rfl, List.nodup_nil⟩, nofun, .nil, nofun, nofun, .refl _⟩
  obtain ⟨k', a', hrun, hrep', hiff⟩ := (sleep_exact_iff hrep ⟨by decide, nofun⟩ (by decide)
    (by decide)).2.1 5 (by decide) (by decide)
  exact ⟨hrep, k', a', hrun, hrep', hiff.mpr (by decide)⟩

end Hallucinate.Sched
