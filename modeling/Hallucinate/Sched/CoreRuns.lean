import Hallucinate.Lib.Trans
import Hallucinate.Sched.Core

/-!
# Runs of the scheduler core (`kernel/sched/sched_core.c`)

Any sequence of calls in which a thread is put on a list only while it is on none (`Fresh`), against
`TwoLists`: the ready threads oldest first, and the sleepers, each with the number of threads that
came before it. `Represents` ties the two, and says of the sleepers that they are in the order of
their wake ticks, those of one tick in the order they came.

* `schedCore_refines_lists`: the core answers as the lists do and represents them after every call.
* `wakeDue_count_wraps`: `sched_core_wake_due` counts in an `unsigned`.
-/

namespace Hallucinate.Sched

open Lib List

inductive CoreCall
  | enqueue (t : Tid)
  | dequeue
  | sleep (t : Tid) (wakeTick : Nat)
  | wakeDue (now : Nat)

inductive CoreAnswer
  | done
  | thread (t : Option Tid)
  | woken (n : Nat)
  deriving DecidableEq

def coreCall (sc : SchedCore) : CoreCall → CoreAnswer × SchedCore
  | .enqueue t => (.done, schedCoreEnqueue sc t)
  | .dequeue => (.thread (schedCoreDequeue sc).1, (schedCoreDequeue sc).2)
  | .sleep t w => (.done, schedCoreSleep sc t w)
  | .wakeDue now => (.woken (schedCoreWakeDue sc now).2, (schedCoreWakeDue sc now).1)

/-! ## Two lists -/

structure Sleeper where
  thread : Tid
  tick : Nat
  /-- How many threads were put on a list before this one. -/
  seq : Nat

/-- Earlier wake tick, or the same and put to sleep earlier. -/
def Sleeper.Before (s s' : Sleeper) : Prop := s.tick < s'.tick ∨ s.tick = s'.tick ∧ s.seq < s'.seq

structure TwoLists where
  ready : List Tid
  asleep : List Sleeper
  /-- The threads that were put on a list, in order. -/
  entered : List Tid
  /-- The threads that were dequeued. -/
  left : List Tid

namespace TwoLists

def empty : TwoLists := ⟨[], [], [], []⟩

def due (a : TwoLists) (now : Nat) : List Sleeper := a.asleep.filter (·.tick ≤ now)

def later (a : TwoLists) (now : Nat) : List Sleeper := a.asleep.filter (now < ·.tick)

def threads (a : TwoLists) : List Tid := a.ready ++ a.asleep.map (·.thread)

end TwoLists

/-- What the calls are for. The number of threads woken is an `unsigned`. -/
def listCall (a : TwoLists) : CoreCall → CoreAnswer × TwoLists
  | .enqueue t => (.done, { a with ready := a.ready ++ [t], entered := a.entered ++ [t] })
  | .dequeue =>
    (.thread a.ready.head?,
      { a with ready := a.ready.tail, left := a.left ++ a.ready.head?.toList })
  | .sleep t w =>
    (.done, { a with
      asleep := a.due w ++ ⟨t, w, a.entered.length⟩ :: a.later w
      entered := a.entered ++ [t] })
  | .wakeDue now =>
    (.woken ((a.due now).length % 2 ^ 32),
      { a with ready := a.ready ++ (a.due now).map (·.thread), asleep := a.later now })

/-- A thread is put on a list only while it is on none. -/
def Fresh (a : TwoLists) : CoreCall → Prop
  | .enqueue t | .sleep t _ => t < maxThreads ∧ t ∉ a.threads
  | .dequeue | .wakeDue _ => True

/-- The links represent the lists, the sleepers are in order, and every thread that was put on a list
is on it or was dequeued. -/
structure Represents (sc : SchedCore) (a : TwoLists) : Prop where
  rep : Rep sc a.ready (a.asleep.map (·.thread))
  tick : ∀ s ∈ a.asleep, sc.wakeTick s.thread = s.tick
  sorted : a.asleep.Pairwise Sleeper.Before
  seq : ∀ s ∈ a.asleep, s.seq < a.entered.length
  bound : ∀ t ∈ a.threads, t < maxThreads
  kept : a.entered.Perm (a.left ++ a.threads)

variable {sc : SchedCore} {a : TwoLists}

theorem represents_init (sc : SchedCore) : Represents (schedCoreInit sc) .empty :=
  ⟨⟨⟨rfl, rfl⟩, rfl, nodup_nil⟩, nofun, .nil, nofun, nofun, .refl _⟩

namespace Represents

variable {t : Tid}

section

variable (h : Represents sc a)
include h

/-- **The loops of the core stop where the sleepers that are due end**: those up to a point are due
and the next one is not, and the list is sorted. -/
theorem cut {w : Nat} {l r : List Tid} (hsplit : a.asleep.map (·.thread) = l ++ r)
    (hl : ∀ c ∈ l, sc.wakeTick c ≤ w) (hr : ∀ c ∈ r.head?, w < sc.wakeTick c) :
    a.asleep = a.due w ++ a.later w ∧ l = (a.due w).map (·.thread) ∧
      r = (a.later w).map (·.thread) := by
  obtain ⟨al, ar, hal, rfl, rfl⟩ := map_eq_append_iff.mp hsplit
  have hsorted := hal ▸ h.sorted
  have hdue : ∀ s ∈ al, s.tick ≤ w := fun s hs => by
    rw [← h.tick s (by rw [hal]; exact mem_append_left _ hs)]
    exact hl _ (mem_map_of_mem hs)
  have hlater : ∀ s ∈ ar, w < s.tick := by
    cases ar with
    | nil => exact nofun
    | cons x ar =>
      have hx : w < x.tick := by
        rw [← h.tick x (by rw [hal]; exact mem_append_right _ mem_cons_self)]
        exact hr _ rfl
      intro s hs
      rcases mem_cons.mp hs with rfl | hs
      · exact hx
      · have hxs := rel_of_pairwise_cons (pairwise_append.mp hsorted).2.1 hs
        unfold Sleeper.Before at hxs
        omega
  have e1 : a.due w = al := by
    rw [TwoLists.due, hal, filter_append, filter_eq_self.mpr (by simpa using hdue),
      filter_eq_nil_iff.mpr (by simpa using hlater), append_nil]
  have e2 : a.later w = ar := by
    rw [TwoLists.later, hal, filter_append, filter_eq_nil_iff.mpr (by simpa using hdue),
      filter_eq_self.mpr (by simpa using hlater), nil_append]
  rw [e1, e2]
  exact ⟨hal, rfl, rfl⟩

/-- A thread more on the lists, and one more that was put there. -/
theorem entered {a' : TwoLists} (hlt : t < maxThreads) (hperm : a'.threads.Perm (t :: a.threads))
    (hleft : a'.left = a.left) :
    (∀ u ∈ a'.threads, u < maxThreads) ∧ (a.entered ++ [t]).Perm (a'.left ++ a'.threads) := by
  refine ⟨fun u hu => ?_, ?_⟩
  · rcases mem_cons.mp (hperm.mem_iff.mp hu) with rfl | hm
    · exact hlt
    · exact h.bound u hm
  · calc List.Perm (a.entered ++ [t]) (t :: a.entered) := perm_append_singleton t _
      List.Perm _ (t :: (a.left ++ a.threads)) := h.kept.cons t
      List.Perm _ (a.left ++ t :: a.threads) := perm_middle.symm
      List.Perm _ (a'.left ++ a'.threads) := by
        rw [hleft]
        exact hperm.symm.append_left _

theorem enqueue (hlt : t < maxThreads) (ht : t ∉ a.threads) :
    Represents (schedCoreEnqueue sc t) (listCall a (.enqueue t)).2 := by
  obtain ⟨hr, hs⟩ := not_or.mp (mt mem_append.mpr ht)
  have hperm : (listCall a (.enqueue t)).2.threads.Perm (t :: a.threads) := by
    simp only [listCall, TwoLists.threads, append_assoc]
    exact perm_middle
  obtain ⟨hbound, hkept⟩ := h.entered hlt hperm rfl
  refine ⟨(h.rep.enqueue hr hs).1, h.tick, h.sorted, fun s hs => ?_, hbound, hkept⟩
  simpa [listCall] using Nat.lt_succ_of_lt (h.seq s hs)

theorem dequeue : (schedCoreDequeue sc).1 = a.ready.head? ∧
    Represents (schedCoreDequeue sc).2 (listCall a .dequeue).2 := by
  obtain ⟨ready, asleep, entered, left⟩ := a
  cases ready with
  | nil =>
    rw [h.rep.dequeue_nil]
    refine ⟨rfl, h.rep, h.tick, h.sorted, h.seq, h.bound, ?_⟩
    simpa [listCall] using h.kept
  | cons t ready =>
    obtain ⟨sc', hdeq, hrep, -, hwake, -⟩ := h.rep.dequeue
    rw [hdeq]
    refine ⟨rfl, hrep, hwake.symm ▸ h.tick, h.sorted, h.seq,
      fun u hu => h.bound u (mem_cons_of_mem _ hu), ?_⟩
    simpa [listCall, TwoLists.threads] using h.kept

theorem sleep (hlt : t < maxThreads) (ht : t ∉ a.threads) (w : Nat) :
    Represents (schedCoreSleep sc t w) (listCall a (.sleep t w)).2 := by
  obtain ⟨hr, hs⟩ := not_or.mp (mt mem_append.mpr ht)
  have hlen := length_le_maxThreads h.rep.sleep_nodup fun u hu =>
    h.bound u (mem_append_right _ hu)
  obtain ⟨l, r, hsplit, hl, hgt, hrep, -, hwake, -⟩ := h.rep.insert hr hs hlen w
  obtain ⟨hcut, rfl, rfl⟩ := h.cut hsplit hl hgt
  have hins : (listCall a (.sleep t w)).2.asleep.Perm (⟨t, w, a.entered.length⟩ :: a.asleep) := by
    conv => rhs; rw [hcut]
    exact perm_middle
  have hperm : (listCall a (.sleep t w)).2.threads.Perm (t :: a.threads) :=
    ((hins.map Sleeper.thread).append_left a.ready).trans perm_middle
  obtain ⟨hbound, hkept⟩ := h.entered hlt hperm rfl
  refine ⟨?_, fun s hm => ?_, ?_, fun s hm => ?_, hbound, hkept⟩
  · simpa only [listCall, map_append, map_cons] using hrep
  · rw [hwake]
    rcases mem_cons.mp (hins.mem_iff.mp hm) with rfl | hm
    · exact Function.update_self ..
    · have hne : s.thread ≠ t := fun e => hs (e ▸ mem_map_of_mem hm)
      rw [Function.update_of_ne hne, h.tick s hm]
  · obtain ⟨h1, h2, h3⟩ := pairwise_append.mp (hcut ▸ h.sorted)
    refine pairwise_append.mpr ⟨h1, pairwise_cons.mpr ⟨fun s hm => .inl ?_, h2⟩,
      fun s hm s' hm' => ?_⟩
    · simpa using (mem_filter.mp hm).2
    rcases mem_cons.mp hm' with rfl | hm'
    · obtain ⟨hm, hle⟩ := mem_filter.mp hm
      have hle : s.tick ≤ w := by simpa using hle
      exact (Nat.lt_or_eq_of_le hle).imp_right fun e => ⟨e, h.seq s hm⟩
    · exact h3 s hm s' hm'
  · rcases mem_cons.mp (hins.mem_iff.mp hm) with rfl | hm
    · simp [listCall]
    · simpa [listCall] using Nat.lt_succ_of_lt (h.seq s hm)

theorem wakeDue (now : Nat) : (schedCoreWakeDue sc now).2 = (a.due now).length % 2 ^ 32 ∧
      Represents (schedCoreWakeDue sc now).1 (listCall a (.wakeDue now)).2 := by
  have hlen := length_le_maxThreads h.rep.sleep_nodup fun u hu =>
    h.bound u (mem_append_right _ hu)
  obtain ⟨l, r, hsplit, hl, hgt, hrep, -, -, hwake, -, hcount⟩ := h.rep.wakeLoop now 0 hlen
  obtain ⟨hcut, rfl, rfl⟩ := h.cut hsplit hl hgt
  have hsub : ∀ s ∈ a.later now, s ∈ a.asleep := fun s hm => (mem_filter.mp hm).1
  have hsame : (listCall a (.wakeDue now)).2.threads = a.threads := by
    simp only [listCall, TwoLists.threads, append_assoc, ← map_append, ← hcut]
  refine ⟨?_, hrep, fun s hm => ?_, ?_, fun s hm => h.seq s (hsub s hm), ?_, ?_⟩
  · rw [schedCoreWakeDue, hcount (by decide), Nat.zero_add, length_map]
  · rw [schedCoreWakeDue, hwake]
    exact h.tick s (hsub s hm)
  · exact h.sorted.sublist filter_sublist
  · rw [hsame]
    exact h.bound
  · rw [hsame]
    exact h.kept

end

theorem call (c : CoreCall) (h : Represents sc a) (hf : Fresh a c) :
    (coreCall sc c).1 = (listCall a c).1 ∧ Represents (coreCall sc c).2 (listCall a c).2 := by
  cases c with
  | enqueue t => exact ⟨rfl, h.enqueue hf.1 hf.2⟩
  | dequeue => exact ⟨congrArg _ h.dequeue.1, h.dequeue.2⟩
  | sleep t w => exact ⟨rfl, h.sleep hf.1 hf.2 w⟩
  | wakeDue now => exact ⟨congrArg _ (h.wakeDue now).1, (h.wakeDue now).2⟩

end Represents

/-- **The scheduler core refines two lists**: over any sequence of calls that puts a thread on a list
only while it is on none, the core gives the answers of the lists, and represents them at the end. -/
theorem schedCore_refines_lists (sc : SchedCore) {calls : List CoreCall}
    (hok : Admits listCall Fresh .empty calls) :
    ∃ rs sc' a, answers coreCall (schedCoreInit sc) calls = (rs, sc') ∧
      answers listCall .empty calls = (rs, a) ∧ Represents sc' a := by
  obtain ⟨hans, hrep⟩ := answers_sim (fun c h hf => h.call c hf) (represents_init sc) hok
  refine ⟨_, _, _, rfl, ?_, hrep⟩
  rw [hans]

/-- Memory that is all zero. -/
def zeroCore : SchedCore := ⟨fun _ => .ready, fun _ => 0, fun _ => none, none, none, none⟩

theorem schedCore_refines_lists_two :
    (answers coreCall (schedCoreInit zeroCore) [.sleep 1 5, .sleep 2 5, .wakeDue 5, .dequeue]).1 =
      [.done, .done, .woken 2, .thread (some 1)] ∧
    ∃ rs sc' a, answers coreCall (schedCoreInit zeroCore)
        [.sleep 1 5, .sleep 2 5, .wakeDue 5, .dequeue] = (rs, sc') ∧
      answers listCall .empty [.sleep 1 5, .sleep 2 5, .wakeDue 5, .dequeue] = (rs, a) ∧
      Represents sc' a :=
  ⟨by decide, schedCore_refines_lists zeroCore
    ⟨⟨by decide, by decide⟩, ⟨by decide, by decide⟩, trivial, trivial, trivial⟩⟩

/-! ## The count -/

/-- Threads below `m` sleep until tick 0. -/
def asleepTo (m : Nat) : TwoLists := ⟨[], (List.range m).map fun t => ⟨t, 0, t⟩, List.range m, []⟩

theorem asleepTo_due (m : Nat) : (asleepTo m).due 0 = (asleepTo m).asleep :=
  filter_eq_self.mpr (by simp [asleepTo])

theorem asleepTo_sleep (m : Nat) : (listCall (asleepTo m) (.sleep m 0)).2 = asleepTo (m + 1) := by
  have hlater : (asleepTo m).later 0 = [] := filter_eq_nil_iff.mpr (by simp [asleepTo])
  rw [listCall, asleepTo_due, hlater]
  simp [asleepTo, range_succ]

theorem asleepTo_run {m n : Nat} (hm : m + n ≤ maxThreads) :
    Admits listCall Fresh (asleepTo m) ((List.range' m n).map (.sleep · 0)) ∧
      (answers listCall (asleepTo m) ((List.range' m n).map (.sleep · 0))).2 = asleepTo (m + n) := by
  induction n generalizing m with
  | zero => exact ⟨trivial, rfl⟩
  | succ n ih =>
    have hfresh : m < maxThreads ∧ m ∉ (asleepTo m).threads :=
      ⟨by omega, by simp [TwoLists.threads, asleepTo]⟩
    obtain ⟨hadm, hend⟩ := ih (m := m + 1) (by omega)
    rw [← asleepTo_sleep] at hadm hend
    refine ⟨⟨hfresh, hadm⟩, hend.trans ?_⟩
    rw [Nat.add_assoc, Nat.add_comm 1 n]

theorem asleepTo_woken {n : Nat} (hn : n ≤ maxThreads) : ∃ calls, Admits listCall Fresh .empty calls ∧
    ((answers listCall .empty calls).2.due 0).length = n ∧
    (coreCall (answers coreCall (schedCoreInit zeroCore) calls).2 (.wakeDue 0)).1 =
      .woken (n % 2 ^ 32) := by
  obtain ⟨hadm, hend⟩ := asleepTo_run (m := 0) (n := n) (by omega)
  obtain ⟨-, hrep⟩ := answers_sim (fun c h hf => h.call c hf) (represents_init zeroCore) hadm
  have hlen : ((answers listCall .empty ((List.range' 0 n).map (.sleep · 0))).2.due 0).length = n := by
    refine (congrArg (fun a => (a.due 0).length) hend).trans ?_
    rw [asleepTo_due, asleepTo, length_map, length_range, Nat.zero_add]
  refine ⟨_, hadm, hlen, ?_⟩
  rw [(hrep.call (.wakeDue 0) trivial).1]
  exact congrArg (fun m => CoreAnswer.woken (m % 2 ^ 32)) hlen

/-- **With `2 ^ 32` sleepers due, `sched_core_wake_due` moves them all and returns 0.** -/
theorem wakeDue_count_wraps : ∃ calls, Admits listCall Fresh .empty calls ∧
    ((answers listCall .empty calls).2.due 0).length = 2 ^ 32 ∧
    (coreCall (answers coreCall (schedCoreInit zeroCore) calls).2 (.wakeDue 0)).1 = .woken 0 :=
  asleepTo_woken (n := 2 ^ 32) (by decide)

end Hallucinate.Sched
