import Hallucinate.Lib.Links
import Mathlib

/-!
# The scheduler core (`kernel/sched/sched_core.c`)

A FIFO ready queue and a sleep list in ascending order of wake ticks. Both thread through the one
`next` field of `struct thread`. A thread is the address of its control block, and the fields the
core reads are functions of it. The loops of the source end at a null link; here they are bounded by
`maxThreads`, which no list of distinct control blocks exceeds.

`Rep sc ready sleep` says that the links represent the two lists. Each operation is specified by what
it does to them (`Rep.enqueue`, `Rep.dequeue`, `Rep.insert`, `Rep.wakeLoop`), with the links it leaves
alone: other queues use the same field. Runs of them are in `Sched/CoreRuns`.
-/

namespace Hallucinate.Sched

open Lib Function List

/-- The address of a `struct thread`. -/
abbrev Tid := Nat

/-- `enum thread_state`. -/
inductive ThreadState
  | ready
  | running
  | sleeping
  | blocked
  | zombie
  deriving DecidableEq, Repr

/-- `struct sched_core`, with the fields of the threads. -/
structure SchedCore where
  state : Tid → ThreadState
  wakeTick : Tid → Nat
  next : Tid → Option Tid
  readyHead : Option Tid
  readyTail : Option Tid
  sleepers : Option Tid

/-- Control blocks have 64-bit addresses. -/
def maxThreads : Nat := 2 ^ 64

/-- No list is longer than there are addresses. -/
theorem length_le_maxThreads {l : List Tid} (hnd : l.Nodup) (hb : ∀ t ∈ l, t < maxThreads) :
    l.length ≤ maxThreads := by
  have hsub : l ⊆ List.range maxThreads := fun t ht => mem_range.mpr (hb t ht)
  have hle := (hnd.subperm hsub).length_le
  rwa [length_range] at hle

/-- `sched_core_init`; the threads' fields are what memory holds. -/
def schedCoreInit (sc : SchedCore) : SchedCore :=
  { sc with readyHead := none, readyTail := none, sleepers := none }

/-- `sched_core_enqueue`. -/
def schedCoreEnqueue (sc : SchedCore) (t : Tid) : SchedCore :=
  let r := pushBack sc.next sc.readyHead sc.readyTail t
  { sc with
    state := update sc.state t .ready
    next := r.1
    readyHead := r.2.1
    readyTail := r.2.2 }

/-- `sched_core_dequeue`. -/
def schedCoreDequeue (sc : SchedCore) : Option Tid × SchedCore :=
  match sc.readyHead with
  | none => (none, sc)
  | some t =>
    let r := popFront sc.next sc.readyTail t
    (some t, { sc with next := r.1, readyHead := r.2.1, readyTail := r.2.2 })

/-- `sched_core_has_ready`. -/
def schedCoreHasReady (sc : SchedCore) : Bool := sc.readyHead.isSome

/-- The loop of `sched_core_sleep`: the thread whose `next` is `*link` (none for the list head), and
what `*link` holds. -/
def sleepLink (sc : SchedCore) (wakeTick : Nat) : Nat → Option Tid → Option Tid →
    Option Tid × Option Tid
  | 0, prev, cur => (prev, cur)
  | _ + 1, prev, none => (prev, none)
  | n + 1, prev, some c =>
    if sc.wakeTick c ≤ wakeTick then sleepLink sc wakeTick n (some c) (sc.next c) else (prev, some c)

/-- `sched_core_sleep`. -/
def schedCoreSleep (sc : SchedCore) (t : Tid) (wakeTick : Nat) : SchedCore :=
  let sc := { sc with
    state := update sc.state t .sleeping
    wakeTick := update sc.wakeTick t wakeTick }
  let link := sleepLink sc wakeTick maxThreads none sc.sleepers
  let next := update sc.next t link.2
  match link.1 with
  | none => { sc with next := next, sleepers := some t }
  | some p => { sc with next := update next p (some t) }

/-- The loop of `sched_core_wake_due`. -/
def wakeLoop (now : Nat) : Nat → SchedCore → Nat → SchedCore × Nat
  | 0, sc, woken => (sc, woken)
  | n + 1, sc, woken =>
    match sc.sleepers with
    | none => (sc, woken)
    | some t =>
      if sc.wakeTick t ≤ now then
        wakeLoop now n (schedCoreEnqueue { sc with sleepers := sc.next t } t) ((woken + 1) % 2 ^ 32)
      else (sc, woken)

/-- `sched_core_wake_due`. -/
def schedCoreWakeDue (sc : SchedCore) (now : Nat) : SchedCore × Nat := wakeLoop now maxThreads sc 0

/-! ## The lists -/

/-- The links represent the ready queue and the sleep list, which have no thread in common. -/
structure Rep (sc : SchedCore) (ready sleep : List Tid) : Prop where
  queue : Queue sc.next sc.readyHead sc.readyTail ready
  sleepers : Seg sc.next sc.sleepers sleep none
  nodup : (ready ++ sleep).Nodup

variable {sc : SchedCore} {ready sleep : List Tid} {t : Tid}

section

variable (h : Rep sc ready sleep)
include h

theorem Rep.ready_nodup : ready.Nodup := (nodup_append.mp h.nodup).1

theorem Rep.sleep_nodup : sleep.Nodup := (nodup_append.mp h.nodup).2.1

theorem Rep.disjoint {u : Tid} (hr : u ∈ ready) : u ∉ sleep :=
  fun hs => (nodup_append.mp h.nodup).2.2 u hr u hs rfl

/-- **`sched_core_enqueue` appends to the ready queue.** -/
theorem Rep.enqueue (hr : t ∉ ready) (hs : t ∉ sleep) :
    Rep (schedCoreEnqueue sc t) (ready ++ [t]) sleep ∧
    (∀ u ≠ t, u ∉ ready → (schedCoreEnqueue sc t).next u = sc.next u) := by
  have hnext : ∀ u ≠ t, u ∉ ready → (schedCoreEnqueue sc t).next u = sc.next u :=
    fun u hu hur => h.queue.pushBack_next hu hur
  refine ⟨⟨h.queue.pushBack hr h.ready_nodup, h.sleepers.congr fun u hu => ?_, ?_⟩, hnext⟩
  · exact hnext u (fun e => hs (e ▸ hu)) fun hur => h.disjoint hur hu
  · have hperm : ((ready ++ [t]) ++ sleep).Perm (t :: (ready ++ sleep)) := by
      rw [append_assoc]
      exact perm_middle
    rw [hperm.nodup_iff]
    exact nodup_cons.mpr ⟨by simp [hr, hs], h.nodup⟩

end

/-- `sched_core_dequeue` of an empty queue. -/
theorem Rep.dequeue_nil (h : Rep sc [] sleep) : schedCoreDequeue sc = (none, sc) := by
  have hhead : sc.readyHead = none := h.queue.head_eq
  rw [schedCoreDequeue, hhead]

/-- **`sched_core_dequeue` takes the oldest ready thread.** -/
theorem Rep.dequeue (h : Rep sc (t :: ready) sleep) :
    ∃ sc', schedCoreDequeue sc = (some t, sc') ∧ Rep sc' ready sleep ∧
      sc'.state = sc.state ∧ sc'.wakeTick = sc.wakeTick ∧ ∀ u ≠ t, sc'.next u = sc.next u := by
  obtain ⟨hhead, hq⟩ := h.queue.popFront h.ready_nodup
  have hdeq : schedCoreDequeue sc = (some t, { sc with
      next := (popFront sc.next sc.readyTail t).1
      readyHead := (popFront sc.next sc.readyTail t).2.1
      readyTail := (popFront sc.next sc.readyTail t).2.2 }) := by
    rw [schedCoreDequeue, hhead]
  refine ⟨_, hdeq, ⟨hq, ?_, ?_⟩, rfl, rfl, fun u hu => ?_⟩
  · exact h.sleepers.set (h.disjoint mem_cons_self) none
  · exact (nodup_cons.mp h.nodup).2
  · exact update_of_ne hu _ _

/-- The place that `sched_core_sleep` finds: behind every thread that is due no later, in front of one
that is due later. -/
theorem sleepLink_spec (w : Nat) (prev : Option Tid) {n : Nat} {cur : Option Tid} (h : Seg sc.next cur sleep none)
    (hn : sleep.length ≤ n) :
    ∃ l r, sleep = l ++ r ∧ (∀ c ∈ l, sc.wakeTick c ≤ w) ∧ (∀ c ∈ r.head?, w < sc.wakeTick c) ∧
      sleepLink sc w n prev cur = (l.getLast?.or prev, r.head?) := by
  induction sleep generalizing n prev cur with
  | nil =>
    obtain rfl : cur = none := h
    refine ⟨[], [], rfl, by simp, by simp, ?_⟩
    cases n <;> rfl
  | cons c sleep ih =>
    obtain ⟨rfl, h⟩ := h
    obtain ⟨n, rfl⟩ : ∃ m, n = m + 1 := ⟨n - 1, by simp at hn; omega⟩
    rw [sleepLink]
    by_cases hc : sc.wakeTick c ≤ w
    · obtain ⟨l, r, rfl, hl, hr, hlink⟩ := ih (some c) h (by simpa using hn)
      refine ⟨c :: l, r, rfl, ?_, hr, ?_⟩
      · simpa using ⟨hc, hl⟩
      · rw [if_pos hc, hlink, getLast?_cons]
        cases l.getLast? <;> rfl
    · refine ⟨[], c :: sleep, rfl, by simp, ?_, by rw [if_neg hc]; rfl⟩
      simpa using hc

/-- **`sched_core_sleep` inserts behind every sleeper that is due no later.** -/
theorem Rep.insert (h : Rep sc ready sleep) (hr : t ∉ ready) (hs : t ∉ sleep)
    (hlen : sleep.length ≤ maxThreads) (w : Nat) :
    ∃ l r, sleep = l ++ r ∧ (∀ c ∈ l, sc.wakeTick c ≤ w) ∧ (∀ c ∈ r.head?, w < sc.wakeTick c) ∧
      Rep (schedCoreSleep sc t w) ready (l ++ t :: r) ∧
      (schedCoreSleep sc t w).state = update sc.state t .sleeping ∧
      (schedCoreSleep sc t w).wakeTick = update sc.wakeTick t w ∧
      ∀ u ≠ t, u ∉ sleep → (schedCoreSleep sc t w).next u = sc.next u := by
  generalize hsc : ({ sc with
    state := update sc.state t .sleeping
    wakeTick := update sc.wakeTick t w } : SchedCore) = sc₁
  have hnext : sc₁.next = sc.next := by rw [← hsc]
  have hwake : ∀ c ∈ sleep, sc₁.wakeTick c = sc.wakeTick c := fun c hc => by
    have hne : c ≠ t := fun e => hs (e ▸ hc)
    rw [← hsc]
    exact update_of_ne hne _ _
  obtain ⟨l, r, hsplit, hl, hgt, hlink⟩ :=
    sleepLink_spec w (n := maxThreads) none (hnext ▸ h.sleepers) hlen
  have hmem : ∀ c, c ∈ sleep ↔ c ∈ l ∨ c ∈ r := fun c => by rw [hsplit, mem_append]
  have hins := Seg.insert (hsplit ▸ h.sleepers) (t := t) (hsplit ▸ hs) (hsplit ▸ h.sleep_nodup)
  have hsleep : schedCoreSleep sc t w = match l.getLast? with
      | none => { sc₁ with next := update sc₁.next t r.head?, sleepers := some t }
      | some p =>
        { sc₁ with next := update (update sc₁.next t r.head?) p (some t) } := by
    rw [schedCoreSleep]
    simp only [hsc]
    rw [hlink]
    subst hsc
    cases l.getLast? <;> rfl
  have hnd : (ready ++ (l ++ t :: r)).Nodup := by
    have hperm : (ready ++ (l ++ t :: r)).Perm (t :: (ready ++ sleep)) := by
      rw [hsplit, ← append_assoc, ← append_assoc]
      exact perm_middle
    rw [hperm.nodup_iff]
    exact nodup_cons.mpr ⟨by simp [hr, hs], h.nodup⟩
  refine ⟨l, r, hsplit, fun c hc => ?_, fun c hc => ?_, ?_⟩
  · rw [← hwake c ((hmem c).mpr (.inl hc))]
    exact hl c hc
  · rw [← hwake c ((hmem c).mpr (.inr (mem_of_mem_head? hc)))]
    exact hgt c hc
  rw [hsleep]
  have hqueue : ∀ next', (∀ u ≠ t, u ∉ sleep → next' u = sc.next u) →
      Queue next' sc.readyHead sc.readyTail ready := fun next' hn =>
    h.queue.congr fun u hu => hn u (fun e => hr (e ▸ hu)) (h.disjoint hu)
  cases hlast : l.getLast? with
  | none =>
    obtain rfl := getLast?_eq_none_iff.mp hlast
    have hframe : ∀ u ≠ t, u ∉ sleep → update sc₁.next t r.head? u = sc.next u :=
      fun u hu _ => by rw [update_of_ne hu, hnext]
    subst hsc
    exact ⟨⟨hqueue _ hframe, hins.1 rfl, hnd⟩, rfl, rfl, hframe⟩
  | some p =>
    have hframe : ∀ u ≠ t, u ∉ sleep →
        update (update sc₁.next t r.head?) p (some t) u = sc.next u := by
      intro u hu hus
      have hup : u ≠ p := fun e => hus ((hmem u).mpr (.inl (e ▸ mem_of_getLast? hlast)))
      rw [update_of_ne hup, update_of_ne hu, hnext]
    subst hsc
    exact ⟨⟨hqueue _ hframe, hins.2 p hlast, hnd⟩, rfl, rfl, hframe⟩

/-- **`sched_core_wake_due` moves the sleepers in front that are due to the ready queue**, in order. -/
theorem Rep.wakeLoop (now woken : Nat) {n : Nat} (h : Rep sc ready sleep) (hn : sleep.length ≤ n) :
    ∃ l r, sleep = l ++ r ∧ (∀ c ∈ l, sc.wakeTick c ≤ now) ∧ (∀ c ∈ r.head?, now < sc.wakeTick c) ∧
      Rep (wakeLoop now n sc woken).1 (ready ++ l) r ∧
      (∀ u ∈ l, (Sched.wakeLoop now n sc woken).1.state u = .ready) ∧
      (∀ u ∉ l, (Sched.wakeLoop now n sc woken).1.state u = sc.state u) ∧
      (Sched.wakeLoop now n sc woken).1.wakeTick = sc.wakeTick ∧
      (∀ u, u ∉ ready ++ sleep → (Sched.wakeLoop now n sc woken).1.next u = sc.next u) ∧
      (woken < 2 ^ 32 → (Sched.wakeLoop now n sc woken).2 = (woken + l.length) % 2 ^ 32) := by
  induction sleep generalizing n woken sc ready with
  | nil =>
    have hhead : sc.sleepers = none := h.sleepers
    have hsame : Sched.wakeLoop now n sc woken = (sc, woken) := by
      cases n with
      | zero => rfl
      | succ n => rw [Sched.wakeLoop, hhead]
    rw [hsame]
    refine ⟨[], [], rfl, by simp, by simp, ?_, by simp, fun _ _ => rfl, rfl, fun _ _ => rfl,
      fun hw => (Nat.mod_eq_of_lt hw).symm⟩
    simpa using h
  | cons c sleep ih =>
    obtain ⟨n, rfl⟩ : ∃ m, n = m + 1 := ⟨n - 1, by simp at hn; omega⟩
    have hhead : sc.sleepers = some c := h.sleepers.1
    by_cases hc : sc.wakeTick c ≤ now
    · have hcs : c ∉ sleep := (nodup_cons.mp h.sleep_nodup).1
      have hcr : c ∉ ready := fun hm => h.disjoint hm mem_cons_self
      have hpop : Rep { sc with sleepers := sc.next c } ready sleep :=
        ⟨h.queue, h.sleepers.2, h.nodup.sublist ((sublist_cons_self c sleep).append_left ready)⟩
      obtain ⟨hrep, hframe⟩ := hpop.enqueue hcr hcs
      obtain ⟨l, r, rfl, hl, hgt, hrep', hmoved, hkept, hwake, hnext, hcount⟩ :=
        ih ((woken + 1) % 2 ^ 32) hrep (by simpa using hn)
      have hcl : c ∉ l := fun hm => hcs (mem_append_left _ hm)
      have hstep : Sched.wakeLoop now (n + 1) sc woken = Sched.wakeLoop now n
          (schedCoreEnqueue { sc with sleepers := sc.next c } c) ((woken + 1) % 2 ^ 32) := by
        rw [Sched.wakeLoop, hhead]
        exact if_pos hc
      rw [hstep]
      refine ⟨c :: l, r, rfl, ?_, hgt, ?_, ?_, ?_, hwake, ?_, fun _ => ?_⟩
      · simpa using ⟨hc, hl⟩
      · simpa using hrep'
      · intro u hu
        rcases mem_cons.mp hu with rfl | hu
        · rw [hkept u hcl]
          exact update_self ..
        · exact hmoved u hu
      · intro u hu
        rw [hkept u (not_mem_of_not_mem_cons hu)]
        exact update_of_ne (ne_of_not_mem_cons hu) _ _
      · intro u hu
        simp only [mem_append, mem_cons, not_or] at hu
        obtain ⟨hur, huc, hul, hur'⟩ := hu
        rw [hnext u (by simp [hur, huc, hul, hur'])]
        exact hframe u huc hur
      · rw [hcount (Nat.mod_lt _ (by decide)), Nat.mod_add_mod, length_cons]
        omega
    · have hsame : Sched.wakeLoop now (n + 1) sc woken = (sc, woken) := by
        rw [Sched.wakeLoop, hhead]
        exact if_neg hc
      rw [hsame]
      refine ⟨[], c :: sleep, rfl, by simp, by simpa using hc, ?_, by simp, fun _ _ => rfl, rfl,
        fun _ _ => rfl, fun hw => (Nat.mod_eq_of_lt hw).symm⟩
      simpa using h

end Hallucinate.Sched
