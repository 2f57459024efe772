import Hallucinate.Sched.Kernel

/-!
# Where each thread is

The queue discipline says that a thread is in one place at a time. `Place` names the places, and
`Inv k pl ls` says that the state `k` agrees with the assignment `pl` and the lists `ls`: the links
represent the lists, a list holds exactly the threads assigned to it, slots and joiners likewise, and
the state field of a thread is the one of its place. Since `pl` is a function, no thread is in two
places.

Inside a kernel section a thread can be between two places (`Place.off`). Each primitive moves one
thread (`Inv.enqueue`, `Inv.push`, `Inv.pop`, ...), and `Inv.schedule` ends a section: the thread at
the head of the ready queue runs, or the idle thread.
-/

namespace Hallucinate.Sched

open Lib Function List

inductive Place
  | free
  | off
  | idle
  | run
  | ready
  | sleep
  | queue (q : WaitQ)
  | slot (i : Slot)
  | join (t : Tid)
  | zombie
  deriving DecidableEq

/-- The state field of a thread there, where it is determined. -/
def Place.state : Place → Option ThreadState
  | .run => some .running
  | .ready => some .ready
  | .sleep => some .sleeping
  | .queue _ | .slot _ | .join _ => some .blocked
  | .zombie => some .zombie
  | .free | .off | .idle => none

/-- The thread is on a list. -/
def Place.listed : Place → Bool
  | .ready | .sleep | .queue _ => true
  | _ => false

/-- A slot or a joiner field holds the thread. -/
def Place.held : Place → Bool
  | .slot _ | .join _ => true
  | _ => false

/-- The thread has a control block and is not the idle thread. -/
def Place.proper : Place → Bool
  | .free | .idle => false
  | _ => true

/-- A proper thread that no list, slot or joiner field holds. -/
def Place.loose (p : Place) : Bool := !p.listed && !p.held && p.proper

structure Lists where
  ready : List Tid
  sleep : List Tid
  wait : WaitQ → List Tid

/-- The lists hold the threads that are assigned to them. -/
structure Tracks (pl : Tid → Place) (ls : Lists) : Prop where
  ready : ∀ t, t ∈ ls.ready ↔ pl t = .ready
  sleep : ∀ t, t ∈ ls.sleep ↔ pl t = .sleep
  wait : ∀ q t, t ∈ ls.wait q ↔ pl t = .queue q

/-- Slots and joiner fields hold the threads that are assigned to them. -/
structure Held (k : Kern) (pl : Tid → Place) : Prop where
  slot : ∀ i t, k.slot i = some t ↔ pl t = .slot i
  joiner : ∀ u t, pl u ≠ .free → (k.joiner u = some t ↔ pl t = .join u)
  live : ∀ t u, pl t = .join u → pl u ≠ .free

/-- The links represent the lists. -/
structure Linked (k : Kern) (ls : Lists) : Prop where
  rep : Rep k.core ls.ready ls.sleep
  wait : ∀ q, Queue k.core.next (k.waitHead q) (k.waitTail q) (ls.wait q)
  nodup : ∀ q, (ls.wait q).Nodup

/-- The fields of the control blocks agree with the assignment. -/
structure Fields (k : Kern) (pl : Tid → Place) : Prop where
  idle : ∀ t, pl t = .idle ↔ t = k.idle
  free : ∀ t, pl t = .free ↔ k.alloc t = false
  bound : ∀ t, k.alloc t = true → t < maxThreads
  state : ∀ t st, (pl t).state = some st → k.core.state t = st

structure Inv (k : Kern) (pl : Tid → Place) (ls : Lists) : Prop where
  linked : Linked k ls
  tracks : Tracks pl ls
  held : Held k pl
  fields : Fields k pl

variable {k k' : Kern} {pl : Tid → Place} {ls : Lists} {t u : Tid} {p : Place}

/-! ## Moving threads -/

/-- The threads `ts` go to `p`. -/
def moveTo (pl : Tid → Place) (ts : List Tid) (p : Place) : Tid → Place :=
  fun u => if u ∈ ts then p else pl u

variable {ts : List Tid}

@[simp] theorem moveTo_mem (hu : u ∈ ts) : moveTo pl ts p u = p := if_pos hu

@[simp] theorem moveTo_not_mem (hu : u ∉ ts) : moveTo pl ts p u = pl u := if_neg hu

theorem moveTo_self : moveTo pl [t] p t = p := if_pos mem_cons_self

theorem moveTo_ne (hu : u ≠ t) : moveTo pl [t] p u = pl u := if_neg (by simpa using hu)

theorem Place.loose_iff : p.loose = true ↔ p.listed = false ∧ p.held = false ∧ p.proper = true := by
  simp [Place.loose, and_assoc]

variable {x : Place}

/-- Who is at `x` does not change if nobody is moved from or to `x`. -/
theorem moveTo_iff (ht : ∀ t ∈ ts, pl t ≠ x) (hp : p ≠ x) : moveTo pl ts p u = x ↔ pl u = x := by
  by_cases hu : u ∈ ts
  · rw [moveTo_mem hu]
    exact ⟨fun e => absurd e hp, fun e => absurd e (ht u hu)⟩
  · rw [moveTo_not_mem hu]

variable {y : Place}

/-- The same between the place `y` and no place at all. -/
theorem moveTo_other (ht : ∀ t ∈ ts, pl t = .off ∨ pl t = y) (hp : p = .off ∨ p = y) (h1 : x ≠ .off)
    (h2 : x ≠ y) : moveTo pl ts p u = x ↔ pl u = x := by
  refine moveTo_iff (fun t hm => ?_) ?_
  · rcases ht t hm with e | e <;> rw [e]
    exacts [h1.symm, h2.symm]
  · rcases hp with rfl | rfl
    exacts [h1.symm, h2.symm]

theorem Place.ne_of_listed (hp : p.listed = false) (hx : x.listed = true) : p ≠ x :=
  fun e => by simp [e, hx] at hp

theorem Place.ne_of_held (hp : p.held = false) (hx : x.held = true) : p ≠ x :=
  fun e => by simp [e, hx] at hp

theorem Place.ne_of_proper (hp : p.proper = true) (hx : x.proper = false) : p ≠ x :=
  fun e => by simp [e, hx] at hp

/-- Threads on no list go to no list. -/
theorem Tracks.move (h : Tracks pl ls) (ht : ∀ t ∈ ts, (pl t).listed = false)
    (hp : p.listed = false) : Tracks (moveTo pl ts p) ls := by
  have key : ∀ (u : Tid) (x : Place), x.listed = true → (moveTo pl ts p u = x ↔ pl u = x) :=
    fun u x hx => moveTo_iff (fun t hm => Place.ne_of_listed (ht t hm) hx) (Place.ne_of_listed hp hx)
  exact ⟨fun u => (h.ready u).trans (key u _ rfl).symm, fun u => (h.sleep u).trans (key u _ rfl).symm,
    fun q u => (h.wait q u).trans (key u _ rfl).symm⟩

theorem Held.move (h : Held k pl) (hslot : k'.slot = k.slot) (hjoin : k'.joiner = k.joiner)
    (ht : ∀ t ∈ ts, (pl t).held = false ∧ (pl t).proper = true) (hp : p.held = false)
    (hpp : p.proper = true) : Held k' (moveTo pl ts p) := by
  have key : ∀ (u : Tid) (x : Place), x.held = true → (moveTo pl ts p u = x ↔ pl u = x) :=
    fun u x hx => moveTo_iff (fun t hm => Place.ne_of_held (ht t hm).1 hx) (Place.ne_of_held hp hx)
  have hfree : ∀ u, moveTo pl ts p u = .free ↔ pl u = .free := fun u =>
    moveTo_iff (fun t hm => Place.ne_of_proper (ht t hm).2 rfl) (Place.ne_of_proper hpp rfl)
  refine ⟨fun i u => ?_, fun v u hv => ?_, fun u v hj => ?_⟩
  · rw [hslot, key u _ rfl]
    exact h.slot i u
  · rw [hjoin, key u _ rfl]
    exact h.joiner v u fun e => hv ((hfree v).mpr e)
  · exact fun e => h.live u v ((key u _ rfl).mp hj) ((hfree v).mp e)

theorem Fields.move (h : Fields k pl) (hidle : k'.idle = k.idle) (halloc : k'.alloc = k.alloc)
    (ht : ∀ t ∈ ts, (pl t).proper = true) (hp : p.proper = true)
    (hself : ∀ t ∈ ts, ∀ st, p.state = some st → k'.core.state t = st)
    (hother : ∀ u, u ∉ ts → k'.core.state u = k.core.state u) :
    Fields k' (moveTo pl ts p) := by
  have key : ∀ (u : Tid) (x : Place), x.proper = false → (moveTo pl ts p u = x ↔ pl u = x) :=
    fun u x hx => moveTo_iff (fun t hm => Place.ne_of_proper (ht t hm) hx) (Place.ne_of_proper hp hx)
  refine ⟨fun u => ?_, fun u => ?_, fun u => ?_, fun u st hst => ?_⟩
  · rw [hidle, key u _ rfl]
    exact h.idle u
  · rw [halloc, key u _ rfl]
    exact h.free u
  · rw [halloc]
    exact h.bound u
  · by_cases hu : u ∈ ts
    · rw [moveTo_mem hu] at hst
      exact hself u hu st hst
    · rw [moveTo_not_mem hu] at hst
      rw [hother u hu]
      exact h.state u st hst

/-! ## The primitives -/

section

variable (h : Inv k pl ls) (hl : (pl t).listed = false)
include h hl

theorem Inv.ready_listed : t ∉ ls.ready := fun hm =>
  Place.ne_of_listed hl rfl ((h.tracks.ready t).mp hm)

theorem Inv.sleep_listed : t ∉ ls.sleep := fun hm =>
  Place.ne_of_listed hl rfl ((h.tracks.sleep t).mp hm)

theorem Inv.wait_listed (q : WaitQ) : t ∉ ls.wait q := fun hm =>
  Place.ne_of_listed hl rfl ((h.tracks.wait q t).mp hm)

end

variable {q : WaitQ}

/-- Lists of different places have no thread in common. -/
theorem Inv.wait_disjoint (h : Inv k pl ls) (hu : u ∈ ls.wait q) :
    u ∉ ls.ready ∧ u ∉ ls.sleep ∧ ∀ q', q' ≠ q → u ∉ ls.wait q' := by
  rw [h.tracks.wait] at hu
  simp only [h.tracks.ready, h.tracks.sleep, h.tracks.wait, hu]
  exact ⟨nofun, nofun, fun q' hq e => hq (Place.queue.inj e).symm⟩

variable {l : List Tid}

theorem Inv.length_le (h : Inv k pl ls) (hnd : l.Nodup) (hl : ∀ u ∈ l, pl u ≠ .free) :
    l.length ≤ maxThreads :=
  length_le_maxThreads hnd fun u hu => h.fields.bound u (by
    simpa using fun e => hl u hu ((h.fields.free u).mpr e))

theorem Inv.sleep_length_le (h : Inv k pl ls) : ls.sleep.length ≤ maxThreads :=
  h.length_le h.linked.rep.sleep_nodup fun u hu => by
    rw [(h.tracks.sleep u).mp hu]
    exact nofun

/-- Links and lists do not depend on state fields. -/
theorem Linked.setState (h : Linked k ls) (t : Tid) (st : ThreadState) :
    Linked (k.setState t st) ls :=
  ⟨⟨h.rep.queue, h.rep.sleepers, h.rep.nodup⟩, h.wait, h.nodup⟩

variable {ready : List Tid}

section

variable (h : Inv k pl ls)
include h

/-- A loose thread becomes loose elsewhere, with the state of the place. -/
theorem Inv.setState {st : ThreadState} (ht : (pl t).loose = true) (hp : p.loose = true)
    (hst : ∀ st', p.state = some st' → st = st') : Inv (k.setState t st) (moveTo pl [t] p) ls := by
  obtain ⟨h1, h2, h3⟩ := Place.loose_iff.mp ht
  obtain ⟨p1, p2, p3⟩ := Place.loose_iff.mp hp
  refine ⟨h.linked.setState t st, h.tracks.move (by simpa using h1) p1,
    h.held.move rfl rfl (by simpa using ⟨h2, h3⟩) p2 p3,
    h.fields.move rfl rfl (by simpa using h3) p3 ?_ ?_⟩
  · intro u hu st' hst'
    rw [mem_singleton.mp hu]
    exact (update_self ..).trans (hst st' hst')
  · intro u hu
    exact update_of_ne (by simpa using hu) _ _

/-- The threads `ts` enter or leave the ready and the sleep queue. -/
theorem Inv.setCore {core : SchedCore} {sleep : List Tid} (hrep : Rep core ready sleep)
    (hnext : ∀ q, ∀ u ∈ ls.wait q, core.next u = k.core.next u)
    (hready : ∀ u, u ∈ ready ↔ moveTo pl ts p u = .ready)
    (hsleep : ∀ u, u ∈ sleep ↔ moveTo pl ts p u = .sleep)
    (hts : ∀ u ∈ ts, (pl u).held = false ∧ (pl u).proper = true ∧ ∀ q, pl u ≠ .queue q)
    (hp : p.held = false ∧ p.proper = true ∧ ∀ q, p ≠ .queue q)
    (hself : ∀ u ∈ ts, ∀ st, p.state = some st → core.state u = st)
    (hother : ∀ u, u ∉ ts → core.state u = k.core.state u) :
    Inv { k with core := core } (moveTo pl ts p) { ls with ready := ready, sleep := sleep } :=
  ⟨⟨hrep, fun q => (h.linked.wait q).congr (hnext q), h.linked.nodup⟩,
    ⟨hready, hsleep, fun q u => (h.tracks.wait q u).trans
      (moveTo_iff (fun t ht => (hts t ht).2.2 q) (hp.2.2 q)).symm⟩,
    h.held.move rfl rfl (fun u hu => ⟨(hts u hu).1, (hts u hu).2.1⟩) hp.1 hp.2.1,
    h.fields.move rfl rfl (fun u hu => (hts u hu).2.1) hp.2.1 hself hother⟩

/-- `sched_core_enqueue` of a loose thread. -/
theorem Inv.enqueue (ht : (pl t).loose = true) :
    Inv (k.enqueue t) (moveTo pl [t] .ready) { ls with ready := ls.ready ++ [t] } := by
  obtain ⟨h1, h2, h3⟩ := Place.loose_iff.mp ht
  obtain ⟨hrep, hnext⟩ := h.linked.rep.enqueue (h.ready_listed h1) (h.sleep_listed h1)
  have hq : ∀ q, pl t ≠ .queue q := fun q => Place.ne_of_listed h1 rfl
  refine h.setCore hrep (fun q u hu => ?_) (fun u => ?_) (fun u => ?_) (by simpa using ⟨h2, h3, hq⟩)
    ⟨rfl, rfl, nofun⟩ ?_ ?_
  · exact hnext u (fun e => h.wait_listed h1 q (e ▸ hu)) (h.wait_disjoint hu).1
  · rw [mem_append, h.tracks.ready]
    by_cases hu : u = t <;> simp [hu, moveTo]
  · exact (h.tracks.sleep u).trans
      (.symm (moveTo_iff (by simpa using Place.ne_of_listed h1 rfl) nofun))
  · intro u hu st hst
    rw [mem_singleton.mp hu]
    exact (update_self ..).trans (Option.some.inj hst)
  · intro u hu
    exact update_of_ne (by simpa using hu) _ _

/-- `sched_core_dequeue`: the head is on no list, and still READY. -/
theorem Inv.dequeue {r : List Tid} (hr : ls.ready = t :: r) :
    ∃ core, schedCoreDequeue k.core = (some t, core) ∧ core.state = k.core.state ∧
      Inv { k with core := core } (moveTo pl [t] .off) { ls with ready := r } := by
  have hrep := h.linked.rep
  rw [hr] at hrep
  obtain ⟨core, hdeq, hrep', hstate, -, hnext⟩ := hrep.dequeue
  have hplace : pl t = .ready := (h.tracks.ready t).mp (by rw [hr]; exact mem_cons_self)
  have htr : t ∉ r := (nodup_cons.mp hrep.ready_nodup).1
  refine ⟨core, hdeq, hstate, h.setCore hrep' (fun q u hu => ?_) (fun u => ?_) (fun u => ?_)
    (by simp [hplace, Place.held, Place.proper]) ⟨rfl, rfl, nofun⟩ (fun _ _ _ => nofun)
    fun u _ => congrFun hstate u⟩
  · exact hnext u fun e => by
      rw [h.tracks.wait, e, hplace] at hu
      cases hu
  · by_cases hu : u = t
    · rw [hu, moveTo_self]
      exact ⟨fun hm => absurd hm htr, nofun⟩
    · rw [moveTo_ne hu, ← h.tracks.ready, hr, mem_cons]
      exact ⟨.inr, fun hm => hm.resolve_left hu⟩
  · exact (h.tracks.sleep u).trans (.symm (moveTo_iff (by simp [hplace]) nofun))

/-- `sched_core_sleep` of a loose thread. -/
theorem Inv.sleep (ht : (pl t).loose = true) (w : Nat) :
    ∃ sleep, Inv { k with core := schedCoreSleep k.core t w } (moveTo pl [t] .sleep)
      { ls with sleep := sleep } := by
  obtain ⟨h1, h2, h3⟩ := Place.loose_iff.mp ht
  obtain ⟨l, r, hsplit, -, -, hrep, hstate, -, hnext⟩ :=
    h.linked.rep.insert (h.ready_listed h1) (h.sleep_listed h1) h.sleep_length_le w
  have hq : ∀ q, pl t ≠ .queue q := fun q => Place.ne_of_listed h1 rfl
  refine ⟨l ++ t :: r, h.setCore hrep (fun q u hu => ?_) (fun u => ?_) (fun u => ?_)
    (by simpa using ⟨h2, h3, hq⟩) ⟨rfl, rfl, nofun⟩ ?_ ?_⟩
  · exact hnext u (fun e => h.wait_listed h1 q (e ▸ hu)) (h.wait_disjoint hu).2.1
  · exact (h.tracks.ready u).trans
      (.symm (moveTo_iff (by simpa using Place.ne_of_listed h1 rfl) nofun))
  · by_cases hu : u = t
    · simp [hu, moveTo]
    · rw [moveTo_ne hu, ← h.tracks.sleep, hsplit]
      simp [hu]
  · intro u hu st hst
    rw [mem_singleton.mp hu]
    exact (congrFun hstate t).trans ((update_self ..).trans (Option.some.inj hst))
  · intro u hu
    exact (congrFun hstate u).trans (update_of_ne (by simpa using hu) _ _)

/-- `sched_core_wake_due`: sleepers in front become ready. -/
theorem Inv.wakeDue (now : Nat) : ∃ l r, ls.sleep = l ++ r ∧
      Inv { k with core := (schedCoreWakeDue k.core now).1 } (moveTo pl l .ready)
        { ls with ready := ls.ready ++ l, sleep := r } := by
  obtain ⟨l, r, hsplit, -, -, hrep, hmoved, hkept, -, hnext, -⟩ := h.linked.rep.wakeLoop now 0 h.sleep_length_le
  have hl : ∀ u ∈ l, pl u = .sleep := fun u hu =>
    (h.tracks.sleep u).mp (by rw [hsplit]; exact mem_append_left _ hu)
  have hlr : ∀ u ∈ l, u ∉ r := fun u hu hr =>
    (nodup_append.mp (hsplit ▸ h.linked.rep.sleep_nodup)).2.2 u hu u hr rfl
  refine ⟨l, r, hsplit, h.setCore hrep (fun q u hu => ?_) (fun u => ?_) (fun u => ?_)
    (fun u hu => by simp [hl u hu, Place.held, Place.proper]) ⟨rfl, rfl, nofun⟩ ?_ hkept⟩
  · obtain ⟨h1, h2, -⟩ := h.wait_disjoint hu
    exact hnext u (by simp [h1, h2])
  · by_cases hu : u ∈ l
    · simp [hu]
    · rw [moveTo_not_mem hu, ← h.tracks.ready, mem_append]
      exact ⟨fun hm => hm.resolve_right hu, .inl⟩
  · by_cases hu : u ∈ l
    · rw [moveTo_mem hu]
      exact ⟨fun hm => absurd hm (hlr u hu), nofun⟩
    · rw [moveTo_not_mem hu, ← h.tracks.sleep, hsplit, mem_append]
      exact ⟨.inr, fun hm => hm.resolve_left hu⟩
  · intro u hu st hst
    exact (hmoved u hu).trans (Option.some.inj hst)

end

variable {next' : Tid → Option Tid}

theorem Rep.congr {sc : SchedCore} {sleep : List Tid} (h : Rep sc ready sleep)
    (hn : ∀ u, u ∈ ready ∨ u ∈ sleep → next' u = sc.next u) :
    Rep { sc with next := next' } ready sleep :=
  ⟨h.queue.congr fun u hu => hn u (.inl hu), h.sleepers.congr fun u hu => hn u (.inr hu), h.nodup⟩

section

variable (h : Inv k pl ls)
include h

/-- The threads `ts` enter or leave the wait queue `q`. -/
theorem Inv.setQueue {head' tail' : Option Tid} {l' : List Tid} (hq : Queue next' head' tail' l')
    (hnd : l'.Nodup) (hnext : ∀ u, u ∉ ts → u ∉ ls.wait q → next' u = k.core.next u)
    (hmem : ∀ u, u ∈ l' ↔ moveTo pl ts p u = .queue q)
    (hts : ∀ u ∈ ts, pl u = .off ∨ pl u = .queue q) (hp : p = .off ∨ p = .queue q)
    (hst : p = .queue q → ∀ u ∈ ts, k.core.state u = .blocked) : Inv { k with
        core := { k.core with next := next' }
        waitHead := update k.waitHead q head'
        waitTail := update k.waitTail q tail' }
      (moveTo pl ts p) { ls with wait := update ls.wait q l' } := by
  have hframe : ∀ u, pl u ≠ .off → pl u ≠ .queue q → next' u = k.core.next u := fun u h1 h2 =>
    hnext u (fun hm => (hts u hm).elim h1 h2) fun hm => h2 ((h.tracks.wait q u).mp hm)
  have key : ∀ (u : Tid) (x : Place), x ≠ .off → x ≠ .queue q → (moveTo pl ts p u = x ↔ pl u = x) :=
    fun u x => moveTo_other hts hp
  have hheld : p.held = false ∧ p.proper = true := by
    rcases hp with rfl | rfl <;> exact ⟨rfl, rfl⟩
  have htsh : ∀ u ∈ ts, (pl u).held = false ∧ (pl u).proper = true := fun u hu => by
    rcases hts u hu with e | e <;> rw [e] <;> exact ⟨rfl, rfl⟩
  refine ⟨⟨h.linked.rep.congr fun u hu => ?_, fun q' => ?_, fun q' => ?_⟩,
    ⟨fun u => ?_, fun u => ?_, fun q' u => ?_⟩, h.held.move rfl rfl htsh hheld.1 hheld.2,
    h.fields.move rfl rfl (fun u hu => (htsh u hu).2) hheld.2 ?_ fun _ _ => rfl⟩
  · rcases hu with hu | hu
    · rw [h.tracks.ready] at hu
      exact hframe u (by rw [hu]; exact nofun) (by rw [hu]; exact nofun)
    · rw [h.tracks.sleep] at hu
      exact hframe u (by rw [hu]; exact nofun) (by rw [hu]; exact nofun)
  · by_cases hq' : q' = q
    · simp only [hq', update_self]
      exact hq
    · simp only [update_of_ne hq']
      refine (h.linked.wait q').congr fun u hu => ?_
      rw [h.tracks.wait] at hu
      exact hframe u (by rw [hu]; exact nofun) (by rw [hu]; exact fun e => hq' (Place.queue.inj e))
  · by_cases hq' : q' = q
    · simp only [hq', update_self]
      exact hnd
    · simp only [update_of_ne hq']
      exact h.linked.nodup q'
  · exact (h.tracks.ready u).trans (key u .ready nofun nofun).symm
  · exact (h.tracks.sleep u).trans (key u .sleep nofun nofun).symm
  · by_cases hq' : q' = q
    · simp only [hq', update_self]
      exact hmem u
    · simp only [update_of_ne hq']
      exact (h.tracks.wait q' u).trans
        (key u (.queue q') nofun fun e => hq' (Place.queue.inj e)).symm
  · intro u hu st hs
    rcases hp with rfl | rfl
    · cases hs
    · exact (hst rfl u hu).trans (Option.some.inj hs)

/-- `wq_push` of a blocked thread. -/
theorem Inv.push (q : WaitQ) (ht : pl t = .off) (hst : k.core.state t = .blocked) :
    Inv (wqPush k q t) (moveTo pl [t] (.queue q))
      { ls with wait := update ls.wait q (ls.wait q ++ [t]) } := by
  have htq : t ∉ ls.wait q := h.wait_listed (by rw [ht]; rfl) q
  refine h.setQueue ((h.linked.wait q).pushBack htq (h.linked.nodup q)) ?_ ?_ ?_ ?_ (.inr rfl) ?_
  · exact nodup_append.mpr ⟨h.linked.nodup q, nodup_singleton t, fun a ha b hb e => htq (by
      rw [← mem_singleton.mp hb, ← e]
      exact ha)⟩
  · exact fun u hu huq => (h.linked.wait q).pushBack_next (by simpa using hu) huq
  · intro u
    rw [mem_append, h.tracks.wait]
    by_cases hu : u = t <;> simp [hu, moveTo]
  · simp [ht]
  · simpa using hst

/-- The head of a wait queue is taken off. -/
theorem Inv.pop (hq : ls.wait q = t :: l) : k.waitHead q = some t ∧ k.core.state t = .blocked ∧
    Inv (wqPop k q t) (moveTo pl [t] .off) { ls with wait := update ls.wait q l } := by
  have hplace : pl t = .queue q := (h.tracks.wait q t).mp (by rw [hq]; exact mem_cons_self)
  have hnd := h.linked.nodup q
  have hqueue := h.linked.wait q
  rw [hq] at hnd hqueue
  obtain ⟨hhead, hpop⟩ := hqueue.popFront hnd
  refine ⟨hhead, h.fields.state t _ (by rw [hplace]; rfl),
    h.setQueue hpop (nodup_cons.mp hnd).2 ?_ ?_ (by simp [hplace]) (.inl rfl) nofun⟩
  · exact fun u hu _ => update_of_ne (by simpa using hu) _ _
  · intro u
    by_cases hu : u = t
    · rw [hu, moveTo_self]
      exact ⟨fun hm => absurd hm (nodup_cons.mp hnd).1, nofun⟩
    · rw [moveTo_ne hu, ← h.tracks.wait, hq, mem_cons]
      exact ⟨.inr, fun hm => hm.resolve_left hu⟩

/-- All threads of a wait queue are taken off, still linked to each other. -/
theorem Inv.detach (q : WaitQ) : Inv { k with
        waitHead := update k.waitHead q none
        waitTail := update k.waitTail q none }
      (moveTo pl (ls.wait q) .off) { ls with wait := update ls.wait q [] } := by
  refine h.setQueue Queue.empty nodup_nil (fun _ _ _ => rfl) (fun u => ?_) (fun u hu => ?_)
    (.inl rfl) nofun
  · by_cases hu : u ∈ ls.wait q
    · rw [moveTo_mem hu]
      exact ⟨nofun, nofun⟩
    · rw [moveTo_not_mem hu, ← h.tracks.wait]
      exact ⟨nofun, fun hm => absurd hm hu⟩
  · exact .inr ((h.tracks.wait q u).mp hu)

/-- A thread on no list goes into the slot or joiner field `y`, or out of it; `hheld` is what this does
to these fields. -/
theorem Inv.setHeld {slot' : Slot → Option Tid} {joiner' : Tid → Option Tid}
    (hheld : Held { k with slot := slot', joiner := joiner' } (moveTo pl [t] p))
    (hy : y.listed = false ∧ y.proper = true ∧ y.state = some .blocked)
    (ht : pl t = .off ∨ pl t = y) (hp : p = .off ∨ p = y) (hst : k.core.state t = .blocked) :
    Inv { k with slot := slot', joiner := joiner' } (moveTo pl [t] p) ls := by
  obtain ⟨h1, h2, h3⟩ := hy
  have key : ∀ x, x = .off ∨ x = y → x.listed = false ∧ x.proper = true := by
    rintro x (rfl | rfl)
    exacts [⟨rfl, rfl⟩, ⟨h1, h2⟩]
  refine ⟨⟨h.linked.rep, h.linked.wait, h.linked.nodup⟩,
    h.tracks.move (by simpa using (key _ ht).1) (key p hp).1, hheld,
    h.fields.move rfl rfl (by simpa using (key _ ht).2) (key p hp).2 (fun u hu st hs => ?_)
      fun _ _ => rfl⟩
  rw [mem_singleton.mp hu]
  rcases hp with rfl | rfl
  · cases hs
  · exact hst.trans (Option.some.inj (h3.symm.trans hs))

end

variable {c : Option Tid}

/-- What a cell holds once `t` is there, and once it has gone. -/
theorem moveTo_fill (hc : ∀ u, c = some u ↔ pl u = p) (h : c = none) (u : Tid) :
    some t = some u ↔ moveTo pl [t] p u = p := by
  by_cases hu : u = t
  · rw [hu, moveTo_self]
    exact ⟨fun _ => rfl, fun _ => rfl⟩
  · rw [moveTo_ne hu, ← hc, h]
    exact ⟨fun e => absurd (Option.some.inj e).symm hu, nofun⟩

theorem moveTo_clear (hc : ∀ u, c = some u ↔ pl u = x) (h : c = some t) (hp : p ≠ x) (u : Tid) :
    none = some u ↔ moveTo pl [t] p u = x := by
  by_cases hu : u = t
  · rw [hu, moveTo_self]
    exact ⟨nofun, fun e => absurd e hp⟩
  · rw [moveTo_ne hu, ← hc, h]
    exact ⟨nofun, fun e => absurd (Option.some.inj e).symm hu⟩

variable {i : Slot} {v : Tid}

section

variable (h : Inv k pl ls)
include h

/-- A thread enters or leaves the slot `i`. -/
theorem Inv.setSlot (hc : ∀ u, c = some u ↔ moveTo pl [t] p u = .slot i)
    (ht : pl t = .off ∨ pl t = .slot i) (hp : p = .off ∨ p = .slot i)
    (hst : k.core.state t = .blocked) :
    Inv { k with slot := update k.slot i c } (moveTo pl [t] p) ls := by
  have key : ∀ (u : Tid) (x : Place), x ≠ .off → x ≠ .slot i →
      (moveTo pl [t] p u = x ↔ pl u = x) := fun u x => moveTo_other (by simpa using ht) hp
  refine h.setHeld ⟨fun j u => ?_, fun v u hv => ?_, fun u v hj => ?_⟩ ⟨rfl, rfl, rfl⟩ ht hp hst
  · by_cases hj : j = i
    · simp only [hj, update_self]
      exact hc u
    · simp only [update_of_ne hj]
      exact (h.held.slot j u).trans (key u (.slot j) nofun fun e => hj (Place.slot.inj e)).symm
  · exact (h.held.joiner v u fun e => hv ((key v .free nofun nofun).mpr e)).trans
      (key u (.join v) nofun nofun).symm
  · exact fun e => h.held.live u v ((key u (.join v) nofun nofun).mp hj)
      ((key v .free nofun nofun).mp e)

theorem Inv.fillSlot (hi : k.slot i = none) (ht : pl t = .off) (hst : k.core.state t = .blocked) :
    Inv { k with slot := update k.slot i (some t) } (moveTo pl [t] (.slot i)) ls :=
  h.setSlot (moveTo_fill (h.held.slot i) hi) (.inl ht) (.inr rfl) hst

theorem Inv.clearSlot (hi : k.slot i = some t) : pl t = .slot i ∧ k.core.state t = .blocked ∧
    Inv { k with slot := update k.slot i none } (moveTo pl [t] .off) ls := by
  have ht : pl t = .slot i := (h.held.slot i t).mp hi
  have hst : k.core.state t = .blocked := h.fields.state t _ (by rw [ht]; rfl)
  exact ⟨ht, hst, h.setSlot (moveTo_clear (h.held.slot i) hi nofun) (.inr ht) (.inl rfl) hst⟩

/-- A thread enters or leaves the joiner field of `v`. -/
theorem Inv.setJoiner (hc : ∀ u, c = some u ↔ moveTo pl [t] p u = .join v)
    (ht : pl t = .off ∨ pl t = .join v) (hp : p = .off ∨ p = .join v) (hlive : pl v ≠ .free)
    (hst : k.core.state t = .blocked) :
    Inv { k with joiner := update k.joiner v c } (moveTo pl [t] p) ls := by
  have key : ∀ (u : Tid) (x : Place), x ≠ .off → x ≠ .join v →
      (moveTo pl [t] p u = x ↔ pl u = x) := fun u x => moveTo_other (by simpa using ht) hp
  refine h.setHeld ⟨fun j u => ?_, fun w u hw => ?_, fun u w hj e => ?_⟩ ⟨rfl, rfl, rfl⟩ ht hp hst
  · exact (h.held.slot j u).trans (key u (.slot j) nofun nofun).symm
  · by_cases hwv : w = v
    · simp only [hwv, update_self]
      exact hc u
    · simp only [update_of_ne hwv]
      exact (h.held.joiner w u fun e => hw ((key w .free nofun nofun).mpr e)).trans
        (key u (.join w) nofun fun e => hwv (Place.join.inj e)).symm
  · have he := (key w .free nofun nofun).mp e
    by_cases hwv : w = v
    · exact hlive (hwv ▸ he)
    · exact h.held.live u w ((key u (.join w) nofun fun e => hwv (Place.join.inj e)).mp hj) he

theorem Inv.fillJoiner (hv : k.joiner v = none) (hlive : pl v ≠ .free) (ht : pl t = .off)
    (hst : k.core.state t = .blocked) :
    Inv { k with joiner := update k.joiner v (some t) } (moveTo pl [t] (.join v)) ls :=
  h.setJoiner (moveTo_fill (fun u => h.held.joiner v u hlive) hv) (.inl ht) (.inr rfl) hlive hst

theorem Inv.clearJoiner (hv : k.joiner v = some t) (hlive : pl v ≠ .free) : pl t = .join v ∧
    Inv { k with joiner := update k.joiner v none } (moveTo pl [t] .off) ls := by
  have ht : pl t = .join v := (h.held.joiner v t hlive).mp hv
  exact ⟨ht, h.setJoiner (moveTo_clear (fun u => h.held.joiner v u hlive) hv nofun) (.inr ht) (.inl rfl)
    hlive (h.fields.state t _ (by rw [ht]; rfl))⟩

/-- The control block of a zombie that nobody waits for is freed. -/
theorem Inv.reap (ht : pl t = .zombie) (hno : ∀ u, pl u ≠ .join t) :
    Inv { k with alloc := update k.alloc t false } (moveTo pl [t] .free) ls := by
  have key : ∀ (u : Tid) (x : Place), x ≠ .zombie → x ≠ .free →
      (moveTo pl [t] .free u = x ↔ pl u = x) := fun u x h1 h2 =>
    moveTo_iff (by simpa [ht] using h1.symm) h2.symm
  have hfree : ∀ u, u ≠ t → (moveTo pl [t] .free u = .free ↔ pl u = .free) := fun u hu => by
    rw [moveTo_ne hu]
  refine ⟨⟨h.linked.rep, h.linked.wait, h.linked.nodup⟩,
    h.tracks.move (by simp [ht, Place.listed]) rfl,
    ⟨fun i u => ?_, fun v u hv => ?_, fun u v hj => ?_⟩,
    ⟨fun u => ?_, fun u => ?_, fun u hu => ?_, fun u st hst => ?_⟩⟩
  · exact (h.held.slot i u).trans (key u (.slot i) nofun nofun).symm
  · have hvt : v ≠ t := fun e => hv (by rw [e, moveTo_self])
    exact (h.held.joiner v u fun e => hv ((hfree v hvt).mpr e)).trans
      (key u (.join v) nofun nofun).symm
  · have hj' := (key u (.join v) nofun nofun).mp hj
    have hvt : v ≠ t := fun e => hno u (e ▸ hj')
    exact fun e => h.held.live u v hj' ((hfree v hvt).mp e)
  · exact (key u .idle nofun nofun).trans (h.fields.idle u)
  · by_cases hu : u = t
    · simp [hu, moveTo]
    · rw [hfree u hu, h.fields.free]
      simp [hu]
  · by_cases hut : u = t
    · simp [hut] at hu
    · exact h.fields.bound u (by simpa [hut] using hu)
  · by_cases hu : u = t
    · rw [hu, moveTo_self] at hst
      cases hst
    · rw [moveTo_ne hu] at hst
      exact h.fields.state u st hst

/-- A control block is allocated and zeroed. -/
theorem Inv.alloc (ht : pl t = .free) (hlt : t < maxThreads) (cont : Tid → Cont) : Inv { k with
        alloc := update k.alloc t true
        joiner := update k.joiner t none
        cont := cont
        core := { k.core with
          state := update k.core.state t .ready
          wakeTick := update k.core.wakeTick t 0
          next := update k.core.next t none } }
      (moveTo pl [t] .off) ls := by
  have key : ∀ (u : Tid) (x : Place), x ≠ .free → x ≠ .off →
      (moveTo pl [t] .off u = x ↔ pl u = x) := fun u x h1 h2 =>
    moveTo_iff (by simpa [ht] using h1.symm) h2.symm
  have hlisted : (pl t).listed = false := by rw [ht]; rfl
  have hnext : ∀ u, u ≠ t → update k.core.next t none u = k.core.next u :=
    fun u hu => update_of_ne hu _ _
  have hrep : Rep { k.core with next := update k.core.next t none } ls.ready ls.sleep :=
    h.linked.rep.congr fun u hu => hnext u fun e => by
      subst e
      exact hu.elim (h.ready_listed hlisted) (h.sleep_listed hlisted)
  refine ⟨⟨⟨hrep.queue, hrep.sleepers, hrep.nodup⟩,
    fun q => (h.linked.wait q).congr fun u hu => hnext u fun e => h.wait_listed hlisted q (e ▸ hu),
    h.linked.nodup⟩, h.tracks.move (by simpa using hlisted) rfl,
    ⟨fun i u => ?_, fun v u hv => ?_, fun u v hj => ?_⟩,
    ⟨fun u => ?_, fun u => ?_, fun u hu => ?_, fun u st hst => ?_⟩⟩
  · exact (h.held.slot i u).trans (key u (.slot i) nofun nofun).symm
  · by_cases hvt : v = t
    · rw [hvt]
      simp only [update_self]
      refine ⟨nofun, fun e => absurd ht (h.held.live u t ((key u (.join t) nofun nofun).mp e))⟩
    · rw [moveTo_ne hvt] at hv
      simp only [update_of_ne hvt]
      exact (h.held.joiner v u hv).trans (key u (.join v) nofun nofun).symm
  · by_cases hvt : v = t
    · rw [hvt, moveTo_self]
      exact nofun
    · rw [moveTo_ne hvt]
      exact h.held.live u v ((key u (.join v) nofun nofun).mp hj)
  · exact (key u .idle nofun nofun).trans (h.fields.idle u)
  · by_cases hu : u = t
    · simp [hu, moveTo]
    · rw [moveTo_ne hu, h.fields.free]
      simp [hu]
  · by_cases hut : u = t
    · rwa [hut]
    · exact h.fields.bound u (by simpa [hut] using hu)
  · by_cases hu : u = t
    · rw [hu, moveTo_self] at hst
      cases hst
    · rw [moveTo_ne hu] at hst
      exact (update_of_ne hu _ _).trans (h.fields.state u st hst)

/-- The state field of the idle thread is free. -/
theorem Inv.setIdle (st : ThreadState) : Inv (k.setState k.idle st) pl ls := by
  refine ⟨h.linked.setState _ _, h.tracks, ⟨h.held.slot, h.held.joiner, h.held.live⟩,
    ⟨h.fields.idle, h.fields.free, h.fields.bound, fun u st' hst => ?_⟩⟩
  have hu : u ≠ k.idle := fun e => by
    rw [(h.fields.idle u).mpr e] at hst
    cases hst
  exact (update_of_ne hu _ _).trans (h.fields.state u st' hst)

/-- The fields that `Inv` reads. -/
theorem Inv.congr (hcore : k'.core = k.core) (hhead : k'.waitHead = k.waitHead)
    (htail : k'.waitTail = k.waitTail) (hslot : k'.slot = k.slot) (hjoin : k'.joiner = k.joiner)
    (hidle : k'.idle = k.idle) (halloc : k'.alloc = k.alloc) : Inv k' pl ls := by
  obtain ⟨⟨h1, h2, h3⟩, h4, ⟨h5, h6, h7⟩, ⟨h8, h9, h10, h11⟩⟩ := h
  rw [← hcore] at h1 h2 h11
  rw [← hhead, ← htail] at h2
  rw [← hslot] at h5
  rw [← hjoin] at h6
  rw [← hidle] at h8
  rw [← halloc] at h9 h10
  exact ⟨⟨h1, h2, h3⟩, h4, ⟨h5, h6, h7⟩, ⟨h8, h9, h10, h11⟩⟩

/-- The link of a thread on no list. -/
theorem Inv.setNext (ht : (pl t).listed = false) (v : Option Tid) : Inv (k.setNext t v) pl ls := by
  have hnext : ∀ u, u ≠ t → update k.core.next t v u = k.core.next u :=
    fun u hu => update_of_ne hu _ _
  refine ⟨⟨h.linked.rep.congr fun u hu => hnext u fun e => ?_,
    fun q => (h.linked.wait q).congr fun u hu => hnext u fun e => h.wait_listed ht q (e ▸ hu),
    h.linked.nodup⟩, h.tracks, ⟨h.held.slot, h.held.joiner, h.held.live⟩,
    ⟨h.fields.idle, h.fields.free, h.fields.bound, h.fields.state⟩⟩
  subst e
  exact hu.elim (h.ready_listed ht) (h.sleep_listed ht)

end

/-! ## The end of a section -/

/-- `schedule` hands over to the head of the ready queue, or to idle. -/
inductive Switched (k : Kern) (pl : Tid → Place) (ls : Lists) (pl' : Tid → Place) (ls' : Lists) : Prop
  | idle (hready : ls.ready = []) (hpl : pl' = pl) (hls : ls' = ls)
      (hcur : (schedule k).current = k.idle)
  | next (n : Tid) (r : List Tid) (hready : ls.ready = n :: r) (hpl : pl' = moveTo pl [n] .run)
      (hls : ls' = { ls with ready := r }) (hcur : (schedule k).current = n)

theorem switchTo_current (k : Kern) (next : Tid) : (switchTo k k.current next).current = next := by
  unfold switchTo
  split
  · next h => exact h.symm
  · rfl

theorem Inv.switchTo (h : Inv k pl ls) (ht : pl t = .off) (prev : Tid) :
    Inv (switchTo k prev t) (moveTo pl [t] .run) ls := by
  have hrun : Inv (k.setState t .running) (moveTo pl [t] .run) ls :=
    h.setState (by rw [ht]; rfl) rfl fun st' hs => Option.some.inj hs
  unfold Sched.switchTo
  split
  · next e =>
    subst e
    exact hrun
  · exact hrun.congr rfl rfl rfl rfl rfl rfl rfl

theorem moveTo_moveTo (p p' : Place) : moveTo (moveTo pl ts p) ts p' = moveTo pl ts p' := by
  funext u
  by_cases hu : u ∈ ts
  · rw [moveTo_mem hu, moveTo_mem hu]
  · rw [moveTo_not_mem hu, moveTo_not_mem hu, moveTo_not_mem hu]

/-- **`schedule`**, called when the thread that called it has gone to another place. -/
theorem Inv.schedule (h : Inv k pl ls) (hrun : pl k.current ≠ .run)
    (hoff : pl k.current ≠ .off) (hfree : pl k.current ≠ .free) :
    ∃ pl' ls', Inv (schedule k) pl' ls' ∧ Switched k pl ls pl' ls' := by
  cases hr : ls.ready with
  | nil =>
    have hrep := h.linked.rep
    rw [hr] at hrep
    have hsched : Sched.schedule k = if k.core.state k.current = .running then k
        else Sched.switchTo k k.current k.idle := by
      rw [Sched.schedule, hrep.dequeue_nil]
    by_cases hst : k.core.state k.current = .running
    · rw [if_pos hst] at hsched
      have hidle : k.current = k.idle := by
        rw [← h.fields.idle]
        have hstate := h.fields.state k.current
        cases hp : pl k.current <;> simp_all [Place.state]
      refine ⟨pl, ls, by rw [hsched]; exact h, .idle hr rfl rfl ?_⟩
      rw [hsched, hidle]
    · rw [if_neg hst] at hsched
      refine ⟨pl, ls, ?_, .idle hr rfl rfl ?_⟩
      · rw [hsched]
        unfold Sched.switchTo
        split
        · next e => exact e ▸ h.setIdle .running
        · exact (h.setIdle .running).congr rfl rfl rfl rfl rfl rfl rfl
      · rw [hsched]
        exact switchTo_current k k.idle
  | cons n r =>
    obtain ⟨core, hdeq, -, hinv⟩ := h.dequeue hr
    have hsched : Sched.schedule k = Sched.switchTo { k with core := core } k.current n := by
      rw [Sched.schedule, hdeq]
    refine ⟨_, _, ?_, .next n r hr rfl rfl ?_⟩
    · rw [hsched, ← moveTo_moveTo .off .run]
      exact hinv.switchTo moveTo_self _
    · rw [hsched]
      exact switchTo_current { k with core := core } n

end Hallucinate.Sched
