import Hallucinate.Sched.Places

/-!
# The queue discipline of the scheduler

Between two kernel sections every thread is in a proper place and the running thread is `current`
(`Stable`), and a thread with code left to run in `mutex_lock` or `thread_join` is where that code
expects it (`Conts`). Sections that do not concern mutexes and joins move threads without such code
only (`Quiet`), so they keep `Conts`; the others are treated one by one.

Results: every step keeps both (`Good.step`), and `queue_discipline` reads the discipline off them for
every run, with the fact that `sched_wake` never finds a thread that is not BLOCKED.
-/

namespace Hallucinate.Sched

open Lib Function

/-- The places of a thread that runs or will. -/
def Place.Runnable (p : Place) : Prop := p = .ready ∨ p = .run

/-- The state between two sections. -/
structure Stable (k : Kern) (pl : Tid → Place) (ls : Lists) : Prop extends Inv k pl ls where
  running : ∀ t, pl t = .run ↔ t = k.current ∧ t ≠ k.idle
  settled : ∀ t, pl t ≠ .off

/-- A thread with code left to run is blocked where that code put it, or it has what it waited for. -/
structure Conts (k : Kern) (joined : Tid → Bool) (pl : Tid → Place) : Prop where
  lockAt : ∀ t m, k.cont t = .lock m →
    pl t = .queue (.mutex m) ∨ (k.owner m = some t ∧ (pl t).Runnable)
  lockOf : ∀ t m, pl t = .queue (.mutex m) →
    k.cont t = .lock m ∧ k.owner m ≠ none ∧ k.owner m ≠ some t
  joinAt : ∀ t u, k.cont t = .join u → (pl t = .join u ∨ (pl u = .zombie ∧ (pl t).Runnable)) ∧
    joined u = true ∧ pl u ≠ .free
  joinOf : ∀ t u, pl t = .join u → k.cont t = .join u
  joinOne : ∀ t t' u, k.cont t = .join u → k.cont t' = .join u → t = t'

variable {k k' : Kern} {pl pl' pl'' : Tid → Place} {ls ls' : Lists} {t u : Tid} {p : Place}
  {ts : List Tid} {joined : Tid → Bool} {cont : Tid → Cont}

theorem Conts.none_of (h : Conts k joined pl) (hq : ∀ m, pl t ≠ .queue (.mutex m))
    (hj : ∀ u, pl t ≠ .join u) (hr : ¬(pl t).Runnable) : k.cont t = .none := by
  cases hc : k.cont t with
  | none => rfl
  | lock m => exact absurd (h.lockAt t m hc) (by simp [hq m, hr])
  | join u => exact absurd (h.joinAt t u hc).1 (by simp [hj u, hr])

/-! ## Quiet moves -/

/-- Threads with code left to run stay, or go on running; nobody enters a mutex queue or a join; a
zombie stays one and nobody is freed. -/
structure Quiet (cont : Tid → Cont) (pl pl' : Tid → Place) : Prop where
  same : ∀ u, cont u ≠ .none → pl' u = pl u ∨ ((pl u).Runnable ∧ (pl' u).Runnable)
  mutex : ∀ u m, pl' u = .queue (.mutex m) → pl u = .queue (.mutex m)
  join : ∀ u v, pl' u = .join v → pl u = .join v
  zombie : ∀ u, pl u = .zombie → pl' u = .zombie
  free : ∀ u, pl u ≠ .free → pl' u ≠ .free

theorem Quiet.refl : Quiet cont pl pl :=
  ⟨fun _ _ => .inl rfl, fun _ _ h => h, fun _ _ h => h, fun _ h => h, fun _ h => h⟩

theorem Quiet.trans (h : Quiet cont pl pl') (h' : Quiet cont pl' pl'') : Quiet cont pl pl'' := by
  refine ⟨fun u hu => ?_, fun u m hm => h.mutex u m (h'.mutex u m hm),
    fun u v hv => h.join u v (h'.join u v hv), fun u hz => h'.zombie u (h.zombie u hz),
    fun u hf => h'.free u (h.free u hf)⟩
  rcases h.same u hu with e | ⟨r1, r2⟩ <;> rcases h'.same u hu with e' | ⟨r1', r2'⟩
  · exact .inl (e'.trans e)
  · exact .inr ⟨e ▸ r1', r2'⟩
  · exact .inr ⟨r1, e'.symm ▸ r2⟩
  · exact .inr ⟨r1, r2'⟩

/-- Threads without code left to run may go to any place but these. -/
theorem Quiet.move (hts : ∀ t ∈ ts, cont t = .none ∧ pl t ≠ .zombie)
    (hq : ∀ m, p ≠ .queue (.mutex m)) (hj : ∀ u, p ≠ .join u) (hf : p ≠ .free) :
    Quiet cont pl (moveTo pl ts p) := by
  refine ⟨fun u hu => .inl (moveTo_not_mem fun hm => hu (hts u hm).1), fun u m hm => ?_,
    fun u v hv => ?_, fun u hz => ?_, fun u hu => ?_⟩
  · by_cases hm' : u ∈ ts
    · exact absurd ((moveTo_mem hm').symm.trans hm) (hq m)
    · rwa [moveTo_not_mem hm'] at hm
  · by_cases hm' : u ∈ ts
    · exact absurd ((moveTo_mem hm').symm.trans hv) (hj v)
    · rwa [moveTo_not_mem hm'] at hv
  · rwa [moveTo_not_mem fun hm => (hts u hm).2 hz]
  · by_cases hm' : u ∈ ts
    · rwa [moveTo_mem hm']
    · rwa [moveTo_not_mem hm']

/-- A ready thread runs. -/
theorem Quiet.run (ht : pl t = .ready) : Quiet cont pl (moveTo pl [t] .run) := by
  refine ⟨fun u _ => ?_, fun u m hm => ?_, fun u v hv => ?_, fun u hz => ?_, fun u hf => ?_⟩ <;>
    by_cases hu : u = t
  · exact .inr ⟨hu ▸ .inl ht, by rw [hu, moveTo_self]; exact .inr rfl⟩
  · exact .inl (moveTo_ne hu)
  · rw [hu, moveTo_self] at hm
    cases hm
  · rwa [moveTo_ne hu] at hm
  · rw [hu, moveTo_self] at hv
    cases hv
  · rwa [moveTo_ne hu] at hv
  · rw [hu, ht] at hz
    cases hz
  · rwa [moveTo_ne hu]
  · rw [hu, moveTo_self]
    exact nofun
  · rwa [moveTo_ne hu]

/-- **Quiet moves keep `Conts`.** -/
theorem Conts.quiet (h : Conts k joined pl) (hq : Quiet k.cont pl pl') (hcont : k'.cont = k.cont)
    (howner : k'.owner = k.owner) : Conts k' joined pl' := by
  refine ⟨fun t m hc => ?_, fun t m hp => ?_, fun t u hc => ?_, fun t u hp => ?_,
    fun t t' u hc hc' => h.joinOne t t' u (hcont ▸ hc) (hcont ▸ hc')⟩
  · rw [hcont] at hc
    have hne : k.cont t ≠ .none := by rw [hc]; exact nofun
    rw [howner]
    rcases hq.same t hne with e | ⟨r1, r2⟩
    · rw [e]
      exact h.lockAt t m hc
    · refine .inr ⟨?_, r2⟩
      rcases h.lockAt t m hc with hp | ⟨ho, -⟩
      · rcases r1 with r | r <;> rw [r] at hp <;> cases hp
      · exact ho
  · rw [hcont, howner]
    exact h.lockOf t m (hq.mutex t m hp)
  · rw [hcont] at hc
    have hne : k.cont t ≠ .none := by rw [hc]; exact nofun
    obtain ⟨hat, hj, hf⟩ := h.joinAt t u hc
    refine ⟨?_, hj, hq.free u hf⟩
    rcases hq.same t hne with e | ⟨r1, r2⟩
    · rw [e]
      exact hat.imp id fun ⟨hz, hr⟩ => ⟨hq.zombie u hz, hr⟩
    · refine .inr ⟨?_, r2⟩
      rcases hat with hp | ⟨hz, -⟩
      · rcases r1 with r | r <;> rw [r] at hp <;> cases hp
      · exact hq.zombie u hz
  · rw [hcont]
    exact h.joinOf t u (hq.join t u hp)

/-! ## Sections -/

@[simp] theorem switchTo_fields (k : Kern) (prev next : Tid) :
    (switchTo k prev next).cont = k.cont ∧ (switchTo k prev next).owner = k.owner ∧
      (switchTo k prev next).idle = k.idle := by
  unfold switchTo
  split <;> exact ⟨rfl, rfl, rfl⟩

/-- `schedule` writes the scheduler core and `current` only. -/
theorem schedule_fields (k : Kern) :
    (schedule k).cont = k.cont ∧ (schedule k).owner = k.owner ∧ (schedule k).idle = k.idle := by
  unfold schedule
  split
  · split
    · exact ⟨rfl, rfl, rfl⟩
    · exact switchTo_fields _ _ _
  · exact switchTo_fields _ _ _

/-- A section that leaves mutexes and joins alone. -/
structure Calm (k : Kern) (pl : Tid → Place) (ls : Lists) (k' : Kern) (pl' : Tid → Place)
    (ls' : Lists) : Prop where
  stable : Stable k' pl' ls'
  quiet : Quiet k.cont pl pl'
  cont : k'.cont = k.cont
  owner : k'.owner = k.owner
  mutex : ∀ m, ls'.wait (.mutex m) = ls.wait (.mutex m)

theorem Calm.refl (h : Stable k pl ls) : Calm k pl ls k pl ls := ⟨h, .refl, rfl, rfl, fun _ => rfl⟩

theorem Calm.trans {k'' : Kern} {ls'' : Lists} (h : Calm k pl ls k' pl' ls')
    (h' : Calm k' pl' ls' k'' pl'' ls'') : Calm k pl ls k'' pl'' ls'' :=
  ⟨h'.stable, h.quiet.trans (h.cont ▸ h'.quiet), h'.cont.trans h.cont, h'.owner.trans h.owner,
    fun m => (h'.mutex m).trans (h.mutex m)⟩

theorem Stable.current_ne_free (h : Stable k pl ls) : pl k.current ≠ .free := by
  by_cases hi : k.current = k.idle
  · rw [(h.fields.idle _).mpr hi]
    exact nofun
  · rw [(h.running _).mpr ⟨rfl, hi⟩]
    exact nofun

/-- Once nobody runs and everybody has a place, `schedule` ends the section. -/
theorem Inv.settle (h : Inv k pl ls) (hrun : ∀ t, pl t ≠ .run) (hoff : ∀ t, pl t ≠ .off)
    (hfree : pl k.current ≠ .free) :
    ∃ pl' ls', Stable (Sched.schedule k) pl' ls' ∧ Quiet k.cont pl pl' ∧ ls'.wait = ls.wait := by
  obtain ⟨pl', ls', hinv, hsw⟩ := h.schedule (hrun _) (hoff _) hfree
  obtain ⟨-, -, hidle⟩ := schedule_fields k
  cases hsw with
  | idle hready hpl hls hcur =>
    subst hpl hls
    refine ⟨pl', ls', ⟨hinv, fun t => ?_, hoff⟩, .refl, rfl⟩
    rw [hcur, hidle]
    exact ⟨fun e => absurd e (hrun t), fun e => absurd e.1 e.2⟩
  | next n r hready hpl hls hcur =>
    subst hpl hls
    have hn : pl n = .ready := (h.tracks.ready n).mp (by rw [hready]; exact List.mem_cons_self)
    refine ⟨_, _, ⟨hinv, fun t => ?_, fun t => ?_⟩, .run hn, rfl⟩
    · rw [hcur, hidle]
      by_cases ht : t = n
      · rw [ht, moveTo_self]
        exact ⟨fun _ => ⟨rfl, fun e => by rw [(h.fields.idle n).mpr e] at hn; cases hn⟩, fun _ => rfl⟩
      · rw [moveTo_ne ht]
        exact ⟨fun e => absurd e (hrun t), fun e => absurd e.1 ht⟩
    · by_cases ht : t = n
      · rw [ht, moveTo_self]
        exact nofun
      · rw [moveTo_ne ht]
        exact hoff t

section

variable (h : Stable k pl ls)
include h

/-- The running thread goes to `p`, and `schedule` ends the section. -/
theorem Stable.leave (hinv : Inv k' (moveTo pl [k.current] p) ls') (hcur : k'.current = k.current)
    (hrun : p ≠ .run) (hoff : p ≠ .off) (hfree : p ≠ .free) :
    ∃ pl' ls'', Stable (schedule k') pl' ls'' ∧ Quiet k'.cont (moveTo pl [k.current] p) pl' ∧
      ls''.wait = ls'.wait := by
  refine hinv.settle (fun t => ?_) (fun t => ?_) ?_
  · by_cases ht : t = k.current
    · rw [ht, moveTo_self]
      exact hrun
    · rw [moveTo_ne ht]
      exact fun e => ht ((h.running t).mp e).1
  · by_cases ht : t = k.current
    · rw [ht, moveTo_self]
      exact hoff
    · rw [moveTo_ne ht]
      exact h.settled t
  · rw [hcur, moveTo_self]
    exact hfree

/-- Threads that did not run become ready; the running thread goes on. -/
theorem Stable.wake (hinv : Inv k' (moveTo pl ts .ready) ls') (hcur : k'.current = k.current)
    (hidle : k'.idle = k.idle) (hts : ∀ t ∈ ts, pl t ≠ .run) :
    Stable k' (moveTo pl ts .ready) ls' := by
  refine ⟨hinv, fun t => ?_, fun t => ?_⟩
  · have hrun : moveTo pl ts .ready t = .run ↔ pl t = .run := moveTo_iff hts nofun
    rw [hcur, hidle, hrun]
    exact h.running t
  · by_cases ht : t ∈ ts
    · rw [moveTo_mem ht]
      exact nofun
    · rw [moveTo_not_mem ht]
      exact h.settled t

/-- The running thread, without code left to run, goes to a place that is no mutex queue and no
join. -/
theorem Stable.calm_leave (hc : k.cont k.current = .none) (hidle : k.current ≠ k.idle)
    (hinv : Inv k' (moveTo pl [k.current] p) ls') (hcur : k'.current = k.current)
    (hcont : k'.cont = k.cont) (howner : k'.owner = k.owner)
    (hmutex : ∀ m, ls'.wait (.mutex m) = ls.wait (.mutex m)) (hp : p ≠ .run ∧ p ≠ .off ∧ p ≠ .free)
    (hq : ∀ m, p ≠ .queue (.mutex m)) (hj : ∀ u, p ≠ .join u) :
    ∃ pl' ls'', Calm k pl ls (schedule k') pl' ls'' := by
  obtain ⟨pl', ls'', hs, hquiet, hwait⟩ := h.leave hinv hcur hp.1 hp.2.1 hp.2.2
  obtain ⟨hcont', howner', -⟩ := schedule_fields k'
  have hrun : pl k.current = .run := (h.running _).mpr ⟨rfl, hidle⟩
  have hmove : Quiet k.cont pl (moveTo pl [k.current] p) :=
    .move (by simp [hc, hrun]) hq hj hp.2.2
  exact ⟨pl', ls'', hs, hmove.trans (hcont ▸ hquiet), hcont'.trans hcont, howner'.trans howner,
    fun m => (congrFun hwait _).trans (hmutex m)⟩

theorem Stable.loose_current (hidle : k.current ≠ k.idle) : (pl k.current).loose = true := by
  rw [(h.running _).mpr ⟨rfl, hidle⟩]
  rfl

/-- The running thread is made BLOCKED and has left its place. -/
theorem Stable.blocked (hidle : k.current ≠ k.idle) :
    Inv (k.setState k.current .blocked) (moveTo pl [k.current] .off) ls :=
  h.setState (h.loose_current hidle) rfl nofun

/-- `sched_yield` and the switch in `sched_preempt`. -/
theorem Stable.calm_requeue (hc : k.cont k.current = .none) :
    ∃ pl' ls', Calm k pl ls (schedule (requeue k)) pl' ls' := by
  by_cases hidle : k.current = k.idle
  · have hreq : requeue k = k := if_neg (not_not.mpr hidle)
    rw [hreq]
    obtain ⟨pl', ls', hs, hquiet, hwait⟩ := h.settle
      (fun t e => ((h.running t).mp e).2 (((h.running t).mp e).1.trans hidle)) h.settled
      h.current_ne_free
    obtain ⟨hcont, howner, -⟩ := schedule_fields k
    exact ⟨pl', ls', hs, hquiet, hcont, howner, fun m => congrFun hwait _⟩
  · have hreq : requeue k = k.enqueue k.current := if_pos hidle
    rw [hreq]
    exact h.calm_leave hc hidle (h.enqueue (h.loose_current hidle)) rfl rfl rfl (fun _ => rfl)
      ⟨nofun, nofun, nofun⟩ nofun nofun

end

variable {q : WaitQ}

section

variable (h : Stable k pl ls) (hc : k.cont k.current = .none) (hidle : k.current ≠ k.idle)
include h hc hidle

theorem Stable.calm_sleep (ticks : Nat) :
    ∃ k' pl' ls', schedSleepTicks k ticks = .ok k' ∧ Calm k pl ls k' pl' ls' := by
  unfold schedSleepTicks
  by_cases h0 : ticks = 0
  · rw [if_pos h0]
    obtain ⟨pl', ls', hcalm⟩ := h.calm_requeue hc
    exact ⟨_, pl', ls', rfl, hcalm⟩
  · rw [if_neg h0, if_neg hidle]
    obtain ⟨sleep, hinv⟩ := h.sleep (h.loose_current hidle) ((k.ticks + ticks) % 2 ^ 64)
    obtain ⟨pl', ls', hcalm⟩ := h.calm_leave hc hidle hinv rfl rfl rfl (fun _ => rfl)
      ⟨nofun, nofun, nofun⟩ nofun nofun
    exact ⟨_, pl', ls', rfl, hcalm⟩

/-- The running thread blocks on a queue of a pipe or socket. -/
theorem Stable.calm_block (hq : ∀ m, q ≠ .mutex m) :
    ∃ k' pl' ls', schedBlock (wqPush k q k.current) = .ok k' ∧ Calm k pl ls k' pl' ls' := by
  have hst : (k.setState k.current .blocked).core.state k.current = .blocked :=
    update_self ..
  have hinv := (h.blocked hidle).push q moveTo_self hst
  rw [moveTo_moveTo] at hinv
  obtain ⟨pl', ls', hcalm⟩ := h.calm_leave hc hidle hinv rfl rfl rfl
    (fun m => update_of_ne (hq m).symm _ _) ⟨nofun, nofun, nofun⟩
    (fun m e => hq m (Place.queue.inj e)) nofun
  exact ⟨_, pl', ls', if_neg hidle, hcalm⟩

theorem Stable.calm_slotBlock {i : Slot} (hi : k.slot i = none) :
    ∃ k' pl' ls', slotBlock k i = .ok k' ∧ Calm k pl ls k' pl' ls' := by
  have hst : (k.setState k.current .blocked).core.state k.current = .blocked :=
    update_self ..
  have hinv := (h.blocked hidle).fillSlot (i := i) hi moveTo_self hst
  rw [moveTo_moveTo] at hinv
  obtain ⟨pl', ls', hcalm⟩ := h.calm_leave hc hidle hinv rfl rfl rfl (fun _ => rfl)
    ⟨nofun, nofun, nofun⟩ nofun nofun
  refine ⟨_, pl', ls', ?_, hcalm⟩
  rw [slotBlock, if_neg (not_not.mpr hi)]
  exact if_neg hidle

end

/-! ## Waking -/

/-- A section in which the running thread goes on. -/
structure Wakes (k : Kern) (pl : Tid → Place) (ls : Lists) (k' : Kern) (pl' : Tid → Place)
    (ls' : Lists) : Prop extends Calm k pl ls k' pl' ls' where
  current : k'.current = k.current
  idle : k'.idle = k.idle

theorem Wakes.refl (h : Stable k pl ls) : Wakes k pl ls k pl ls := ⟨.refl h, rfl, rfl⟩

theorem schedWake_blocked (hst : k.core.state t = .blocked) : schedWake k t = .ok (k.enqueue t) :=
  if_pos hst

/-- `sched_wake` of a thread that was taken from its place. -/
theorem Stable.wakes (h : Stable k pl ls) (hinv : Inv k' (moveTo pl ts .ready) ls')
    (hcur : k'.current = k.current) (hidle : k'.idle = k.idle) (hcont : k'.cont = k.cont)
    (howner : k'.owner = k.owner) (hmutex : ∀ m, ls'.wait (.mutex m) = ls.wait (.mutex m))
    (hts : ∀ t ∈ ts, k.cont t = .none ∧ pl t ≠ .zombie ∧ pl t ≠ .run) :
    Wakes k pl ls k' (moveTo pl ts .ready) ls' :=
  ⟨⟨h.wake hinv hcur hidle fun t ht => (hts t ht).2.2,
    .move (fun t ht => ⟨(hts t ht).1, (hts t ht).2.1⟩) nofun nofun nofun, hcont, howner, hmutex⟩,
    hcur, hidle⟩

/-- Threads on the queues of pipes and sockets have no code left to run. -/
theorem Conts.queue_none (h : Conts k joined pl) (hq : ∀ m, q ≠ .mutex m) (ht : pl t = .queue q) :
    k.cont t = .none ∧ pl t ≠ .zombie ∧ pl t ≠ .run := by
  refine ⟨h.none_of (fun m e => ?_) (fun u e => ?_) fun hr => ?_, ?_, ?_⟩
  · rw [ht] at e
    exact hq m (Place.queue.inj e)
  · rw [ht] at e
    cases e
  · rcases hr with e | e <;> rw [ht] at e <;> cases e
  all_goals
    rw [ht]
    exact nofun

theorem Stable.wakeOne (h : Stable k pl ls) (hc : Conts k joined pl) (hq : ∀ m, q ≠ .mutex m) :
    ∃ k' pl' ls', wqWakeOne k q = .ok k' ∧ Wakes k pl ls k' pl' ls' := by
  cases hl : ls.wait q with
  | nil =>
    have hhead : k.waitHead q = none := by
      rw [(h.linked.wait q).head_eq, hl]
      rfl
    exact ⟨k, pl, ls, by rw [wqWakeOne, hhead], .refl h⟩
  | cons t l =>
    obtain ⟨hhead, hst, hinv⟩ := h.pop hl
    have hplace : pl t = .queue q := (h.tracks.wait q t).mp (by rw [hl]; exact List.mem_cons_self)
    have henq := hinv.enqueue (t := t) (by rw [moveTo_self]; rfl)
    rw [moveTo_moveTo] at henq
    refine ⟨_, _, _, ?_, h.wakes henq rfl rfl rfl rfl
      (fun m => update_of_ne (hq m).symm _ _) (by simpa using hc.queue_none hq hplace)⟩
    rw [wqWakeOne, hhead]
    exact schedWake_blocked hst

theorem moveTo_cons (t : Tid) (ts : List Tid) (p : Place) :
    moveTo (moveTo pl [t] p) ts p = moveTo pl (t :: ts) p := by
  funext u
  by_cases hu : u ∈ ts
  · rw [moveTo_mem hu, moveTo_mem (List.mem_cons_of_mem t hu)]
  · rw [moveTo_not_mem hu]
    by_cases ht : u = t
    · rw [ht, moveTo_self, moveTo_mem List.mem_cons_self]
    · rw [moveTo_ne ht, moveTo_not_mem (by simp [ht, hu])]

/-- The loop of `wq_wake_all` over threads that were taken off their queue. -/
theorem wakeAllLoop_spec {n : Nat} {cur : Option Tid} {l : List Tid} (h : Inv k pl ls)
    (hseg : Seg k.core.next cur l none) (hl : ∀ u ∈ l, pl u = .off ∧ k.core.state u = .blocked)
    (hnd : l.Nodup) (hn : l.length ≤ n) :
    ∃ k', wakeAllLoop n k cur = .ok k' ∧
      Inv k' (moveTo pl l .ready) { ls with ready := ls.ready ++ l } ∧
      k'.cont = k.cont ∧ k'.owner = k.owner ∧ k'.current = k.current ∧ k'.idle = k.idle := by
  induction l generalizing n k pl ls cur with
  | nil =>
    obtain rfl : cur = none := hseg
    have hmove : moveTo pl [] .ready = pl := funext fun u => moveTo_not_mem List.not_mem_nil
    refine ⟨k, by cases n <;> rfl, ?_, rfl, rfl, rfl, rfl⟩
    rw [hmove, List.append_nil]
    exact h
  | cons t l ih =>
    obtain ⟨rfl, hseg⟩ := hseg
    obtain ⟨n, rfl⟩ : ∃ m, n = m + 1 := ⟨n - 1, by simp at hn; omega⟩
    obtain ⟨htl, hnd⟩ := List.nodup_cons.mp hnd
    obtain ⟨hoff, hst⟩ := hl t List.mem_cons_self
    have hunl := h.setNext (t := t) (by rw [hoff]; rfl) none
    have henq := hunl.enqueue (t := t) (by rw [hoff]; rfl)
    have hne : ∀ u ∈ l, u ≠ t := fun u hu e => htl (e ▸ hu)
    have hframe := (hunl.linked.rep.enqueue (t := t) (hunl.ready_listed (by rw [hoff]; rfl))
      (hunl.sleep_listed (by rw [hoff]; rfl))).2
    have hoffs : ∀ u ∈ l, pl u = .off := fun u hu => (hl u (List.mem_cons_of_mem t hu)).1
    obtain ⟨k', hloop, hinv, hcont, howner, hcur, hidle⟩ := ih henq
      (hseg.congr fun u hu => (hframe u (hne u hu) (hunl.ready_listed (by rw [hoffs u hu]; rfl))).trans
        (update_of_ne (hne u hu) _ _))
      (fun u hu => ⟨(moveTo_ne (hne u hu)).trans (hoffs u hu),
        (update_of_ne (hne u hu) _ _).trans (hl u (List.mem_cons_of_mem t hu)).2⟩)
      hnd (by simpa using hn)
    refine ⟨k', ?_, ?_, hcont, howner, hcur, hidle⟩
    · rw [wakeAllLoop, schedWake_blocked (k := k.setNext t none) hst]
      exact hloop
    · rw [moveTo_cons] at hinv
      simpa using hinv

theorem Stable.wakeAll (h : Stable k pl ls) (hc : Conts k joined pl) (hq : ∀ m, q ≠ .mutex m) :
    ∃ k' pl' ls', wqWakeAll k q = .ok k' ∧ Wakes k pl ls k' pl' ls' := by
  have hplace : ∀ u ∈ ls.wait q, pl u = .queue q := fun u hu => (h.tracks.wait q u).mp hu
  have hlen : (ls.wait q).length ≤ maxThreads := h.length_le (h.linked.nodup q) fun u hu => by
    rw [hplace u hu]
    exact nofun
  obtain ⟨k', hloop, hinv, hcont, howner, hcur, hidle⟩ := wakeAllLoop_spec (h.detach q)
    (h.linked.wait q).list (fun u hu => ⟨moveTo_mem hu, h.fields.state u _ (by rw [hplace u hu]; rfl)⟩)
    (h.linked.nodup q) hlen
  rw [moveTo_moveTo] at hinv
  exact ⟨k', _, _, hloop, h.wakes hinv hcur hidle hcont howner
    (fun m => update_of_ne (hq m).symm _ _) fun u hu => hc.queue_none hq (hplace u hu)⟩

theorem Stable.slotWake (h : Stable k pl ls) (hc : Conts k joined pl) (i : Slot) :
    ∃ k' pl' ls', slotWake k i = .ok k' ∧ Wakes k pl ls k' pl' ls' := by
  cases hi : k.slot i with
  | none => exact ⟨k, pl, ls, by rw [Sched.slotWake, hi], .refl h⟩
  | some t =>
    obtain ⟨hplace, hst, hinv⟩ := h.clearSlot hi
    have henq := hinv.enqueue (t := t) (by rw [moveTo_self]; rfl)
    rw [moveTo_moveTo] at henq
    refine ⟨_, _, _, ?_, h.wakes henq rfl rfl rfl rfl (fun _ => rfl) ?_⟩
    · rw [Sched.slotWake, hi]
      exact schedWake_blocked hst
    · have hnone : k.cont t = .none := hc.none_of (by simp [hplace]) (by simp [hplace])
        (by simp [Place.Runnable, hplace])
      simp [hplace, hnone]

end Hallucinate.Sched
