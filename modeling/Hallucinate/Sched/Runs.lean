import Hallucinate.Sched.Discipline

/-!
# Runs of the scheduler and of its mutexes

`Good s pl ls` is the invariant of whole runs: the state is stable, threads with code left to run are
where it expects them, and for every mutex the threads inside and the order of grants are those that
`owner`, `cont` and the wait queue say. `Good.call`, `Good.irq` and `Good.resume` are its step lemmas.

Results, for every run from `sched_init`:

* `queue_discipline`: a thread is on one list at most, states agree with the lists, and `sched_wake`
  is only called on BLOCKED threads.
* `mutex_fair`: at most one thread is inside a mutex, contenders get it in the order they queued, it
  has an owner while threads wait, and the woken thread finds itself the owner.
-/

namespace Hallucinate.Sched

open Lib Function

/-- The mutex was handed to a thread that has not run since. -/
def pending (k : Kern) (m : Nat) : List Tid :=
  match k.owner m with
  | some o => if k.cont o = .lock m then [o] else []
  | none => []

/-- The owner of a mutex, once its `mutex_lock` has returned. -/
def holder (k : Kern) (m : Nat) : List Tid :=
  match k.owner m with
  | some o => if k.cont o = .lock m then [] else [o]
  | none => []

structure Good (s : Sys) (pl : Tid → Place) (ls : Lists) : Prop where
  stable : Stable s.k pl ls
  conts : Conts s.k s.joined pl
  inside : ∀ m, s.inside m = holder s.k m
  order : ∀ m, s.granted m ++ pending s.k m ++ ls.wait (.mutex m) = s.queued m

variable {s : Sys} {k k' : Kern} {pl pl' : Tid → Place} {ls ls' : Lists} {t : Tid} {m : Nat}

theorem pending_congr (howner : k'.owner m = k.owner m)
    (hcont : ∀ o, k.owner m = some o → (k'.cont o = .lock m ↔ k.cont o = .lock m)) :
    pending k' m = pending k m ∧ holder k' m = holder k m := by
  unfold pending holder
  rw [howner]
  cases ho : k.owner m with
  | none => exact ⟨rfl, rfl⟩
  | some o => simp only [hcont o ho, and_self]

theorem pending_nil (h : ∀ t, k.owner m = some t → k.cont t ≠ .lock m) :
    pending k m = [] ∧ holder k m = (k.owner m).toList := by
  unfold pending holder
  cases ho : k.owner m with
  | none => exact ⟨rfl, rfl⟩
  | some o => simp [h o ho]

section

variable (h : Good s pl ls)
include h

theorem Good.calm (hc : Calm s.k pl ls k' pl' ls') : Good { s with k := k' } pl' ls' := by
  have hsame : ∀ m, pending k' m = pending s.k m ∧ holder k' m = holder s.k m := fun m =>
    pending_congr (congrFun hc.owner m) fun o _ => by rw [hc.cont]
  refine ⟨hc.stable, h.conts.quiet hc.quiet hc.cont hc.owner, fun m => ?_, fun m => ?_⟩
  · rw [(hsame m).2]
    exact h.inside m
  · rw [(hsame m).1, hc.mutex]
    exact h.order m

theorem Good.run_current (hidle : s.k.current ≠ s.k.idle) : pl s.k.current = .run :=
  (h.stable.running _).mpr ⟨rfl, hidle⟩

/-! ## Mutexes -/

/-- A mutex that nobody waits for gets the owner `o`. -/
theorem Good.setOwner {o : Option Tid} (hempty : ∀ t, pl t ≠ .queue (.mutex m))
    (hnot : ∀ t, s.k.owner m = some t → s.k.cont t ≠ .lock m)
    (ho : ∀ t, o = some t → s.k.cont t ≠ .lock m) : Good { s with
      k := { s.k with owner := update s.k.owner m o }
      inside := update s.inside m o.toList } pl ls := by
  have hnew := pending_nil (k := { s.k with owner := update s.k.owner m o }) (m := m) fun t e =>
    ho t (update_self m o s.k.owner ▸ e)
  refine ⟨⟨h.stable.toInv.congr rfl rfl rfl rfl rfl rfl rfl, h.stable.running, h.stable.settled⟩,
    ⟨fun t m' hc => ?_, fun t m' hp => ?_, h.conts.joinAt, h.conts.joinOf, h.conts.joinOne⟩,
    fun m' => ?_, fun m' => ?_⟩ <;> by_cases hm : m' = m
  · subst hm
    rcases h.conts.lockAt t m' hc with hp | ⟨hown, -⟩
    · exact absurd hp (hempty t)
    · exact absurd hc (hnot t hown)
  · simp only [update_of_ne hm]
    exact h.conts.lockAt t m' hc
  · subst hm
    exact absurd hp (hempty t)
  · simp only [update_of_ne hm]
    exact h.conts.lockOf t m' hp
  · subst hm
    simp only [hnew.2, update_self]
  · simp only [update_of_ne hm, holder]
    exact h.inside m'
  · subst hm
    rw [hnew.1, ← (pending_nil hnot).1]
    exact h.order m'
  · simp only [pending, update_of_ne hm]
    exact h.order m'

/-- `mutex_lock` of a free mutex. -/
theorem Good.lock_free (hcont : s.k.cont s.k.current = .none) (howner : s.k.owner m = none) :
    Good { s with
      k := { s.k with owner := update s.k.owner m (some s.k.current) }
      inside := update s.inside m (s.inside m ++ [s.k.current]) } pl ls := by
  rw [h.inside, holder, howner]
  exact h.setOwner (o := some s.k.current) (fun t e => (h.conts.lockOf t m e).2.1 howner)
    (by simp [howner]) (by simp [hcont])

end

variable {joined : Tid → Bool} {cur : Tid}

variable {joined' : Tid → Bool} {c : Cont}

/-- The running thread goes to `p` with the code `c` left to run. -/
theorem Conts.suspend {p : Place} (h : Conts k joined pl) (hrun : pl cur = .run)
    (hcont : k'.cont = update k.cont cur c) (howner : k'.owner = k.owner) (hfree : p ≠ .free)
    (hjoined : ∀ u, joined u = true → joined' u = true)
    (hlock : ∀ m, c = .lock m → p = .queue (.mutex m))
    (hqueue : ∀ m, p = .queue (.mutex m) → c = .lock m ∧ k.owner m ≠ none ∧ k.owner m ≠ some cur)
    (hjoin : ∀ u, c = .join u →
      p = .join u ∧ joined' u = true ∧ pl u ≠ .free ∧ ∀ t, k.cont t ≠ .join u)
    (hjoinOf : ∀ u, p = .join u → c = .join u) : Conts k' joined' (moveTo pl [cur] p) := by
  have hself : k'.cont cur = c := by rw [hcont, update_self]
  have hne : ∀ t, t ≠ cur → k'.cont t = k.cont t := fun t ht => by
    rw [hcont, update_of_ne ht]
  have hkeep : ∀ u, (pl u = .zombie → moveTo pl [cur] p u = .zombie) ∧
      (pl u ≠ .free → moveTo pl [cur] p u ≠ .free) := fun u => by
    by_cases hu : u = cur
    · rw [hu, moveTo_self, hrun]
      exact ⟨nofun, fun _ => hfree⟩
    · rw [moveTo_ne hu]
      exact ⟨id, id⟩
  refine ⟨fun t m hc => ?_, fun t m hp => ?_, fun t u hc => ?_, fun t u hp => ?_,
    fun t t' u hc hc' => ?_⟩
  · by_cases ht : t = cur
    · rw [ht, hself] at hc
      rw [ht, moveTo_self]
      exact .inl (hlock m hc)
    · rw [moveTo_ne ht, howner]
      exact h.lockAt t m ((hne t ht).symm.trans hc)
  · by_cases ht : t = cur
    · rw [ht, moveTo_self] at hp
      rw [ht, hself, howner]
      exact hqueue m hp
    · rw [moveTo_ne ht] at hp
      rw [hne t ht, howner]
      exact h.lockOf t m hp
  · by_cases ht : t = cur
    · rw [ht, hself] at hc
      obtain ⟨hp, hj, hf, -⟩ := hjoin u hc
      rw [ht, moveTo_self]
      exact ⟨.inl hp, hj, (hkeep u).2 hf⟩
    · obtain ⟨hat, hj, hf⟩ := h.joinAt t u ((hne t ht).symm.trans hc)
      rw [moveTo_ne ht]
      exact ⟨hat.imp id fun ⟨hz, hr⟩ => ⟨(hkeep u).1 hz, hr⟩, hjoined u hj, (hkeep u).2 hf⟩
  · by_cases ht : t = cur
    · rw [ht, moveTo_self] at hp
      rw [ht, hself]
      exact hjoinOf u hp
    · rw [moveTo_ne ht] at hp
      rw [hne t ht]
      exact h.joinOf t u hp
  · by_cases ht : t = cur <;> by_cases ht' : t' = cur
    · rw [ht, ht']
    · rw [ht, hself] at hc
      exact absurd ((hne t' ht').symm.trans hc') ((hjoin u hc).2.2.2 t')
    · rw [ht', hself] at hc'
      exact absurd ((hne t ht).symm.trans hc) ((hjoin u hc').2.2.2 t)
    · exact h.joinOne t t' u ((hne t ht).symm.trans hc) ((hne t' ht').symm.trans hc')

theorem pending_suspend (hnone : k.cont cur = .none) (hcont : k'.cont = update k.cont cur c)
    (howner : k'.owner = k.owner) (hlock : ∀ m, c = .lock m → k.owner m ≠ some cur) (m : Nat) :
    pending k' m = pending k m ∧ holder k' m = holder k m := by
  refine pending_congr (congrFun howner m) fun o ho => ?_
  rw [hcont]
  by_cases hoc : o = cur
  · rw [hoc, update_self, hnone]
    exact ⟨fun e => absurd (hoc ▸ ho) (hlock m e), nofun⟩
  · rw [update_of_ne hoc]

/-- `mutex_lock` of a mutex that another thread owns: the running thread queues and blocks. -/
theorem Good.lock_wait (h : Good s pl ls) (hcont : s.k.cont s.k.current = .none)
    (hidle : s.k.current ≠ s.k.idle) (hnone : s.k.owner m ≠ none)
    (hother : s.k.owner m ≠ some s.k.current) :
    ∃ k' pl' ls', schedBlock { wqPush s.k (.mutex m) s.k.current with
        cont := update s.k.cont s.k.current (.lock m) } = .ok k' ∧
      Good { s with
        k := k', queued := update s.queued m (s.queued m ++ [s.k.current]) } pl' ls' := by
  have hst : (s.k.setState s.k.current .blocked).core.state s.k.current = .blocked :=
    update_self ..
  have hpush := (h.stable.blocked hidle).push (.mutex m) moveTo_self hst
  rw [moveTo_moveTo] at hpush
  generalize hk : ({ wqPush s.k (.mutex m) s.k.current with
    cont := update s.k.cont s.k.current (.lock m) }.setState s.k.current .blocked) = k₁
  have hinv : Inv k₁ (moveTo pl [s.k.current] (.queue (.mutex m))) { ls with
      wait := update ls.wait (.mutex m) (ls.wait (.mutex m) ++ [s.k.current]) } := by
    rw [← hk]
    exact hpush.congr rfl rfl rfl rfl rfl rfl rfl
  have hcont₁ : k₁.cont = update s.k.cont s.k.current (.lock m) := by rw [← hk]; rfl
  have howner₁ : k₁.owner = s.k.owner := by rw [← hk]; rfl
  obtain ⟨pl', ls', hs, hquiet, hwait⟩ :=
    h.stable.leave hinv (by rw [← hk]; rfl) (by exact nofun) (by exact nofun) (by exact nofun)
  obtain ⟨hcont', howner', -⟩ := schedule_fields k₁
  have hsame : ∀ m', pending (schedule k₁) m' = pending s.k m' ∧
      holder (schedule k₁) m' = holder s.k m' :=
    pending_suspend hcont (hcont'.trans hcont₁) (howner'.trans howner₁)
      fun m' e => Cont.lock.inj e ▸ hother
  have hconts : Conts k₁ s.joined (moveTo pl [s.k.current] (.queue (.mutex m))) := by
    refine h.conts.suspend (h.run_current hidle) hcont₁ howner₁ nofun (fun _ hj => hj)
      (fun m' e => by rw [Cont.lock.inj e]) (fun m' e => ?_) nofun nofun
    obtain rfl : m = m' := WaitQ.mutex.inj (Place.queue.inj e)
    exact ⟨rfl, hnone, hother⟩
  refine ⟨schedule k₁, pl', ls', ?_, hs, hconts.quiet hquiet hcont' howner', fun m' => ?_,
    fun m' => ?_⟩
  · rw [← hk]
    exact if_neg hidle
  · exact (h.inside m').trans (hsame m').2.symm
  · have hord := h.order m'
    show s.granted m' ++ pending (schedule k₁) m' ++ ls'.wait (.mutex m') = _
    rw [(hsame m').1, hwait]
    by_cases hm : m' = m
    · subst hm
      simp only [update_self, ← hord, List.append_assoc]
    · have hq : WaitQ.mutex m' ≠ .mutex m := fun e => hm (WaitQ.mutex.inj e)
      simp only [update_of_ne hm, update_of_ne hq]
      exact hord

/-- `mutex_unlock`: the lock goes to the oldest waiter, if there is one. -/
theorem Good.unlock (h : Good s pl ls) (hcont : s.k.cont s.k.current = .none)
    (howner : s.k.owner m = some s.k.current) :
    ∃ k' pl' ls', mutexUnlock s.k m = .ok k' ∧
      Good { s with
        k := k'
        inside := update s.inside m ((s.inside m).erase s.k.current) } pl' ls' := by
  have hnot : ∀ t, s.k.owner m = some t → s.k.cont t ≠ .lock m := by simp [howner, hcont]
  obtain ⟨hpending, hholder⟩ := pending_nil hnot
  have hinside : (s.inside m).erase s.k.current = [] := by rw [h.inside, hholder, howner]; simp
  have hord := h.order m
  rw [hpending, List.append_nil] at hord
  unfold mutexUnlock
  rw [if_neg (not_not.mpr howner), hinside]
  cases hl : ls.wait (.mutex m) with
  | nil =>
    have hhead : s.k.waitHead (.mutex m) = none := by
      rw [(h.stable.linked.wait _).head_eq, hl]
      rfl
    have hempty : ∀ t, pl t ≠ .queue (.mutex m) := fun t e => by
      rw [← h.stable.tracks.wait, hl] at e
      cases e
    rw [hhead]
    exact ⟨_, pl, ls, rfl, h.setOwner (o := none) hempty hnot nofun⟩
  | cons n l =>
    obtain ⟨hhead, hst, hpop⟩ := h.stable.pop hl
    have hplace : pl n = .queue (.mutex m) :=
      (h.stable.tracks.wait _ n).mp (by rw [hl]; exact List.mem_cons_self)
    obtain ⟨hncont, -, hne⟩ := h.conts.lockOf n m hplace
    have henq := hpop.enqueue (t := n) (by rw [moveTo_self]; rfl)
    rw [moveTo_moveTo] at henq
    have hcurn : s.k.current ≠ n := fun e => hne (howner.trans (congrArg some e))
    have hkeep : ∀ u x, x ≠ .queue (.mutex m) → x ≠ .ready →
        (moveTo pl [n] .ready u = x ↔ pl u = x) := fun u x h1 h2 =>
      moveTo_iff (by simpa [hplace] using h1.symm) h2.symm
    generalize hk : ({ wqPop s.k (.mutex m) n with
      owner := update s.k.owner m (some n) }.enqueue n) = k₁
    have hcont₁ : k₁.cont = s.k.cont := by rw [← hk]; rfl
    have howner₁ : k₁.owner = update s.k.owner m (some n) := by rw [← hk]; rfl
    have hinv : Inv k₁ (moveTo pl [n] .ready) { ls with
        ready := ls.ready ++ [n], wait := update ls.wait (.mutex m) l } := by
      rw [← hk]
      exact henq.congr rfl rfl rfl rfl rfl rfl rfl
    have hstable := h.stable.wake hinv (by rw [← hk]; rfl) (by rw [← hk]; rfl) (by simp [hplace])
    refine ⟨k₁, _, _, ?_, hstable, ⟨fun t m' hc => ?_, fun t m' hp => ?_,
      fun t u hc => ?_, fun t u hp => ?_, hcont₁ ▸ h.conts.joinOne⟩, fun m' => ?_, fun m' => ?_⟩
    · rw [hhead, ← hk]
      exact schedWake_blocked hst
    · simp only [hcont₁, howner₁] at hc ⊢
      by_cases ht : t = n
      · rw [ht] at hc ⊢
        obtain rfl : m = m' := Cont.lock.inj (hncont.symm.trans hc)
        rw [moveTo_self]
        exact .inr ⟨update_self .., .inl rfl⟩
      · rw [moveTo_ne ht]
        by_cases hm : m' = m
        · subst hm
          rcases h.conts.lockAt t m' hc with hp | ⟨ho, -⟩
          · exact .inl hp
          · exact absurd hc (hnot t ho)
        · rw [update_of_ne hm]
          exact h.conts.lockAt t m' hc
    · have ht : t ≠ n := fun e => by
        rw [e, moveTo_self] at hp
        cases hp
      rw [moveTo_ne ht] at hp
      obtain ⟨hc, h1, h2⟩ := h.conts.lockOf t m' hp
      simp only [hcont₁, howner₁]
      refine ⟨hc, ?_⟩
      by_cases hm : m' = m
      · rw [hm, update_self]
        exact ⟨nofun, fun e => ht (Option.some.inj e).symm⟩
      · rw [update_of_ne hm]
        exact ⟨h1, h2⟩
    · simp only [hcont₁] at hc
      obtain ⟨hat, hj, hf⟩ := h.conts.joinAt t u hc
      have ht : t ≠ n := fun e => by
        rw [e] at hc
        cases hncont.symm.trans hc
      rw [moveTo_ne ht]
      exact ⟨hat.imp id fun ⟨hz, hr⟩ => ⟨(hkeep u .zombie nofun nofun).mpr hz, hr⟩, hj,
        fun e => hf ((hkeep u .free nofun nofun).mp e)⟩
    · simp only [hcont₁]
      exact h.conts.joinOf t u ((hkeep t (.join u) nofun nofun).mp hp)
    · by_cases hm : m' = m
      · simp [hm, holder, howner₁, hcont₁, hncont]
      · simp only [update_of_ne hm]
        exact (h.inside m').trans (pending_congr (by rw [howner₁, update_of_ne hm])
          fun _ _ => by rw [hcont₁]).2.symm
    · by_cases hm : m' = m
      · subst hm
        simp only [pending, howner₁, hcont₁, update_self, hncont, if_true]
        rw [← hord, hl]
        simp
      · have hq : WaitQ.mutex m' ≠ .mutex m := fun e => hm (WaitQ.mutex.inj e)
        have hsame : pending k₁ m' = pending s.k m' :=
          (pending_congr (by rw [howner₁, update_of_ne hm]) fun _ _ => by rw [hcont₁]).1
        simp only [hsame, update_of_ne hq]
        exact h.order m'

/-! ## Joins, exits and new threads -/

/-- The running thread has run its code. -/
theorem Conts.finish (h : Conts k joined pl) (hrun : pl cur = .run)
    (hcont : k'.cont = update k.cont cur .none) (howner : k'.owner = k.owner)
    (hjoined : ∀ u, joined u = true → joined' u = true) : Conts k' joined' pl := by
  have hold : ∀ x c, k'.cont x = c → c ≠ .none → k.cont x = c := fun x c hx hc => by
    have hxc : x ≠ cur := fun e => hc (by rw [← hx, e, hcont, update_self])
    rwa [hcont, update_of_ne hxc] at hx
  have hnew : ∀ x p, pl x = p → p ≠ .run → k'.cont x = k.cont x := fun x p hx hp => by
    have hxc : x ≠ cur := fun e => hp (by rw [← hx, e, hrun])
    rw [hcont, update_of_ne hxc]
  refine ⟨fun x m hx => ?_, fun x m hp => ?_, fun x u hx => ?_, fun x u hp => ?_,
    fun x x' u hx hx' => h.joinOne x x' u (hold x _ hx nofun) (hold x' _ hx' nofun)⟩
  · rw [howner]
    exact h.lockAt x m (hold x _ hx nofun)
  · rw [howner, hnew x _ hp nofun]
    exact h.lockOf x m hp
  · obtain ⟨hat, hj, hf⟩ := h.joinAt x u (hold x _ hx nofun)
    exact ⟨hat, hjoined u hj, hf⟩
  · rw [hnew x _ hp nofun]
    exact h.joinOf x u hp

/-- A zombie that nobody joins any more is freed. -/
theorem Conts.reap (h : Conts k joined pl) (hz : pl t = .zombie) (hno : ∀ u, k.cont u ≠ .join t) :
    Conts k joined (moveTo pl [t] .free) := by
  have hkeep : ∀ u x, x ≠ .zombie → x ≠ .free → (moveTo pl [t] .free u = x ↔ pl u = x) :=
    fun u x h1 h2 => moveTo_iff (by simpa [hz] using h1.symm) h2.symm
  have hrunnable : ∀ x, (pl x).Runnable → (moveTo pl [t] .free x).Runnable := fun x hx =>
    hx.imp ((hkeep x .ready nofun nofun).mpr) ((hkeep x .run nofun nofun).mpr)
  refine ⟨fun x m hc => ?_, fun x m hp => ?_, fun x u hc => ?_, fun x u hp => ?_, h.joinOne⟩
  · exact (h.lockAt x m hc).imp ((hkeep x (.queue (.mutex m)) nofun nofun).mpr)
      fun ⟨ho, hr⟩ => ⟨ho, hrunnable x hr⟩
  · exact h.lockOf x m ((hkeep x (.queue (.mutex m)) nofun nofun).mp hp)
  · obtain ⟨hat, hj, hf⟩ := h.joinAt x u hc
    have hut : u ≠ t := fun e => hno x (e ▸ hc)
    rw [moveTo_ne hut]
    exact ⟨hat.imp ((hkeep x (.join u) nofun nofun).mpr) fun ⟨hz, hr⟩ => ⟨hz, hrunnable x hr⟩, hj, hf⟩
  · exact h.joinOf x u ((hkeep x (.join u) nofun nofun).mp hp)

/-- The control block of a zombie that only the running thread may still join is freed. -/
theorem Good.reap (h : Good s pl ls) (joined' : Tid → Bool) (hz : pl t = .zombie)
    (hrun : pl s.k.current = .run) (hlock : ∀ m, s.k.cont s.k.current ≠ .lock m)
    (hno : ∀ u, u ≠ s.k.current → s.k.cont u ≠ .join t)
    (hjoined : ∀ u, s.joined u = true → joined' u = true) :
    Good { s with
      k := { s.k with
        cont := update s.k.cont s.k.current .none
        alloc := update s.k.alloc t false }
      joined := joined' } (moveTo pl [t] .free) ls := by
  generalize hk : { s.k with
    cont := update s.k.cont s.k.current .none
    alloc := update s.k.alloc t false } = k₁
  have hcont₁ : k₁.cont = update s.k.cont s.k.current .none := by rw [← hk]
  have howner₁ : k₁.owner = s.k.owner := by rw [← hk]
  have hself : k₁.cont s.k.current = .none := by rw [hcont₁, update_self]
  have hother : ∀ u, u ≠ s.k.current → k₁.cont u = s.k.cont u := fun u hu => by
    rw [hcont₁, update_of_ne hu]
  have hno₁ : ∀ u, k₁.cont u ≠ .join t := fun u hu => by
    by_cases huc : u = s.k.current
    · rw [huc, hself] at hu
      cases hu
    · exact hno u huc ((hother u huc).symm.trans hu)
  have hnoj : ∀ u, pl u ≠ .join t := fun u hu => by
    have huc : u ≠ s.k.current := fun e => by
      rw [e, hrun] at hu
      cases hu
    exact hno u huc (h.conts.joinOf u t hu)
  have hsame : ∀ m, pending k₁ m = pending s.k m ∧ holder k₁ m = holder s.k m := fun m =>
    pending_congr (congrFun howner₁ m) fun o _ => by
      by_cases ho : o = s.k.current
      · simp only [ho, hself, hlock m, reduceCtorEq]
      · rw [hother o ho]
  have hinv : Inv k₁ (moveTo pl [t] .free) ls := by
    rw [← hk]
    exact (h.stable.reap hz hnoj).congr rfl rfl rfl rfl rfl rfl rfl
  have hcurs : k₁.current = s.k.current ∧ k₁.idle = s.k.idle := by
    rw [← hk]
    exact ⟨rfl, rfl⟩
  refine ⟨⟨hinv, fun u => ?_, fun u => ?_⟩,
    (h.conts.finish hrun hcont₁ howner₁ hjoined).reap hz hno₁,
    fun m => (h.inside m).trans (hsame m).2.symm, fun m => ?_⟩
  · have hu : moveTo pl [t] .free u = .run ↔ pl u = .run :=
      moveTo_iff (by simp [hz]) nofun
    simp only [hcurs]
    exact hu.trans (h.stable.running u)
  · by_cases hu : u = t
    · rw [hu, moveTo_self]
      exact nofun
    · rw [moveTo_ne hu]
      exact h.stable.settled u
  · simp only [(hsame m).1]
    exact h.order m

/-- `thread_join` of a thread that has not exited. -/
theorem Good.join_wait (h : Good s pl ls) (hcont : s.k.cont s.k.current = .none)
    (hidle : s.k.current ≠ s.k.idle) (halloc : s.k.alloc t = true) (hjoined : s.joined t = false)
    (hjoiner : s.k.joiner t = none) :
    ∃ pl' ls', Good { s with
      k := schedule (Kern.setState { s.k with
        joiner := update s.k.joiner t (some s.k.current)
        cont := update s.k.cont s.k.current (.join t) } s.k.current .blocked)
      joined := update s.joined t true } pl' ls' := by
  have hst : (s.k.setState s.k.current .blocked).core.state s.k.current = .blocked :=
    update_self ..
  have hlive : pl t ≠ .free := fun e => by
    rw [h.stable.fields.free, halloc] at e
    cases e
  have hlive' : moveTo pl [s.k.current] .off t ≠ .free := by
    by_cases ht : t = s.k.current
    · rw [ht, moveTo_self]
      exact nofun
    · rwa [moveTo_ne ht]
  have hfill := (h.stable.blocked hidle).fillJoiner (v := t) hjoiner hlive' moveTo_self hst
  rw [moveTo_moveTo] at hfill
  generalize hk : Kern.setState { s.k with
    joiner := update s.k.joiner t (some s.k.current)
    cont := update s.k.cont s.k.current (.join t) } s.k.current .blocked = k₁
  have hinv : Inv k₁ (moveTo pl [s.k.current] (.join t)) ls := by
    rw [← hk]
    exact hfill.congr rfl rfl rfl rfl rfl rfl rfl
  have hcont₁ : k₁.cont = update s.k.cont s.k.current (.join t) := by rw [← hk]; rfl
  have howner₁ : k₁.owner = s.k.owner := by rw [← hk]; rfl
  obtain ⟨pl', ls', hs, hquiet, hwait⟩ :=
    h.stable.leave hinv (by rw [← hk]; rfl) (by exact nofun) (by exact nofun) (by exact nofun)
  obtain ⟨hcont', howner', -⟩ := schedule_fields k₁
  have hsame : ∀ m, pending (schedule k₁) m = pending s.k m ∧
      holder (schedule k₁) m = holder s.k m :=
    pending_suspend hcont (hcont'.trans hcont₁) (howner'.trans howner₁) nofun
  have hconts : Conts k₁ (update s.joined t true) (moveTo pl [s.k.current] (.join t)) := by
    refine h.conts.suspend (h.run_current hidle) hcont₁ howner₁ nofun (fun u hu => ?_) nofun nofun
      (fun u e => ?_) fun u e => by rw [Place.join.inj e]
    · by_cases hut : u = t
      · rw [hut, update_self]
      · rwa [update_of_ne hut]
    · obtain rfl : t = u := Cont.join.inj e
      refine ⟨rfl, update_self .., hlive, fun x hx => ?_⟩
      rw [(h.conts.joinAt x t hx).2.1] at hjoined
      cases hjoined
  refine ⟨pl', ls', hs, hconts.quiet hquiet hcont' howner', fun m => ?_, fun m => ?_⟩
  · exact (h.inside m).trans (hsame m).2.symm
  · have hord := h.order m
    show s.granted m ++ pending (schedule k₁) m ++ ls'.wait (.mutex m) = _
    rw [(hsame m).1, hwait]
    exact hord

/-- The joiner of a zombie becomes ready. -/
theorem Conts.joinWake {j u : Tid} (h : Conts k joined pl) (hj : pl j = .join u)
    (hu : pl u = .zombie) : Conts k joined (moveTo pl [j] .ready) := by
  have hcj := h.joinOf j u hj
  have hkeep : ∀ x p, p ≠ .join u → p ≠ .ready → (moveTo pl [j] .ready x = p ↔ pl x = p) :=
    fun x p h1 h2 => moveTo_iff (by simpa [hj] using h1.symm) h2.symm
  refine ⟨fun x m hc => ?_, fun x m hp => h.lockOf x m ((hkeep x _ (by exact nofun) (by exact nofun)).mp hp),
    fun x v hc => ?_, fun x v hp => ?_, h.joinOne⟩
  · have hx : x ≠ j := fun e => by
      rw [e, hcj] at hc
      cases hc
    rw [moveTo_ne hx]
    exact h.lockAt x m hc
  · obtain ⟨hat, hjd, hf⟩ := h.joinAt x v hc
    have hz : ∀ w, pl w = .zombie → moveTo pl [j] .ready w = .zombie :=
      fun w => (hkeep w .zombie nofun nofun).mpr
    refine ⟨?_, hjd, fun e => hf ((hkeep v .free nofun nofun).mp e)⟩
    by_cases hx : x = j
    · obtain rfl : u = v := Cont.join.inj (hcj.symm.trans (hx ▸ hc))
      rw [hx, moveTo_self]
      exact .inr ⟨hz u hu, .inl rfl⟩
    · rw [moveTo_ne hx]
      exact hat.imp id fun ⟨h1, h2⟩ => ⟨hz v h1, h2⟩
  · by_cases hx : x = j
    · rw [hx, moveTo_self] at hp
      cases hp
    · rw [moveTo_ne hx] at hp
      exact h.joinOf x v hp

/-- The joiner of a zombie, if it has one, is made ready. -/
theorem Inv.wakeJoiner {self : Tid} (h : Inv k pl ls) (hc : Conts k joined pl)
    (hself : pl self = .zombie) :
    ∃ pl' ls', Inv (wakeJoiner k self) pl' ls' ∧ Conts (Sched.wakeJoiner k self) joined pl' ∧
      (∀ t, pl' t = pl t ∨ pl' t = .ready) ∧ pl' self = .zombie ∧ ls'.wait = ls.wait := by
  cases hj : k.joiner self with
  | none =>
    have hsame : Sched.wakeJoiner k self = k := by rw [Sched.wakeJoiner, hj]
    rw [hsame]
    exact ⟨pl, ls, h, hc, fun _ => .inl rfl, hself, rfl⟩
  | some j =>
    obtain ⟨hplace, hclear⟩ := h.clearJoiner hj (by rw [hself]; exact nofun)
    have henq := hclear.enqueue (t := j) (by rw [moveTo_self]; rfl)
    rw [moveTo_moveTo] at henq
    have hjc : self ≠ j := fun e => by
      rw [← e, hself] at hplace
      cases hplace
    have hwake : Sched.wakeJoiner k self =
        { k.enqueue j with joiner := update k.joiner self none } := by
      rw [Sched.wakeJoiner, hj]
    rw [hwake]
    refine ⟨moveTo pl [j] .ready, _, henq, (hc.joinWake hplace hself).quiet .refl rfl rfl,
      fun t => ?_, (moveTo_ne hjc).trans hself, rfl⟩
    by_cases ht : t = j
    · rw [ht]
      exact .inr moveTo_self
    · exact .inl (moveTo_ne ht)

section

variable (h : Good s pl ls)
include h

/-- `thread_exit`. -/
theorem Good.exit (hcont : s.k.cont s.k.current = .none) (hidle : s.k.current ≠ s.k.idle) :
    ∃ k' pl' ls', threadExit s.k = .ok k' ∧ Good { s with k := k' } pl' ls' := by
  have hrun := h.run_current hidle
  have hinv : Inv (s.k.setState s.k.current .zombie) (moveTo pl [s.k.current] .zombie) ls :=
    h.stable.setState (h.stable.loose_current hidle) rfl fun _ e => Option.some.inj e
  have hconts : Conts (s.k.setState s.k.current .zombie) s.joined (moveTo pl [s.k.current] .zombie) :=
    h.conts.quiet (.move (by simp [hcont, hrun]) nofun nofun nofun) rfl rfl
  obtain ⟨pl₁, ls₁, hinv₁, hconts₁, hmoved, hzombie, hwait₁⟩ := hinv.wakeJoiner hconts moveTo_self
  have hplaces : ∀ t, pl₁ t ≠ .run ∧ pl₁ t ≠ .off := fun t => by
    rcases hmoved t with e | e
    · by_cases ht : t = s.k.current
      · rw [ht, hzombie]
        exact ⟨nofun, nofun⟩
      · rw [e, moveTo_ne ht]
        exact ⟨fun e => ht ((h.stable.running t).mp e).1, h.stable.settled t⟩
    · rw [e]
      exact ⟨nofun, nofun⟩
  generalize hk : wakeJoiner (s.k.setState s.k.current .zombie) s.k.current = k₁ at hinv₁ hconts₁
  obtain ⟨hcont₁, howner₁, hcur₁⟩ :
      k₁.cont = s.k.cont ∧ k₁.owner = s.k.owner ∧ k₁.current = s.k.current := by
    rw [← hk]
    unfold wakeJoiner
    split <;> exact ⟨rfl, rfl, rfl⟩
  obtain ⟨pl', ls', hs, hquiet, hwait⟩ := hinv₁.settle (fun t => (hplaces t).1)
    (fun t => (hplaces t).2) (by rw [hcur₁, hzombie]; exact nofun)
  obtain ⟨hcont', howner', -⟩ := schedule_fields k₁
  have hsame : ∀ m, pending (schedule k₁) m = pending s.k m ∧ holder (schedule k₁) m = holder s.k m :=
    fun m => pending_congr (by rw [howner', howner₁]) fun o _ => by rw [hcont', hcont₁]
  refine ⟨schedule k₁, pl', ls', ?_, hs, hconts₁.quiet hquiet hcont' howner', fun m => ?_,
    fun m => ?_⟩
  · rw [threadExit, if_neg hidle, hk]
  · exact (h.inside m).trans (hsame m).2.symm
  · show s.granted m ++ pending (schedule k₁) m ++ ls'.wait (.mutex m) = _
    rw [(hsame m).1, hwait, hwait₁]
    exact h.order m

/-- `thread_create`. -/
theorem Good.create (halloc : s.k.alloc t = false) (hlt : t < maxThreads) : ∃ pl' ls', Good { s with
      k := threadCreate s.k t, joined := update s.joined t false } pl' ls' := by
  have hfree : pl t = .free := (h.stable.fields.free t).mpr halloc
  have hcont : s.k.cont t = .none :=
    h.conts.none_of (by simp [hfree]) (by simp [hfree]) (by simp [Place.Runnable, hfree])
  have hsame : update s.k.cont t .none = s.k.cont := by
    rw [← hcont, update_eq_self]
  have henq := (h.stable.alloc hfree hlt (update s.k.cont t .none)).enqueue (t := t)
    (by rw [moveTo_self]; rfl)
  rw [moveTo_moveTo] at henq
  have hwakes : Wakes s.k pl ls (threadCreate s.k t) (moveTo pl [t] .ready) _ :=
    h.stable.wakes henq rfl rfl hsame rfl (fun _ => rfl) (by simp [hcont, hfree])
  obtain ⟨hs, hc, hi, ho⟩ := h.calm hwakes.toCalm
  refine ⟨_, _, hs, ⟨hc.lockAt, hc.lockOf, fun x u hx => ?_, hc.joinOf, hc.joinOne⟩, hi, ho⟩
  obtain ⟨hat, hj, hf⟩ := hc.joinAt x u hx
  have hut : u ≠ t := fun e => by
    have hxu : s.k.cont x = .join u := by rw [← hsame]; exact hx
    exact (h.conts.joinAt x u hxu).2.2 (e ▸ hfree)
  simp only [update_of_ne hut]
  exact ⟨hat, hj, hf⟩

/-! ## Steps -/

/-- The section leads to a state with `P`, or a panic other than that of `sched_wake`. -/
def Outcome (P : Kern → Prop) : Except Panic Kern → Prop
  | .ok k => P k
  | .error e => e ≠ .wakeNotBlocked

/-- Some places and lists fit the state. -/
def Fits (s : Sys) : Prop := ∃ pl ls, Good s pl ls

variable {r : Except Panic Kern}

theorem Good.outcome (hr : ∃ k' pl' ls', r = .ok k' ∧ Calm s.k pl ls k' pl' ls') : 
    Outcome (fun k' => Fits { s with k := k' }) r := by
  obtain ⟨k', pl', ls', rfl, hc⟩ := hr
  exact ⟨pl', ls', h.calm hc⟩

theorem Good.wakeOutcome (hr : ∃ k' pl' ls', r = .ok k' ∧ Wakes s.k pl ls k' pl' ls') :
    Outcome (fun k' => Fits { s with k := k' }) r := by
  obtain ⟨k', pl', ls', rfl, hw⟩ := hr
  exact ⟨pl', ls', h.calm hw.toCalm⟩

end

variable {readQ writeQ : WaitQ}

section Calls

variable (h : Good s pl ls) (hcont : s.k.cont s.k.current = .none) (hidle : s.k.current ≠ s.k.idle)

include h hcont hidle

theorem Good.readPass (hr : ∀ m, readQ ≠ .mutex m) (hw : ∀ m, writeQ ≠ .mutex m) (r : ReadPass) :
    Outcome (fun k' => Fits { s with k := k' }) (readPass s.k readQ writeQ r) := by
  cases r with
  | data => exact h.wakeOutcome (h.stable.wakeOne h.conts hw)
  | eof => exact ⟨pl, ls, h⟩
  | block => exact h.outcome (h.stable.calm_block hcont hidle hr)

theorem Good.writePass (hr : ∀ m, readQ ≠ .mutex m) (hw : ∀ m, writeQ ≠ .mutex m) (w : WritePass) :
    Outcome (fun k' => Fits { s with k := k' }) (writePass s.k readQ writeQ w) := by
  cases w with
  | refused => exact ⟨pl, ls, h⟩
  | done => exact h.wakeOutcome (h.stable.wakeOne h.conts hr)
  | part moved =>
    cases moved with
    | false => exact h.outcome (h.stable.calm_block hcont hidle hw)
    | true =>
      obtain ⟨k₁, pl₁, ls₁, hwake, hw₁⟩ := h.stable.wakeOne h.conts hr
      have hcont₁ : k₁.cont k₁.current = .none := by rw [hw₁.cont, hw₁.current, hcont]
      have hidle₁ : k₁.current ≠ k₁.idle := by rw [hw₁.current, hw₁.idle]; exact hidle
      obtain ⟨k', pl', ls', hblock, hc⟩ := hw₁.stable.calm_block hcont₁ hidle₁ hw
      refine h.outcome ⟨k', pl', ls', ?_, hw₁.toCalm.trans hc⟩
      rw [Sched.writePass, hwake]
      exact hblock

theorem Good.slotBlock (i : Slot) :
    Outcome (fun k' => Fits { s with k := k' }) (slotBlock s.k i) := by
  by_cases hi : s.k.slot i = none
  · exact h.outcome (h.stable.calm_slotBlock hcont hidle hi)
  · rw [Sched.slotBlock, if_pos hi]
    intro he
    cases he

theorem Good.die (parent : Option Nat) :
    Outcome (fun k' => Fits { s with k := k' }) (procDie s.k parent) := by
  cases parent with
  | none =>
    obtain ⟨k', pl', ls', hrun, hg⟩ := h.exit hcont hidle
    have hdie : procDie s.k none = .ok k' := hrun
    rw [hdie]
    exact ⟨pl', ls', hg⟩
  | some i =>
    obtain ⟨k₁, pl₁, ls₁, hwake, hw⟩ := h.stable.slotWake h.conts (.waiter i)
    have hg₁ := h.calm hw.toCalm
    obtain ⟨k', pl', ls', hrun, hg⟩ := hg₁.exit (by rw [hw.cont, hw.current, hcont])
      (by rw [hw.current, hw.idle]; exact hidle)
    have hdie : procDie s.k (some i) = .ok k' := by
      rw [procDie, hwake]
      exact hrun
    rw [hdie]
    exact ⟨pl', ls', hg⟩

theorem Good.lock (m : Nat) :
    Outcome (fun k' => Fits (s.after k' (.lock m))) (mutexLock s.k m) := by
  unfold mutexLock
  by_cases hown : s.k.owner m = some s.k.current
  · rw [if_pos hown]
    exact nofun
  rw [if_neg hown]
  by_cases hfree : s.k.owner m = none
  · rw [if_pos hfree]
    refine ⟨pl, ls, ?_⟩
    rw [Sys.after, if_pos hfree]
    exact h.lock_free hcont hfree
  · rw [if_neg hfree]
    obtain ⟨k', pl', ls', hrun, hg⟩ := h.lock_wait hcont hidle hfree hown
    rw [hrun]
    refine ⟨pl', ls', ?_⟩
    rw [Sys.after, if_neg hfree]
    exact hg

theorem Good.join (halloc : s.k.alloc t = true) (hjoined : s.joined t = false) :
    Outcome (fun k' => Fits (s.after k' (.join t))) (threadJoin s.k t) := by
  unfold threadJoin
  by_cases hself : t = s.k.current ∨ t = s.k.idle
  · rw [if_pos hself]
    exact nofun
  rw [if_neg hself]
  by_cases hz : s.k.core.state t = .zombie
  · have hplace : pl t = .zombie := by
      have hfree : pl t ≠ .free := fun e => by
        rw [h.stable.fields.free, halloc] at e
        cases e
      have hnotidle : pl t ≠ .idle := fun e => hself (.inr ((h.stable.fields.idle t).mp e))
      have hoff := h.stable.settled t
      have hst := h.stable.fields.state t
      cases hp : pl t <;> simp_all [Place.state]
    have hsame : update s.k.cont s.k.current .none = s.k.cont := by
      rw [← hcont, update_eq_self]
    have hg := h.reap (update s.joined t true) hplace (h.run_current hidle)
      (by simp [hcont]) (fun u _ hu => by
        rw [(h.conts.joinAt u t hu).2.1] at hjoined
        cases hjoined)
      (fun u hu => by
        by_cases hut : u = t
        · rw [hut, update_self]
        · rwa [update_of_ne hut])
    rw [hsame] at hg
    rw [if_pos hz, reapThread, if_pos hz]
    exact ⟨_, _, hg⟩
  rw [if_neg hz]
  by_cases hj : s.k.joiner t = none
  · rw [if_neg (not_not.mpr hj)]
    obtain ⟨pl', ls', hg⟩ := h.join_wait hcont hidle halloc hjoined hj
    exact ⟨pl', ls', hg⟩
  · rw [if_pos hj]
    intro he
    cases he

/-- **Every call of a running thread keeps the invariant**, and `sched_wake` does not panic in it. -/
theorem Good.call (c : Call) (hadm : s.Admits c) :
    Outcome (fun k' => Fits (s.after k' c)) (c.run s.k) := by
  cases c with
  | create t => exact h.create hadm.1 hadm.2
  | yield =>
    obtain ⟨pl', ls', hc⟩ := h.stable.calm_requeue hcont
    exact ⟨pl', ls', h.calm hc⟩
  | sleepTicks ticks => exact h.outcome (h.stable.calm_sleep hcont hidle ticks)
  | lock m => exact h.lock hcont hidle m
  | unlock m =>
    by_cases hown : s.k.owner m = some s.k.current
    · obtain ⟨k', pl', ls', hrun, hg⟩ := h.unlock hcont hown
      rw [Call.run, hrun]
      exact ⟨pl', ls', hg⟩
    · rw [Call.run, mutexUnlock, if_pos hown]
      exact nofun
  | pipeRead p r => exact h.readPass hcont hidle (by exact nofun) (by exact nofun) r
  | pipeWrite p w => exact h.writePass hcont hidle (by exact nofun) (by exact nofun) w
  | pipeReleaseRead p last =>
    cases last with
    | false => exact ⟨pl, ls, h⟩
    | true => exact h.wakeOutcome (h.stable.wakeAll h.conts nofun)
  | pipeReleaseWrite p last =>
    cases last with
    | false => exact ⟨pl, ls, h⟩
    | true => exact h.wakeOutcome (h.stable.wakeAll h.conts nofun)
  | socketRead p e r => exact h.readPass hcont hidle (by exact nofun) (by exact nofun) r
  | socketWrite p e w => exact h.writePass hcont hidle (by exact nofun) (by exact nofun) w
  | socketRelease p e =>
    obtain ⟨k₁, pl₁, ls₁, hrun₁, hw₁⟩ := h.stable.wakeAll (q := .chanWrite p e) h.conts nofun
    obtain ⟨k₂, pl₂, ls₂, hrun₂, hw₂⟩ :=
      hw₁.stable.wakeAll (q := .chanRead p (!e)) (h.calm hw₁.toCalm).conts nofun
    refine h.outcome ⟨k₂, pl₂, ls₂, ?_, hw₁.toCalm.trans hw₂.toCalm⟩
    rw [Call.run, socketRelease, hrun₁]
    exact hrun₂
  | wait4 i => exact h.slotBlock hcont hidle (.waiter i)
  | conRead => exact h.slotBlock hcont hidle .console
  | exit =>
    obtain ⟨k', pl', ls', hrun, hg⟩ := h.exit hcont hidle
    rw [Call.run, hrun]
    exact ⟨pl', ls', hg⟩
  | die parent => exact h.die hcont hidle parent
  | join t => exact h.join hcont hidle hadm.1 hadm.2

end Calls

/-- Flags and counters are not part of the invariant. -/
theorem Stable.setFlags (h : Stable k pl ls) (b : Bool) (n : Nat) :
    Stable { k with needResched := b, ticks := n } pl ls :=
  ⟨h.toInv.congr rfl rfl rfl rfl rfl rfl rfl, h.running, h.settled⟩

theorem Stable.calm_preempt (h : Stable k pl ls) (hcont : k.cont k.current = .none) :
    ∃ pl' ls', Calm k pl ls (schedPreempt k) pl' ls' := by
  unfold schedPreempt
  by_cases hn : k.needResched = true
  · rw [if_pos hn]
    have hflag : Calm k pl ls { k with needResched := false } pl ls :=
      ⟨h.setFlags false k.ticks, .refl, rfl, rfl, fun _ => rfl⟩
    obtain ⟨pl', ls', hc⟩ := hflag.stable.calm_requeue hcont
    exact ⟨pl', ls', hflag.trans hc⟩
  · rw [if_neg hn]
    exact ⟨pl, ls, .refl h⟩

theorem Stable.wakes_handler (h : Stable k pl ls) (hc : Conts k joined pl) (i : Irq) :
    ∃ k' pl' ls', irqHandler k i = .ok k' ∧ Wakes k pl ls k' pl' ls' := by
  cases i with
  | timer =>
    obtain ⟨l, r, hsplit, hinv⟩ := h.toInv.wakeDue ((k.ticks + 1) % 2 ^ 64)
    have hl : ∀ t ∈ l, pl t = .sleep := fun t ht =>
      (h.tracks.sleep t).mp (by rw [hsplit]; exact List.mem_append_left _ ht)
    refine ⟨_, _, _, rfl, h.wakes (hinv.congr rfl rfl rfl rfl rfl rfl rfl) rfl rfl rfl rfl
      (fun _ => rfl) fun t ht => ?_⟩
    have hnone : k.cont t = .none := hc.none_of (by simp [hl t ht]) (by simp [hl t ht])
      (by simp [Place.Runnable, hl t ht])
    simp [hnone, hl t ht]
  | keyboard pushed =>
    cases pushed with
    | true => exact h.slotWake hc .console
    | false => exact ⟨k, pl, ls, rfl, .refl h⟩
  | other => exact ⟨k, pl, ls, rfl, .refl h⟩

/-- **Every interrupt keeps the invariant** and does not panic. -/
theorem Good.irq (h : Good s pl ls) (hcont : s.k.cont s.k.current = .none) (i : Irq) :
    ∃ k', irqDispatch s.k i = .ok k' ∧ Fits { s with k := k' } := by
  obtain ⟨k₁, pl₁, ls₁, hrun, hw⟩ := h.stable.wakes_handler h.conts i
  obtain ⟨pl', ls', hc⟩ := hw.stable.calm_preempt (by rw [hw.cont, hw.current, hcont])
  refine ⟨schedPreempt k₁, ?_, pl', ls', h.calm (hw.toCalm.trans hc)⟩
  rw [irqDispatch, hrun]
  rfl

/-- **A thread that is switched to finds what it waited for.** -/
theorem Good.resume (h : Good s pl ls) (hcont : s.k.cont s.k.current ≠ .none) :
    ∃ k', resume s.k = .ok k' ∧ Fits (s.resumed k') := by
  have hidle : s.k.current ≠ s.k.idle := fun e => by
    have hp : pl s.k.current = .idle := (h.stable.fields.idle _).mpr e
    exact hcont (h.conts.none_of (by simp [hp]) (by simp [hp]) (by simp [Place.Runnable, hp]))
  have hrun := h.run_current hidle
  cases hc : s.k.cont s.k.current with
  | none => exact absurd hc hcont
  | lock m =>
    have howner : s.k.owner m = some s.k.current := by
      rcases h.conts.lockAt _ m hc with hp | ⟨ho, -⟩
      · rw [hrun] at hp
        cases hp
      · exact ho
    have hres : Sched.resume s.k =
        .ok { s.k with cont := update s.k.cont s.k.current .none } := by
      rw [Sched.resume, hc]
      exact if_pos howner
    have hsame : ∀ m', m' ≠ m →
        pending { s.k with cont := update s.k.cont s.k.current .none } m' = pending s.k m' ∧
        holder { s.k with cont := update s.k.cont s.k.current .none } m' = holder s.k m' :=
      fun m' hm => pending_congr rfl fun o _ => by
        by_cases ho : o = s.k.current
        · simp [ho, hc, Ne.symm hm]
        · simp only [update_of_ne ho]
    refine ⟨_, hres, pl, ls, ?_⟩
    rw [Sys.resumed, hc]
    refine ⟨⟨h.stable.toInv.congr rfl rfl rfl rfl rfl rfl rfl, h.stable.running, h.stable.settled⟩,
      h.conts.finish hrun rfl rfl fun _ hj => hj, fun m' => ?_, fun m' => ?_⟩ <;>
      by_cases hm : m' = m
    · subst hm
      simp [h.inside, holder, howner, hc]
    · simp only [update_of_ne hm]
      exact (h.inside m').trans (hsame m' hm).2.symm
    · subst hm
      have hord := h.order m'
      simp only [pending, howner, hc, if_true] at hord
      simp only [pending, howner, update_self, reduceCtorEq, if_false, List.append_nil]
      exact hord
    · simp only [update_of_ne hm, (hsame m' hm).1]
      exact h.order m'
  | join t =>
    obtain ⟨hat, -, -⟩ := h.conts.joinAt _ t hc
    have hz : pl t = .zombie := by
      rcases hat with hp | ⟨hz, -⟩
      · rw [hrun] at hp
        cases hp
      · exact hz
    have hst : s.k.core.state t = .zombie := h.stable.fields.state t _ (by rw [hz]; rfl)
    have hres : Sched.resume s.k = .ok { s.k with
        cont := update s.k.cont s.k.current .none
        alloc := update s.k.alloc t false } := by
      rw [Sched.resume, hc]
      exact if_pos hst
    refine ⟨_, hres, moveTo pl [t] .free, ls, ?_⟩
    rw [Sys.resumed, hc]
    exact h.reap s.joined hz hrun (by simp [hc])
      (fun u hu hcu => hu (h.conts.joinOne u _ t hcu hc)) fun _ hj => hj

/-! ## Runs -/

/-- The scheduler after `sched_init`: no list has a thread, and the boot thread is RUNNING. -/
theorem schedInit_core {boot idle : Tid} (hne : boot ≠ idle) :
    (schedInit boot idle).core.next = (fun _ => none) ∧
    (schedInit boot idle).core.readyHead = none ∧ (schedInit boot idle).core.readyTail = none ∧
    (schedInit boot idle).core.sleepers = none ∧
    (schedInit boot idle).core.state boot = .running := by
  simp [schedInit, zeroKern, threadCreate, Kern.enqueue, schedCoreEnqueue, pushBack,
    schedCoreDequeue, popFront, schedCoreInit, Kern.setState, hne]

/-- Where the threads are after `sched_init`. -/
def startPlace (boot idle : Tid) (t : Tid) : Place :=
  if t = boot then .run else if t = idle then .idle else .free

theorem startPlace_iff {boot idle t : Tid} (hne : boot ≠ idle) :
    (startPlace boot idle t = .run ↔ t = boot) ∧ (startPlace boot idle t = .idle ↔ t = idle) ∧
    (startPlace boot idle t = .free ↔ t ≠ boot ∧ t ≠ idle) := by
  unfold startPlace
  by_cases hb : t = boot
  · simp [hb, hne]
  · by_cases hi : t = idle <;> simp [hb, hi, hne.symm]

theorem startPlace_cases (boot idle t : Tid) : startPlace boot idle t = .run ∨
    startPlace boot idle t = .idle ∨ startPlace boot idle t = .free := by
  unfold startPlace
  split
  · exact .inl rfl
  · split
    · exact .inr (.inl rfl)
    · exact .inr (.inr rfl)

/-- After `sched_init` the boot thread runs, and no thread is anywhere else. -/
theorem good_start {boot idle : Tid} (hne : boot ≠ idle) (hboot : boot < maxThreads)
    (hidle : idle < maxThreads) : Fits (Sys.start boot idle) := by
  obtain ⟨hnext, hhead, htail, hsleep, hstate⟩ := schedInit_core hne
  have hiff := fun t => startPlace_iff (t := t) hne
  have hcases := startPlace_cases boot idle
  have hrest : ∀ t p, p ≠ .run → p ≠ .idle → p ≠ .free → startPlace boot idle t ≠ p := by
    intro t p h1 h2 h3 e
    rcases hcases t with h | h | h <;> rw [h] at e
    exacts [h1 e.symm, h2 e.symm, h3 e.symm]
  have hrep : Rep (schedInit boot idle).core [] [] :=
    ⟨⟨hhead, htail⟩, hsleep, List.nodup_nil⟩
  have halloc : ∀ t, (schedInit boot idle).alloc t = false ↔ t ≠ boot ∧ t ≠ idle := fun t => by
    by_cases hi : t = idle
    · simp [schedInit, threadCreate, Kern.enqueue, Kern.setState, hi]
    · simp [schedInit, threadCreate, Kern.enqueue, Kern.setState, zeroKern, hi]
  refine ⟨startPlace boot idle, ⟨[], [], fun _ => []⟩,
    ⟨⟨⟨hrep, fun _ => Queue.empty, fun _ => List.nodup_nil⟩, ⟨fun t => ?_, fun t => ?_, fun q t => ?_⟩,
      ⟨fun i t => ?_, fun u t _ => ?_, fun t u e => ?_⟩,
      ⟨fun t => (hiff t).2.1, fun t => ?_, fun t ht => ?_, fun t st hst => ?_⟩⟩, fun t => ?_,
      fun t => hrest t _ nofun nofun nofun⟩,
    ⟨fun t m e => ?_, fun t m e => absurd e (hrest t _ nofun nofun nofun), fun t u e => ?_,
      fun t u e => absurd e (hrest t _ nofun nofun nofun), fun t t' u e => ?_⟩,
    fun m => rfl, fun m => rfl⟩
  · exact ⟨nofun, fun e => absurd e (hrest t _ nofun nofun nofun)⟩
  · exact ⟨nofun, fun e => absurd e (hrest t _ nofun nofun nofun)⟩
  · exact ⟨nofun, fun e => absurd e (hrest t _ nofun nofun nofun)⟩
  · exact ⟨nofun, fun e => absurd e (hrest t _ nofun nofun nofun)⟩
  · refine ⟨fun e => ?_, fun e => absurd e (hrest t _ nofun nofun nofun)⟩
    by_cases hu : u = idle <;>
      simp [Sys.start, schedInit, threadCreate, Kern.enqueue, Kern.setState, zeroKern, hu] at e
  · exact absurd e (hrest t _ nofun nofun nofun)
  · exact (hiff t).2.2.trans (halloc t).symm
  · by_contra hge
    have hfree : (schedInit boot idle).alloc t = false :=
      (halloc t).mpr ⟨fun e => hge (e ▸ hboot), fun e => hge (e ▸ hidle)⟩
    have ht' : (schedInit boot idle).alloc t = true := ht
    rw [hfree] at ht'
    cases ht'
  · rcases hcases t with h | h | h <;> rw [h] at hst
    · rw [((hiff t).1).mp h]
      exact hstate.trans (Option.some.inj hst)
    · cases hst
    · cases hst
  · refine (hiff t).1.trans ⟨fun e => ⟨e, e ▸ hne⟩, fun e => e.1⟩
  all_goals
    by_cases ht : t = idle <;>
      simp [Sys.start, schedInit, threadCreate, Kern.enqueue, Kern.setState, zeroKern, ht] at e

theorem Fits.step {s' : Sys} {e : Ev} (h : Fits s) (hs : Step s e s') : Fits s' := by
  obtain ⟨pl, ls, hg⟩ := h
  cases hs with
  | call c k' hcont hidle hadm hrun =>
    have hout := hg.call hcont hidle c hadm
    rw [hrun] at hout
    exact hout
  | irq i k' hcont hrun =>
    obtain ⟨k'', hrun', hfit⟩ := hg.irq hcont i
    obtain rfl : k'' = k' := Except.ok.inj (hrun'.symm.trans hrun)
    exact hfit
  | resume k' hcont hrun =>
    obtain ⟨k'', hrun', hfit⟩ := hg.resume hcont
    obtain rfl : k'' = k' := Except.ok.inj (hrun'.symm.trans hrun)
    exact hfit

section Results

variable {boot idle : Tid} {evs : List Ev}

theorem run_fits (hne : boot ≠ idle) (hboot : boot < maxThreads) (hidle : idle < maxThreads)
    (hr : Run Step (Sys.start boot idle) evs s) : Fits s :=
  Run.invariant (P := fun _ s => Fits s) (good_start hne hboot hidle) (fun h hs => h.step hs) hr

/-- **The queue discipline.** In every state of every run there are lists that the links represent
(the tail pointer of a queue being its last thread), without repetition and with no thread in common.
The running and the idle thread are on none. Every other thread with a control block is READY exactly
on the ready queue and SLEEPING exactly on the sleep list. No section that can start calls
`sched_wake` on a thread that is not BLOCKED. -/
theorem queue_discipline (hne : boot ≠ idle) (hboot : boot < maxThreads) (hidle : idle < maxThreads)
    (hr : Run Step (Sys.start boot idle) evs s) :
    (∃ ls : Lists,
      (Queue s.k.core.next s.k.core.readyHead s.k.core.readyTail ls.ready ∧
        Seg s.k.core.next s.k.core.sleepers ls.sleep none ∧
        ∀ q, Queue s.k.core.next (s.k.waitHead q) (s.k.waitTail q) (ls.wait q)) ∧
      (ls.ready.Nodup ∧ ls.sleep.Nodup ∧ ∀ q, (ls.wait q).Nodup) ∧
      (∀ t, ¬(t ∈ ls.ready ∧ t ∈ ls.sleep) ∧ (∀ q, t ∈ ls.wait q → t ∉ ls.ready ∧ t ∉ ls.sleep ∧
        ∀ q', q' ≠ q → t ∉ ls.wait q')) ∧
      (∀ t, t = s.k.current ∨ t = s.k.idle →
        t ∉ ls.ready ∧ t ∉ ls.sleep ∧ ∀ q, t ∉ ls.wait q) ∧
      ∀ t, s.k.alloc t = true → t ≠ s.k.current → t ≠ s.k.idle →
        (s.k.core.state t = .ready ↔ t ∈ ls.ready) ∧
        (s.k.core.state t = .sleeping ↔ t ∈ ls.sleep)) ∧
    (s.k.cont s.k.current = .none → s.k.current ≠ s.k.idle →
      ∀ c, s.Admits c → c.run s.k ≠ .error .wakeNotBlocked) ∧
    (s.k.cont s.k.current = .none → ∀ i, irqDispatch s.k i ≠ .error .wakeNotBlocked) := by
  obtain ⟨pl, ls, hg⟩ := run_fits hne hboot hidle hr
  have hs := hg.stable
  refine ⟨⟨ls, ⟨hs.linked.rep.queue, hs.linked.rep.sleepers, hs.linked.wait⟩,
    ⟨hs.linked.rep.ready_nodup, hs.linked.rep.sleep_nodup, hs.linked.nodup⟩,
    fun t => ⟨fun hm => hs.linked.rep.disjoint hm.1 hm.2, fun q hq => hs.wait_disjoint hq⟩,
    fun t ht => ?_, fun t halloc hcur hid => ?_⟩, fun hcont hid c hadm => ?_, fun hcont i => ?_⟩
  · have hl : (pl t).listed = false := by
      by_cases hid : t = s.k.idle
      · rw [(hs.fields.idle t).mpr hid]
        rfl
      · rw [(hs.running t).mpr ⟨ht.resolve_right hid, hid⟩]
        rfl
    exact ⟨hs.ready_listed hl, hs.sleep_listed hl, hs.wait_listed hl⟩
  · have hfree : pl t ≠ .free := fun e => by
      rw [hs.fields.free, halloc] at e
      cases e
    have hidle' : pl t ≠ .idle := fun e => hid ((hs.fields.idle t).mp e)
    have hoff := hs.settled t
    have hst := hs.fields.state t
    rw [hs.tracks.ready, hs.tracks.sleep]
    cases hp : pl t <;> simp_all [Place.state]
  · intro e
    have hout := hg.call hcont hid c hadm
    rw [e] at hout
    exact hout rfl
  · intro e
    obtain ⟨k', hrun, -⟩ := hg.irq hcont i
    rw [hrun] at e
    cases e

/-- The boot thread creates thread 2 and yields to it. -/
theorem queue_discipline_yield : ∃ s : Sys, s.k.current = 2 ∧ s.k.core.readyHead = some 0 ∧
    ∃ ls : Lists, Queue s.k.core.next s.k.core.readyHead s.k.core.readyTail ls.ready := by
  have h0 : Run Step (Sys.start 0 1) [] _ := Run.nil
  have h1 := h0.snoc (Step.call _ (.create 2) _ rfl (by decide) ⟨by decide, by decide⟩ rfl)
  have h2 := h1.snoc (Step.call _ .yield _ rfl (by decide) trivial rfl)
  obtain ⟨ls, ⟨hq, -⟩, -⟩ := (queue_discipline (by decide) (by decide) (by decide) h2).1
  exact ⟨_, by rfl, by rfl, ls, hq⟩

/-- **Mutexes are safe and fair.** In every state of every run and for every mutex: at most one thread
is between the return of `mutex_lock` and `mutex_unlock`, and it is the owner. The contenders that have
queued are, in order, those whose `mutex_lock` has returned, the one that owns the mutex and has not
run since, if there is one, and the wait queue. While the wait queue is not empty there is an owner.
A thread that is switched to inside `mutex_lock` is the owner. -/
theorem mutex_fair (hne : boot ≠ idle) (hboot : boot < maxThreads) (hidle : idle < maxThreads)
    (hr : Run Step (Sys.start boot idle) evs s) (m : Nat) :
    ((s.inside m).length ≤ 1 ∧ ∀ t ∈ s.inside m, s.k.owner m = some t) ∧
    (∃ wait, Queue s.k.core.next (s.k.waitHead (.mutex m)) (s.k.waitTail (.mutex m)) wait ∧
      s.granted m ++ pending s.k m ++ wait = s.queued m) ∧
    (s.k.waitHead (.mutex m) ≠ none → s.k.owner m ≠ none) ∧
    resume s.k ≠ .error .lockNotOwner := by
  obtain ⟨pl, ls, hg⟩ := run_fits hne hboot hidle hr
  refine ⟨?_, ⟨ls.wait (.mutex m), hg.stable.linked.wait _, hg.order m⟩, fun hhead => ?_, ?_⟩
  · rw [hg.inside, holder]
    cases ho : s.k.owner m with
    | none => simp
    | some o =>
      simp only
      split <;> simp
  · have hq := hg.stable.linked.wait (.mutex m)
    cases hl : ls.wait (.mutex m) with
    | nil =>
      rw [hl] at hq
      exact absurd hq.head_eq hhead
    | cons t l =>
      have hp : pl t = .queue (.mutex m) :=
        (hg.stable.tracks.wait _ t).mp (by rw [hl]; exact List.mem_cons_self)
      exact (hg.conts.lockOf t m hp).2.1
  · by_cases hc : s.k.cont s.k.current = .none
    · rw [resume, hc]
      exact nofun
    · obtain ⟨k', hrun, -⟩ := hg.resume hc
      rw [hrun]
      exact nofun

/-- The boot thread locks mutex 0; thread 2 waits for it and gets it. -/
theorem mutex_fair_handoff : ∃ s : Sys, s.inside 0 = [2] ∧ s.queued 0 = [2] ∧
    (s.inside 0).length ≤ 1 := by
  have h0 : Run Step (Sys.start 0 1) [] _ := Run.nil
  have h1 := h0.snoc (Step.call _ (.lock 0) _ rfl (by decide) trivial rfl)
  have h2 := h1.snoc (Step.call _ (.create 2) _ rfl (by decide) ⟨by decide, by decide⟩ rfl)
  have h3 := h2.snoc (Step.call _ .yield _ rfl (by decide) trivial rfl)
  have h4 := h3.snoc (Step.call _ (.lock 0) _ rfl (by decide) trivial rfl)
  have h5 := h4.snoc (Step.call _ (.unlock 0) _ rfl (by decide) trivial rfl)
  have h6 := h5.snoc (Step.call _ .yield _ rfl (by decide) trivial rfl)
  have h7 := h6.snoc (Step.resume _ _ nofun rfl)
  exact ⟨_, by rfl, by rfl, (mutex_fair (by decide) (by decide) (by decide) h7 0).1.1⟩

end Results

end Hallucinate.Sched
