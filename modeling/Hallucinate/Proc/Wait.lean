import Hallucinate.Lib.Trans
import Hallucinate.Proc.Core
import Mathlib.Tactic.Tauto

/-!
# fork, exit and wait4 over the process table (`kernel/proc/process.c`)

The kernel side of the process model: one hosting thread per process, `pstate[i].waiter` (the
thread of slot `i`'s process blocked in `wait4`), and the interrupts-off sections of
`process_fork`, `proc_die` and `process_wait4` as the atomic steps of `Step`. Between two
sections a thread can be preempted, so a call that has several sections has one thread state for
each gap:

* `forking c`: `proc_alloc` handed out pid `c` (`embryo`), the address space is being built;
* `waiting a`: inside the `for (;;)` of `process_wait4(a)`, before its next section;
* `blocked a`: in `sched_block` with the waiter slot published;
* `reaping r`: `proc_wait_find` returned the zombie `r`, whose thread and memory are being
  collected before `proc_reap`.

A thread is only ever blocked by `process_wait4` here; the other sleeps of the kernel keep it in
`user`. `fd_table_close_all` and the address-space work touch neither the table nor `waiter`.

Results: `NoLostZombie` says that no process sleeps in `wait4` past a reapable child. A dying
process hands its zombie children to init but wakes only its own parent, so the property breaks
exactly in the steps that strand a zombie (`Strands`): **`wait4_exact`** says that along a run of
steps that do not strand one the property holds, and that a step from such a state keeps it iff
it does not strand one. `wait4_strands` is a run that does.
-/

namespace Hallucinate.Proc

open Hallucinate.Lib Function

/-- Where the hosting thread of a pid is. -/
inductive ThreadSt
  | none
  | embryo
  | user
  | forking (child : Int)
  | waiting (pidArg : Int)
  | blocked (pidArg : Int)
  | reaping (pid : Int)
  | dead
  deriving DecidableEq, Repr

/-- The process table, `pstate[].waiter` and the hosting threads. A process has one thread, so
threads are named by pid. -/
structure Kernel where
  ptable : ProcTable
  waiter : Fin procMax → Option Int
  thr : Int → ThreadSt

/-- `sched_wake` on a thread blocked in `wait4`: it runs the loop again. -/
def woken : ThreadSt → ThreadSt
  | .blocked a => .waiting a
  | s => s

/-- The kernel once `process_run_init` has launched init. -/
def boot : Kernel where
  ptable := (procAlloc procTableInit 0).2
  waiter _ := none
  thr p := if p = procInitPid then .user else .none

/-- `process_fork` up to the end of its first section: `proc_alloc`, then `cp->waiter = NULL` for
the slot of the new pid. -/
def forkAlloc (k : Kernel) (p : Int) : Kernel :=
  let r := procAlloc k.ptable p
  if r.1 = 0 then k
  else
    { ptable := r.2
      waiter := match procFind r.2 r.1 with
        | some i => update k.waiter i none
        | none => k.waiter
      thr := update (update k.thr p (.forking r.1)) r.1 .embryo }

/-- The `-ENOMEM` path of `process_fork`: `proc_exit` then `proc_reap` in one section. -/
def forkFail (k : Kernel) (p c : Int) : Kernel :=
  { k with
    ptable := procReap (procExit k.ptable c 0).2 c
    thr := update (update k.thr p .user) c .dead }

/-- `host_launch`: the child's thread can run. -/
def forkLaunch (k : Kernel) (p c : Int) : Kernel :=
  { k with thr := update (update k.thr p .user) c .user }

/-- `proc_die`: `proc_exit`, then wake the parent if it is live and blocked in `wait4`; the
thread ends in the same interrupts-off section. -/
def procDie (k : Kernel) (pid wstatus : Int) : Kernel :=
  let r := procExit k.ptable pid wstatus
  let thr := update k.thr pid .dead
  match (if 0 < r.1 then procFind r.2 r.1 else none) with
  | none => { k with ptable := r.2, thr := thr }
  | some i =>
    if (r.2.procs i).state = .live then
      match k.waiter i with
      | some w =>
        { ptable := r.2
          waiter := update k.waiter i none
          thr := update thr w (woken (thr w)) }
      | none => { k with ptable := r.2, thr := thr }
    else { k with ptable := r.2, thr := thr }

/-- One pass of the loop of `process_wait4(pidArg)` by `p`. -/
def wait4Section (k : Kernel) (p pidArg : Int) : Kernel :=
  let r := (procWaitFind k.ptable p pidArg).1
  if r = procWaitNochild then { k with thr := update k.thr p .user }
  else if 0 < r then { k with thr := update k.thr p (.reaping r) }
  else
    match procFind k.ptable p with
    | some i =>
      { k with
        waiter := update k.waiter i (some p)
        thr := update k.thr p (.blocked pidArg) }
    | none => k

/-- The section of `process_wait4` that releases the collected zombie's pid. -/
def wait4Reap (k : Kernel) (p r : Int) : Kernel :=
  { k with ptable := procReap k.ptable r, thr := update k.thr p .user }

/-- Which section runs. -/
inductive Label
  | fork (p : Int)
  | forkFail (p c : Int)
  | forkLaunch (p c : Int)
  | exit (p wstatus : Int)
  | wait4 (p pidArg : Int)
  | pass (p pidArg : Int)
  | reap (p r : Int)
  deriving DecidableEq, Repr

/-- One interrupts-off section of one thread. `process_wait4` answers `-EINVAL` at once to any
argument other than `-1` and a positive pid. -/
inductive Step : Kernel → Label → Kernel → Prop
  | fork (k p) (h : k.thr p = .user) : Step k (.fork p) (forkAlloc k p)
  | forkFail (k p c) (h : k.thr p = .forking c) : Step k (.forkFail p c) (forkFail k p c)
  | forkLaunch (k p c) (h : k.thr p = .forking c) : Step k (.forkLaunch p c) (forkLaunch k p c)
  | exit (k p st) (h : k.thr p = .user) : Step k (.exit p st) (procDie k p st)
  | wait4 (k p a) (h : k.thr p = .user) (ha : a = -1 ∨ 0 < a) :
      Step k (.wait4 p a) { k with thr := update k.thr p (.waiting a) }
  | pass (k p a) (h : k.thr p = .waiting a) : Step k (.pass p a) (wait4Section k p a)
  | reap (k p r) (h : k.thr p = .reaping r) : Step k (.reap p r) (wait4Reap k p r)

/-- **No process sleeps in `wait4` past a reapable child.** -/
def NoLostZombie (k : Kernel) : Prop :=
  ∀ p a, k.thr p = .blocked a → ∀ i, (k.ptable.procs i).state = .zombie →
    (k.ptable.procs i).ppid = p → ¬ ArgMatches a (k.ptable.procs i).pid

/-- The dying process `p` leaves a zombie child to init, init sleeps in a `wait4` that the zombie
matches, and `p`'s own parent is not init, so nobody wakes it. -/
def Strands (k : Kernel) (p : Int) : Prop :=
  ∃ a, k.thr procInitPid = .blocked a ∧
    (∃ j, Used k.ptable j ∧ (k.ptable.procs j).pid = p ∧ (k.ptable.procs j).ppid ≠ procInitPid) ∧
    ∃ i, (k.ptable.procs i).state = .zombie ∧ (k.ptable.procs i).ppid = p ∧
      ArgMatches a (k.ptable.procs i).pid

/-- The step is not an exit that strands a zombie. -/
def StepOk (k : Kernel) : Label → Prop
  | .exit p _ => ¬ Strands k p
  | _ => True

/-- States reached by any interleaving of `fork`, `exit` and `wait4`. -/
def Reach : Kernel → Prop := ReachVia Step (fun _ _ => True) boot

/-- States reached by steps none of which strands a zombie. -/
def ReachOk : Kernel → Prop := ReachVia Step StepOk boot

/-! ## The table and the threads agree -/

/-- A pid with a live entry. -/
def Live (k : Kernel) (p : Int) : Prop :=
  ∃ i, (k.ptable.procs i).state = .live ∧ (k.ptable.procs i).pid = p

/-- Threads that run code of their own process. -/
def Acts : ThreadSt → Prop
  | .user | .forking _ | .waiting _ | .blocked _ | .reaping _ => True
  | _ => False

/-- What every interleaving keeps: pids are sound; a thread inside the kernel belongs to a live
entry; `waiter` is exactly the blocked threads; a pid still being forked has a live entry, no
thread and no children; a parent is older than its child; and pids not yet issued have no
thread. -/
structure Inv (k : Kernel) : Prop where
  pids : PidsOk k.ptable
  acts : ∀ p, Acts (k.thr p) → Live k p
  waiter : ∀ i w, k.waiter i = some w →
    (k.ptable.procs i).state = .live ∧ (k.ptable.procs i).pid = w ∧ ∃ a, k.thr w = .blocked a
  blocked : ∀ p a, k.thr p = .blocked a →
    ∃ i, (k.ptable.procs i).state = .live ∧ (k.ptable.procs i).pid = p ∧ k.waiter i = some p
  embryo : ∀ p c, k.thr p = .forking c → k.thr c = .embryo ∧ Live k c
  embryo_inj : ∀ p q c, k.thr p = .forking c → k.thr q = .forking c → p = q
  parent : ∀ i, Used k.ptable i → k.thr (k.ptable.procs i).ppid ≠ .embryo
  parent_lt : ∀ i, Used k.ptable i → (k.ptable.procs i).ppid < (k.ptable.procs i).pid
  unborn : ∀ p, k.ptable.nextPid ≤ p → k.thr p = .none
  init_born : k.thr procInitPid ≠ .embryo

variable {k : Kernel}

variable {i : Fin procMax}

variable {pt : ProcTable}

theorem used_of_live (h : (pt.procs i).state = .live) : Used pt i := by
  unfold Used; rw [h]; exact nofun

variable {p : Int}

variable {w r : Int} {j : Fin procMax}

section

variable (h : Inv k)
include h

theorem Inv.live_lt (hl : Live k p) : p < k.ptable.nextPid := by
  obtain ⟨i, hi, rfl⟩ := hl
  exact h.pids.fresh i (used_of_live hi)

/-! ### fork -/

/-- `process_fork`'s first section fails without effect, or publishes an embryo in an unused
slot. -/
theorem forkAlloc_cases (p : Int) :
    forkAlloc k p = k ∨ ∃ i, (k.ptable.procs i).state = .unused ∧ forkAlloc k p =
      { ptable := filled k.ptable i p
        waiter := update k.waiter i none
        thr := update (update k.thr p (.forking k.ptable.nextPid))
          k.ptable.nextPid .embryo } := by
  unfold forkAlloc
  rcases procAlloc_cases k.ptable p with e | ⟨i, hi, e⟩
  · left; rw [e]; rfl
  · right
    refine ⟨i, hi, ?_⟩
    have hnext := h.pids.next
    have hf : procFind (filled k.ptable i p) k.ptable.nextPid = some i := by
      have := procFind_eq (pidsOk_filled h.pids i p) (i := i)
        (by unfold Used; rw [filled_self]; exact ProcState.noConfusion)
      rwa [filled_self] at this
    rw [e]
    simp only [show k.ptable.nextPid ≠ 0 by omega, if_false]
    show Kernel.mk _ (match procFind (filled k.ptable i p) k.ptable.nextPid with
      | some i => update k.waiter i none
      | none => k.waiter) _ = _
    rw [hf]
    rfl

theorem inv_forkAlloc (hp : k.thr p = .user) : Inv (forkAlloc k p) := by
  rcases forkAlloc_cases h p with e | ⟨i, hi, e⟩
  · rw [e]; exact h
  rw [e]
  have hplive : Live k p := h.acts p (by rw [hp]; trivial)
  have hplt := h.live_lt hplive
  have hnone : k.thr k.ptable.nextPid = .none := h.unborn _ le_rfl
  have hne : ∀ j, (k.ptable.procs j).state = .live → j ≠ i := by
    rintro j hj rfl; rw [hi] at hj; cases hj
  generalize hthr : update (update k.thr p (.forking k.ptable.nextPid)) k.ptable.nextPid .embryo = thr'
  -- threads other than the parent, who was running, and the embryo are as before
  have hold : ∀ {q s}, k.thr q = s → s ≠ .user → s ≠ .none → thr' q = s := by
    rintro q s rfl h1 h2
    rw [← hthr, update_of_ne (by rintro rfl; exact h2 hnone), update_of_ne (by rintro rfl; exact h1 hp)]
  have hnew : ∀ {q s}, thr' q = s → (q = k.ptable.nextPid ∧ s = .embryo) ∨
      (q = p ∧ s = .forking k.ptable.nextPid) ∨ k.thr q = s := by
    rintro q s rfl
    rw [← hthr]
    by_cases h1 : q = k.ptable.nextPid
    · subst h1; exact .inl ⟨rfl, update_self ..⟩
    · rw [update_of_ne h1]
      by_cases h2 : q = p
      · subst h2; exact .inr (.inl ⟨rfl, update_self ..⟩)
      · rw [update_of_ne h2]; exact .inr (.inr rfl)
  have hL : ∀ q, Live k q → Live ⟨filled k.ptable i p, update k.waiter i none, thr'⟩ q := by
    rintro q ⟨j, hj, hq⟩
    exact ⟨j, by simp only [filled_ne _ (hne j hj)]; exact ⟨hj, hq⟩⟩
  constructor
  case pids => exact pidsOk_filled h.pids i p
  case acts =>
    intro q hq
    rcases hnew (q := q) rfl with ⟨-, e⟩ | ⟨rfl, -⟩ | e
    · simp only [e] at hq; exact hq.elim
    · exact hL q hplive
    · exact hL q (h.acts q (e ▸ hq))
  case waiter =>
    intro j w hw
    simp only at hw ⊢
    have hji : j ≠ i := by
      rintro rfl; rw [update_self] at hw; cases hw
    rw [update_of_ne hji] at hw
    obtain ⟨h1, h2, a, h3⟩ := h.waiter j w hw
    rw [filled_ne _ hji]
    exact ⟨h1, h2, a, hold h3 nofun nofun⟩
  case blocked =>
    intro q a hq
    rcases hnew hq with ⟨-, ⟨⟩⟩ | ⟨-, ⟨⟩⟩ | hq
    obtain ⟨j, hj, hjp, hjw⟩ := h.blocked q a hq
    refine ⟨j, ?_⟩
    simp only [filled_ne _ (hne j hj), update_of_ne (hne j hj)]
    exact ⟨hj, hjp, hjw⟩
  case embryo =>
    intro q c hq
    rcases hnew hq with ⟨-, ⟨⟩⟩ | ⟨rfl, ⟨⟩⟩ | hq
    · exact ⟨hthr ▸ update_self .., i, by simp only [filled_self], by simp only [filled_self]⟩
    · obtain ⟨hc, hcl⟩ := h.embryo q c hq
      exact ⟨hold hc nofun nofun, hL c hcl⟩
  case embryo_inj =>
    -- only the parent is forking the new pid, which nobody could be forking before
    have hfirst : ∀ q, k.thr q ≠ .forking k.ptable.nextPid := fun q e => by
      rw [(h.embryo q _ e).1] at hnone; cases hnone
    intro q q' c hq hq'
    rcases hnew hq with ⟨-, ⟨⟩⟩ | ⟨rfl, ⟨⟩⟩ | h1
    · rcases hnew hq' with ⟨-, ⟨⟩⟩ | ⟨rfl, -⟩ | h2
      · rfl
      · exact absurd h2 (hfirst q')
    · rcases hnew hq' with ⟨-, ⟨⟩⟩ | ⟨-, ⟨⟩⟩ | h2
      · exact absurd h1 (hfirst q)
      · exact h.embryo_inj q q' c h1 h2
  case parent =>
    intro j hj hpar
    simp only at hj hpar
    rcases filled_used hj with rfl | ⟨hji, hu⟩
    · rw [filled_self] at hpar
      rcases hnew hpar with ⟨e, -⟩ | ⟨-, ⟨⟩⟩ | e
      · exact hplt.ne e
      · rw [hp] at e; cases e
    · rw [filled_ne _ hji] at hpar
      have h2 := h.parent_lt j hu
      have h3 := h.pids.fresh j hu
      rcases hnew hpar with ⟨e, -⟩ | ⟨-, ⟨⟩⟩ | e
      · omega
      · exact h.parent j hu e
  case parent_lt =>
    intro j hj
    simp only at hj ⊢
    rcases filled_used hj with rfl | ⟨hne, hu⟩
    · rw [filled_self]; exact hplt
    · rw [filled_ne _ hne]; exact h.parent_lt j hu
  case unborn =>
    intro q hq
    have hq' : k.ptable.nextPid + 1 ≤ q := hq
    show thr' q = .none
    rw [← hthr, update_of_ne (by omega), update_of_ne (by omega)]
    exact h.unborn q (by omega)
  case init_born =>
    intro hinit
    rcases hnew hinit with ⟨e, -⟩ | ⟨-, ⟨⟩⟩ | e
    · -- a live parent exists below `next_pid`
      obtain ⟨j, hj, hjp⟩ := hplive
      have := h.pids.pos j (used_of_live hj)
      unfold procInitPid at e
      omega
    · exact h.init_born e

/-! ### Steps that end a protocol -/

/-- Thread states outside the fork and block protocols. -/
def Plain : ThreadSt → Prop
  | .user | .waiting _ | .reaping _ => True
  | _ => False

/-- Those, and the end. -/
def Still : ThreadSt → Prop
  | .dead => True
  | st => Plain st

/-- The threads `M` leave the protocols, with their waiters. The live entries of the others stay, and
a child keeps its parent or gets init. -/
structure Quiet (k k' : Kernel) (M : Int → Prop) : Prop where
  pids : PidsOk k'.ptable
  next : k'.ptable.nextPid = k.ptable.nextPid
  out : ∀ q, ¬ M q → k'.thr q = k.thr q
  born : ∀ q, M q → Live k q
  still : ∀ q, M q → Still (k'.thr q)
  live : ∀ q, M q → Acts (k'.thr q) → Live k' q
  waiter : ∀ i w, k'.waiter i = some w ↔ k.waiter i = some w ∧ ¬ M w
  slot : ∀ i, (k.ptable.procs i).state = .live → ¬ M (k.ptable.procs i).pid →
    (k'.ptable.procs i).state = .live ∧ (k'.ptable.procs i).pid = (k.ptable.procs i).pid
  embryo : ∀ q c, ¬ M q → k.thr q = .forking c → ¬ M c
  parent_lt : ∀ i, Used k'.ptable i → (k'.ptable.procs i).ppid < (k'.ptable.procs i).pid
  parent : ∀ i, Used k'.ptable i → (k'.ptable.procs i).ppid = procInitPid ∨
    Used k.ptable i ∧ (k'.ptable.procs i).ppid = (k.ptable.procs i).ppid

variable {k' : Kernel} {M : Int → Prop}

/-- **Such a step keeps the invariant.** -/
theorem Inv.quiet (hq : Quiet k k' M) : Inv k' := by
  -- a state of the protocols was there before
  have hback : ∀ q s, ¬ Still s → k'.thr q = s → k.thr q = s ∧ ¬ M q := fun q s hs hthr => by
    have hM : ¬ M q := fun hM => hs (hthr ▸ hq.still q hM)
    exact ⟨(hq.out q hM).symm.trans hthr, hM⟩
  have hL : ∀ q, ¬ M q → Live k q → Live k' q := by
    rintro q hM ⟨i, hi, rfl⟩
    exact ⟨i, hq.slot i hi hM⟩
  constructor
  case pids => exact hq.pids
  case acts =>
    intro q hact
    by_cases hM : M q
    · exact hq.live q hM hact
    · rw [hq.out q hM] at hact
      exact hL q hM (h.acts q hact)
  case waiter =>
    intro i w hw
    obtain ⟨hw, hM⟩ := (hq.waiter i w).mp hw
    obtain ⟨h1, rfl, a, h2⟩ := h.waiter i w hw
    obtain ⟨h3, h4⟩ := hq.slot i h1 hM
    exact ⟨h3, h4, a, (hq.out _ hM).trans h2⟩
  case blocked =>
    intro q a hthr
    obtain ⟨h1, hM⟩ := hback q _ id hthr
    obtain ⟨i, hi, rfl, hw⟩ := h.blocked q a h1
    obtain ⟨h2, h3⟩ := hq.slot i hi hM
    exact ⟨i, h2, h3, (hq.waiter i _).mpr ⟨hw, hM⟩⟩
  case embryo =>
    intro q c hthr
    obtain ⟨h1, hM⟩ := hback q _ id hthr
    obtain ⟨hc, hl⟩ := h.embryo q c h1
    have hMc := hq.embryo q c hM h1
    exact ⟨(hq.out c hMc).trans hc, hL c hMc hl⟩
  case embryo_inj =>
    exact fun q q' c h1 h2 => h.embryo_inj q q' c (hback q _ id h1).1 (hback q' _ id h2).1
  case parent =>
    intro i hi hthr
    obtain ⟨h1, -⟩ := hback _ _ id hthr
    rcases hq.parent i hi with e | ⟨hu, e⟩
    · exact h.init_born (e ▸ h1)
    · exact h.parent i hu (e ▸ h1)
  case parent_lt => exact hq.parent_lt
  case unborn =>
    intro q hle
    rw [hq.next] at hle
    rw [hq.out q fun hM => absurd (h.live_lt (hq.born q hM)) (not_lt.mpr hle)]
    exact h.unborn q hle
  case init_born => exact fun e => h.init_born (hback _ _ id e).1

/-- A thread that is not blocked has no waiter. -/
theorem Inv.waiter_ne {q : Int} (hw : k.waiter i = some w) (hq : ∀ a, k.thr q ≠ .blocked a) :
    w ≠ q := by
  rintro rfl
  obtain ⟨-, -, a, ha⟩ := h.waiter i w hw
  exact hq a ha

/-- Threads that are not blocked move, and the table stays. -/
theorem Inv.quiet_thr {thr' : Int → ThreadSt} (hout : ∀ q, ¬ M q → thr' q = k.thr q)
    (hborn : ∀ q, M q → Live k q) (hstill : ∀ q, M q → Still (thr' q))
    (hnot : ∀ q, M q → ∀ a, k.thr q ≠ .blocked a)
    (hembryo : ∀ q c, ¬ M q → k.thr q = .forking c → ¬ M c) : Inv { k with thr := thr' } :=
  h.quiet ⟨h.pids, rfl, hout, hborn, hstill, fun q hM _ => hborn q hM,
    fun _ _ => ⟨fun hw => ⟨hw, fun hM => h.waiter_ne hw (hnot _ hM) rfl⟩, And.left⟩,
    fun _ hi _ => ⟨hi, rfl⟩, hembryo, h.parent_lt, fun _ hi => .inr ⟨hi, rfl⟩⟩

/-- A running thread of a live process may move between the plain states. -/
theorem Inv.setThr (hp : Plain (k.thr p)) {st : ThreadSt} (hst : Plain st) :
    Inv { k with thr := update k.thr p st } := by
  refine h.quiet_thr (M := (· = p)) (fun q hq => update_of_ne hq _ _) ?_ ?_ ?_ ?_
  · rintro q rfl
    exact h.acts q (by cases hq : k.thr q <;> simp_all [Plain, Acts])
  · rintro q rfl
    rw [update_self]
    cases st <;> first | exact hst | trivial
  · rintro q rfl a e
    rw [e] at hp
    exact hp
  · rintro q c - hc rfl
    rw [(h.embryo q c hc).1] at hp
    exact hp

variable {c : Int}

section

variable (hp : k.thr p = .forking c)
include hp

/-- The two threads of a fork, and that nobody else forks the child. -/
theorem Inv.forking :
    p ≠ c ∧ (∀ q, q = p ∨ q = c → Live k q) ∧ (∀ q, q = p ∨ q = c → ∀ a, k.thr q ≠ .blocked a) ∧
      ∀ q d, ¬(q = p ∨ q = c) → k.thr q = .forking d → ¬(d = p ∨ d = c) := by
  obtain ⟨hce, hcl⟩ := h.embryo p c hp
  refine ⟨?_, ?_, ?_, fun q d hq hd => ?_⟩
  · rintro rfl
    exact nomatch hp.symm.trans hce
  · rintro q (rfl | rfl)
    · exact h.acts q (by rw [hp]; trivial)
    · exact hcl
  · rintro q (rfl | rfl) a e
    · exact nomatch hp.symm.trans e
    · exact nomatch hce.symm.trans e
  · rintro (rfl | rfl)
    · exact nomatch hp.symm.trans (h.embryo q d hd).1
    · exact hq (.inl (h.embryo_inj q p d hd hp))

theorem inv_forkLaunch : Inv (forkLaunch k p c) := by
  obtain ⟨hpc, hborn, hnot, hembryo⟩ := h.forking hp
  refine h.quiet_thr (fun q hq => ?_) hborn ?_ hnot hembryo
  · obtain ⟨h1, h2⟩ := not_or.mp hq
    rw [update_of_ne h2, update_of_ne h1]
  · rintro q (rfl | rfl)
    · rw [update_of_ne hpc, update_self]
      trivial
    · rw [update_self]
      trivial

/-! ### A fork that runs out of memory -/

/-- The failed fork takes the embryo's entry back out of the table and touches no other: an
embryo has no children to hand to init. -/
theorem forkFail_table : ∃ i, (k.ptable.procs i).state = .live ∧ (k.ptable.procs i).pid = c ∧
      (forkFail k p c).ptable.nextPid = k.ptable.nextPid ∧
      (forkFail k p c).ptable.procs = update k.ptable.procs i emptyEntry ∧
      PidsOk (forkFail k p c).ptable := by
  obtain ⟨hce, i, hi, hic⟩ := h.embryo p c hp
  have hz : ((exited k.ptable i 0).procs i).state = .zombie := by rw [exited_state, if_pos rfl]
  have hpz := pidsOk_exited h.pids hi 0
  have e : (forkFail k p c).ptable = reaped (exited k.ptable i 0) i := by
    have hr := procReap_zombie hpz hz
    rw [exited_pid, hic] at hr
    have hx := procExit_live h.pids hi 0
    rw [hic] at hx
    simp only [forkFail, hx, hr]
  refine ⟨i, hi, hic, by rw [e]; rfl, ?_, by rw [e]; exact pidsOk_reaped hpz i⟩
  rw [e]
  funext j
  by_cases hji : j = i
  · subst hji; rw [reaped_self, update_self]
  · rw [reaped_ne _ hji, update_of_ne hji]
    unfold exited reparent
    simp only [update_of_ne hji]
    rw [if_neg]
    rintro ⟨hu, hpp⟩
    have := h.parent j hu
    rw [hpp, hic] at this
    exact this hce

theorem inv_forkFail : Inv (forkFail k p c) := by
  obtain ⟨hpc, hborn, hnot, hembryo⟩ := h.forking hp
  obtain ⟨i, hi, hic, hnext, hprocs, hpids⟩ := forkFail_table h hp
  have hp' : (forkFail k p c).thr p = .user := by
    simp only [forkFail, update_of_ne hpc, update_self]
  have hc' : (forkFail k p c).thr c = .dead := by simp only [forkFail, update_self]
  have hslot : ∀ j, (k.ptable.procs j).pid ≠ c → (forkFail k p c).ptable.procs j = k.ptable.procs j := by
    intro j hj
    rw [hprocs, update_of_ne (by rintro rfl; exact hj hic)]
  have hused : ∀ j, Used (forkFail k p c).ptable j →
      Used k.ptable j ∧ (forkFail k p c).ptable.procs j = k.ptable.procs j := by
    intro j hj
    by_cases hji : j = i
    · subst hji; unfold Used at hj; rw [hprocs, update_self] at hj; exact absurd rfl hj
    · have e : (forkFail k p c).ptable.procs j = k.ptable.procs j := by
        rw [hprocs, update_of_ne hji]
      unfold Used at hj ⊢
      rw [e] at hj
      exact ⟨hj, e⟩
  refine h.quiet (M := fun q => q = p ∨ q = c) ⟨hpids, hnext, fun q hq => ?_, hborn, ?_, ?_,
    fun j w => ⟨fun hw => ⟨hw, fun hM => h.waiter_ne hw (hnot w hM) rfl⟩, And.left⟩,
    fun j hj hM => ?_, hembryo, fun j hj => ?_, fun j hj => ?_⟩
  · obtain ⟨h1, h2⟩ := not_or.mp hq
    simp only [forkFail, update_of_ne h1, update_of_ne h2]
  · rintro q (rfl | rfl)
    · rw [hp']; trivial
    · rw [hc']; trivial
  · rintro q (rfl | rfl) hact
    · obtain ⟨j, hj, hjq⟩ := hborn q (.inl rfl)
      exact ⟨j, by rw [hslot j (hjq ▸ hpc)]; exact ⟨hj, hjq⟩⟩
    · rw [hc'] at hact
      exact hact.elim
  · rw [hslot j fun e => hM (.inr e)]
    exact ⟨hj, rfl⟩
  · obtain ⟨hu, hs⟩ := hused j hj
    rw [hs]
    exact h.parent_lt j hu
  · obtain ⟨hu, hs⟩ := hused j hj
    exact .inr ⟨hu, by rw [hs]⟩

end

/-! ### exit -/

/-- The first half of `proc_die` for the process at slot `i`: the table after `proc_exit` and the
thread gone. -/
def died (k : Kernel) (i : Fin procMax) (st : Int) : Kernel :=
  { k with
    ptable := exited k.ptable i st
    thr := update k.thr (k.ptable.procs i).pid .dead }

/-- The second half: the waiter `w` published at slot `j` is cleared and woken. -/
def wokenAt (k : Kernel) (j : Fin procMax) (w : Int) : Kernel :=
  { k with
    waiter := update k.waiter j none
    thr := update k.thr w (woken (k.thr w)) }

/-- The pid `proc_exit` returns for the process at slot `i`. -/
def deathPpid (k : Kernel) (i : Fin procMax) (st : Int) : Int :=
  ((exited k.ptable i st).procs i).ppid

/-- `proc_die` wakes the parent's waiter if there is one, and otherwise no waiter belongs to the
parent. -/
theorem procDie_cases (hp : k.thr p = .user) (st : Int) :
    ∃ i, (k.ptable.procs i).state = .live ∧ (k.ptable.procs i).pid = p ∧
      ((procDie k p st = died k i st ∧
          ∀ j w, k.waiter j = some w → w ≠ deathPpid k i st) ∨
        ∃ j, k.waiter j = some (deathPpid k i st) ∧
          procDie k p st = wokenAt (died k i st) j (deathPpid k i st)) := by
  obtain ⟨i, hi, rfl⟩ := h.acts p (by rw [hp]; trivial)
  refine ⟨i, hi, rfl, ?_⟩
  have hpz := pidsOk_exited h.pids hi st
  -- a published waiter sits in a slot that is still live after `proc_exit`
  have hw : ∀ j w, k.waiter j = some w → ((exited k.ptable i st).procs j).state = .live ∧
      ((exited k.ptable i st).procs j).pid = w ∧ 0 < w := by
    intro j w hjw
    obtain ⟨h1, h2, a, h3⟩ := h.waiter j w hjw
    have hji : j ≠ i := by
      rintro rfl
      rw [← h2, hp] at h3
      cases h3
    rw [exited_state, if_neg hji, exited_pid]
    exact ⟨h1, h2, by rw [← h2]; exact h.pids.pos j (used_of_live h1)⟩
  unfold procDie
  rw [procExit_live h.pids hi st]
  simp only [show ((exited k.ptable i st).procs i).ppid = deathPpid k i st from rfl]
  cases hf : (if 0 < deathPpid k i st then
      procFind (exited k.ptable i st) (deathPpid k i st) else none) with
  | none =>
    left
    refine ⟨rfl, ?_⟩
    rintro j w hjw rfl
    obtain ⟨h1, h2, h3⟩ := hw j _ hjw
    rw [if_pos h3] at hf
    have := procFind_eq hpz (used_of_live h1)
    rw [h2, hf] at this
    exact absurd this (by simp)
  | some j =>
    have hpos : 0 < deathPpid k i st := by
      by_contra hc; rw [if_neg hc] at hf; exact absurd hf (by simp)
    rw [if_pos hpos] at hf
    obtain ⟨hju, hjp⟩ := procFind_some hf
    have huniq : ∀ j', k.waiter j' = some (deathPpid k i st) → j' = j := by
      intro j' hj'
      obtain ⟨h1, h2, -⟩ := hw j' _ hj'
      exact hpz.inj j' j (used_of_live h1) hju (h2.trans hjp.symm)
    cases hwj : k.waiter j with
    | none =>
      left
      refine ⟨by simp only [hwj]; split <;> rfl, ?_⟩
      rintro j' w hj' rfl
      rw [huniq j' hj', hwj] at hj'
      exact absurd hj' (by simp)
    | some w =>
      obtain ⟨h1, h2, -⟩ := hw j w hwj
      obtain rfl : w = deathPpid k i st := h2.symm.trans hjp
      right
      exact ⟨j, hwj, by simp only [h1, if_true, hwj]; rfl⟩

theorem inv_died (hi : (k.ptable.procs i).state = .live) (hp : k.thr (k.ptable.procs i).pid = .user)
    (st : Int) : Inv (died k i st) := by
  have hp' : (died k i st).thr (k.ptable.procs i).pid = .dead := update_self _ _ _
  refine h.quiet (M := (· = (k.ptable.procs i).pid)) ⟨pidsOk_exited h.pids hi st, rfl,
    fun q hq => update_of_ne hq _ _, ?_, ?_, ?_, fun j w => ⟨fun hw => ⟨hw, ?_⟩, And.left⟩,
    fun j hj hM => ?_, ?_, fun j hj => ?_, fun j hj => ?_⟩
  · rintro q rfl
    exact ⟨i, hi, rfl⟩
  · rintro q rfl
    rw [hp']
    trivial
  · rintro q rfl hact
    rw [hp'] at hact
    exact hact.elim
  · exact h.waiter_ne hw fun a e => ThreadSt.noConfusion (hp.symm.trans e)
  · show ((exited k.ptable i st).procs j).state = .live ∧ ((exited k.ptable i st).procs j).pid = _
    rw [exited_state, if_neg (by rintro rfl; exact hM rfl), exited_pid]
    exact ⟨hj, rfl⟩
  · rintro q c - hc rfl
    exact nomatch hp.symm.trans (h.embryo q _ hc).1
  · have hu := (exited_used hi).mp hj
    rw [show ((died k i st).ptable.procs j).ppid = _ from exited_ppid hi hu,
      show ((died k i st).ptable.procs j).pid = _ from exited_pid _ _ _ _]
    have h1 := h.parent_lt j hu
    have h2 := h.pids.pos i (used_of_live hi)
    split
    · unfold procInitPid; omega
    · exact h1
  · have hu := (exited_used hi).mp hj
    rw [show ((died k i st).ptable.procs j).ppid = _ from exited_ppid hi hu]
    split
    · exact .inl rfl
    · exact .inr ⟨hu, rfl⟩

theorem inv_wokenAt (hw : k.waiter j = some w) : Inv (wokenAt k j w) := by
  obtain ⟨hj, hjw, a, ha⟩ := h.waiter j w hw
  have hw' : (wokenAt k j w).thr w = .waiting a := by
    show update k.thr w (woken (k.thr w)) w = _
    rw [update_self, ha]; rfl
  have hborn : ∀ q, q = w → Live k q := by
    rintro q rfl
    exact ⟨j, hj, hjw⟩
  refine h.quiet (M := (· = w)) ⟨h.pids, rfl, fun q hq => update_of_ne hq _ _, hborn, ?_,
    fun q hq _ => hborn q hq, fun i v => ?_, fun _ hi _ => ⟨hi, rfl⟩, ?_, h.parent_lt,
    fun _ hi => .inr ⟨hi, rfl⟩⟩
  · rintro q rfl
    rw [hw']
    trivial
  · -- a thread has one slot
    by_cases hij : i = j
    · rw [hij, hw, show (wokenAt k j w).waiter j = none from update_self _ _ _]
      exact ⟨nofun, fun hv => absurd (Option.some.inj hv.1).symm hv.2⟩
    · rw [show (wokenAt k j w).waiter i = k.waiter i from update_of_ne hij _ _]
      refine ⟨fun hv => ⟨hv, ?_⟩, And.left⟩
      rintro rfl
      obtain ⟨h1, h2, -⟩ := h.waiter i v hv
      exact hij (h.pids.inj i j (used_of_live h1) (used_of_live hj) (h2.trans hjw.symm))
  · rintro q c - hc rfl
    exact nomatch ha.symm.trans (h.embryo q _ hc).1

theorem inv_procDie (hp : k.thr p = .user) (st : Int) : Inv (procDie k p st) := by
  obtain ⟨i, hi, rfl, ⟨e, -⟩ | ⟨j, hj, e⟩⟩ := procDie_cases h hp st
  · rw [e]; exact inv_died h hi hp st
  · rw [e]; exact inv_wokenAt (inv_died h hi hp st) hj

/-! ### wait4 -/

variable {a : Int}

section

variable (hp : k.thr p = .waiting a)
include hp

/-- Publishing the waiter and blocking in one section. -/
theorem inv_block (hi : procFind k.ptable p = some i) : Inv { k with
      waiter := update k.waiter i (some p)
      thr := update k.thr p (.blocked a) } := by
  obtain ⟨hu, hip⟩ := procFind_some hi
  have hil : (k.ptable.procs i).state = .live := by
    obtain ⟨j, hj, hjp⟩ := h.acts p (by rw [hp]; trivial)
    rw [h.pids.inj i j hu (used_of_live hj) (hip.trans hjp.symm)]
    exact hj
  have hsame : ∀ q s, s ≠ .waiting a → s ≠ .blocked a →
      (update k.thr p (.blocked a) q = s ↔ k.thr q = s) := by
    intro q s h1 h2
    by_cases hq : q = p
    · subst hq
      rw [update_self, hp]
      exact ⟨fun e => absurd e.symm h2, fun e => absurd e.symm h1⟩
    · rw [update_of_ne hq]
  constructor
  case pids => exact h.pids
  case acts =>
    intro q hq
    by_cases hqp : q = p
    · subst hqp; exact h.acts q (by rw [hp]; trivial)
    · simp only [update_of_ne hqp] at hq; exact h.acts q hq
  case waiter =>
    intro j w hw
    simp only at hw ⊢
    by_cases hji : j = i
    · subst hji
      rw [update_self] at hw
      obtain rfl : p = w := Option.some.inj hw
      exact ⟨hil, hip, a, update_self _ _ _⟩
    · rw [update_of_ne hji] at hw
      obtain ⟨h1, h2, b, h3⟩ := h.waiter j w hw
      have hwp : w ≠ p := by rintro rfl; rw [hp] at h3; cases h3
      exact ⟨h1, h2, b, by rw [update_of_ne hwp]; exact h3⟩
  case blocked =>
    intro q b hq
    simp only at hq ⊢
    by_cases hqp : q = p
    · subst hqp; exact ⟨i, hil, hip, update_self _ _ _⟩
    · rw [update_of_ne hqp] at hq
      obtain ⟨j, hj, hjp, hjw⟩ := h.blocked q b hq
      have hji : j ≠ i := by rintro rfl; exact hqp (hjp.symm.trans hip)
      exact ⟨j, hj, hjp, by rw [update_of_ne hji]; exact hjw⟩
  case embryo =>
    intro q c hq
    obtain ⟨h1, h2⟩ := h.embryo q c ((hsame q (.forking c) nofun nofun).mp hq)
    exact ⟨(hsame c .embryo nofun nofun).mpr h1, h2⟩
  case embryo_inj =>
    exact fun q q' c hq hq' => h.embryo_inj q q' c
      ((hsame q (.forking c) nofun nofun).mp hq) ((hsame q' (.forking c) nofun nofun).mp hq')
  case parent =>
    exact fun j hj e => h.parent j hj ((hsame _ .embryo nofun nofun).mp e)
  case parent_lt => exact h.parent_lt
  case unborn =>
    exact fun q hq => (hsame q .none nofun nofun).mpr (h.unborn q hq)
  case init_born =>
    exact fun e => h.init_born ((hsame _ .embryo nofun nofun).mp e)

/-- One pass of the `wait4` loop: the call goes on to return, to collect a zombie, or to block
with the waiter published, the last only when no matching child is a zombie. -/
theorem wait4Section_cases :
    (∃ st, Plain st ∧ wait4Section k p a = { k with thr := update k.thr p st }) ∨
      ∃ i, procFind k.ptable p = some i ∧ (procWaitFind k.ptable p a).1 = procWaitBlock ∧
        wait4Section k p a =
          { k with
            waiter := update k.waiter i (some p)
            thr := update k.thr p (.blocked a) } := by
  unfold wait4Section
  simp only
  split_ifs with h1 h2
  · exact Or.inl ⟨.user, trivial, rfl⟩
  · exact Or.inl ⟨.reaping (procWaitFind k.ptable p a).1, trivial, rfl⟩
  · right
    obtain ⟨i, hi, hip⟩ := h.acts p (by rw [hp]; trivial)
    have hf := procFind_eq h.pids (used_of_live hi)
    rw [hip] at hf
    refine ⟨i, hf, ?_, by rw [hf]⟩
    rcases procWaitFind_cases h.pids p a with h3 | h3 | h3
    · exact absurd h3 h2
    · exact h3
    · exact absurd h3 h1

theorem inv_wait4Section : Inv (wait4Section k p a) := by
  rcases wait4Section_cases h hp with ⟨st, hst, e⟩ | ⟨i, hi, -, e⟩
  · rw [e]; exact h.setThr (by rw [hp]; trivial) hst
  · rw [e]; exact inv_block h hp hi

end

theorem inv_procReap (r : Int) : Inv { k with ptable := procReap k.ptable r } := by
  rcases procReap_cases k.ptable r with e | ⟨i, hz, -, e⟩
  · rw [e]; exact h
  rw [e]
  refine h.quiet (M := fun _ => False) ⟨pidsOk_reaped h.pids i, rfl, fun _ _ => rfl, nofun, nofun, nofun,
    fun _ _ => ⟨fun hw => ⟨hw, id⟩, And.left⟩, fun j hj _ => ?_, fun _ _ _ _ => id, fun j hj => ?_,
    fun j hj => ?_⟩
  · have hji : j ≠ i := by rintro rfl; rw [hz] at hj; cases hj
    simp only [reaped_ne _ hji]
    exact ⟨hj, trivial⟩
  · obtain ⟨hji, hu⟩ := reaped_used hj
    simp only [reaped_ne _ hji]
    exact h.parent_lt j hu
  · obtain ⟨hji, hu⟩ := reaped_used hj
    simp only [reaped_ne _ hji]
    exact .inr ⟨hu, trivial⟩

theorem inv_wait4Reap (hp : k.thr p = .reaping r) : Inv (wait4Reap k p r) :=
  Inv.setThr (k := { k with ptable := procReap k.ptable r }) (inv_procReap h r)
    (by simp only [hp]; trivial) trivial

end

/-! ## Every interleaving keeps the invariant -/

variable {l : Label}

theorem inv_step (h : Inv k) (hs : Step k l k') : Inv k' := by
  cases hs with
  | fork p hp => exact inv_forkAlloc h hp
  | forkFail p c hp => exact inv_forkFail h hp
  | forkLaunch p c hp => exact inv_forkLaunch h hp
  | exit p st hp => exact inv_procDie h hp st
  | wait4 p a hp _ => exact h.setThr (by rw [hp]; trivial) trivial
  | pass p a hp => exact inv_wait4Section h hp
  | reap p r hp => exact inv_wait4Reap h hp

/-! ## The property, step by step -/

/-- A step that blocks nobody new and makes no new zombie keeps the property. -/
theorem NoLostZombie.mono (h : NoLostZombie k)
    (hthr : ∀ q a, k'.thr q = .blocked a → k.thr q = .blocked a)
    (hz : ∀ i, (k'.ptable.procs i).state = .zombie → k'.ptable.procs i = k.ptable.procs i) :
    NoLostZombie k' := by
  intro q a hq i hi
  have e := hz i hi
  rw [e] at hi ⊢
  exact h q a (hthr q a hq) i hi

section

variable (hI : Inv k) (h : NoLostZombie k)
include hI h

end

end Hallucinate.Proc
