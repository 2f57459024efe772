import Hallucinate.Lib.Trans
import Hallucinate.Proc.Core
import Mathlib.Data.Fintype.Card

/-!
# Runs of the process table (`kernel/proc/proc_core.c`)

The table as a machine of its own: a step is one call of `proc_alloc`, `proc_exit`,
`proc_wait_find` or `proc_reap`, with any arguments that the callers of the table may give
(`Admissible`): the first process is init and has no parent, every later one is allocated by a live
process, and init does not exit. Calls on a pid in the wrong state are steps too.

**`table_sound`**: in every state of such a run the pids of used slots are positive and pairwise
distinct, no pid was handed out twice, `nprocs` counts the used slots, every process other than
init has a live parent, and the status that `proc_wait_find` reports for a zombie is that of the
first `proc_exit` that took effect on its pid. `Sound` is the invariant behind it; what it says of
the labels so far is that exits are of pids handed out, that no live pid has one, and that the first
one of a zombie's pid gave the status in its slot.
-/

namespace Hallucinate.Proc

open Lib List

/-- `pid` is live: what `proc_exit` checks before it does anything. -/
def alive (pt : ProcTable) (pid : Int) : Bool :=
  match procFind pt pid with
  | some i => (pt.procs i).state == .live
  | none => false

/-- A call and what it answered. -/
inductive Event
  | alloc (ppid pid : Int)
  /-- `took`: the process was live, the call made it a zombie -/
  | exit (pid status : Int) (took : Bool)
  | waitFind (ppid pidArg pid : Int) (status : Option Int)
  | reap (pid : Int)
  deriving DecidableEq

/-- One call on the table. -/
inductive TableStep : ProcTable → Event → ProcTable → Prop
  | alloc (pt : ProcTable) (ppid : Int) :
    TableStep pt (.alloc ppid (procAlloc pt ppid).1) (procAlloc pt ppid).2
  | exit (pt : ProcTable) (pid status : Int) :
    TableStep pt (.exit pid status (alive pt pid)) (procExit pt pid status).2
  | waitFind (pt : ProcTable) (ppid pidArg : Int) :
    TableStep pt (.waitFind ppid pidArg (procWaitFind pt ppid pidArg).1
      (procWaitFind pt ppid pidArg).2) pt
  | reap (pt : ProcTable) (pid : Int) : TableStep pt (.reap pid) (procReap pt pid)

/-- What the callers of the table promise. `next_pid` is that of init until the first allocation. -/
def Admissible (pt : ProcTable) : Event → Prop
  | .alloc ppid _ => if pt.nextPid = procInitPid then ppid = 0 else alive pt ppid = true
  | .exit pid _ took => ¬(pid = procInitPid ∧ took = true)
  | .waitFind _ _ _ _ => True
  | .reap _ => True

instance (pt : ProcTable) : (e : Event) → Decidable (Admissible pt e)
  | .alloc ppid _ =>
    inferInstanceAs (Decidable (if pt.nextPid = procInitPid then ppid = 0 else alive pt ppid = true))
  | .exit pid _ took => inferInstanceAs (Decidable (¬(pid = procInitPid ∧ took = true)))
  | .waitFind _ _ _ _ => inferInstanceAs (Decidable True)
  | .reap _ => inferInstanceAs (Decidable True)

/-- A step that keeps the promise. -/
def Called (pt : ProcTable) (e : Event) (pt' : ProcTable) : Prop :=
  TableStep pt e pt' ∧ Admissible pt e

/-- The pid that a call handed out. -/
def Event.issued : Event → Option Int
  | .alloc _ pid => if pid = 0 then none else some pid
  | _ => none

/-- The pid and status of an exit that took effect. -/
def Event.exited : Event → Option (Int × Int)
  | .exit pid status true => some (pid, status)
  | _ => none

def Event.isAlloc : Event → Bool
  | .alloc _ _ => true
  | _ => false

/-- The pids handed out, in time order. -/
def issued (es : List Event) : List Int := es.filterMap Event.issued

/-- The exits that took effect, in time order. -/
def exits (es : List Event) : List (Int × Int) := es.filterMap Event.exited

/-- The slots in use. -/
def usedSlots (pt : ProcTable) : Finset (Fin procMax) :=
  Finset.univ.filter fun i => (pt.procs i).state ≠ .unused

/-- What holds of the labels so far and the table they led to. -/
structure Sound (es : List Event) (pt : ProcTable) : Prop where
  pids : PidsOk pt
  issued_lt : ∀ p ∈ issued es, p < pt.nextPid
  issued_nodup : (issued es).Nodup
  next : pt.nextPid ≤ 1 + (es.filter Event.isAlloc).length
  count : pt.nprocs = (usedSlots pt).card
  /-- Init is there from the first allocation on. -/
  init : pt.nextPid ≠ procInitPid → alive pt procInitPid = true
  empty : pt.nextPid = procInitPid → ∀ i, ¬Used pt i
  parent : ∀ i, Used pt i → (pt.procs i).pid ≠ procInitPid → alive pt (pt.procs i).ppid = true
  exits_lt : ∀ x ∈ exits es, x.1 < pt.nextPid
  live_exits : ∀ i, (pt.procs i).state = .live → (exits es).lookup (pt.procs i).pid = none
  zombie_exits : ∀ i, (pt.procs i).state = .zombie →
    (exits es).lookup (pt.procs i).pid = some (pt.procs i).exitStatus

variable {es : List Event} {pt pt' : ProcTable}

/-! ## Who is alive -/

variable {p : Int}

theorem alive_iff (hp : PidsOk pt) :
    alive pt p = true ↔ ∃ i, (pt.procs i).state = .live ∧ (pt.procs i).pid = p := by
  constructor
  · intro h
    unfold alive at h
    split at h
    · rename_i i hi
      exact ⟨i, by simpa using h, (procFind_some hi).2⟩
    · exact absurd h (by decide)
  · rintro ⟨i, hl, rfl⟩
    have hu : Used pt i := by unfold Used; rw [hl]; decide
    unfold alive
    rw [procFind_eq hp hu]
    simpa using hl

/-- A call of `proc_exit` on a pid that is not live does nothing. -/
theorem procExit_of_not_alive {pid : Int} (h : alive pt pid = false) (status : Int) :
    procExit pt pid status = (0, pt) := by
  unfold alive at h
  unfold procExit
  split
  · rfl
  · rename_i i hi
    rw [hi] at h
    rw [if_pos (by simpa using h)]

variable {i : Fin procMax}

theorem alive_filled (hp : PidsOk pt) (hi : (pt.procs i).state = .unused) (ppid : Int)
    (h : alive pt p = true) : alive (filled pt i ppid) p = true := by
  obtain ⟨j, hl, hj⟩ := (alive_iff hp).mp h
  have hne : j ≠ i := by
    rintro rfl
    rw [hi] at hl
    exact absurd hl (by decide)
  exact (alive_iff (pidsOk_filled hp i ppid)).mpr ⟨j, by rw [filled_ne pt hne]; exact ⟨hl, hj⟩⟩

theorem alive_exited (hp : PidsOk pt) (hi : (pt.procs i).state = .live) (status : Int)
    (h : alive pt p = true) (hp' : p ≠ (pt.procs i).pid) : alive (exited pt i status) p = true := by
  obtain ⟨j, hl, hj⟩ := (alive_iff hp).mp h
  have hne : j ≠ i := by
    rintro rfl
    exact hp' hj.symm
  refine (alive_iff (pidsOk_exited hp hi status)).mpr ⟨j, ?_, ?_⟩
  · rw [exited_state, if_neg hne]
    exact hl
  · rw [exited_pid]
    exact hj

theorem alive_reaped (hp : PidsOk pt) (hi : (pt.procs i).state = .zombie) (h : alive pt p = true) :
    alive (reaped pt i) p = true := by
  obtain ⟨j, hl, hj⟩ := (alive_iff hp).mp h
  have hne : j ≠ i := by
    rintro rfl
    rw [hi] at hl
    exact absurd hl (by decide)
  exact (alive_iff (pidsOk_reaped hp i)).mpr ⟨j, by rw [reaped_ne pt hne]; exact ⟨hl, hj⟩⟩

/-! ## Counting slots -/

theorem card_usedSlots_filled (hi : (pt.procs i).state = .unused) (ppid : Int) :
    (usedSlots (filled pt i ppid)).card = (usedSlots pt).card + 1 := by
  have hnot : i ∉ usedSlots pt := by
    simp only [usedSlots, Finset.mem_filter, Finset.mem_univ, true_and]
    exact fun h => h hi
  have hins : usedSlots (filled pt i ppid) = insert i (usedSlots pt) := by
    ext j
    simp only [usedSlots, Finset.mem_filter, Finset.mem_univ, true_and, Finset.mem_insert]
    by_cases hj : j = i
    · subst hj
      rw [filled_self]
      simp
    · rw [filled_ne pt hj]
      simp [hj]
  rw [hins, Finset.card_insert_of_notMem hnot]

theorem usedSlots_exited (hi : (pt.procs i).state = .live) (status : Int) :
    usedSlots (exited pt i status) = usedSlots pt := by
  ext j
  simp only [usedSlots, Finset.mem_filter, Finset.mem_univ, true_and]
  exact exited_used hi

theorem card_usedSlots_reaped (hi : (pt.procs i).state = .zombie) :
    (usedSlots pt).card = (usedSlots (reaped pt i)).card + 1 := by
  have hnot : i ∉ usedSlots (reaped pt i) := by
    simp only [usedSlots, Finset.mem_filter, Finset.mem_univ, true_and, reaped_self]
    exact fun h => h rfl
  have hins : usedSlots pt = insert i (usedSlots (reaped pt i)) := by
    ext j
    simp only [usedSlots, Finset.mem_filter, Finset.mem_univ, true_and, Finset.mem_insert]
    by_cases hj : j = i
    · subst hj
      simp [hi]
    · rw [reaped_ne pt hj]
      simp [hj]
  rw [hins, Finset.card_insert_of_notMem hnot]

/-! ## One call -/

theorem Sound.start : Sound [] procTableInit where
  pids := ⟨fun _ h => absurd rfl h, fun _ h => absurd rfl h, fun _ _ h => absurd rfl h,
    by decide⟩
  issued_lt _ h := absurd h not_mem_nil
  issued_nodup := nodup_nil
  next := le_rfl
  count := by
    have hempty : usedSlots procTableInit = ∅ := Finset.filter_eq_empty_iff.mpr fun _ _ h => h rfl
    rw [hempty]
    rfl
  init h := absurd rfl h
  empty _ _ h := h rfl
  parent _ h := absurd rfl h
  exits_lt _ h := absurd h not_mem_nil
  live_exits _ h := ProcState.noConfusion h
  zombie_exits _ h := ProcState.noConfusion h

/-- A call that neither hands out a pid nor ends a process leaves no trace in the history. -/
theorem Sound.silent (h : Sound es pt) {e : Event} (h1 : e.issued = none) (h2 : e.exited = none) :
    Sound (es ++ [e]) pt := by
  have hi : issued (es ++ [e]) = issued es := by
    simp [issued, filterMap_append, h1]
  have he : exits (es ++ [e]) = exits es := by
    simp [exits, filterMap_append, h2]
  refine { h with issued_lt := ?_, issued_nodup := ?_, next := ?_, exits_lt := ?_,
                  live_exits := ?_, zombie_exits := ?_ }
  · rw [hi]; exact h.issued_lt
  · rw [hi]; exact h.issued_nodup
  · have hlen : (es.filter Event.isAlloc).length ≤ ((es ++ [e]).filter Event.isAlloc).length := by
      rw [filter_append, length_append]
      exact Nat.le_add_right _ _
    have := h.next
    omega
  · rw [he]; exact h.exits_lt
  · rw [he]; exact h.live_exits
  · rw [he]; exact h.zombie_exits

/-- No exit of a pid that was not handed out yet. -/
theorem Sound.lookup_fresh (h : Sound es pt) : (exits es).lookup pt.nextPid = none := by
  rw [lookup_eq_none_iff]
  intro x hx
  have := h.exits_lt x hx
  simp only [ne_eq, bne_iff_ne]
  omega

theorem Sound.alloc (h : Sound es pt) (hi : (pt.procs i).state = .unused) {ppid : Int}
    (hadm : Admissible pt (.alloc ppid pt.nextPid)) :
    Sound (es ++ [.alloc ppid pt.nextPid]) (filled pt i ppid) := by
  have hpos : 0 < pt.nextPid := h.pids.next
  have hnz : pt.nextPid ≠ 0 := by omega
  have hiss : issued (es ++ [.alloc ppid pt.nextPid]) = issued es ++ [pt.nextPid] := by
    simp [issued, filterMap_append, Event.issued, hnz]
  have hex : exits (es ++ [.alloc ppid pt.nextPid]) = exits es := by
    simp [exits, filterMap_append, Event.exited]
  have hnext : (filled pt i ppid).nextPid = pt.nextPid + 1 := rfl
  have hpids := pidsOk_filled h.pids i ppid
  have hself : alive (filled pt i ppid) pt.nextPid = true :=
    (alive_iff hpids).mpr ⟨i, by rw [filled_self]; exact ⟨rfl, rfl⟩⟩
  refine ⟨hpids, ?_, ?_, ?_, ?_, ?_, ?_, ?_, ?_, ?_, ?_⟩
  · intro p hp
    rw [hiss, mem_append, mem_singleton] at hp
    rw [hnext]
    rcases hp with hp | rfl
    · have := h.issued_lt p hp
      omega
    · exact Int.lt_succ _
  · rw [hiss]
    refine h.issued_nodup.append (nodup_singleton _) fun p hp hp' => ?_
    rw [mem_singleton] at hp'
    have := h.issued_lt p hp
    omega
  · rw [hnext, filter_append, length_append]
    have hone : ([Event.alloc ppid pt.nextPid].filter Event.isAlloc).length = 1 := rfl
    have := h.next
    omega
  · rw [card_usedSlots_filled hi]
    show pt.nprocs + 1 = _
    rw [h.count]
    push_cast
    rfl
  · intro _
    by_cases hn : pt.nextPid = procInitPid
    · rw [← hn]
      exact hself
    · exact alive_filled h.pids hi ppid (h.init hn)
  · intro hn
    rw [hnext] at hn
    unfold procInitPid at hn
    omega
  · intro j hj hne
    rcases filled_used hj with rfl | ⟨hji, hu⟩
    · rw [filled_self] at hne ⊢
      have hlive : if pt.nextPid = procInitPid then ppid = 0 else alive pt ppid = true := hadm
      rw [if_neg hne] at hlive
      exact alive_filled h.pids hi ppid hlive
    · rw [filled_ne pt hji] at hne ⊢
      exact alive_filled h.pids hi ppid (h.parent j hu hne)
  · rw [hex, hnext]
    intro x hx
    have := h.exits_lt x hx
    omega
  · rw [hex]
    intro j hl
    by_cases hj : j = i
    · subst hj
      rw [filled_self]
      exact h.lookup_fresh
    · rw [filled_ne pt hj] at hl ⊢
      exact h.live_exits j hl
  · rw [hex]
    intro j hz
    by_cases hj : j = i
    · subst hj
      rw [filled_self] at hz
      exact ProcState.noConfusion hz
    · rw [filled_ne pt hj] at hz ⊢
      exact h.zombie_exits j hz

/-- What `lookup` finds after one more pair at the end. -/
theorem lookup_append_singleton {l : List (Int × Int)} {q st : Int} :
    (l ++ [(q, st)]).lookup p = (l.lookup p).or (if p = q then some st else none) := by
  rw [lookup_append]
  by_cases h : p = q
  · simp [h]
  · have hb : (p == q) = false := beq_eq_false_iff_ne.mpr h
    simp [lookup_cons, hb, h]

theorem Sound.exit (h : Sound es pt) (hi : (pt.procs i).state = .live) {status : Int}
    (hne : (pt.procs i).pid ≠ procInitPid) :
    Sound (es ++ [.exit (pt.procs i).pid status true]) (exited pt i status) := by
  have hui : Used pt i := by unfold Used; rw [hi]; decide
  have hiss : issued (es ++ [.exit (pt.procs i).pid status true]) = issued es := by
    simp [issued, filterMap_append, Event.issued]
  have hex : exits (es ++ [.exit (pt.procs i).pid status true])
      = exits es ++ [((pt.procs i).pid, status)] := by
    simp [exits, filterMap_append, Event.exited]
  have hpids := pidsOk_exited h.pids hi status
  have hnext : (exited pt i status).nextPid = pt.nextPid := rfl
  -- no process but the dying one loses its pid, so a parent other than it stays live
  have hstart : pt.nextPid ≠ procInitPid := fun hn => h.empty hn i hui
  refine ⟨hpids, ?_, ?_, ?_, ?_, ?_, ?_, ?_, ?_, ?_, ?_⟩
  · rw [hiss]; exact h.issued_lt
  · rw [hiss]; exact h.issued_nodup
  · rw [hnext, filter_append, length_append]
    have := h.next
    omega
  · rw [usedSlots_exited hi]
    exact h.count
  · intro _
    exact alive_exited h.pids hi status (h.init hstart) hne.symm
  · intro hn
    exact absurd hn hstart
  · intro j hj hj1
    rw [exited_pid] at hj1
    have hu := (exited_used hi).mp hj
    rw [exited_ppid hi hu]
    split
    · exact alive_exited h.pids hi status (h.init hstart) hne.symm
    · rename_i hpp
      exact alive_exited h.pids hi status (h.parent j hu hj1) hpp
  · rw [hex, hnext]
    intro x hx
    rw [mem_append, mem_singleton] at hx
    rcases hx with hx | rfl
    · exact h.exits_lt x hx
    · exact h.pids.fresh i hui
  · rw [hex]
    intro j hl
    rw [exited_state] at hl
    split at hl
    · exact ProcState.noConfusion hl
    · rename_i hji
      have hpid : (pt.procs j).pid ≠ (pt.procs i).pid := fun he =>
        hji (h.pids.inj j i (by unfold Used; rw [hl]; decide) hui he)
      rw [exited_pid, lookup_append_singleton, h.live_exits j hl, if_neg hpid]
      rfl
  · rw [hex]
    intro j hz
    rw [exited_pid, lookup_append_singleton]
    by_cases hji : j = i
    · subst hji
      rw [h.live_exits j hi, if_pos rfl, exited_exitStatus, if_pos rfl]
      rfl
    · rw [exited_state, if_neg hji] at hz
      rw [h.zombie_exits j hz, exited_exitStatus, if_neg hji]
      rfl

theorem Sound.reap (h : Sound es pt) (hi : (pt.procs i).state = .zombie) :
    Sound es (reaped pt i) := by
  have hui : Used pt i := by unfold Used; rw [hi]; decide
  refine ⟨pidsOk_reaped h.pids i, h.issued_lt, h.issued_nodup, h.next, ?_, ?_, ?_, ?_, h.exits_lt,
    ?_, ?_⟩
  · have hcard := card_usedSlots_reaped hi
    have := h.count
    show pt.nprocs - 1 = _
    omega
  · exact fun hn => alive_reaped h.pids hi (h.init hn)
  · exact fun hn => absurd hui (h.empty hn i)
  · intro j hj hj1
    obtain ⟨hji, hu⟩ := reaped_used hj
    rw [reaped_ne pt hji] at hj1 ⊢
    exact alive_reaped h.pids hi (h.parent j hu hj1)
  · intro j hl
    by_cases hji : j = i
    · subst hji
      rw [reaped_self] at hl
      exact ProcState.noConfusion hl
    · rw [reaped_ne pt hji] at hl ⊢
      exact h.live_exits j hl
  · intro j hz
    by_cases hji : j = i
    · subst hji
      rw [reaped_self] at hz
      exact ProcState.noConfusion hz
    · rw [reaped_ne pt hji] at hz ⊢
      exact h.zombie_exits j hz

theorem Sound.step (h : Sound es pt) {e : Event} (hc : Called pt e pt') : Sound (es ++ [e]) pt' := by
  obtain ⟨hstep, hadm⟩ := hc
  cases hstep with
  | alloc ppid =>
    rcases procAlloc_cases pt ppid with he | ⟨i, hi, he⟩
    · rw [he]
      exact h.silent rfl rfl
    · rw [he] at hadm ⊢
      exact h.alloc hi hadm
  | exit pid status =>
    cases ha : alive pt pid with
    | false =>
      rw [procExit_of_not_alive ha]
      exact h.silent rfl rfl
    | true =>
      obtain ⟨i, hi, rfl⟩ := (alive_iff h.pids).mp ha
      rw [procExit_live h.pids hi]
      rw [ha] at hadm
      exact h.exit hi fun hinit => hadm ⟨hinit, rfl⟩
  | waitFind ppid pidArg => exact h.silent rfl rfl
  | reap pid =>
    rcases procReap_cases pt pid with he | ⟨i, hi, -, he⟩
    · rw [he]
      exact h.silent rfl rfl
    · rw [he]
      exact (h.reap hi).silent rfl rfl

/-! ## Runs -/

theorem Sound.run (hrun : Run Called procTableInit es pt) : Sound es pt :=
  hrun.invariant Sound.start fun h hc => h.step hc

/-- A zombie that `proc_wait_find` reports is one of the table, with the status in its slot. -/
theorem procWaitFind_status {ppid pidArg pid st : Int}
    (h : procWaitFind pt ppid pidArg = (pid, some st)) :
    ∃ i, (pt.procs i).state = .zombie ∧ (pt.procs i).pid = pid ∧ (pt.procs i).exitStatus = st := by
  unfold procWaitFind at h
  split at h
  · rename_i i hi
    have hz := firstSlot_some hi
    simp only [Bool.and_eq_true, beq_iff_eq] at hz
    simp only [Prod.mk.injEq, Option.some.injEq] at h
    exact ⟨i, hz.2, h.1, h.2⟩
  · split at h <;> exact absurd (congrArg Prod.snd h) (by simp)

/-- **The process table is sound.** After any calls on a fresh table of which the first allocates
init, later ones allocate for a live parent and none ends init: pids in use are positive and
distinct, none was handed out twice, `nprocs` is exact, every process but init has a live parent,
and a zombie is reported with the status of the first exit that took effect on its pid. While there
are fewer than `2 ^ 31 - 2` allocations `next_pid` is an `int`. -/
theorem table_sound (hrun : Run Called procTableInit es pt)
    (hfew : (es.filter Event.isAlloc).length < 2 ^ 31 - 2) :
    (∀ i, Used pt i → 0 < (pt.procs i).pid) ∧
    (∀ i j, Used pt i → Used pt j → (pt.procs i).pid = (pt.procs j).pid → i = j) ∧
    (issued es).Nodup ∧
    pt.nprocs = (usedSlots pt).card ∧
    (∀ i, Used pt i → (pt.procs i).pid ≠ procInitPid →
      ∃ j, (pt.procs j).state = .live ∧ (pt.procs j).pid = (pt.procs i).ppid) ∧
    (∀ ppid pidArg pid st, procWaitFind pt ppid pidArg = (pid, some st) →
      (exits es).lookup pid = some st) ∧
    pt.nextPid < 2 ^ 31 - 1 := by
  have h := Sound.run hrun
  refine ⟨h.pids.pos, h.pids.inj, h.issued_nodup, h.count, ?_, ?_, ?_⟩
  · exact fun i hu hne => (alive_iff h.pids).mp (h.parent i hu hne)
  · intro ppid pidArg pid st hw
    obtain ⟨i, hz, rfl, rfl⟩ := procWaitFind_status hw
    exact h.zombie_exits i hz
  · have := h.next
    omega

/-- Init's only child exits with status 42. -/
def oneExit : ProcTable := (procExit (procAlloc (procAlloc procTableInit 0).2 1).2 2 42).2

theorem table_sound_oneExit :
    procWaitFind oneExit 1 (-1) = (2, some 42) ∧
      (exits [.alloc 0 1, .alloc 1 2, .exit 2 42 true]).lookup 2 = some 42 ∧
      oneExit.nextPid < 2 ^ 31 - 1 := by
  have hwait : procWaitFind oneExit 1 (-1) = (2, some 42) := by decide
  have h1 : Called procTableInit (.alloc 0 1) (procAlloc procTableInit 0).2 :=
    ⟨TableStep.alloc procTableInit 0, by decide⟩
  have h2 : Called (procAlloc procTableInit 0).2 (.alloc 1 2)
      (procAlloc (procAlloc procTableInit 0).2 1).2 := ⟨TableStep.alloc _ 1, by decide⟩
  have h3 : Called (procAlloc (procAlloc procTableInit 0).2 1).2 (.exit 2 42 true) oneExit :=
    ⟨TableStep.exit _ 2 42, by decide⟩
  have h := table_sound (((Run.nil.snoc h1).snoc h2).snoc h3) (by decide)
  exact ⟨hwait, h.2.2.2.2.2.1 1 (-1) 2 42 hwait, h.2.2.2.2.2.2⟩

end Hallucinate.Proc
