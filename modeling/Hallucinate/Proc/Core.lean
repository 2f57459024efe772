import Mathlib

/-!
# The process table (`kernel/proc/proc_core.c`)

Model of the pure pid/parent/zombie state machine. The table has `PROC_MAX` slots; every loop of
the source scans them in index order and stops at the first hit, which is `List.find?` over
`List.finRange`. `pid` and `next_pid` are C `int`s; they are `Int` here, and a run in which
`next_pid` passes `INT_MAX` (signed overflow, undefined in C) is not modelled.

Results are the entry-wise effects of each operation (`procExit_live`, `procAlloc_cases`), which the
kernel layer (`Proc/Wait.lean`) builds on.
-/

namespace Hallucinate.Proc

open Function

/-- `PROC_MAX`. -/
def procMax : Nat := 64

/-- `PROC_INIT_PID`. -/
def procInitPid : Int := 1

/-- `PROC_WAIT_BLOCK`. -/
def procWaitBlock : Int := 0

/-- `PROC_WAIT_NOCHILD`. -/
def procWaitNochild : Int := -1

/-- `enum proc_state`. -/
inductive ProcState
  | unused
  | live
  | zombie
  deriving DecidableEq, Repr

/-- `struct proc_entry`. -/
structure ProcEntry where
  pid : Int
  ppid : Int
  state : ProcState
  exitStatus : Int
  deriving DecidableEq, Repr

/-- `struct proc_table`. -/
structure ProcTable where
  procs : Fin procMax → ProcEntry
  nextPid : Int
  nprocs : Int

/-- An unused slot, as `proc_table_init` and `proc_reap` leave it. -/
def emptyEntry : ProcEntry := ⟨0, 0, .unused, 0⟩

/-- `proc_table_init`. -/
def procTableInit : ProcTable := ⟨fun _ => emptyEntry, procInitPid, 0⟩

/-- The first slot satisfying `f`, in the order the C loops visit them. -/
def firstSlot (f : Fin procMax → Bool) : Option (Fin procMax) :=
  (List.finRange procMax).find? f

/-- `proc_alloc`: the fresh pid (0 when the table is full) and the new table. -/
def procAlloc (pt : ProcTable) (ppid : Int) : Int × ProcTable :=
  match firstSlot fun i => (pt.procs i).state == .unused with
  | some i =>
    (pt.nextPid,
      ⟨update pt.procs i ⟨pt.nextPid, ppid, .live, 0⟩, pt.nextPid + 1, pt.nprocs + 1⟩)
  | none => (0, pt)

/-- `proc_find`: the slot of `pid`, if a live or zombie process has it. -/
def procFind (pt : ProcTable) (pid : Int) : Option (Fin procMax) :=
  if pid ≤ 0 then none
  else firstSlot fun i => (pt.procs i).state != .unused && (pt.procs i).pid == pid

/-- The reparenting loop of `proc_exit`: children of `pid` become init's. -/
def reparent (procs : Fin procMax → ProcEntry) (pid : Int) : Fin procMax → ProcEntry :=
  fun i =>
    if (procs i).state ≠ .unused ∧ (procs i).ppid = pid then { procs i with ppid := procInitPid }
    else procs i

/-- `proc_exit`: the ppid it returns (0 for a pid that is not live) and the new table. -/
def procExit (pt : ProcTable) (pid status : Int) : Int × ProcTable :=
  match procFind pt pid with
  | none => (0, pt)
  | some i =>
    if (pt.procs i).state ≠ .live then (0, pt)
    else
      let marked := update pt.procs i
        { pt.procs i with state := .zombie, exitStatus := status }
      let procs := reparent marked pid
      ((procs i).ppid, { pt with procs := procs })

/-- The slot is a child of `ppid` that `pid_arg` selects. -/
def waitSelects (e : ProcEntry) (ppid pidArg : Int) : Bool :=
  e.state != .unused && e.ppid == ppid && !(decide (0 < pidArg) && e.pid != pidArg)

/-- `proc_wait_find`: the pid of a reapable zombie, `PROC_WAIT_BLOCK` or `PROC_WAIT_NOCHILD`,
with the zombie's status (`*status_out`). -/
def procWaitFind (pt : ProcTable) (ppid pidArg : Int) : Int × Option Int :=
  match firstSlot fun i => waitSelects (pt.procs i) ppid pidArg && (pt.procs i).state == .zombie with
  | some i => ((pt.procs i).pid, some (pt.procs i).exitStatus)
  | none =>
    match firstSlot fun i => waitSelects (pt.procs i) ppid pidArg with
    | some _ => (procWaitBlock, none)
    | none => (procWaitNochild, none)

/-- `proc_reap`. -/
def procReap (pt : ProcTable) (pid : Int) : ProcTable :=
  match procFind pt pid with
  | none => pt
  | some i =>
    if (pt.procs i).state ≠ .zombie then pt
    else { pt with procs := update pt.procs i emptyEntry, nprocs := pt.nprocs - 1 }

/-! ## Slots -/

variable {i : Fin procMax}

variable {f : Fin procMax → Bool}

theorem firstSlot_some (h : firstSlot f = some i) : f i = true :=
  List.find?_some h

theorem firstSlot_none (h : firstSlot f = none) (i : Fin procMax) : f i = false := by
  have := List.find?_eq_none.mp h i (List.mem_finRange i)
  simpa using this

/-- A slot in use. -/
def Used (pt : ProcTable) (i : Fin procMax) : Prop := (pt.procs i).state ≠ .unused

/-- Pids of used slots are positive, below `next_pid` and pairwise distinct. -/
structure PidsOk (pt : ProcTable) : Prop where
  pos : ∀ i, Used pt i → 0 < (pt.procs i).pid
  fresh : ∀ i, Used pt i → (pt.procs i).pid < pt.nextPid
  inj : ∀ i j, Used pt i → Used pt j → (pt.procs i).pid = (pt.procs j).pid → i = j
  next : 0 < pt.nextPid

variable {pt : ProcTable}

theorem procFind_some {pid : Int} (h : procFind pt pid = some i) :
    Used pt i ∧ (pt.procs i).pid = pid := by
  unfold procFind at h
  split at h
  · exact absurd h (by simp)
  · have := firstSlot_some h
    simp only [Bool.and_eq_true, bne_iff_ne, ne_eq, beq_iff_eq] at this
    exact this

/-- With distinct pids, `proc_find` returns the slot that holds the pid. -/
theorem procFind_eq (hp : PidsOk pt) (hu : Used pt i) : procFind pt (pt.procs i).pid = some i := by
  have hpos := hp.pos i hu
  cases h : procFind pt (pt.procs i).pid with
  | none =>
    unfold procFind at h
    rw [if_neg (by omega)] at h
    have := firstSlot_none h i
    simp only [Bool.and_eq_false_iff, bne_eq_false_iff_eq, beq_eq_false_iff_ne, ne_eq,
      not_true_eq_false, or_false] at this
    exact absurd this hu
  | some j =>
    obtain ⟨hj, he⟩ := procFind_some h
    rw [hp.inj j i hj hu he]

/-! ## What each operation does to the slots -/

/-- `proc_alloc` fails without effect, or fills an unused slot with the next pid. -/
theorem procAlloc_cases (pt : ProcTable) (ppid : Int) :
    procAlloc pt ppid = (0, pt) ∨
      ∃ i, (pt.procs i).state = .unused ∧ procAlloc pt ppid =
        (pt.nextPid, ⟨update pt.procs i ⟨pt.nextPid, ppid, .live, 0⟩,
          pt.nextPid + 1, pt.nprocs + 1⟩) := by
  unfold procAlloc
  split
  · rename_i i h
    exact Or.inr ⟨i, by simpa using firstSlot_some h, rfl⟩
  · exact Or.inl rfl

/-- The table after `proc_alloc` filled slot `i`. -/
def filled (pt : ProcTable) (i : Fin procMax) (ppid : Int) : ProcTable :=
  ⟨update pt.procs i ⟨pt.nextPid, ppid, .live, 0⟩, pt.nextPid + 1, pt.nprocs + 1⟩

theorem filled_self (pt : ProcTable) (i : Fin procMax) (ppid : Int) :
    (filled pt i ppid).procs i = ⟨pt.nextPid, ppid, .live, 0⟩ := by
  simp only [filled, update_self]

variable {j : Fin procMax}

theorem filled_ne (pt : ProcTable) (h : j ≠ i) (ppid : Int) :
    (filled pt i ppid).procs j = pt.procs j := by
  simp only [filled, update_of_ne h]

variable {ppid : Int}

theorem filled_used (h : Used (filled pt i ppid) j) : j = i ∨ (j ≠ i ∧ Used pt j) := by
  by_cases hj : j = i
  · exact Or.inl hj
  · unfold Used at h ⊢
    rw [filled_ne pt hj] at h
    exact Or.inr ⟨hj, h⟩

theorem pidsOk_filled (hp : PidsOk pt) (i : Fin procMax) (ppid : Int) :
    PidsOk (filled pt i ppid) where
  pos j hj := by
    rcases filled_used hj with rfl | ⟨hne, hu⟩
    · rw [filled_self]; exact hp.next
    · rw [filled_ne pt hne]; exact hp.pos j hu
  fresh j hj := by
    show _ < pt.nextPid + 1
    rcases filled_used hj with rfl | ⟨hne, hu⟩
    · rw [filled_self]; exact Int.lt_succ _
    · rw [filled_ne pt hne]; have := hp.fresh j hu; omega
  inj j l hj hl h := by
    rcases filled_used hj with rfl | ⟨hj1, hj2⟩ <;> rcases filled_used hl with rfl | ⟨hl1, hl2⟩
    · rfl
    · rw [filled_self, filled_ne pt hl1] at h
      have := hp.fresh l hl2
      simp only at h; omega
    · rw [filled_self, filled_ne pt hj1] at h
      have := hp.fresh j hj2
      simp only at h; omega
    · rw [filled_ne pt hj1, filled_ne pt hl1] at h
      exact hp.inj j l hj2 hl2 h
  next := by show 0 < pt.nextPid + 1; have := hp.next; omega

section

variable (procs : Fin procMax → ProcEntry) (pid : Int) (i : Fin procMax)

@[simp] theorem reparent_state : (reparent procs pid i).state = (procs i).state := by
  unfold reparent; split <;> rfl

@[simp] theorem reparent_pid : (reparent procs pid i).pid = (procs i).pid := by
  unfold reparent; split <;> rfl

@[simp] theorem reparent_exitStatus : (reparent procs pid i).exitStatus = (procs i).exitStatus := by
  unfold reparent; split <;> rfl

end

theorem reparent_ppid {procs : Fin procMax → ProcEntry} {pid : Int} (hu : (procs i).state ≠ .unused) :
    
    (reparent procs pid i).ppid = if (procs i).ppid = pid then procInitPid else (procs i).ppid := by
  unfold reparent
  by_cases h : (procs i).ppid = pid
  · rw [if_pos ⟨hu, h⟩, if_pos h]
  · rw [if_neg (fun hc => h hc.2), if_neg h]

/-- The table after a live `pid` at slot `i` exits. -/
def exited (pt : ProcTable) (i : Fin procMax) (status : Int) : ProcTable :=
  { pt with procs := reparent (update pt.procs i
      { pt.procs i with state := .zombie, exitStatus := status }) (pt.procs i).pid }

theorem procExit_live (hp : PidsOk pt) (hl : (pt.procs i).state = .live) (status : Int) :
    procExit pt (pt.procs i).pid status =
      (((exited pt i status).procs i).ppid, exited pt i status) := by
  have hu : Used pt i := by unfold Used; rw [hl]; decide
  unfold procExit
  rw [procFind_eq hp hu]
  simp only [hl, ne_eq, not_true_eq_false, if_false]
  rfl

theorem exited_pid (pt : ProcTable) (i j : Fin procMax) (st : Int) :
    ((exited pt i st).procs j).pid = (pt.procs j).pid := by
  unfold exited
  rw [reparent_pid]
  by_cases h : j = i
  · subst h; rw [update_self]
  · rw [update_of_ne h]

theorem exited_state (pt : ProcTable) (i j : Fin procMax) (st : Int) :
    ((exited pt i st).procs j).state = if j = i then .zombie else (pt.procs j).state := by
  unfold exited
  rw [reparent_state]
  by_cases h : j = i
  · subst h; rw [update_self, if_pos rfl]
  · rw [update_of_ne h, if_neg h]

theorem exited_exitStatus (pt : ProcTable) (i j : Fin procMax) (st : Int) :
    ((exited pt i st).procs j).exitStatus = if j = i then st else (pt.procs j).exitStatus := by
  unfold exited
  rw [reparent_exitStatus]
  by_cases h : j = i
  · subst h; rw [update_self, if_pos rfl]
  · rw [update_of_ne h, if_neg h]

variable {st : Int}

theorem exited_used (hl : (pt.procs i).state = .live) : Used (exited pt i st) j ↔ Used pt j := by
  unfold Used
  rw [exited_state]
  by_cases h : j = i
  · subst h; rw [if_pos rfl, hl]; decide
  · rw [if_neg h]

/-- Exactly the children of the dying process are handed to init. -/
theorem exited_ppid (hl : (pt.procs i).state = .live) (hu : Used pt j) :
    ((exited pt i st).procs j).ppid =
      if (pt.procs j).ppid = (pt.procs i).pid then procInitPid else (pt.procs j).ppid := by
  unfold exited
  have hk : (update pt.procs i
      { pt.procs i with state := ProcState.zombie, exitStatus := st } j).state ≠ .unused := by
    by_cases h : j = i
    · subst h; rw [update_self]; exact ProcState.noConfusion
    · rw [update_of_ne h]; exact hu
  rw [reparent_ppid hk]
  by_cases h : j = i
  · subst h; rw [update_self]
  · rw [update_of_ne h]

theorem pidsOk_exited (hp : PidsOk pt) (hl : (pt.procs i).state = .live) (st : Int) :
    PidsOk (exited pt i st) where
  pos j hj := by rw [exited_pid]; exact hp.pos j ((exited_used hl).mp hj)
  fresh j hj := by rw [exited_pid]; exact hp.fresh j ((exited_used hl).mp hj)
  inj j k hj hk h := by
    rw [exited_pid, exited_pid] at h
    exact hp.inj j k ((exited_used hl).mp hj) ((exited_used hl).mp hk) h
  next := hp.next

/-- The table after the zombie at slot `i` is reaped. -/
def reaped (pt : ProcTable) (i : Fin procMax) : ProcTable :=
  { pt with procs := update pt.procs i emptyEntry, nprocs := pt.nprocs - 1 }

/-- `proc_reap` does nothing, or empties the zombie's slot. -/
theorem procReap_cases (pt : ProcTable) (pid : Int) :
    procReap pt pid = pt ∨
      ∃ i, (pt.procs i).state = .zombie ∧ (pt.procs i).pid = pid ∧
        procReap pt pid = reaped pt i := by
  unfold procReap
  split
  · exact Or.inl rfl
  · rename_i i h
    split
    · exact Or.inl rfl
    · rename_i hz
      exact Or.inr ⟨i, not_not.mp hz, (procFind_some h).2, rfl⟩

theorem procReap_zombie (hp : PidsOk pt) (hz : (pt.procs i).state = .zombie) :
    procReap pt (pt.procs i).pid = reaped pt i := by
  have hu : Used pt i := by unfold Used; rw [hz]; decide
  unfold procReap
  rw [procFind_eq hp hu]
  simp only [hz, ne_eq, not_true_eq_false, if_false]
  rfl

theorem reaped_self (pt : ProcTable) (i : Fin procMax) : (reaped pt i).procs i = emptyEntry := by
  simp only [reaped, update_self]

theorem reaped_ne (pt : ProcTable) (h : j ≠ i) : (reaped pt i).procs j = pt.procs j := by
  simp only [reaped, update_of_ne h]

/-- A used slot of the reaped table is another slot of the old one. -/
theorem reaped_used (h : Used (reaped pt i) j) : j ≠ i ∧ Used pt j := by
  have hne : j ≠ i := by
    rintro rfl
    unfold Used at h
    rw [reaped_self] at h
    exact h rfl
  refine ⟨hne, ?_⟩
  unfold Used at h
  rwa [reaped_ne pt hne] at h

theorem pidsOk_reaped (hp : PidsOk pt) (i : Fin procMax) : PidsOk (reaped pt i) where
  pos j hj := by
    obtain ⟨hne, hu⟩ := reaped_used hj
    rw [reaped_ne pt hne]; exact hp.pos j hu
  fresh j hj := by
    obtain ⟨hne, hu⟩ := reaped_used hj
    rw [reaped_ne pt hne]; exact hp.fresh j hu
  inj j k hj hk h := by
    obtain ⟨hj1, hj2⟩ := reaped_used hj
    obtain ⟨hk1, hk2⟩ := reaped_used hk
    rw [reaped_ne pt hj1, reaped_ne pt hk1] at h
    exact hp.inj j k hj2 hk2 h
  next := hp.next

/-- `pid_arg` selects the child: any child for `-1`, the named one for a positive argument. -/
def ArgMatches (pidArg pid : Int) : Prop := 0 < pidArg → pid = pidArg

variable {pidArg : Int}

theorem waitSelects_iff {e : ProcEntry} : waitSelects e ppid pidArg = true ↔
      e.state ≠ .unused ∧ e.ppid = ppid ∧ ArgMatches pidArg e.pid := by
  unfold waitSelects ArgMatches
  simp only [Bool.and_eq_true, bne_iff_ne, ne_eq, beq_iff_eq, Bool.not_eq_true',
    Bool.and_eq_false_iff, decide_eq_false_iff_not, bne_eq_false_iff_eq, and_assoc]
  constructor
  · rintro ⟨h1, h2, h3⟩
    exact ⟨h1, h2, fun hpos => h3.resolve_left (fun hn => hn hpos)⟩
  · rintro ⟨h1, h2, h3⟩
    refine ⟨h1, h2, ?_⟩
    by_cases hpos : 0 < pidArg
    · exact Or.inr (h3 hpos)
    · exact Or.inl hpos

/-- `proc_wait_find` answers a pid, `PROC_WAIT_BLOCK` or `PROC_WAIT_NOCHILD`. -/
theorem procWaitFind_cases (hp : PidsOk pt) (ppid pidArg : Int) :
    0 < (procWaitFind pt ppid pidArg).1 ∨ (procWaitFind pt ppid pidArg).1 = procWaitBlock ∨
      (procWaitFind pt ppid pidArg).1 = procWaitNochild := by
  unfold procWaitFind
  split
  · rename_i j hj
    have hj' := firstSlot_some hj
    simp only [Bool.and_eq_true] at hj'
    exact Or.inl (hp.pos j (waitSelects_iff.mp hj'.1).1)
  · split
    · exact Or.inr (Or.inl rfl)
    · exact Or.inr (Or.inr rfl)

end Hallucinate.Proc
