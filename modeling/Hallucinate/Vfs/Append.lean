import Hallucinate.Vfs.Dirents

/-!
# Appending to a file (`gfsf_write` of `kernel/fs/vfs.c`)

`gfsf_write` on a description with `O_APPEND` reads the size of the file and writes at that offset.
The two calls of the core are made under one hold of `fs_lock`. The model lets threads take the
steps of their calls one by one, in any order that the lock allows, on descriptions that they may
share. Every call of the core may fail in any of its device operations, and readers may come in
between.

* `Contains.append`: a write at the end of a file appends its buffer or changes nothing.
* `Kept.step`: nobody else touches the file while a call holds the lock, so that the offset that it
  has read is still the end of the file when it writes.
* **`appends_kept`**: in every run the file holds what it held at the start, and then the buffers of
  the calls that returned a positive count, in the order in which they held the lock.
-/

namespace Hallucinate.Vfs

open Lib Gfs Function

/-! ## The calls of `gfsf_write` -/

/-- The fields of `struct file` that `gfsf_write` uses. -/
structure File where
  node : Nat
  off : Nat
  flags : Nat

/-- `(f->flags & O_ACCMODE) == O_RDONLY`. -/
def File.ReadOnly (f : File) : Prop := f.flags &&& 3 = 0

/-- `(f->flags & O_APPEND) != 0`. -/
def File.Append (f : File) : Prop := f.flags &&& 1024 ≠ 0

/-- Where a thread is in a call of `gfsf_write` on description `f`. -/
inductive Phase
  | out
  /-- in `mutex_lock` -/
  | waits (f : Nat) (buf : List UInt8)
  /-- behind it, before the offset is known -/
  | holds (f : Nat) (buf : List UInt8)
  /-- about to write at `off` -/
  | sized (f : Nat) (buf : List UInt8) (off : Nat)

/-- A call that has released the lock. -/
structure Done where
  thread : Nat
  buf : List UInt8
  ret : Except Errno Nat

/-- The file system, the open descriptions, `fs_lock` and the threads. `entered` and `log` are the
history: the threads that took the lock and the calls that released it, in order. -/
structure Sys where
  fs : St
  files : Nat → File
  owner : Option Nat
  pc : Nat → Phase
  entered : List Nat
  log : List Done

inductive Act
  | refuse (t f : Nat)
  | enter (t f : Nat) (buf : List UInt8)
  | lock (t : Nat)
  | size (t : Nat)
  | write (t : Nat)
  | read (node off len : Nat)

def Sys.set (x : Sys) (t : Nat) (p : Phase) : Sys := { x with pc := update x.pc t p }

theorem Sys.set_pc_self (x : Sys) (t : Nat) (p : Phase) : (x.set t p).pc t = p :=
  update_self ..

/-- `mutex_unlock` and the return of the call. -/
def Sys.leave (x : Sys) (t : Nat) (buf : List UInt8) (ret : Except Errno Nat) (fs : St) : Sys :=
  { x.set t .out with
    fs := fs, owner := none, log := x.log ++ [⟨t, buf, ret⟩] }

/-- `f->off = off`. -/
def Sys.seek (x : Sys) (f off : Nat) : Sys :=
  { x with files := update x.files f { x.files f with off := off } }

/-- One step of a thread in `gfsf_write`, or a `gfs_read` that some thread makes under the lock. -/
inductive Step : Sys → Act → Sys → Prop
  | refuse {x : Sys} {t f : Nat} (h : x.pc t = .out) (hr : (x.files f).ReadOnly) :
      Step x (.refuse t f) x
  | enter {x : Sys} {t f : Nat} {buf : List UInt8} (h : x.pc t = .out)
      (hr : ¬(x.files f).ReadOnly) : Step x (.enter t f buf) (x.set t (.waits f buf))
  | lock {x : Sys} {t f : Nat} {buf : List UInt8} (h : x.pc t = .waits f buf)
      (hfree : x.owner = none) :
      Step x (.lock t) { x.set t (.holds f buf) with
        owner := some t, entered := x.entered ++ [t] }
  | atOffset {x : Sys} {t f : Nat} {buf : List UInt8} (h : x.pc t = .holds f buf)
      (ha : ¬(x.files f).Append) : Step x (.size t) (x.set t (.sized f buf (x.files f).off))
  | size {x : Sys} {t f : Nat} {buf : List UInt8} {o : Nat → Bool} {n : Node} {fs : St}
      (h : x.pc t = .holds f buf) (ha : (x.files f).Append)
      (hrun : call (gfsNodeGet (x.files f).node) o x.fs = some (.ok n, fs)) :
      Step x (.size t) { x.set t (.sized f buf n.size) with fs := fs }
  | sizeFails {x : Sys} {t f : Nat} {buf : List UInt8} {o : Nat → Bool} {e : Err} {fs : St}
      (h : x.pc t = .holds f buf) (ha : (x.files f).Append)
      (hrun : call (gfsNodeGet (x.files f).node) o x.fs = some (.error e, fs)) :
      Step x (.size t) (x.leave t buf (.error (gfsErrno e)) fs)
  | write {x : Sys} {t f off n : Nat} {buf : List UInt8} {o : Nat → Bool} {fs : St}
      (h : x.pc t = .sized f buf off)
      (hrun : call (gfsWrite (x.files f).node off buf) o x.fs = some (.ok n, fs)) :
      Step x (.write t) ((x.seek f (off + n)).leave t buf (.ok n) fs)
  | writeFails {x : Sys} {t f off : Nat} {buf : List UInt8} {o : Nat → Bool} {e : Err} {fs : St}
      (h : x.pc t = .sized f buf off)
      (hrun : call (gfsWrite (x.files f).node off buf) o x.fs = some (.error e, fs)) :
      Step x (.write t) (x.leave t buf (.error (gfsErrno e)) fs)
  | read {x : Sys} {node off len : Nat} {o : Nat → Bool} {r : Except Err (List UInt8)} {fs : St}
      (hfree : x.owner = none) (hrun : call (gfsRead node off len) o x.fs = some (r, fs)) :
      Step x (.read node off len) { x with fs := fs }

/-! ## What a file holds -/

/-- Node `id` is a file with the contents `bytes`. -/
def Contains (s : St) (id : Nat) (bytes : List UInt8) : Prop :=
  ∃ V, Shows s V ∧ ValidId s.core id ∧ (V.recs id).type = nodeData ∧
    content s.disk (V.recs id) = bytes

section Contents

variable {s s' : St} {id : Nat} {bytes buf : List UInt8} {o : Nat → Bool}

section

variable (h : Contains s id bytes)
include h

/-- A call that gave up leaves the file as it was. -/
theorem Contains.safe (hs : Safe s.fresh s') : Contains s' id bytes := by
  obtain ⟨V, ⟨tbl, leak, hc⟩, hid, hdata, hbytes⟩ := h
  have hcore : s'.core = s.core := hs.core
  refine ⟨V, ⟨tbl, leak, hc.fresh.safe hs⟩, by rw [hcore]; exact hid, hdata, ?_⟩
  rw [← hbytes]
  exact content_congr fun b hb => hs.disk b (hc.stable (mem_nodeHeld.mpr (.inr hb)))

/-- `gfs_node_get` finds the end of the file. -/
theorem Contains.nodeGet {r : Except Err Node} (hrun : call (gfsNodeGet id) o s = some (r, s')) :
    Contains s' id bytes ∧ ∀ n, r = .ok n → n.size = bytes.length := by
  have hkeep := h
  obtain ⟨V, ⟨tbl, leak, hc⟩, hid, hdata, hbytes⟩ := h
  have hpost := Prog.post_of_run (wp_gfsNodeGet hc.fresh rfl) hrun
  cases r with
  | error e => exact ⟨hkeep.safe hpost.1, fun n hn => by cases hn⟩
  | ok n =>
    obtain ⟨hlive, hidle⟩ := hpost
    refine ⟨hkeep.safe (hidle.safe rfl), fun n' hn => ?_⟩
    cases hn
    obtain ⟨m, hm, rfl⟩ := except_map_eq_ok.mp hlive
    obtain ⟨-, rfl⟩ := View.live_ok.mp hm
    rw [← hbytes, content_length]
    rfl

/-- Reading leaves the file as it was. -/
theorem Contains.read {node off len : Nat} {r : Except Err (List UInt8)}
    (hrun : call (gfsRead node off len) o s = some (r, s')) : Contains s' id bytes := by
  have hkeep := h
  obtain ⟨V, ⟨tbl, leak, hc⟩, -⟩ := h
  have hpost := Prog.post_of_run (wp_gfsRead hc.fresh rfl) hrun
  cases r with
  | error e => exact hkeep.safe hpost.1
  | ok a => exact hkeep.safe (hpost.2.safe rfl)

end

/-- Writing at the end of a file makes its contents longer by the buffer. -/
theorem content_append {disk disk' : Nat → Option Bytes} {n n' : DiskNode}
    (hsize : n'.size = n.size + buf.length) (hmax : n'.size ≤ maxFileSize)
    (hbyte : ∀ pos < maxFileSize,
      fileByte disk' n' pos = copyIn (fileByte disk n) n.size buf pos) :
    content disk' n' = content disk n ++ buf := by
  refine List.ext_getElem ?_ fun i hi hi' => ?_
  · rw [List.length_append, content_length, content_length, hsize]
  rw [content_length] at hi
  rw [content_getElem, hbyte i (by omega), copyIn]
  by_cases hlt : i < n.size
  · rw [if_neg (by omega), List.getElem_append_left (by rwa [content_length]), content_getElem]
  · have hge : (content disk n).length ≤ i := by
      rw [content_length]
      omega
    rw [if_pos (by omega), List.getElem_append_right hge]
    simp only [content_length]
    rw [List.getElem?_eq_getElem (by omega), Option.getD_some]

/-- **A write at the end of a file** appends the whole buffer, or fails and changes nothing. -/
theorem Contains.append {r : Except Err Nat} (h : Contains s id bytes)
    (hrun : call (gfsWrite id bytes.length buf) o s = some (r, s')) :
    match r with
    | .ok n => n = buf.length ∧ Contains s' id (bytes ++ buf)
    | .error _ => Contains s' id bytes := by
  have hkeep := h
  obtain ⟨V, ⟨tbl, leak, hc⟩, hid, hdata, hbytes⟩ := h
  have hpost := Prog.post_of_run (wp_gfsWrite hc.fresh rfl fun _ _ => trivial) hrun
  cases r with
  | error e => exact hkeep.safe hpost.1
  | ok n =>
    obtain ⟨hn, ⟨hnil, hidle⟩ | ⟨-, hok, n', hcommits, hsame, hbyte⟩⟩ := hpost
    · refine ⟨hn, ?_⟩
      rw [hnil, List.append_nil]
      exact hkeep.safe (hidle.safe rfl)
    · -- the end that the caller read is the size of the record
      have hlen : bytes.length = (V.recs id).size := by rw [← hbytes, content_length]
      obtain ⟨tbl', hc', rest, s₁, hpub⟩ := hcommits
      obtain ⟨mp, m, w, hcore, -⟩ := hpub.core
      have hsize : n'.size = (V.recs id).size + buf.length := by
        rw [hsame.size]
        show max (V.recs id).size (bytes.length + buf.length) = _
        omega
      refine ⟨hn, V.set id n' (V.chain id), ⟨tbl', leak, hc'⟩, ?_, ?_, ?_⟩
      · rw [hcore]
        exact hid
      · rw [View.set_recs_self, hsame.type]
        exact hdata
      · rw [View.set_recs_self, ← hbytes]
        refine content_append hsize ?_ fun pos hpos => ?_
        · have := hok.size
          omega
        · rw [hbyte pos hpos, hlen]
          rfl

end Contents

/-! ## One step -/

/-- A thread between `mutex_lock` and `mutex_unlock`. -/
def Phase.Inside : Phase → Prop
  | .out | .waits .. => False
  | .holds .. | .sized .. => True

/-- The buffers of the calls that returned a positive count. -/
def appended (log : List Done) : List UInt8 :=
  log.flatMap fun d => match d.ret with
    | .ok n => if 0 < n then d.buf else []
    | .error _ => []

theorem appended_error (log : List Done) (t : Nat) (buf : List UInt8) (e : Errno) :
    appended (log ++ [⟨t, buf, .error e⟩]) = appended log := by
  simp [appended]

/-- A call that returned its whole length counts also when the length is 0. -/
theorem appended_ok (log : List Done) (t : Nat) (buf : List UInt8) :
    appended (log ++ [⟨t, buf, .ok buf.length⟩]) = appended log ++ buf := by
  cases buf <;> simp [appended]

/-- All descriptions are open on node `id` for appending, the file holds `init` and the appended
buffers, and a thread that is about to write has read the end of the file. -/
structure Kept (id : Nat) (init : List UInt8) (x : Sys) : Prop where
  files : ∀ f, (x.files f).node = id ∧ (x.files f).Append
  bytes : Contains x.fs id (init ++ appended x.log)
  owner : ∀ t, x.owner = some t ↔ (x.pc t).Inside
  sized : ∀ {t f buf off}, x.pc t = .sized f buf off → off = (init ++ appended x.log).length
  full : ∀ d ∈ x.log, ∀ n, d.ret = .ok n → n = d.buf.length
  order : x.entered = x.log.map Done.thread ++ x.owner.toList

namespace Kept

variable {id t f off : Nat} {init buf : List UInt8} {x y : Sys} {p : Phase} {fs : St}

section

variable (h : Kept id init x)
include h

/-- A thread outside of the lock stays outside. -/
theorem outside (ht : ¬(x.pc t).Inside) (hp : ¬p.Inside) : Kept id init (x.set t p) := by
  refine ⟨h.files, h.bytes, fun u => ?_, fun {u f buf off} hu => ?_, h.full, h.order⟩
  · by_cases hut : u = t
    · subst hut
      simp only [Sys.set, update_self, h.owner u, ht, hp]
    · simp only [Sys.set, update_of_ne hut, h.owner u]
  · by_cases hut : u = t
    · subst hut
      simp only [Sys.set, update_self] at hu
      rw [hu] at hp
      exact absurd trivial hp
    · simp only [Sys.set, update_of_ne hut] at hu
      exact h.sized hu

/-- The holder of the lock has read the end of the file. -/
theorem measured (ht : (x.pc t).Inside) (hfs : Contains fs id (init ++ appended x.log))
    (hoff : off = (init ++ appended x.log).length) :
    Kept id init { x.set t (.sized f buf off) with fs := fs } := by
  refine ⟨h.files, hfs, fun u => ?_, fun {u f buf off} hu => ?_, h.full, h.order⟩
  · by_cases hut : u = t
    · subst hut
      simp only [Sys.set, update_self, h.owner u]
      exact iff_of_true ht trivial
    · simp only [Sys.set, update_of_ne hut, h.owner u]
  · by_cases hut : u = t
    · subst hut
      simp only [Sys.set, update_self, Phase.sized.injEq] at hu
      rw [← hu.2.2]
      exact hoff
    · simp only [Sys.set, update_of_ne hut] at hu
      exact h.sized hu

/-- Only one thread is inside. -/
theorem alone (ht : (x.pc t).Inside) {u : Nat} (hu : (x.pc u).Inside) : u = t :=
  Option.some.inj (((h.owner u).mpr hu).symm.trans ((h.owner t).mpr ht))

/-- The holder of the lock returns. -/
theorem leave {ret : Except Errno Nat} (ht : (x.pc t).Inside)
    (hret : ∀ n, ret = .ok n → n = buf.length)
    (hfs : Contains fs id (init ++ appended (x.log ++ [⟨t, buf, ret⟩]))) :
    Kept id init (x.leave t buf ret fs) := by
  have hout : ∀ u, ¬((x.leave t buf ret fs).pc u).Inside := by
    intro u hu
    by_cases hut : u = t
    · simp [Sys.leave, Sys.set, hut, Phase.Inside] at hu
    · simp only [Sys.leave, Sys.set, update_of_ne hut] at hu
      exact hut (h.alone ht hu)
  refine ⟨h.files, hfs, fun u => ?_, fun {u f buf off} hu => ?_, fun d hd => ?_, ?_⟩
  · exact iff_of_false (fun hn => by cases hn) (hout u)
  · exact absurd (by rw [hu]; trivial) (hout u)
  · rcases List.mem_append.mp hd with hd | hd
    · exact h.full d hd
    · rw [List.mem_singleton.mp hd]
      exact hret
  · show x.entered = (x.log ++ [_]).map Done.thread ++ []
    rw [h.order, (h.owner t).mpr ht, List.map_append, List.append_nil]
    rfl

theorem seek : Kept id init (x.seek f off) := by
  refine ⟨fun g => ?_, h.bytes, h.owner, h.sized, h.full, h.order⟩
  by_cases hg : g = f
  · subst hg
    simp only [Sys.seek, update_self]
    exact h.files g
  · simp only [Sys.seek, update_of_ne hg]
    exact h.files g

/-- Taking the lock while nobody holds it. -/
theorem lock (hfree : x.owner = none) : Kept id init { x.set t (.holds f buf) with
      owner := some t, entered := x.entered ++ [t] } := by
  have hout : ∀ u, ¬(x.pc u).Inside := fun u hu => by
    have := (h.owner u).mpr hu
    rw [hfree] at this
    cases this
  refine ⟨h.files, h.bytes, fun u => ?_, fun {u f buf off} hu => ?_, h.full, ?_⟩
  · by_cases hut : u = t
    · subst hut
      simp [Sys.set, Phase.Inside]
    · simp only [Sys.set, update_of_ne hut]
      exact iff_of_false (fun hn => hut (Option.some.inj hn).symm) (hout u)
  · by_cases hut : u = t
    · subst hut
      simp [Sys.set] at hu
    · simp only [Sys.set, update_of_ne hut] at hu
      exact absurd (by rw [hu]; trivial) (hout u)
  · show x.entered ++ [t] = x.log.map Done.thread ++ [t]
    rw [h.order, hfree]
    simp

/-- **One step keeps the appended file.** -/
theorem step {a : Act} (hs : Step x a y) : Kept id init y := by
  cases hs with
  | refuse => exact h
  | enter hpc => exact h.outside (by rw [hpc]; exact not_false) not_false
  | lock hpc hfree => exact h.lock hfree
  | @atOffset t f buf hpc ha => exact absurd (h.files f).2 ha
  | @size t f buf o n fs hpc ha hrun =>
    rw [(h.files f).1] at hrun
    obtain ⟨hfs, hsize⟩ := h.bytes.nodeGet hrun
    exact h.measured (by rw [hpc]; trivial) hfs (hsize n rfl)
  | @sizeFails t f buf o e fs hpc ha hrun =>
    rw [(h.files f).1] at hrun
    refine h.leave (by rw [hpc]; trivial) (fun n hn => by cases hn) ?_
    rw [appended_error]
    exact (h.bytes.nodeGet hrun).1
  | @write t f off n buf o fs hpc hrun =>
    -- the offset was the end of the file when it was read, and the lock has been held since
    rw [(h.files f).1, h.sized hpc] at hrun
    obtain ⟨hn, hfs⟩ := h.bytes.append hrun
    subst hn
    have hin : (x.pc t).Inside := by
      rw [hpc]
      trivial
    refine h.seek.leave hin (fun n hn => by cases hn; rfl) ?_
    show Contains fs id (init ++ appended (x.log ++ _))
    rw [appended_ok, ← List.append_assoc]
    exact hfs
  | @writeFails t f off buf o e fs hpc hrun =>
    rw [(h.files f).1, h.sized hpc] at hrun
    refine h.leave (by rw [hpc]; trivial) (fun n hn => by cases hn) ?_
    rw [appended_error]
    exact h.bytes.append hrun
  | read hfree hrun =>
    exact ⟨h.files, h.bytes.read hrun, h.owner, h.sized, h.full, h.order⟩

end

end Kept

/-! ## Whole runs -/

/-- Descriptions for appending to one file, and no call yet. -/
structure Start (id : Nat) (init : List UInt8) (x : Sys) : Prop where
  files : ∀ f, (x.files f).node = id ∧ (x.files f).Append
  bytes : Contains x.fs id init
  owner : x.owner = none
  pc : ∀ t, x.pc t = .out
  entered : x.entered = []
  log : x.log = []

theorem Start.kept {id : Nat} {init : List UInt8} {x : Sys} (h : Start id init x) :
    Kept id init x := by
  refine ⟨h.files, ?_, fun t => ?_, fun hu => ?_, fun d hd => ?_, ?_⟩
  · rw [h.log]
    simpa [appended] using h.bytes
  · rw [h.owner, h.pc t]
    exact iff_of_false (fun hn => by cases hn) not_false
  · rw [h.pc] at hu
    cases hu
  · rw [h.log] at hd
    cases hd
  · rw [h.entered, h.log, h.owner]
    rfl

/-- **Appends are never lost.** In every interleaving the file holds its first contents and then the
buffers of the calls that returned a positive count, which is their full length. The calls stand in
the order in which they held the lock: at most the holder of the moment has not returned. -/
theorem appends_kept {id : Nat} {init : List UInt8} {x y : Sys} {acts : List Act}
    (hx : Start id init x) (hrun : Run Step x acts y) :
    Contains y.fs id (init ++ appended y.log) ∧
      (∀ d ∈ y.log, ∀ n, d.ret = .ok n → 0 < n → n = d.buf.length) ∧
      y.entered = y.log.map Done.thread ++ y.owner.toList := by
  have hkept : Kept id init y :=
    hrun.invariant (P := fun _ => Kept id init) hx.kept fun h hs => h.step hs
  exact ⟨hkept.bytes, fun d hd n hn _ => hkept.full d hd n hn, hkept.order⟩

/-- Every call of the core on a file returns. -/
theorem Contains.calls {s : St} {id : Nat} {bytes : List UInt8} (h : Contains s id bytes)
    (o : Nat → Bool) :
    (∃ r s', call (gfsNodeGet id) o s = some (r, s')) ∧
      ∀ off buf, ∃ r s', call (gfsWrite id off buf) o s = some (r, s') := by
  obtain ⟨V, ⟨tbl, leak, hc⟩, -⟩ := h
  have hget : Wp (gfsNodeGet id) _ s.fresh := wp_gfsNodeGet hc.fresh rfl
  obtain ⟨r, s', hrun, -⟩ := Prog.run_of_wp hget o
  refine ⟨⟨r, s', hrun⟩, fun off buf => ?_⟩
  have hwrite : Wp (gfsWrite id off buf) _ s.fresh := wp_gfsWrite hc.fresh rfl fun _ _ => trivial
  obtain ⟨r, s', hrun, -⟩ := Prog.run_of_wp hwrite o
  exact ⟨r, s', hrun⟩

/-- A first call runs to its end. -/
theorem Start.exists_call {id : Nat} {init : List UInt8} {x : Sys} (h : Start id init x)
    (hw : ¬(x.files 0).ReadOnly) (buf : List UInt8) :
    ∃ acts y, Run Step x acts y ∧ y.log.map Done.buf = [buf] := by
  obtain ⟨hnode, happ⟩ := h.files 0
  have henter : Step x (.enter 0 0 buf) (x.set 0 (.waits 0 buf)) := .enter (h.pc 0) hw
  have hlock : Step (x.set 0 (.waits 0 buf)) (.lock 0) _ := .lock (x.set_pc_self 0 _) h.owner
  have hrun₂ := (Run.nil.snoc henter).snoc hlock
  obtain ⟨⟨r, fs, hget⟩, -⟩ := h.bytes.calls fun _ => false
  rw [← hnode] at hget
  cases r with
  | error e =>
    refine ⟨_, _, .snoc hrun₂ (.sizeFails (Sys.set_pc_self ..) happ hget), ?_⟩
    simp [Sys.leave, Sys.set, h.log]
  | ok n =>
    have hrun₃ := Run.snoc hrun₂ (Step.size (Sys.set_pc_self ..) happ hget)
    rw [hnode] at hget
    obtain ⟨r, fs', hwrite⟩ := ((h.bytes.nodeGet hget).1.calls fun _ => false).2 n.size buf
    rw [← hnode] at hwrite
    cases r with
    | error e =>
      refine ⟨_, _, .snoc hrun₃ (.writeFails (Sys.set_pc_self ..) hwrite), ?_⟩
      simp [Sys.leave, Sys.set, h.log]
    | ok k =>
      refine ⟨_, _, .snoc hrun₃ (.write (Sys.set_pc_self ..) hwrite), ?_⟩
      simp [Sys.leave, Sys.seek, Sys.set, h.log]

/-- One byte is appended to a new file. -/
theorem appends_kept_oneByte : ∃ init x acts y, Start 2 init x ∧ Run Step x acts y ∧
    y.log.map Done.buf = [[7]] ∧ Contains y.fs 2 (init ++ appended y.log) ∧
    (∀ d ∈ y.log, ∀ n, d.ret = .ok n → 0 < n → n = d.buf.length) ∧
    y.entered = y.log.map Done.thread ++ y.owner.toList := by
  obtain ⟨-, s, tbl, V, -, -, -, hst⟩ :=
    exists_firstNode (.inr rfl) (letter_ok (b := 102) (by decide) (by decide))
  have hflags : ¬File.ReadOnly ⟨2, 0, 1025⟩ ∧ File.Append ⟨2, 0, 1025⟩ := by
    unfold File.ReadOnly File.Append
    decide
  have hstart : Start 2 (content s.disk (V.recs 2))
      ⟨s, fun _ => ⟨2, 0, 1025⟩, none, fun _ => .out, [], []⟩ := by
    refine ⟨fun _ => ⟨rfl, hflags.2⟩, ⟨V, hst.shows, ?_, hst.type 2, rfl⟩,
      rfl, fun _ => rfl, rfl, rfl⟩
    exact hst.validId (by decide) (by decide)
  obtain ⟨acts, y, hrun, hlog⟩ := hstart.exists_call hflags.1 [7]
  exact ⟨_, _, acts, y, hstart, hrun, hlog, appends_kept hstart hrun⟩

end Hallucinate.Vfs
