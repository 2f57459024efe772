import Hallucinate.Gfs.Handle

/-!
# Rules for the commands and for block I/O

`Wp p Q s`: the program `p` from state `s` ends, whatever device operations fail, and its outcome is
in `Q`. Outcomes are stated by `outcome P E`: `P` for a value, `E` for an error. The rules for the
commands say which state each leads to; those for `bread`, `bwrite`, `read_meta` and `write_meta`
say the same of block I/O on a block in range.
-/

namespace Hallucinate.Gfs

open Lib

variable {α β : Type} {s : St} {Q : Except Err α → St → Prop}

abbrev Wp (p : GfsM α) (Q : Except Err α → St → Prop) (s : St) : Prop := p.wp gfsMachine Q s

/-- `P` of a value, `E` of an error. -/
def outcome (P : α → St → Prop) (E : Err → St → Prop) : Except Err α → St → Prop
  | .ok a => P a
  | .error e => E e

variable {p : GfsM α}

/-- **Sequencing**: errors of the first part are errors of the whole. -/
theorem Wp.bind {f : α → GfsM β} {P : α → St → Prop} {P' : β → St → Prop} {E : Err → St → Prop}
    (hp : Wp p (outcome P E) s) (hf : ∀ a s', P a s' → Wp (f a) (outcome P' E) s') :
    Wp (p >>= f) (outcome P' E) s :=
  Prog.wp_seq hp (fun _ _ he => he) hf

variable {P' : α → St → Prop}

theorem Wp.mono {P : α → St → Prop} {E E' : Err → St → Prop} (hp : Wp p (outcome P E) s)
    (hP : ∀ a s', P a s' → P' a s') (hE : ∀ e s', E e s' → E' e s') : Wp p (outcome P' E') s :=
  Prog.wp_mono hp fun r s' h => by
    cases r with
    | ok a => exact hP a s' h
    | error e => exact hE e s' h

theorem Wp.post {P : α → St → Prop} {E : Err → St → Prop} (hp : Wp p (outcome P E) s)
    (hP : ∀ a s', P a s' → P' a s') : Wp p (outcome P' E) s :=
  hp.mono hP fun _ _ h => h

variable {b : β}

variable {I : Nat → β → St → Prop} {n : Nat}

/-- **Loops over a range**: `I i b` holds after `i` rounds, and an error ends the loop. -/
theorem Wp.loopFrom {f : β → Nat → GfsM β} {E : Err → St → Prop} {start : Nat} (hinit : I 0 b s)
    (hstep : ∀ i b s, i < n → I i b s → Wp (f b (start + i)) (outcome (I (i + 1)) E) s) :
    Wp (Prog.foldP f b (List.range' start n)) (outcome (I n) E) s :=
  Prog.wp_foldRange hinit (fun i b s hi hI => Prog.wp_mono (hstep i b s hi hI) fun r s' h => by
    cases r with
    | ok b' => exact h
    | error e => exact h) fun _ _ h => h

theorem Wp.loop {f : β → Nat → GfsM β} {E : Err → St → Prop} (hinit : I 0 b s)
    (hstep : ∀ i b s, i < n → I i b s → Wp (f b i) (outcome (I (i + 1)) E) s) :
    Wp (Prog.foldP f b (List.range n)) (outcome (I n) E) s := by
  rw [List.range_eq_range']
  refine Wp.loopFrom hinit fun i b s hi hI => ?_
  rw [Nat.zero_add]
  exact hstep i b s hi hI

/-! ## Commands -/

variable {a : α} {e : Err}

section Commands

variable {dst : Buf} {blk data : Bytes} {c : Core} {w : Bytes} {P : Except Err β → St → Prop}

theorem wp_pure (h : Q (.ok a) s) : Wp (pure a) Q s := h

theorem wp_fail (h : Q (.error e) s) : Wp (fail e) Q s := h

/-- A check in front of a program. -/
theorem wp_guard {c : Prop} [Decidable c] (hbad : c → Q (.error e) s) (hok : ¬c → Wp p Q s) :
    Wp (if c then fail e else p) Q s := by
  split
  · exact wp_fail (hbad ‹_›)
  · exact hok ‹_›

theorem wp_getCore {f : Core → GfsM β} (h : Wp (f s.core) P s) : Wp (getCore >>= f) P s :=
  Prog.wp_exec rfl rfl h

theorem wp_getBuf {f : Bytes → GfsM β} (hb : s.buf dst = some blk) (h : Wp (f blk) P s) :
    Wp (getBuf dst >>= f) P s := by
  refine Prog.wp_exec (x := blk) (t := s) rfl ?_ h
  simp only [gfsMachine, hb]
  rfl

theorem wp_setBuf {f : Unit → GfsM β} (h : Wp (f ()) P (s.setBuf dst (some data))) :
    Wp (setBuf dst data >>= f) P s :=
  Prog.wp_exec rfl rfl h

theorem wp_getWorking {f : Bytes → GfsM β} (hw : s.working = some w) (h : Wp (f w) P s) :
    Wp (getWorking >>= f) P s := by
  refine Prog.wp_exec (x := w) (t := s) rfl ?_ h
  simp only [gfsMachine, hw]
  rfl

theorem wp_setWorking {f : Unit → GfsM β} (h : Wp (f ()) P (s.setWorking w)) :
    Wp (setWorking w >>= f) P s :=
  Prog.wp_exec rfl rfl h

theorem wp_setCore {f : Unit → GfsM β} (h : Wp (f ()) P (s.setCore c)) :
    Wp (setCore c >>= f) P s :=
  Prog.wp_exec rfl rfl h

/-- A program's last command, as one that is followed by nothing. -/
theorem wp_last (h : Wp (p >>= pure) Q s) : Wp p Q s := by
  rwa [Prog.bind_pure] at h

end Commands

/-! ## State updates -/

namespace St

variable (s : St) (dst src : Buf) (v : Option Bytes) (w data : Bytes) (lba : Nat)

@[simp] theorem setBuf_core : (s.setBuf dst v).core = s.core := rfl
@[simp] theorem setBuf_working : (s.setBuf dst v).working = s.working := rfl
@[simp] theorem setBuf_disk : (s.setBuf dst v).disk = s.disk := rfl
@[simp] theorem setBuf_same : (s.setBuf dst v).buf dst = v := by
  simp [setBuf]
@[simp] theorem setWorking_core : (s.setWorking w).core = s.core := rfl
@[simp] theorem setWorking_disk : (s.setWorking w).disk = s.disk := rfl
@[simp] theorem setWorking_buf : (s.setWorking w).buf = s.buf := rfl
@[simp] theorem put_buf : (s.put lba data).buf = s.buf := rfl
@[simp] theorem put_log : (s.put lba data).log = s.log ++ [(lba, data)] := rfl
@[simp] theorem put_same : (s.put lba data).disk lba = some data := Function.update_self lba _ s.disk

variable {s dst src v lba data}

theorem setBuf_of_ne (h : src ≠ dst) : (s.setBuf dst v).buf src = s.buf src := by
  simp [setBuf, h]

theorem put_of_ne {lba' : Nat} (h : lba' ≠ lba) : (s.put lba data).disk lba' = s.disk lba' :=
  Function.update_of_ne h _ s.disk

end St

/-! ## Block I/O -/

section BlockIO

variable {lba : Nat} {dst src : Buf} {blk d : Bytes} {bp : Bp} {Q : Except Err Unit → St → Prop}

theorem wp_bread (hlt : lba < s.core.totalBlocks) (hd : s.disk lba = some blk)
    (hok : Q (.ok ()) (s.setBuf dst (some blk)))
    (herr : Q (.error .eio) (s.setBuf dst none).fault) : Wp (bread lba dst) Q s := by
  refine wp_getCore ?_
  rw [if_neg (by omega)]
  intro f _
  cases f with
  | false => exact ⟨true, _, by simp only [gfsMachine, hd]; rfl, hok⟩
  | true => exact ⟨false, _, rfl, herr⟩

theorem wp_readMeta (hlt : bp.phys < s.core.totalBlocks) (hd : s.disk bp.phys = some blk)
    (hcrc : blockCrc blk = bp.crc) (hok : Q (.ok ()) (s.setBuf dst (some blk)))
    (herr : Q (.error .eio) (s.setBuf dst none).fault) : Wp (readMeta bp dst) Q s := by
  refine Prog.wp_seq (P := outcome (fun _ s' => s' = s.setBuf dst (some blk))
    fun e s' => e = .eio ∧ s' = (s.setBuf dst none).fault) (wp_bread hlt hd rfl ⟨rfl, rfl⟩) ?_ ?_
  · rintro e s' ⟨rfl, rfl⟩
    exact herr
  · rintro _ s' rfl
    refine wp_getBuf (St.setBuf_same s dst _) ?_
    rw [if_neg (by simpa using hcrc)]
    exact hok

section Fetch

variable {f : Bytes → GfsM β} {P : β → St → Prop} {E : Err → St → Prop}

/-- Reading a block, and going on with its bytes. -/
theorem wp_fetch (hlt : lba < s.core.totalBlocks) (hd : s.disk lba = some blk)
    (herr : E .eio (s.setBuf dst none).fault)
    (hf : Wp (f blk) (outcome P E) (s.setBuf dst (some blk))) :
    Wp (bread lba dst >>= fun _ => getBuf dst >>= f) (outcome P E) s := by
  refine Wp.bind (P := fun _ s' => s' = s.setBuf dst (some blk)) (wp_bread hlt hd rfl herr) ?_
  rintro _ s' rfl
  exact wp_getBuf (St.setBuf_same _ _ _) hf

theorem wp_fetchMeta (hlt : bp.phys < s.core.totalBlocks) (hd : s.disk bp.phys = some blk)
    (hcrc : blockCrc blk = bp.crc) (herr : E .eio (s.setBuf dst none).fault)
    (hf : Wp (f blk) (outcome P E) (s.setBuf dst (some blk))) :
    Wp (readMeta bp dst >>= fun _ => getBuf dst >>= f) (outcome P E) s := by
  refine Wp.bind (P := fun _ s' => s' = s.setBuf dst (some blk))
    (wp_readMeta hlt hd hcrc rfl herr) ?_
  rintro _ s' rfl
  exact wp_getBuf (St.setBuf_same _ _ _) hf

end Fetch

theorem wp_bwrite (hlt : lba < s.core.totalBlocks) (hb : s.buf src = some d)
    (hok : Q (.ok ()) (s.put lba d)) (herr : Q (.error .eio) s.fault) :
    Wp (bwrite lba src) Q s := by
  refine wp_getCore ?_
  rw [if_neg (by omega)]
  refine wp_getBuf hb ?_
  intro f _
  cases f with
  | false => exact ⟨true, _, rfl, hok⟩
  | true => exact ⟨false, _, rfl, herr⟩

theorem wp_writeMeta {Q : Except Err Bp → St → Prop} (hlt : lba < s.core.totalBlocks)
    (hb : s.buf src = some d) (hok : Q (.ok ⟨lba, blockCrc d⟩) (s.put lba d))
    (herr : Q (.error .eio) s.fault) : Wp (writeMeta lba src) Q s := by
  refine Prog.wp_seq (P := outcome (fun _ s' => s' = s.put lba d)
    fun e s' => e = .eio ∧ s' = s.fault) (wp_bwrite hlt hb rfl ⟨rfl, rfl⟩) ?_ ?_
  · rintro e s' ⟨rfl, rfl⟩
    exact herr
  · rintro _ s' rfl
    exact wp_getBuf (show (s.put lba d).buf src = some d from hb) hok

end BlockIO

/-! ## Runs under any failures -/

section Runs

variable {o : Nat → Bool} {s' : St} {r : Except Err β} {lba : Nat} {dst src : Buf} {data : Bytes}

/-- A device read that the environment fails leaves its buffer indeterminate. -/
theorem run_devRead {f : Bool → GfsM β}
    (h : (devRead lba dst >>= f).run gfsMachine o s = some (r, s')) :
    (f false).run gfsMachine (fun i => o (i + 1)) (s.setBuf dst none).fault = some (r, s') ∨
      ∃ blk, s.disk lba = some blk ∧
        (f true).run gfsMachine (fun i => o (i + 1)) (s.setBuf dst (some blk)) = some (r, s') := by
  replace h := (Prog.run_exec (S := gfsSig) (.read lba dst) f o s).symm.trans h
  cases ho : o 0 with
  | true =>
    rw [ho] at h
    exact .inl h
  | false =>
    rw [ho] at h
    cases hd : s.disk lba with
    | none =>
      simp only [gfsMachine, hd] at h
      cases h
    | some blk =>
      simp only [gfsMachine, hd] at h
      exact .inr ⟨blk, rfl, h⟩

theorem run_getBuf {f : Bytes → GfsM β}
    (h : (getBuf src >>= f).run gfsMachine o s = some (r, s')) :
    ∃ blk, s.buf src = some blk ∧ (f blk).run gfsMachine o s = some (r, s') := by
  replace h := (Prog.run_exec (S := gfsSig) (.getBuf src) f o s).symm.trans h
  cases hb : s.buf src with
  | none =>
    simp only [gfsMachine, hb] at h
    cases h
  | some blk =>
    simp only [gfsMachine, hb] at h
    exact ⟨blk, rfl, h⟩

theorem run_getCore (f : Core → GfsM β) :
    (getCore >>= f).run gfsMachine o s = (f s.core).run gfsMachine o s := rfl

theorem run_setCore (c : Core) (f : Unit → GfsM β) :
    (setCore c >>= f).run gfsMachine o s = (f ()).run gfsMachine o (s.setCore c) := rfl

end Runs

/-! ## Runs without failures -/

/-- No device operation of the run fails, and it ends with the value `a`. -/
def Ran (p : GfsM α) (s : St) (a : α) (s' : St) : Prop :=
  p.run gfsMachine (fun _ => false) s = some (.ok a, s')

theorem Ran.bind {f : α → GfsM β} {s₁ s₂ : St} (hp : Ran p s a s₁) (hf : Ran (f a) s₁ b s₂) :
    Ran (p >>= f) s b s₂ :=
  (Prog.run_bind_quiet hp).trans hf

/-- A run without failures leaves the failure flag as it is. -/
theorem run_quiet {r : Except Err α} {s' : St} (hs : s.failed = false)
    (h : p.run gfsMachine (fun _ => false) s = some (r, s')) : s'.failed = false := by
  refine Prog.run_invariant (I := fun s => s.failed = false) ?_ hs h
  intro c s x s' hs hstep
  cases c with
  | read lba dst =>
    cases hd : s.disk lba with
    | none =>
      simp only [gfsMachine, hd] at hstep
      cases hstep
    | some blk =>
      simp only [gfsMachine, hd] at hstep
      cases hstep
      exact hs
  | getBuf src =>
    cases hb : s.buf src with
    | none =>
      simp only [gfsMachine, hb] at hstep
      cases hstep
    | some blk =>
      simp only [gfsMachine, hb] at hstep
      cases hstep
      exact hs
  | getWorking =>
    cases hw : s.working with
    | none =>
      simp only [gfsMachine, hw] at hstep
      cases hstep
    | some w =>
      simp only [gfsMachine, hw] at hstep
      cases hstep
      exact hs
  | diverge => cases hstep
  | _ =>
    cases hstep
    exact hs

/-- **A program that can only fail with the device succeeds when the device does.** -/
theorem Wp.ran {P : α → St → Prop} {E : Err → St → Prop} (hp : Wp p (outcome P E) s)
    (hs : s.failed = false) (hE : ∀ e s', E e s' → s'.failed = true) :
    ∃ a s', Ran p s a s' ∧ P a s' ∧ s'.failed = false := by
  obtain ⟨r, s', hrun, hpost⟩ := Prog.run_of_wp hp fun _ => false
  have hquiet := run_quiet hs hrun
  cases r with
  | ok a => exact ⟨a, s', hrun, hpost, hquiet⟩
  | error e =>
    have := hE e s' hpost
    rw [hquiet] at this
    cases this

end Hallucinate.Gfs
