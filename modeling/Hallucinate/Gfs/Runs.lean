import Hallucinate.Gfs.MkfsSpec
import Hallucinate.Gfs.RenameSpec
import Hallucinate.Lib.Trans

/-!
# Runs of the file system

A run starts from a device that `gfs_mkfs` made and a writable mount of it (`Booted`), and goes on by
mutating calls, under any failures of the device (`Calls`). `Shows s V`: `s` is a committed state
with the tree `V`.

* `Effect` says what each call that returns `GFS_OK` makes of a tree, one constructor for a call.
* **`calls_spec`**: a call from a committed state either fails and touches nothing of it (`Safe`), or
  has its effect, by a commit or without one.
* `Committed.safe`: a failed call leaves the committed state as it is.
* `Shows.unique`: a state shows one tree.
* `Committed.sees_iff`: what the reading calls answer in a committed state (`Sees`).
-/

namespace Hallucinate.Gfs

open Lib

/-! ## States between calls -/

/-- The state is a committed one with the tree `V`. -/
def Shows (s : St) (V : View) : Prop := ∃ tbl leak, Committed s tbl V leak

/-- The state as a call starts from it. -/
def St.fresh (s : St) : St := { s with log := [], failed := false }

variable {s s' : St} {tbl : Nat → Bp} {recs : Nat → DiskNode} {rest : Multiset Nat} {V V' : View}
  {leak : Multiset Nat}

/-- A live state depends on the handle and on stable blocks other than the superblock slot of the
next generation. -/
theorem Live.survives (h : Live s tbl recs rest) (hc : s'.core = s.core)
    (hd : ∀ b, Stable s.core b → b ≠ (s.core.generation + 1) % 2 → s'.disk b = s.disk b) :
    Live s' tbl recs rest := by
  have hg := h.geom
  have hstart := hg.start
  have hpos := hg.blocks_pos
  have hmem : ∀ {b}, b ∈ tblBlocks tbl + (s.core.nodemap.phys ::ₘ rest) → s'.disk b = s.disk b := by
    intro b hb
    have hge := (h.marks.range b hb).1
    rw [hg.dataFirst_eq] at hge
    exact hd _ (h.stable_of_mem hb) (by omega)
  have hactive : ∀ b, b < dataFirst s.core → ¬Inactive s.core b →
      b ≠ (s.core.generation + 1) % 2 → s'.disk b = s.disk b :=
    fun b hb hin hne => hd b ⟨h.reserved hb, hin⟩ hne
  have hpar := Nat.mod_two_eq_zero_or_one s.core.generation
  refine ⟨hc ▸ hg, ?_, ?_, hc ▸ h.marks, hc ▸ h.canon, ?_, ?_, ?_⟩
  · rw [hc, hmem (Multiset.mem_add.mpr (Or.inr (Multiset.mem_cons_self _ _)))]
    exact h.map
  · exact h.tables.congr fun b hb => hmem (Multiset.mem_add.mpr (Or.inl hb))
  · rw [hc]
    intro j hj
    rw [hactive, h.bitmap j hj]
    · rw [hg.dataFirst_eq]
      rcases hpar with hp | hp <;> rw [hp] <;> omega
    · unfold Inactive
      rcases hpar with hp | hp
      · rw [hp, show (s.core.generation + 1) % 2 = 1 by omega]
        omega
      · rw [hp, show (s.core.generation + 1) % 2 = 0 by omega]
        omega
    · rw [hstart, Nat.add_assoc]
      omega
  · rw [hc, hactive, h.super]
    · rw [hg.dataFirst_eq]
      omega
    · intro hin
      have := (hg.inactive_range hin).1
      omega
    · omega
  · rw [St.clear, hc]
    exact h.freeBlocks

section

variable (h : Committed s tbl V leak)
include h

theorem Committed.survives (hc : s'.core = s.core)
    (hd : ∀ b, Stable s.core b → b ≠ (s.core.generation + 1) % 2 → s'.disk b = s.disk b) :
    Committed s' tbl V leak := by
  have hstart := h.geom.start
  refine ⟨?_, ?_⟩
  · rw [hc]
    exact h.toLive.survives hc hd
  · rw [hc]
    refine h.view.congr fun id b hb => hd b (h.stable hb) ?_
    have hge := (h.marks.range b (Multiset.mem_add.mpr (.inr (h.view.mem_heldBlocks hb)))).1
    rw [h.geom.dataFirst_eq] at hge
    omega

theorem Committed.congr (hc : s'.core = s.core) (hd : ∀ b, Stable s.core b → s'.disk b = s.disk b) :
    Committed s' tbl V leak :=
  h.survives hc fun b hb _ => hd b hb

/-- **A call that fails leaves the committed state as it is.** -/
theorem Committed.safe (hs : Safe s s') : Committed s' tbl V leak :=
  h.congr hs.core hs.disk

theorem Committed.fresh : Committed s.fresh tbl V leak :=
  h.congr rfl fun _ _ => rfl

theorem Committed.idle (hs : Idle s s') : Committed s' tbl V leak :=
  h.congr hs.core fun b _ => by rw [hs.disk]

end

/-! ## One state, one tree -/

variable {disk : Nat → Option Bytes}

theorem ChainAt.unique {bp : Bp} {cs cs' : List EBlk} (h : ChainAt disk bp cs)
    (h' : ChainAt disk bp cs') : cs = cs' := by
  induction cs generalizing bp cs' with
  | nil => exact (h'.nil_iff.mp h).symm
  | cons c cs ih =>
    cases cs' with
    | nil => exact h.nil_iff.mp h'
    | cons c' cs' =>
      obtain ⟨hp, -, blk, hblk, -, hes, hcs⟩ := h
      obtain ⟨hp', -, blk', hblk', -, hes', hcs'⟩ := h'
      have hphys : c.phys = c'.phys := hp.symm.trans hp'
      rw [hphys, hblk', Option.some_inj] at hblk
      subst hblk
      have hedges : c.edges = c'.edges := hes.eq_map.trans hes'.eq_map.symm
      rw [ih hcs hcs']
      congr 1
      cases c
      cases c'
      cases hphys
      cases hedges
      rfl

theorem TableAt.unique {tbl : Nat → Bp} {recs recs' : Nat → DiskNode} (h : TableAt disk tbl recs)
    (h' : TableAt disk tbl recs') {id : Nat} (hid : id < 4096) : recs id = recs' id := by
  have hs := h (id / 16) (slot_lt hid)
  have hs' := h' (id / 16) (slot_lt hid)
  have hk : id % 16 < 16 := Nat.mod_lt _ (by decide)
  rw [← slot_split id]
  by_cases h0 : (tbl (id / 16)).phys = 0
  · rw [if_pos h0] at hs hs'
    rw [hs _ hk, hs' _ hk]
  · rw [if_neg h0] at hs hs'
    obtain ⟨blk, hb, -, hrecs⟩ := hs
    obtain ⟨blk', hb', -, hrecs'⟩ := hs'
    rw [hb, Option.some_inj] at hb'
    subst hb'
    rw [← hrecs _ hk, ← hrecs' _ hk]

/-- **A state shows one tree.** -/
theorem Shows.unique (h : Shows s V) (h' : Shows s V') : V = V' := by
  obtain ⟨tbl, leak, hc⟩ := h
  obtain ⟨tbl', leak', hc'⟩ := h'
  obtain ⟨m, hm, -, htbl⟩ := hc.map
  obtain ⟨m', hm', -, htbl'⟩ := hc'.map
  rw [hm, Option.some_inj] at hm'
  subst hm'
  have htables : TableAt s.disk tbl V'.recs := by
    intro slot hslot
    rw [← htbl slot hslot, htbl' slot hslot]
    exact hc'.tables slot hslot
  have hrecs : ∀ id, V.recs id = V'.recs id := by
    intro id
    by_cases hid : id < s.core.nodeCount
    · have hmax := hc.geom.nodes.2
      exact hc.tables.unique htables (by omega)
    · rw [(hc.view.outside id (.inr (by omega))).1, (hc'.view.outside id (.inr (by omega))).1]
  have hchain : ∀ id, V.chain id = V'.chain id := fun id =>
    (hc.view.node id).chain.unique (hrecs id ▸ (hc'.view.node id).chain)
  cases V
  cases V'
  congr 1
  · exact funext hrecs
  · exact funext hchain

/-! ## What the calls do -/

/-- What a call that returns `v` makes of the tree `V`. The last three constructors are calls that
had nothing to do. -/
inductive Effect (c : Core) (disk disk' : Nat → Option Bytes) (V : View) : Call → Nat → View → Prop
  | nodeCreate {type : Nat} {mode : UInt32} {id : Nat} (ht : CreateType type) (hid : ValidId c id)
      (hfree : (V.recs id).type = nodeFree) :
      Effect c disk disk' V (.nodeCreate type mode) id (V.set id (newNode type mode 0 0) [])
  | link {dir target type : Nat} {name : CStr} {n : DiskNode} {cs : List EBlk}
      (hok : LinkOk c V dir name target type)
      (hadd : V.AddsEdge dir ⟨type, target, name.bytes⟩ n cs) :
      Effect c disk disk' V (.link dir name target type) 0 (V.linked type dir target n cs)
  | unlink {dir target : Nat} {name : CStr} {n : DiskNode} {cs : List EBlk}
      (hok : UnlinkOk c V dir name target) (hne : target ≠ dir)
      (hdrop : V.DropsEdge dir name.bytes n cs) :
      Effect c disk disk' V (.unlink dir name) 0 (V.unlinked dir target n cs)
  | createAt {dir type id : Nat} {name : CStr} {mode : UInt32} {n : DiskNode} {cs : List EBlk}
      (hok : CreateOk c V dir name type) (hid : ValidId c id) (hfree : (V.recs id).type = nodeFree)
      (hadd : V.AddsEdge dir ⟨edgeName, id, name.bytes⟩ n cs) :
      Effect c disk disk' V (.createAt dir name type mode) id
        ((V.set id (entryNode type mode dir) []).set dir n cs)
  | rename {olddir newdir src : Nat} {oldname newname : CStr} {dst : Option Nat} {V' : View}
      (hold : NameOk oldname) (hnew : NameOk newname)
      (hok : RenameOk c V olddir oldname.bytes newdir newname.bytes src dst) (hdst : dst ≠ some src)
      (hren : V.Renamed olddir oldname.bytes newdir newname.bytes src dst V') :
      Effect c disk disk' V (.rename olddir oldname newdir newname) 0 V'
  | write {id off : Nat} {src : List UInt8} {n : DiskNode} (hsrc : src ≠ [])
      (hok : FileOk c V.recs id (off + src.length))
      (hsame : SameNode { V.recs id with size := max (V.recs id).size (off + src.length) } n)
      (hbytes : ∀ pos < maxFileSize,
        fileByte disk' n pos = copyIn (fileByte disk (V.recs id)) off src pos) :
      Effect c disk disk' V (.write id off src) src.length (V.set id n (V.chain id))
  | truncate {id size : Nat} {n : DiskNode} (hok : FileOk c V.recs id size)
      (hsize : size ≠ (V.recs id).size) (hsame : SameNode { V.recs id with size := size } n)
      (hbytes : ∀ pos < maxFileSize,
        fileByte disk' n pos = cutAt (fileByte disk (V.recs id)) size pos) :
      Effect c disk disk' V (.truncate id size) 0 (V.set id n (V.chain id))
  | renameSame {olddir newdir src : Nat} {oldname newname : CStr} (hold : NameOk oldname)
      (hnew : NameOk newname)
      (hok : RenameOk c V olddir oldname.bytes newdir newname.bytes src (some src)) :
      Effect c disk disk' V (.rename olddir oldname newdir newname) 0 V
  | writeNone {id off : Nat} : Effect c disk disk' V (.write id off []) 0 V
  | truncateSame {id : Nat} (hok : FileOk c V.recs id (V.recs id).size) :
      Effect c disk disk' V (.truncate id (V.recs id).size) 0 V

/-- The outcome of a call that returned `v`: it had its effect, and what it changed it committed. -/
def Done (s : St) (V : View) (c : Call) (v : Nat) (s' : St) : Prop :=
  ∃ V', Effect s.core s.disk s'.disk V c v V' ∧
    ((∃ leak' delta, Commits s V' leak' delta s') ∨ V' = V ∧ Idle s s')

variable {c : Call}

/-- A call of the specs, with the effect it has. -/
theorem Wp.done {p : GfsM Nat} {P : Nat → St → Prop} (h : Wp p (outcome P (Abort s fun _ =>
    True)) s) (hP : ∀ v s', P v s' → Done s V c v s') :
    Wp p (outcome (Done s V c) fun _ => Safe s) s :=
  h.mono hP fun _ _ he => he.1

variable {p : GfsM Unit} {P : Unit → St → Prop}

theorem Wp.done_unit (h : Wp p (outcome P (Abort s fun _ => True)) s)
    (hP : ∀ s', P () s' → Done s V c 0 s') :
    Wp (p >>= fun _ => pure 0) (outcome (Done s V c) fun _ => Safe s) s :=
  Wp.bind (P := P) (h.mono (fun _ _ hp => hp) fun _ _ he => he.1) fun _ s' hp => wp_pure (hP s' hp)

/-- **What a call does**: it fails and leaves the committed state alone, or it has its effect. -/
theorem wp_call (c : Call) (h : Committed s tbl V leak) (hlog : s.log = []) (hcount : V.Counted) :
    Wp c.prog (outcome (Done s V c) fun _ => Safe s) s := by
  cases c with
  | nodeCreate type mode =>
    refine (wp_gfsNodeCreate h hlog fun _ => trivial).done ?_
    rintro id s' ⟨ht, hid, hfree, hcom⟩
    exact ⟨_, .nodeCreate ht hid hfree, .inl ⟨_, _, hcom⟩⟩
  | link dir name target type =>
    refine (wp_gfsLink h hlog fun _ _ => trivial).done_unit ?_
    rintro s' ⟨hok, n, cs, hadd, hcom⟩
    exact ⟨_, .link hok hadd, .inl ⟨_, _, hcom⟩⟩
  | unlink dir name =>
    refine (wp_gfsUnlink h hlog hcount fun _ _ => trivial).done_unit ?_
    rintro s' ⟨target, hok, hne, n, cs, hdrop, hcom⟩
    exact ⟨_, .unlink hok hne hdrop, .inl ⟨_, _, hcom⟩⟩
  | write id off src =>
    refine (wp_gfsWrite h hlog fun _ _ => trivial).done ?_
    rintro v s' ⟨rfl, ⟨rfl, hidle⟩ | ⟨hsrc, hok, n, hcom, hsame, hbytes⟩⟩
    · exact ⟨_, .writeNone, .inr ⟨rfl, hidle⟩⟩
    · exact ⟨_, .write hsrc hok hsame hbytes, .inl ⟨_, _, hcom⟩⟩
  | createAt dir name type mode =>
    refine (wp_gfsCreateAt h hlog fun _ _ => trivial).done ?_
    rintro id s' ⟨hok, hid, hfree, n, cs, hadd, hcom⟩
    exact ⟨_, .createAt hok hid hfree hadd, .inl ⟨_, _, hcom⟩⟩
  | rename olddir oldname newdir newname =>
    refine (wp_gfsRename h hlog hcount fun _ _ => trivial).done_unit ?_
    rintro s' ⟨hold, hnew, src, dst, hok, ⟨rfl, hidle⟩ | ⟨hdst, V', hren, hcom⟩⟩
    · exact ⟨_, .renameSame hold hnew hok, .inr ⟨rfl, hidle⟩⟩
    · exact ⟨_, .rename hold hnew hok hdst hren, .inl ⟨_, _, hcom⟩⟩
  | truncate id size =>
    refine (wp_gfsTruncate h hlog fun _ _ => trivial).done_unit ?_
    rintro s' ⟨hok, ⟨rfl, hidle⟩ | ⟨hsize, n, hcom, hsame, hbytes⟩⟩
    · exact ⟨_, .truncateSame hok, .inr ⟨rfl, hidle⟩⟩
    · exact ⟨_, .truncate hok hsize hsame hbytes, .inl ⟨_, _, hcom⟩⟩

/-! ## Runs -/

/-- A call, with what it returned: one step of a run. -/
def Calls (s : St) (l : Call × Except Err Nat) (s' : St) : Prop :=
  ∃ o, call l.1.prog o s = some (l.2, s')

/-- The state after making a file system and mounting it. -/
def Booted (total nodes : Nat) (s : St) : Prop :=
  ∃ disk work o o' s₁, call (gfsMkfs total nodes) o (mountInit disk) = some (.ok (), s₁) ∧
    call (gfsMount true work) o' (mountInit s₁.disk) = some (.ok (), s)

/-- **The start of a run is a committed state** with an empty root. -/
theorem Booted.committed {total nodes : Nat} (h : Booted total nodes s) (ht : total + 7 < 2 ^ 64) :
    Committed s (firstTbl total) firstView 0 ∧ ∃ gen < 2, s.core = firstCore total nodes gen := by
  obtain ⟨disk, work, o, o', s₁, hmk, hmnt⟩ := h
  have hform : Formatted total nodes s₁.disk := Prog.post_of_run wp_gfsMkfs hmk
  have hmount : Wp (gfsMount true work) _ (mountInit s₁.disk).fresh := wp_mountFormatted ht hform
  obtain ⟨⟨gen, hg, hc⟩, hd, -⟩ := Prog.post_of_run hmount hmnt
  exact ⟨Formatted.committed ht (hd.symm ▸ hform) hg hc, gen, hg, hc⟩

/-- **One step of a run.** -/
theorem calls_spec {r : Except Err Nat} (h : Committed s tbl V leak) (hcount : V.Counted)
    (hrun : Calls s (c, r) s') : outcome (Done s.fresh V c) (fun _ => Safe s.fresh) r s' := by
  obtain ⟨o, ho⟩ := hrun
  exact Prog.post_of_run (wp_call c h.fresh rfl hcount) ho

/-- No call changes the geometry. -/
theorem Calls.geometry {l : Call × Except Err Nat} (h : Shows s V) (hcount : V.Counted)
    (hrun : Calls s l s') :
    s'.core.nodeCount = s.core.nodeCount ∧ s'.core.totalBlocks = s.core.totalBlocks := by
  obtain ⟨tbl, leak, h⟩ := h
  obtain ⟨c, r⟩ := l
  have hpost := calls_spec h hcount hrun
  cases r with
  | error e =>
    have hsafe : Safe s.fresh s' := hpost
    rw [hsafe.core]
    exact ⟨rfl, rfl⟩
  | ok v =>
    obtain ⟨V', -, ⟨leak', delta, tbl', -, rest, s₁, hpub⟩ | ⟨-, hidle⟩⟩ := hpost
    · obtain ⟨mp, m, w, hc, -⟩ := hpub.core
      rw [hc]
      exact ⟨rfl, rfl⟩
    · rw [hidle.core]
      exact ⟨rfl, rfl⟩

/-- What a step makes of the tree that a state shows: nothing, or the effect of the call. -/
theorem Shows.step {r : Except Err Nat} (h : Shows s V) (hcount : V.Counted)
    (hrun : Calls s (c, r) s') :
    (∃ e, r = .error e) ∧ Shows s' V ∧ (∀ b, Stable s.core b → s'.disk b = s.disk b) ∨
      ∃ v V', r = .ok v ∧ Effect s.core s.disk s'.disk V c v V' ∧ Shows s' V' := by
  obtain ⟨tbl, leak, h⟩ := h
  have hpost := calls_spec h hcount hrun
  cases r with
  | error e =>
    have hsafe : Safe s.fresh s' := hpost
    exact .inl ⟨⟨e, rfl⟩, ⟨tbl, leak, h.fresh.safe hsafe⟩, hsafe.disk⟩
  | ok v =>
    obtain ⟨V', heff, ⟨leak', delta, tbl', hcom, -⟩ | ⟨rfl, hidle⟩⟩ := hpost
    · exact .inr ⟨v, V', rfl, heff, tbl', leak', hcom⟩
    · exact .inr ⟨v, V', rfl, heff, tbl, leak, h.fresh.idle hidle⟩

/-- A call that can only fail with the device succeeds if the device does. -/
theorem Wp.calls_unit (hc : c.prog = (p >>= fun _ => pure 0))
    (h : Wp p (outcome P (Abort s.fresh fun _ => False)) s.fresh) :
    ∃ s', Calls s (c, .ok 0) s' ∧ P () s' := by
  obtain ⟨⟨⟩, s', hrun, hP, -⟩ := h.ran rfl fun _ _ he => he.2.resolve_right id
  refine ⟨s', ⟨fun _ => false, ?_⟩, hP⟩
  show c.prog.run gfsMachine (fun _ => false) s.fresh = _
  rw [hc]
  exact hrun.bind rfl

/-- A device that is large enough can be formatted and mounted. -/
theorem exists_booted (total nodes : Nat) (ht : total + 7 < 2 ^ 64)
    (hsize : firstUsed total ≤ total) : ∃ s, Booted total nodes s := by
  have hmk : Wp (gfsMkfs total nodes) _ (mountInit fun _ => none).fresh := wp_gfsMkfs
  obtain ⟨⟨⟩, s₁, hrun, hform, -⟩ := hmk.ran rfl fun _ _ he => he.resolve_right (by omega)
  have hmnt : Wp (gfsMount true (some (gfsMountWorkSize total))) _ (mountInit s₁.disk).fresh :=
    wp_mountFormatted ht hform
  obtain ⟨⟨⟩, s, hrun', -, -⟩ := hmnt.ran rfl fun _ _ he =>
    he.resolve_right fun hn => hn ⟨_, rfl, le_rfl⟩
  exact ⟨s, _, _, _, _, s₁, hrun, hrun'⟩

/-! ## What a state answers -/

/-- The answer of a reading call when no device operation fails. -/
def Sees (s : St) (q : Query) (r : Except Err Answer) : Prop :=
  ∃ s', call q.prog (fun _ => false) s = some (r, s')

variable {r : Except Err Answer}

variable {q : Query}

theorem Sees.iff_of_wp {r' : Except Err Answer}
    (hw : Wp q.prog (outcome (fun a s' => r' = .ok a ∧ Idle s.fresh s')
      (Abort s.fresh fun e => r' = .error e)) s.fresh) : Sees s q r ↔ r = r' := by
  obtain ⟨a, s', hrun, hpost⟩ := Prog.run_of_wp hw fun _ => false
  have hans : a = r' := by
    cases a with
    | ok a => exact hpost.1.symm
    | error e =>
      rcases hpost.2 with hf | he
      · rw [run_quiet rfl hrun] at hf
        cases hf
      · exact he.symm
  constructor
  · rintro ⟨s'', hr⟩
    rw [← hans]
    exact (Prod.ext_iff.mp (Option.some.inj (hr.symm.trans hrun))).1
  · rintro rfl
    exact ⟨s', hans ▸ hrun⟩

/-- **A committed state answers from its tree.** -/
theorem Committed.sees_iff (h : Committed s tbl V leak) (hcount : V.Counted) :
    Sees s q r ↔ r = V.answer s.core s.disk q :=
  Sees.iff_of_wp (wp_query h.fresh rfl hcount)

/-- Names are found whatever the counts of edges say. -/
theorem Committed.sees_resolve {path : CStr} (h : Committed s tbl V leak) :
    Sees s (.resolve path) r ↔ r = V.answer s.core s.disk (.resolve path) :=
  Sees.iff_of_wp (wp_gfsResolve h.fresh rfl)

end Hallucinate.Gfs
