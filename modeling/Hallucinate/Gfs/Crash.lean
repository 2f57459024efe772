import Hallucinate.Gfs.Progress

/-!
# What a mount finds after a crash

A device can stop in any block write of a call. The block it stops in can be torn, and what was
written before can be there in part and in any order (`CutShort`). A run is made of calls and of
calls cut short, each of these with the mount after it (`CallOrCrash`).

* **`cut_call_mounts_before`**: a mount finds the state before a call that was cut short, and the
  state after a call that has returned.
* **`lost_super_mounts_before`**: without the superblock of a commit it finds the state before.
* **`call_acts_on_tree`**: a call changes the tree that the reading calls answer from as `Effect`
  says, or not at all.
-/

namespace Hallucinate.Gfs

open Lib Function List

variable {s s' s₀ : St} {V : View} {c : Call} {r : Except Err Nat} {disk : Nat → Option Bytes}
  {total nodes : Nat}

/-- The state `s'` has the handle, the tree and the file contents of `s`. -/
def Restores (s s' : St) : Prop :=
  s'.core = s.core ∧ ∃ V, Shows s V ∧ Shows s' V ∧
    ∀ id, content s'.disk (V.recs id) = content s.disk (V.recs id)

/-- A writable mount of `disk`, with a work buffer that is large enough, finds the state `s`. -/
def Mounts (disk : Nat → Option Bytes) (s : St) : Prop :=
  ∀ work, Roomy work s.core.totalBlocks →
    ∃ s', call (gfsMount true work) (fun _ => false) (mountInit disk) = some (.ok (), s') ∧
      s'.disk = disk ∧ Restores s s'

/-- The device was `old`, and stopped in one of the writes of `log`. A superblock it stopped in is not
there, or not valid. -/
def CutShort (old : Nat → Option Bytes) (log : List (Nat × Bytes)) (disk : Nat → Option Bytes) :
    Prop :=
  ∃ k x, log[k]? = some x ∧ (∀ b, b ≠ x.1 → b ∉ (log.take k).map Prod.fst → disk b = old b) ∧
    (x.1 < 2 → disk x.1 = old x.1 ∨ ∃ b, disk x.1 = some b ∧ sbValid b = false)

/-- A call, or a call cut short and the mount after it. -/
inductive CallOrCrash (s : St) (c : Call) (s' : St) : Prop
  | call {a} (hrun : Calls s (c, a) s')
  | crash {a t d work} (hrun : Calls s (c, a) t) (hcut : CutShort s.disk t.log d)
    (hwork : Roomy work s.core.totalBlocks)
    (hmnt : call (gfsMount true work) (fun _ => false) (mountInit d) = some (.ok (), s'))

/-- A call that leaves room in the edge counts and in the generation. -/
def LeavesRoom (s : St) (c : Call) : Prop :=
  s.core.generation + 1 < 2 ^ 64 ∧ ∃ V, Shows s V ∧ V.graph.HasRoom c

/-- The superblock slot of the next commit. -/
def St.slot (s : St) : Nat := (s.core.generation + 1) % 2

/-- The other superblock of `disk` is not of a higher generation than `s`. -/
def Spare (disk : Nat → Option Bytes) (s : St) : Prop :=
  ∃ b, disk s.slot = some b ∧ (sbValid b = true → (sbDecode b).generation < s.core.generation)

/-- A state that no crash in the next call loses. -/
structure Durable (s : St) (V : View) : Prop extends Tidy s V where
  other : Spare s.disk s

/-- What a call leaves alone, and that it writes the superblock last. -/
structure Kept (s s' : St) : Prop where
  disk : ∀ b, Stable s.core b → b ≠ s.slot → s'.disk b = s.disk b
  early : ∀ x ∈ s'.log.dropLast, ¬Stable s.core x.1
  last : ∀ x ∈ s'.log, Stable s.core x.1 → x.1 = s.slot

/-- The superblock slots belong to the committed state. -/
theorem Shows.stable_slot (h : Shows s V) (i : Nat) : Stable s.core (i % 2) := by
  obtain ⟨tbl, leak, hc⟩ := h
  have hstart := hc.geom.start
  refine ⟨hc.reserved ?_, fun hin => ?_⟩
  · rw [hc.geom.dataFirst_eq]
    omega
  · have := hin.1
    omega

/-- The files of a committed state are in stable blocks. -/
theorem Shows.content (h : Shows s V) (hd : ∀ b, Stable s.core b → b ≠ s.slot → disk b = s.disk b)
    (id : Nat) : content disk (V.recs id) = content s.disk (V.recs id) := by
  obtain ⟨tbl, leak, hc⟩ := h
  refine content_congr fun b hb => hd b (hc.stable (mem_nodeHeld.mpr (.inr hb))) ?_
  have hge := (hc.marks.range b (Multiset.mem_add.mpr (.inr (hc.view.mem_heldBlocks
    (mem_nodeHeld.mpr (.inr hb)))))).1
  have hstart := hc.geom.start
  rw [hc.geom.dataFirst_eq] at hge
  unfold St.slot
  omega

theorem Spare.congr {d} (h : Spare d s) (he : disk s.slot = d s.slot) : Spare disk s := by
  rwa [Spare, he]

theorem spare_of_invalid {b : Bytes} (h : disk s.slot = some b) (hb : sbValid b = false) :
    Spare disk s :=
  ⟨b, h, fun ht => absurd (ht.symm.trans hb) (by decide)⟩

/-- **A device with the blocks of a committed state mounts it.** -/
theorem Shows.mounts (h : Shows s V) (hd : ∀ b, Stable s.core b → b ≠ s.slot → disk b = s.disk b)
    (hslot : Spare disk s) : Mounts disk s := by
  have hs := h
  obtain ⟨tbl, leak, hc⟩ := h
  obtain ⟨other, hother, hlow⟩ := hslot
  intro work hwork
  have hlive : Live { s with disk := disk } tbl V.recs _ := hc.toLive.survives rfl hd
  obtain ⟨s', hran, hcore, hd', -⟩ := OnDisk.mount (s := (mountInit disk).fresh) (c := s.core)
    hlive.onDisk rfl hother hlow hwork
  have hkept := fun b hb hne => (congrFun hd' b).trans (hd b hb hne)
  exact ⟨s', hran, hd', hcore, V, hs, ⟨tbl, leak, hc.survives hcore hkept⟩, hs.content hkept⟩

theorem Durable.restored (h : Durable s V) (hr : Restores s s') (hslot : Spare s'.disk s) :
    Durable s' V := by
  obtain ⟨hcore, V', hs, hs', -⟩ := hr
  obtain rfl := h.shown.unique hs
  refine ⟨⟨hs', h.counted, h.unique⟩, ?_⟩
  rw [Spare, St.slot, hcore]
  exact hslot

/-- A call cut short leaves the committed state. -/
theorem Durable.cut (h : Durable s V) (hk : Kept s s') (hcut : CutShort s.disk s'.log disk) :
    Mounts disk s ∧ Spare disk s := by
  obtain ⟨k, x, hx, hd, htorn⟩ := hcut
  obtain ⟨hlt, -⟩ := List.getElem?_eq_some_iff.mp hx
  have hearly : ∀ b, Stable s.core b → b ∉ (s'.log.take k).map Prod.fst := by
    intro b hb hin
    obtain ⟨y, hy, rfl⟩ := mem_map.mp hin
    refine hk.early y ?_ hb
    rw [dropLast_eq_take]
    exact take_subset_take_left _ (Nat.le_sub_one_of_lt hlt) hy
  have hspare : Spare disk s := by
    by_cases he : x.1 = s.slot
    · rw [he] at htorn
      rcases htorn (Nat.mod_lt _ Nat.two_pos) with hold | ⟨b, hb, hv⟩
      · exact h.other.congr hold
      · exact spare_of_invalid hb hv
    · exact h.other.congr (hd _ (Ne.symm he) (hearly _ (h.shown.stable_slot _)))
  refine ⟨h.shown.mounts (fun b hb hne => hd b (fun he => ?_) (hearly b hb)) hspare, hspare⟩
  subst he
  exact hne (hk.last x (mem_of_getElem? hx) hb)

theorem Durable.call (h : Durable s V) (hroom : LeavesRoom s c) (hrun : Calls s (c, r) s') :
    Kept s s' ∧ (∃ V', Durable s' V') ∧ ∀ e, r = .error e → Restores s s' := by
  obtain ⟨hgen, V₀, hs₀, hroom⟩ := hroom
  obtain rfl := h.shown.unique hs₀
  obtain ⟨tbl, leak, hc⟩ := h.shown
  have hpost := calls_spec hc h.counted hrun
  cases r with
  | error e =>
    have hsafe : Safe s.fresh s' := hpost
    have hk : Kept s s' := ⟨fun b hb _ => hsafe.disk b hb,
      fun x hx => hsafe.log x (mem_of_mem_dropLast hx), fun x hx hb => absurd hb (hsafe.log x hx)⟩
    have hres : Restores s s' :=
      ⟨hsafe.core, V, h.shown, ⟨tbl, leak, hc.fresh.safe hsafe⟩, h.shown.content hk.disk⟩
    refine ⟨hk, ⟨V, h.restored hres ?_⟩, fun _ _ => hres⟩
    exact h.other.congr (hsafe.disk _ (h.shown.stable_slot _))
  | ok v =>
    obtain ⟨V', heff, hdone⟩ := hpost
    have hstep := heff.graph h.unique hc.view h.counted hc.geom.root
    have htidy : ∀ {s'}, Shows s' V' → Tidy s' V' := fun hs =>
      ⟨hs, (hstep.counted h.counted.graph hroom).view, hstep.unique h.unique⟩
    rcases hdone with ⟨leak', delta, tbl', hcom, rest, s₁, hpub⟩ | ⟨rfl, hidle⟩
    · obtain ⟨writes, hlog, hw⟩ := hpub.log
      refine ⟨⟨hpub.kept, ?_, fun x hx hb => ?_⟩, ⟨V', htidy ⟨tbl', leak', hcom⟩, ?_⟩, nofun⟩
      · rw [hlog, dropLast_concat]
        exact hw
      · rw [hlog, mem_append, mem_singleton] at hx
        exact hx.elim (fun hx => absurd hb (hw x hx)) (congrArg Prod.fst)
      · -- the other superblock is now that of the state before
        obtain ⟨mp, m, w, hcore, -⟩ := hpub.core
        have hnext : s'.core.generation = s.core.generation + 1 := by
          rw [hcore]
          exact Nat.mod_eq_of_lt hgen
        refine ⟨sbEncode (liveSuper s.core), ?_, fun _ => ?_⟩
        · rw [St.slot, hnext, show (s.core.generation + 1 + 1) % 2 = s.core.generation % 2 by omega,
            ← hc.super]
          exact hpub.kept _ (h.shown.stable_slot _)
            (show s.core.generation % 2 ≠ (s.core.generation + 1) % 2 by omega)
        · rw [hc.toLive.onDisk.decode, hnext]
          exact Nat.lt_succ_self _
    · have hlog : s'.log = [] := hidle.log
      refine ⟨⟨fun b _ _ => congrFun hidle.disk b, by simp [hlog], by simp [hlog]⟩,
        ⟨V', htidy ⟨tbl, leak, hc.fresh.idle hidle⟩, ?_⟩, nofun⟩
      rw [Spare, St.slot, hidle.core, hidle.disk]
      exact h.other

/-- A mount of a new file system that reads both superblocks takes generation 1. -/
theorem Formatted.durable (h : Formatted total nodes s.disk) (ht : total + 7 < 2 ^ 64)
    (hcore : s.core = firstCore total nodes 1) : Durable s firstView := by
  have hc := Formatted.committed (s := { s with core := firstCore total nodes 0 }) ht h Nat.two_pos rfl
  refine ⟨⟨⟨_, _, h.committed ht Nat.one_lt_two hcore⟩, firstView_counted, firstView_unique⟩, ?_⟩
  rw [Spare, St.slot, hcore, show (firstCore total nodes 1).generation = 1 from rfl]
  refine ⟨_, h.super 0 Nat.two_pos, fun _ => ?_⟩
  rw [hc.toLive.onDisk.decode]
  exact Nat.zero_lt_one

section

variable (hboot : Booted total nodes s₀) (ht : total + 7 < 2 ^ 64)
  (hgen : s₀.core.generation = 1) (hreach : ReachVia CallOrCrash LeavesRoom s₀ s)

include hboot ht hgen hreach

theorem durable_of_reach : ∃ V, Durable s V := by
  refine ReachVia.invariant (P := fun s => ∃ V, Durable s V) ⟨firstView, ?_⟩ ?_ hreach
  · obtain ⟨disk, work, o, o', s₁, hmk, hmnt⟩ := hboot
    have hform : Formatted total nodes s₁.disk := Prog.post_of_run wp_gfsMkfs hmk
    have hmount : Wp (gfsMount true work) _ (mountInit s₁.disk).fresh := wp_mountFormatted ht hform
    obtain ⟨⟨gen, -, hc⟩, hd, -⟩ := Prog.post_of_run hmount hmnt
    obtain rfl : gen = 1 := (congrArg Core.generation hc).symm.trans hgen
    exact Formatted.durable (hd.symm ▸ hform) ht hc
  · rintro s c s' ⟨V, hV⟩ hroom (hrun | ⟨hrun, hcut, hwork, hmnt⟩)
    · exact (hV.call hroom hrun).2.1
    · obtain ⟨hmounts, hspare⟩ := hV.cut (hV.call hroom hrun).1 hcut
      obtain ⟨t, ht, rfl, hres⟩ := hmounts _ hwork
      obtain ⟨-, rfl⟩ := Prod.mk.inj (Option.some.inj (hmnt.symm.trans ht))
      exact ⟨V, hV.restored hres hspare⟩

variable (hroom : LeavesRoom s c) (hrun : Calls s (c, r) s')

include hroom hrun

/-- **A call is done as a whole or not at all**, wherever the device stops. -/
theorem cut_call_mounts_before : (∀ disk, CutShort s.disk s'.log disk → Mounts disk s) ∧
    Mounts s'.disk s' ∧ ∀ e, r = .error e → Restores s s' := by
  obtain ⟨V, hV⟩ := durable_of_reach hboot ht hgen hreach
  obtain ⟨hk, ⟨V', hV'⟩, herr⟩ := hV.call hroom hrun
  exact ⟨fun disk hcut => (hV.cut hk hcut).1, hV'.shown.mounts (fun _ _ _ => rfl) hV'.other, herr⟩

/-- **The generation before a commit is still there**, whatever the call did. -/
theorem lost_super_mounts_before {b : Bytes} (hb : sbValid b = false) :
    Mounts (update s'.disk s.slot (some b)) s := by
  obtain ⟨V, hV⟩ := durable_of_reach hboot ht hgen hreach
  refine hV.shown.mounts (fun i hi hne => ?_) (spare_of_invalid (update_self ..) hb)
  rw [update_of_ne hne]
  exact (hV.call hroom hrun).1.disk i hi hne

/-- **A call acts on the tree that the reading calls answer from**, or not at all. The files of the
old tree are kept. -/
theorem call_acts_on_tree : ∃ V, Shows s V ∧ V.graph.Unique ∧
    (∀ q a, Sees s q a ↔ a = V.answer s.core s.disk q) ∧
    (∀ id, content s'.disk (V.recs id) = content s.disk (V.recs id)) ∧
    ((∃ e, r = .error e) ∧ Shows s' V ∨
      ∃ v V', r = .ok v ∧ Effect s.core s.disk s'.disk V c v V' ∧ Shows s' V') := by
  obtain ⟨V, hV⟩ := durable_of_reach hboot ht hgen hreach
  obtain ⟨tbl, leak, hc⟩ := hV.shown
  exact ⟨V, hV.shown, hV.unique, fun q a => hc.sees_iff hV.counted,
    hV.shown.content (hV.call hroom hrun).1.disk,
    (hV.shown.step hV.counted hrun).imp_left fun h => ⟨h.1, h.2.1⟩⟩

end

/-- A directory is made on a new file system. -/
theorem exists_firstCommit : ∃ s₀ c s₁, Booted 1000 3 s₀ ∧ s₀.core.generation = 1 ∧
    LeavesRoom s₀ c ∧ Calls s₀ (c, .ok 2) s₁ := by
  obtain ⟨-, disk, work, o, o', s₁, hmk, -⟩ := exists_booted 1000 3 (by decide) (by decide)
  have hform : Formatted 1000 3 s₁.disk := Prog.post_of_run wp_gfsMkfs hmk
  have hdur := Formatted.durable (s := { s₁ with core := firstCore 1000 3 1 }) hform (by decide) rfl
  obtain ⟨s₀, hmnt, -, (hcore : s₀.core = firstCore 1000 3 1), -⟩ := hdur.shown.mounts
    (fun _ _ _ => rfl) hdur.other (some (gfsMountWorkSize 1000)) ⟨_, rfl, le_rfl⟩
  have hboot : Booted 1000 3 s₀ := ⟨disk, _, o, _, s₁, hmk, hmnt⟩
  have hgen : s₀.core.generation = 1 := congrArg Core.generation hcore
  have hst := stage_first (hboot.committed (by decide)).1 (congrArg Core.nodeCount hcore)
    (congrArg Core.totalBlocks hcore)
  obtain ⟨s', -, -, hrun, -⟩ := hst.first (.inl rfl) (letter_ok (b := 100) (by decide) (by decide))
  exact ⟨s₀, .createAt 1 _ _ 0, s', hboot, hgen, ⟨by rw [hgen]; decide, _, hst.shows,
    (by decide : 0 + 1 < 2 ^ 32)⟩, _, hrun⟩

theorem cut_create_mounts_before : ∃ s₀ s₁, Booted 1000 3 s₀ ∧
    (∀ disk, CutShort s₀.disk s₁.log disk → Mounts disk s₀) ∧ Mounts s₁.disk s₁ := by
  obtain ⟨s₀, c, s₁, hboot, hgen, hroom, hrun⟩ := exists_firstCommit
  have h := cut_call_mounts_before hboot (by decide) hgen ReachVia.refl hroom hrun
  exact ⟨s₀, s₁, hboot, h.1, h.2.1⟩

theorem lost_create_mounts_before : ∃ s₀ s₁ : St, Booted 1000 3 s₀ ∧
    Mounts (update s₁.disk s₀.slot (some zeroBlock)) s₀ := by
  obtain ⟨s₀, c, s₁, hboot, hgen, hroom, hrun⟩ := exists_firstCommit
  exact ⟨s₀, s₁, hboot, lost_super_mounts_before hboot (by decide) hgen ReachVia.refl hroom hrun
    sbValid_zeroBlock⟩

theorem create_acts_on_tree : ∃ s₀ V, Booted 1000 3 s₀ ∧ Shows s₀ V ∧
    ∀ q a, Sees s₀ q a ↔ a = V.answer s₀.core s₀.disk q := by
  obtain ⟨s₀, c, s₁, hboot, hgen, hroom, hrun⟩ := exists_firstCommit
  obtain ⟨V, hs, -, h, -⟩ := call_acts_on_tree hboot (by decide) hgen ReachVia.refl hroom hrun
  exact ⟨s₀, V, hboot, hs, h⟩

end Hallucinate.Gfs
