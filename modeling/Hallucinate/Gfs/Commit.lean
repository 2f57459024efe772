import Hallucinate.Gfs.View

/-!
# Starting and committing a transaction (`txn_begin`, `txn_commit`)

`txn_begin` turns a committed state into a transaction on its view (`wp_txnBegin`). `txn_commit`
writes the node map to a fresh block, the working bitmap to the inactive copy and the superblock to
the inactive slot; that last write is the first that touches the committed state (`Published`).

Results: `wp_txnCommit`, and `Published.live` and `Published.committed`: what is published is a live
state with the records and the tree of the transaction.
-/

namespace Hallucinate.Gfs

open Lib Multiset

variable {s₀ s s' : St} {tbl : Nat → Bp} {recs : Nat → DiskNode} {rest : Multiset Nat} {k : Nat}
  {Why : Err → Prop}

theorem wp_txnBegin (h : Live s tbl recs rest) (hlog : s.log = []) :
    Wp txnBegin (outcome (fun _ s' => Txn s tbl recs (s.core.nodemap.phys ::ₘ rest) 0 s' ∧
      s'.disk = s.disk ∧ s'.log = s.log) (Abort s Why)) s := by
  refine wp_getCore ?_
  rw [if_neg (by rw [h.geom.writable]; simp)]
  refine wp_setWorking ?_
  obtain ⟨m, hm, hcrc, hget⟩ := h.map
  have hsafe : Safe s s := ⟨rfl, fun _ _ => rfl, by simp [hlog]⟩
  have hnm : s.core.nodemap.phys ∈ tblBlocks tbl + (s.core.nodemap.phys ::ₘ rest) :=
    mem_add.mpr (Or.inr (mem_cons_self _ _))
  refine wp_readMeta (h.marks.range _ hnm).2 hm hcrc ⟨?_, rfl, rfl⟩ (hsafe.setWorking.setBuf.abort _)
  refine ⟨hsafe.setWorking.setBuf, h.geom, fun b hb => h.reserved hb,
    ⟨m, St.setBuf_same _ _ _, hget⟩, h.tables, _, rfl, h.marks, ?_, h.canon⟩
  rw [freshCount_self]

/-! ## The inactive bitmap copy -/

variable {c : Core} {b : Nat}

/-- The bitmap copies lie between the superblocks and the data. -/
theorem Geom.inactive_range (h : Geom c) (hb : Inactive c b) : 2 ≤ b ∧ b < dataFirst c := by
  have hstart := h.start
  have hmul := Nat.mul_le_mul_right c.bitmapBlocks (show (c.generation + 1) % 2 ≤ 1 by omega)
  unfold Inactive at hb
  rw [h.dataFirst_eq]
  omega

/-- Writing a block of the inactive bitmap copy. -/
theorem Txn.putInactive {d : Bytes} (h : Txn s₀ tbl recs rest k s) (hb : Inactive s₀.core b) :
    Txn s₀ tbl recs rest k (s.put b d) := by
  refine ⟨h.safe.put fun hs => hs.2 hb, h.geom, h.reserved, h.map,
    h.tables.congr fun b' hb' => ?_, h.work⟩
  have hlt := (h.geom.inactive_range hb).2
  have hge := (h.range (mem_add.mpr (Or.inl hb'))).1
  exact St.put_of_ne (by omega)

/-- What `write_bitmap` has done after the blocks `js`. -/
structure BitmapWritten (s₀ : St) (tbl : Nat → Bp) (recs : Nat → DiskNode) (rest : Multiset Nat)
    (k : Nat) (s : St) (w : Bytes) (n : Nat) (s' : St) : Prop where
  txn : Txn s₀ tbl recs rest k s'
  work : s'.working = some w
  done : ∀ j < n, s'.disk (s₀.core.bitmapStart + (s₀.core.generation + 1) % 2 * s₀.core.bitmapBlocks
    + j) = some (bitmapBlock s₀.core.bmBytes w j)
  frame : ∀ b, ¬Inactive s₀.core b → s'.disk b = s.disk b

variable {w : Bytes}

theorem wp_writeBitmap (h : Txn s₀ tbl recs rest k s) (hw : s.working = some w) :
    Wp (writeBitmap ((s₀.core.generation + 1) % 2)) (outcome
      (fun _ s' => BitmapWritten s₀ tbl recs rest k s w s₀.core.bitmapBlocks s') (Abort s₀ Why)) s := by
  refine wp_getCore ?_
  rw [h.safe.core]
  refine Wp.loop (I := fun n _ s' => BitmapWritten s₀ tbl recs rest k s w n s')
    ⟨h, hw, by simp, fun _ _ => rfl⟩ ?_
  rintro j _ s₁ hj ⟨h₁, hw₁, hdone, hframe⟩
  have hin : Inactive s₀.core
      (s₀.core.bitmapStart + (s₀.core.generation + 1) % 2 * s₀.core.bitmapBlocks + j) :=
    ⟨by omega, by omega⟩
  have hlt := (h.geom.inactive_range hin).2
  have hfirst := h.geom.first
  refine wp_getWorking hw₁ (wp_setBuf ?_)
  have h₂ : Txn s₀ tbl recs rest k (s₁.setBuf .b (some (bitmapBlock s₀.core.bmBytes w j))) :=
    h₁.setBuf (by decide)
  rw [h.geom.bitmapLba_eq _ hj]
  refine wp_bwrite (by rw [h₂.safe.core]; omega) (St.setBuf_same _ _ _) ?_ (h₂.safe.abort _)
  refine ⟨h₂.putInactive hin, hw₁, fun i hi => ?_, fun b hb => ?_⟩
  · by_cases hij : i = j
    · rw [hij, St.put_same]
    · rw [St.put_of_ne (by omega)]
      exact hdone i (by omega)
  · have hne : b ≠ s₀.core.bitmapStart
        + (s₀.core.generation + 1) % 2 * s₀.core.bitmapBlocks + j := fun e => hb (e ▸ hin)
    rw [St.put_of_ne hne]
    exact hframe b hb

/-! ## The commit -/

/-- The handle after a commit. -/
def nextCore (c : Core) (nodemap : Bp) (delta : Int) (w : Bytes) : Core :=
  { c with
    generation := (c.generation + 1) % 2 ^ 64, nodemap := nodemap,
    freeBlocks := countClear c.totalBlocks w,
    freeNodes := ((c.freeNodes + delta) % 2 ^ 64).toNat, committed := w }

/-- The state `s'` published from the transaction state `s`, with the blocks `rest` outside the
tables and the map. -/
structure Published (s₀ : St) (tbl : Nat → Bp) (rest : Multiset Nat) (delta : Int) (s s' : St) :
    Prop where
  core : ∃ mp m w, s'.core = nextCore s₀.core ⟨mp, blockCrc m⟩ delta w ∧ s'.disk mp = some m ∧
    (∀ slot < 256, mapGet m slot = tbl slot) ∧
    Marks (dataFirst s₀.core) s₀.core.totalBlocks (tblBlocks tbl + (mp ::ₘ rest)) w ∧
    ∀ i, s₀.core.bmBytes ≤ i → w i = 0
  frame : ∀ b ∈ tblBlocks tbl + rest, s'.disk b = s.disk b
  super : s'.disk ((s₀.core.generation + 1) % 2) = some (sbEncode (liveSuper s'.core))
  kept : ∀ b, Stable s₀.core b → b ≠ (s₀.core.generation + 1) % 2 → s'.disk b = s₀.disk b
  bitmap : ∀ j < s₀.core.bitmapBlocks, s'.disk (s₀.core.bitmapStart
    + (s₀.core.generation + 1) % 2 * s₀.core.bitmapBlocks + j)
      = some (bitmapBlock s₀.core.bmBytes s'.core.committed j)
  log : ∃ writes, s'.log = writes ++ [((s₀.core.generation + 1) % 2, sbEncode (liveSuper s'.core))] ∧
    ∀ x ∈ writes, ¬Stable s₀.core x.1

variable {delta : Int}

/-- **The commit**: every write before the superblock's leaves the committed state alone. -/
theorem wp_txnCommit (h : Txn s₀ tbl recs (s₀.core.nodemap.phys ::ₘ rest) k s)
    (hwhy : s₀.clear ≤ k → Why .enospc) :
    Wp (txnCommit delta) (outcome (fun _ s' => Published s₀ tbl rest delta s s') (Abort s₀ Why)) s := by
  have hpar : (s₀.core.generation + 1) % 2 ^ 64 % 2 = (s₀.core.generation + 1) % 2 := by omega
  refine wp_getCore ?_
  simp only [h.safe.core, hpar]
  refine Wp.bind (wp_allocBlock h hwhy) ?_
  rintro mp s₁ ⟨h₁, hfresh, hnew, w₁, rfl⟩
  have hmp := mem_cons_self mp (s₀.core.nodemap.phys ::ₘ rest)
  obtain ⟨m, hm, hget⟩ := h₁.map
  refine Wp.bind (P := fun bp s' => bp = ⟨mp, blockCrc m⟩ ∧ s' = (s.setWorking w₁).put mp m)
    (wp_writeMeta (by rw [h₁.safe.core]; exact (h₁.range_rest hmp).2) hm ⟨rfl, rfl⟩
      (h₁.safe.abort _)) ?_
  rintro bp s₂ ⟨rfl, rfl⟩
  have h₂ := h₁.put (d := m) hmp hfresh
  have hnm : s₀.core.nodemap.phys ∈ mp ::ₘ (s₀.core.nodemap.phys ::ₘ rest) :=
    mem_cons_of_mem (mem_cons_self _ _)
  have hne : s₀.core.nodemap.phys ≠ mp := fun e =>
    hnew (mem_add.mpr (Or.inr (e ▸ mem_cons_self _ _)))
  refine Wp.bind (P := fun _ s' => ∃ w₂, s' = ((s.setWorking w₁).put mp m).setWorking w₂ ∧
      Txn s₀ tbl recs (mp ::ₘ rest) (k + 1) s')
    (wp_freeBlock h₂ (h₂.range_rest hnm).1 (h₂.not_mem_tbl hnm) fun w₂ h₃ => ?_) ?_
  · rw [erase_cons_tail _ hne.symm, erase_cons_head] at h₃
    exact ⟨w₂, rfl, h₃⟩
  rintro _ s₃ ⟨w, rfl, h₃⟩
  refine wp_getCore (wp_getWorking rfl (Wp.bind (wp_writeBitmap h₃ rfl) ?_))
  rintro _ s₄ ⟨h₄, hw₄, hbm, hframe⟩
  refine wp_getWorking hw₄ (wp_setBuf ?_)
  have hslot : (s₀.core.generation + 1) % 2 < 2 := by omega
  have hfirst := h.geom.first
  have hstart := h.geom.start
  have hlt : (s₀.core.generation + 1) % 2 < s₀.core.totalBlocks := by
    rw [h.geom.dataFirst_eq] at hfirst
    omega
  refine Wp.bind (P := fun _ s' => s' = _) (wp_bwrite (by
    rw [St.setBuf_core, h₄.safe.core]; exact hlt) (St.setBuf_same _ _ _) rfl
      (h₄.safe.setBuf.abort _)) ?_
  rintro _ s₅ rfl
  refine wp_last (wp_setCore (wp_pure ?_))
  obtain ⟨w', hw', hok⟩ := h₄.work
  rw [hw₄] at hw'
  cases hw'
  -- the blocks of the published tree are neither in the inactive copy nor in a superblock slot
  have hkeep : ∀ b, dataFirst s₀.core ≤ b → ∀ (d : Bytes) (v : Option Bytes),
      ((s₄.setBuf .sb v).put ((s₀.core.generation + 1) % 2) d).disk b
        = (((s.setWorking w₁).put mp m).setWorking w).disk b := by
    intro b hb d v
    have hb2 : (s₀.core.generation + 1) % 2 < b := by
      rw [h.geom.dataFirst_eq] at hb
      omega
    rw [St.put_of_ne (by omega), St.setBuf_disk, hframe b fun hin => ?_]
    have := (h.geom.inactive_range hin).2
    omega
  have hcore : (((s.setWorking w₁).put mp m).setWorking w).core = s₀.core := h.safe.core
  refine ⟨⟨mp, m, w, ?_, ?_, hget, hok.marks, hok.canon⟩, fun b hb => ?_, ?_, fun b hb hne' => ?_,
    fun j hj => ?_, ?_⟩
  · show _ = nextCore s₀.core ⟨mp, blockCrc m⟩ delta w
    simp only [St.setCore, nextCore, hcore]
  · show ((s₄.setBuf .sb _).put _ _).disk mp = some m
    rw [hkeep mp (h₁.range_rest hmp).1]
    exact St.put_same _ _ _
  · show ((s₄.setBuf .sb _).put _ _).disk b = s.disk b
    have hb' : b ∈ tblBlocks tbl + (s₀.core.nodemap.phys ::ₘ rest) := by
      rcases mem_add.mp hb with hb | hb
      · exact mem_add.mpr (Or.inl hb)
      · exact mem_add.mpr (Or.inr (mem_cons_of_mem hb))
    rw [hkeep b (h.range hb').1]
    exact St.put_of_ne fun e => hnew (e ▸ hb')
  · show ((s₄.setBuf .sb _).put _ _).disk _ = _
    rw [St.put_same]
    simp only [liveSuper, superOf, St.setCore, hcore]
  · show ((s₄.setBuf .sb _).put _ _).disk b = _
    rw [St.put_of_ne hne', St.setBuf_disk]
    exact h₄.safe.disk b hb
  · show ((s₄.setBuf .sb _).put _ _).disk _ = _
    rw [St.put_of_ne (by omega), St.setBuf_disk, hbm j hj]
    rfl
  · refine ⟨s₄.log, ?_, h₄.safe.log⟩
    show s₄.log ++ [_] = _
    simp only [liveSuper, superOf, St.setCore, hcore]

theorem nextCore_geom {nodemap : Bp} (h : Geom c) : Geom (nextCore c nodemap delta w) := by
  refine ⟨⟨h.writable, h.fits, h.start, h.blocks, h.bytes, h.first, h.nodes, h.root,
    Nat.mod_lt _ (by decide), ?_⟩, h.total⟩
  show ((c.freeNodes + delta) % 2 ^ 64).toNat < 2 ^ 64
  omega

/-- **What is published is a live state**, with the records of the transaction. -/
theorem Published.live (hg : Geom s₀.core) (h : Published s₀ tbl rest delta s s')
    (htab : TableAt s.disk tbl recs) : Live s' tbl recs rest := by
  obtain ⟨mp, m, w, hcore, hm, hget, hmarks, hcanon⟩ := h.core
  have hpar : (s₀.core.generation + 1) % 2 ^ 64 % 2 = (s₀.core.generation + 1) % 2 := by omega
  have hbm := h.bitmap
  have hsb := h.super
  have htab' := htab.congr fun b hb => h.frame b (mem_add.mpr (Or.inl hb))
  refine ⟨?_, ?_, htab', ?_, ?_, ?_, ?_, ?_⟩
  · rw [hcore]
    exact nextCore_geom hg
  · rw [hcore]
    exact ⟨m, hm, rfl, hget⟩
  · rw [hcore]
    exact hmarks
  · rw [hcore]
    exact hcanon
  · intro j hj
    rw [hcore] at hj hbm ⊢
    simp only [nextCore, hpar] at hj hbm ⊢
    exact hbm j hj
  · rw [hcore] at hsb ⊢
    simp only [nextCore, hpar] at hsb ⊢
    exact hsb
  · rw [St.clear, hcore]
    rfl

variable {V : View} {leak : Multiset Nat}

/-- The tree of the transaction is published with it. -/
theorem Published.committed (hg : Geom s₀.core)
    (h : Published s₀ tbl (leak + V.held s₀.core.nodeCount) delta s s')
    (htab : TableAt s.disk tbl V.recs) (hview : ViewAt s.disk s₀.core.nodeCount V) :
    Committed s' tbl V leak := by
  have hcount : s'.core.nodeCount = s₀.core.nodeCount := by
    obtain ⟨mp, m, w, hcore, -⟩ := h.core
    rw [hcore]
    rfl
  refine ⟨?_, ?_⟩
  · rw [hcount]
    exact h.live hg htab
  · rw [hcount]
    exact hview.congr fun id b hb => h.frame b (mem_add.mpr (Or.inr
      (mem_add.mpr (Or.inr (View.mem_held (hview.lt hb) hb)))))

/-- The commit of a transaction whose blocks are all accounted to nodes or leaked. -/
theorem wp_commit (h : Txn s₀ tbl V.recs (heldBlocks s₀.core V leak) k s)
    (hview : ViewAt s.disk s₀.core.nodeCount V) (hwhy : s₀.clear ≤ k → Why .enospc) :
    Wp (txnCommit delta) (outcome (fun _ s' => Committed s' tbl V leak ∧
      ∃ rest, Published s₀ tbl rest delta s s') (Abort s₀ Why)) s :=
  (wp_txnCommit h hwhy).post fun _ _ hp => ⟨hp.committed h.geom h.tables hview, _, hp⟩

end Hallucinate.Gfs
