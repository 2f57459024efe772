import Hallucinate.Gfs.Mount
import Hallucinate.Gfs.Rules

/-!
# A transaction in progress

A mutating call works on the state left by the last commit, here `s₀`. What a call may never touch
is `Stable`: the blocks marked in the committed bitmap, apart from the bitmap copy that the next
commit writes. `Safe s₀ s` says that `s` differs from `s₀` in nothing stable and that no write so far
hit a stable block; a call that gives up anywhere leaves such a state (`Abort`).

`Txn s₀ tbl recs rest k s` is a transaction in progress: the node map in memory has the table blocks
`tbl`, which hold the node records `recs`; the working bitmap marks those table blocks and the blocks
`rest`, each once; and at most `k` blocks are newly marked.

Results: reading a node record needs only the node map in memory (`Loaded`) and changes only scratch
buffers (`wp_nodeRead`); what writing a record, allocating, freeing and writing a block do to a
transaction is in `wp_nodeWrite`, `wp_allocBlock`, `wp_allocNear`, `wp_freeBlock` and
`wp_bwriteFresh`. Each of them ends in a `Txn` or in an `Abort`. The predicate `Why` of an abort
collects the reasons other than a failed device operation.
-/

namespace Hallucinate.Gfs

open Lib Function Multiset

/-! ## Stable blocks -/

/-- The sizes of a writable mount. -/
structure Shape (c : Core) : Prop where
  writable : c.writable = true
  fits : c.totalBlocks < 2 ^ 64
  start : c.bitmapStart = 2
  blocks : c.bitmapBlocks = bitmapBlocksFor c.totalBlocks
  bytes : c.bmBytes = bitmapBytes c.totalBlocks
  first : dataFirst c + 2 ≤ c.totalBlocks
  nodes : 2 ≤ c.nodeCount ∧ c.nodeCount ≤ 4096
  root : c.rootNode = 1
  gen : c.generation < 2 ^ 64
  freeNodes : c.freeNodes < 2 ^ 64

/-- The geometry of a writable mount: its bitmap has a bit for every block. -/
structure Geom (c : Core) : Prop extends Shape c where
  total : c.totalBlocks + 7 < 2 ^ 64

section Arithmetic

variable {c : Core} {j : Nat}

theorem bitmapBytes_lt (total : Nat) : bitmapBytes total < 2 ^ 61 := by
  unfold bitmapBytes
  omega

theorem Shape.blocks_pos (h : Shape c) : 1 ≤ c.bitmapBlocks := by
  rw [h.blocks]
  exact Nat.le_max_right _ _

theorem Shape.blocks_le (h : Shape c) : c.bitmapBlocks ≤ 2 ^ 49 := by
  have hlt := bitmapBytes_lt c.totalBlocks
  rw [h.blocks]
  unfold bitmapBlocksFor
  omega

/-- In the geometry of a mount nothing wraps around. -/
theorem Shape.dataFirst_eq (h : Shape c) : dataFirst c = 2 + 2 * c.bitmapBlocks := by
  have hle := h.blocks_le
  unfold dataFirst
  rw [h.start]
  omega

theorem Shape.bitmapLba_eq (h : Shape c) (gen : Nat) (hj : j < c.bitmapBlocks) :
    bitmapLba c (gen % 2) j = c.bitmapStart + gen % 2 * c.bitmapBlocks + j := by
  have hle := h.blocks_le
  have hmul := Nat.mul_le_mul_right c.bitmapBlocks (show gen % 2 ≤ 1 by omega)
  unfold bitmapLba
  rw [h.start]
  omega

/-- The part of a bitmap in its block `j`. -/
theorem bitmapChunk_eq {bmBytes : Nat} (hlt : bmBytes < 2 ^ 64) (hj : j * 4096 ≤ bmBytes) :
    bitmapOff j = j * 4096 ∧ bitmapChunk bmBytes (bitmapOff j) = min (bmBytes - j * 4096) 4096 := by
  have hoff : bitmapOff j = j * 4096 := Nat.mod_eq_of_lt (by omega)
  refine ⟨hoff, ?_⟩
  unfold bitmapChunk
  rw [hoff]
  omega

theorem le_bitmapBytes {total : Nat} (hj : j < bitmapBlocksFor total) :
    j * 4096 ≤ bitmapBytes total := by
  unfold bitmapBlocksFor at hj
  omega

theorem Shape.chunk_eq (h : Shape c) (hj : j < c.bitmapBlocks) :
    bitmapOff j = j * 4096 ∧
      bitmapChunk c.bmBytes (bitmapOff j) = min (c.bmBytes - j * 4096) 4096 := by
  have hlt := bitmapBytes_lt c.totalBlocks
  rw [h.bytes]
  exact bitmapChunk_eq (by omega) (le_bitmapBytes (h.blocks ▸ hj))

end Arithmetic

/-- Block `b` is in the bitmap copy that the next commit writes. -/
def Inactive (c : Core) (b : Nat) : Prop :=
  c.bitmapStart + (c.generation + 1) % 2 * c.bitmapBlocks ≤ b ∧
    b < c.bitmapStart + (c.generation + 1) % 2 * c.bitmapBlocks + c.bitmapBlocks

/-- Block `b` belongs to the committed state. -/
def Stable (c : Core) (b : Nat) : Prop := bitTest c.committed b = true ∧ ¬Inactive c b

theorem not_stable {c : Core} {b : Nat} (h : bitTest c.committed b = false) : ¬Stable c b :=
  fun hs => by
    have ht := hs.1
    rw [h] at ht
    cases ht

structure Safe (s₀ s : St) : Prop where
  core : s.core = s₀.core
  disk : ∀ b, Stable s₀.core b → s.disk b = s₀.disk b
  log : ∀ x ∈ s.log, ¬Stable s₀.core x.1

/-- The outcome of a call that gave up: by a failed device operation, or for a reason in `Why`. -/
def Abort (s₀ : St) (Why : Err → Prop) (e : Err) (s : St) : Prop :=
  Safe s₀ s ∧ (s.failed = true ∨ Why e)

namespace Safe

variable {s₀ s : St} {dst : Buf} {v : Option Bytes} {w d : Bytes} {b : Nat} {Why : Err → Prop}

section

variable (h : Safe s₀ s)
include h

theorem setBuf : Safe s₀ (s.setBuf dst v) := ⟨h.core, h.disk, h.log⟩

theorem setWorking : Safe s₀ (s.setWorking w) := ⟨h.core, h.disk, h.log⟩

theorem fault : Safe s₀ s.fault := ⟨h.core, h.disk, h.log⟩

theorem put (hb : ¬Stable s₀.core b) : Safe s₀ (s.put b d) := by
  refine ⟨h.core, fun b' hb' => ?_, fun x hx => ?_⟩
  · have hne : b' ≠ b := fun e => hb (e ▸ hb')
    rw [St.put_of_ne hne]
    exact h.disk b' hb'
  · rw [St.put_log, List.mem_append, List.mem_singleton] at hx
    rcases hx with hx | rfl
    · exact h.log x hx
    · exact hb

/-- A device failure ends in an abort. -/
theorem abort (e : Err) : Abort s₀ Why e s.fault := ⟨h.fault, Or.inl rfl⟩

theorem abort_why {e : Err} (he : Why e) : Abort s₀ Why e s := ⟨h, Or.inr he⟩

end

end Safe

/-! ## Table blocks -/

/-- The block a pointer holds, if any. -/
def Bp.blocks (bp : Bp) : Multiset Nat := if bp.phys = 0 then 0 else {bp.phys}

/-- The table blocks of a node map. -/
def tblBlocks (tbl : Nat → Bp) : Multiset Nat := ∑ slot ∈ Finset.range 256, (tbl slot).blocks

/-- The table blocks `tbl` hold the node records `recs`; a slot without a block has free nodes. -/
def TableAt (disk : Nat → Option Bytes) (tbl : Nat → Bp) (recs : Nat → DiskNode) : Prop :=
  ∀ slot < 256,
    if (tbl slot).phys = 0 then ∀ k < 16, recs (slot * 16 + k) = zeroNode
    else ∃ blk, disk (tbl slot).phys = some blk ∧ blockCrc blk = (tbl slot).crc ∧
      ∀ k < 16, nodeDecode blk (k * 256) = recs (slot * 16 + k)

theorem Bp.mem_blocks {bp : Bp} {b : Nat} : b ∈ bp.blocks ↔ bp.phys ≠ 0 ∧ b = bp.phys := by
  unfold Bp.blocks
  split <;> simp_all

theorem mem_tblBlocks {tbl : Nat → Bp} {b : Nat} :
    b ∈ tblBlocks tbl ↔ ∃ slot < 256, (tbl slot).phys ≠ 0 ∧ b = (tbl slot).phys := by
  unfold tblBlocks
  simp only [mem_sum, Finset.mem_range, Bp.mem_blocks]

variable {bi : Nat}

theorem tblBlocks_update (tbl : Nat → Bp) (hbi : bi < 256) (bp : Bp) :
    tblBlocks (update tbl bi bp) + (tbl bi).blocks = tblBlocks tbl + bp.blocks := by
  have hfun : (fun slot => (update tbl bi bp slot).blocks)
      = update (fun slot => (tbl slot).blocks) bi bp.blocks := by
    funext slot
    by_cases h : slot = bi
    · subst h; simp
    · simp [h]
  unfold tblBlocks
  rw [hfun]
  exact sum_update_add (Finset.mem_range.mpr hbi) (fun slot => (tbl slot).blocks) bp.blocks

theorem TableAt.congr {disk disk' : Nat → Option Bytes} {tbl : Nat → Bp} {recs : Nat → DiskNode}
    (h : TableAt disk tbl recs) (hd : ∀ b ∈ tblBlocks tbl, disk' b = disk b) :
    TableAt disk' tbl recs := by
  intro slot hslot
  have hs := h slot hslot
  split
  · rename_i h0
    rwa [if_pos h0] at hs
  · rename_i h0
    rw [if_neg h0] at hs
    rwa [hd _ (mem_tblBlocks.mpr ⟨slot, hslot, h0, rfl⟩)]

/-! ## Reading -/

/-- An id that `node_read` accepts. -/
def ValidId (c : Core) (id : Nat) : Prop := id ≠ 0 ∧ id < c.nodeCount

/-- The node map is in memory: its table blocks are `tbl`, and they hold the records `recs`. -/
structure Loaded (s₀ : St) (tbl : Nat → Bp) (recs : Nat → DiskNode) (s : St) : Prop where
  safe : Safe s₀ s
  nodes : s₀.core.nodeCount ≤ 4096
  map : ∃ m, s.buf .map = some m ∧ ∀ slot < 256, mapGet m slot = tbl slot
  tables : TableAt s.disk tbl recs
  range : ∀ b ∈ tblBlocks tbl, b < s₀.core.totalBlocks

/-- The states agree but for scratch buffers and the failure flag. -/
structure Scratch (s s' : St) : Prop where
  core : s'.core = s.core
  working : s'.working = s.working
  disk : s'.disk = s.disk
  log : s'.log = s.log
  map : s'.buf .map = s.buf .map

variable {id : Nat}

section Reading

variable {s₀ s s' : St} {tbl : Nat → Bp} {recs : Nat → DiskNode} {Why : Err → Prop}

theorem Scratch.refl (s : St) : Scratch s s := ⟨rfl, rfl, rfl, rfl, rfl⟩

theorem Scratch.trans {s'' : St} (h : Scratch s s') (h' : Scratch s' s'') : Scratch s s'' :=
  ⟨h'.core.trans h.core, h'.working.trans h.working, h'.disk.trans h.disk, h'.log.trans h.log,
    h'.map.trans h.map⟩

theorem Scratch.setBuf (s : St) {dst : Buf} {v : Option Bytes} (hd : dst ≠ .map) :
    Scratch s (s.setBuf dst v) :=
  ⟨rfl, rfl, rfl, rfl, St.setBuf_of_ne (Ne.symm hd)⟩

theorem Safe.scratch (h : Safe s₀ s) (hs : Scratch s s') : Safe s₀ s' :=
  ⟨hs.core.trans h.core, fun b hb => by rw [hs.disk]; exact h.disk b hb,
    fun x hx => h.log x (by rwa [hs.log] at hx)⟩

theorem Loaded.scratch (h : Loaded s₀ tbl recs s) (hs : Scratch s s') : Loaded s₀ tbl recs s' :=
  ⟨h.safe.scratch hs, h.nodes, by rw [hs.map]; exact h.map, by rw [hs.disk]; exact h.tables,
    h.range⟩

theorem slot_lt (h : id < 4096) : id / 16 < 256 := by omega

theorem slot_split (id : Nat) : id / 16 * 16 + id % 16 = id := by omega

/-- A table block that the map points to is on disk. -/
theorem Loaded.table (h : Loaded s₀ tbl recs s) {slot : Nat} (hs : slot < 256)
    (h0 : (tbl slot).phys ≠ 0) : (tbl slot).phys < s.core.totalBlocks ∧
      ∃ blk, s.disk (tbl slot).phys = some blk ∧ blockCrc blk = (tbl slot).crc ∧
        ∀ k < 16, nodeDecode blk (k * 256) = recs (slot * 16 + k) := by
  have ht := h.tables slot hs
  rw [if_neg h0] at ht
  refine ⟨?_, ht⟩
  rw [h.safe.core]
  exact h.range _ (mem_tblBlocks.mpr ⟨slot, hs, h0, rfl⟩)

/-- **Reading a node record** gives the record the map leads to. -/
theorem wp_nodeRead (h : Loaded s₀ tbl recs s) (hwhy : ¬ValidId s₀.core id → Why .einval) :
    Wp (nodeRead id) (outcome (fun n s' => n = recs id ∧ ValidId s₀.core id ∧ Scratch s s')
      (Abort s₀ Why)) s := by
  refine wp_getCore ?_
  rw [h.safe.core]
  refine wp_guard (fun hid => h.safe.abort_why (hwhy fun hv => ?_)) fun hid => ?_
  · exact hid.elim hv.1 (Nat.not_le.mpr hv.2)
  have hv : ValidId s₀.core id := ⟨fun h0 => hid (.inl h0), by omega⟩
  have hslot : id / 16 < 256 := slot_lt (hv.2.trans_le h.nodes)
  obtain ⟨m, hm, hget⟩ := h.map
  refine wp_getBuf hm ?_
  simp only [hget _ hslot]
  by_cases h0 : (tbl (id / 16)).phys = 0
  · rw [if_pos h0]
    have ht := h.tables _ hslot
    rw [if_pos h0] at ht
    have hz := ht (id % 16) (by omega)
    rw [slot_split] at hz
    exact wp_pure ⟨hz.symm, hv, Scratch.refl s⟩
  · rw [if_neg h0]
    obtain ⟨hrange, blk, hblk, hcrc, hrecs⟩ := h.table hslot h0
    refine wp_fetchMeta hrange hblk hcrc (h.safe.setBuf.abort _)
      (wp_pure ⟨?_, hv, Scratch.setBuf s (by decide)⟩)
    have hrec := hrecs (id % 16) (by omega)
    rwa [slot_split] at hrec

end Reading

/-! ## Transactions -/

/-- The free blocks of the committed state. -/
def St.clear (s : St) : Nat := countClear s.core.totalBlocks s.core.committed

/-- The working bitmap marks `held`, and at most `k` blocks more than the committed one. -/
structure WorkOk (c : Core) (held : Multiset Nat) (k : Nat) (w : Bytes) : Prop where
  marks : Marks (dataFirst c) c.totalBlocks held w
  fresh : freshCount c.totalBlocks c.committed w ≤ k
  canon : ∀ i, c.bmBytes ≤ i → w i = 0

structure Txn (s₀ : St) (tbl : Nat → Bp) (recs : Nat → DiskNode) (rest : Multiset Nat) (k : Nat)
    (s : St) : Prop where
  safe : Safe s₀ s
  geom : Geom s₀.core
  reserved : ∀ b < dataFirst s₀.core, bitTest s₀.core.committed b = true
  map : ∃ m, s.buf .map = some m ∧ ∀ slot < 256, mapGet m slot = tbl slot
  tables : TableAt s.disk tbl recs
  work : ∃ w, s.working = some w ∧ WorkOk s₀.core (tblBlocks tbl + rest) k w

variable {s₀ s : St} {tbl : Nat → Bp} {recs : Nat → DiskNode} {rest : Multiset Nat} {k : Nat}
  {Why : Err → Prop}

namespace Txn

section

variable (h : Txn s₀ tbl recs rest k s)
include h

theorem marks : ∃ w, s.working = some w ∧
    Marks (dataFirst s₀.core) s₀.core.totalBlocks (tblBlocks tbl + rest) w := by
  obtain ⟨w, hw, hok⟩ := h.work
  exact ⟨w, hw, hok.marks⟩

/-- Held blocks are data blocks. -/
theorem range {b : Nat} (hb : b ∈ tblBlocks tbl + rest) :
    dataFirst s₀.core ≤ b ∧ b < s₀.core.totalBlocks := by
  obtain ⟨w, -, hm⟩ := h.marks
  exact hm.range b hb

theorem range_rest {b : Nat} (hb : b ∈ rest) : dataFirst s₀.core ≤ b ∧ b < s₀.core.totalBlocks :=
  h.range (mem_add.mpr (Or.inr hb))

/-- No block is held twice. -/
theorem nodup : (tblBlocks tbl + rest).Nodup := by
  obtain ⟨w, -, hm⟩ := h.marks
  exact hm.nodup

theorem not_mem_tbl {b : Nat} (hb : b ∈ rest) : b ∉ tblBlocks tbl :=
  fun hb' => disjoint_left.mp (nodup_add.mp h.nodup).2.2 hb' hb

theorem loaded : Loaded s₀ tbl recs s :=
  ⟨h.safe, h.geom.nodes.2, h.map, h.tables,
    fun _ hb => (h.range (mem_add.mpr (Or.inl hb))).2⟩

theorem scratch {s' : St} (hs : Scratch s s') : Txn s₀ tbl recs rest k s' :=
  ⟨h.safe.scratch hs, h.geom, h.reserved, by rw [hs.map]; exact h.map,
    by rw [hs.disk]; exact h.tables, by rw [hs.working]; exact h.work⟩

theorem data_pos : 0 < dataFirst s₀.core := by
  have := h.geom.dataFirst_eq
  omega

theorem setBuf {dst : Buf} {v : Option Bytes} (hd : dst ≠ .map) :
    Txn s₀ tbl recs rest k (s.setBuf dst v) :=
  h.scratch (Scratch.setBuf s hd)

/-- Writing a fresh block that is held outside the tables. -/
theorem put {b : Nat} {d : Bytes} (hb : b ∈ rest) (hc : bitTest s₀.core.committed b = false) :
    Txn s₀ tbl recs rest k (s.put b d) := by
  refine ⟨h.safe.put (not_stable hc), h.geom, h.reserved, h.map,
    h.tables.congr fun b' hb' => ?_, h.work⟩
  exact St.put_of_ne fun e => h.not_mem_tbl hb (e ▸ hb')

theorem mono {k' : Nat} (hk : k ≤ k') : Txn s₀ tbl recs rest k' s := by
  obtain ⟨w, hw, hok⟩ := h.work
  exact ⟨h.safe, h.geom, h.reserved, h.map, h.tables, w, hw, hok.marks, hok.fresh.trans hk,
    hok.canon⟩

end

end Txn

/-! ## The allocator -/

theorem bmBytes_bound {c : Core} (hg : Geom c) {b : Nat} (hb : b < c.totalBlocks) :
    b / 8 < c.bmBytes := by
  have ht := hg.total
  rw [hg.bytes, bitmapBytes, Nat.mod_eq_of_lt ht]
  omega

/-- What a newly allocated block `b` is, and what the allocation did. -/
structure Grown (s₀ : St) (tbl : Nat → Bp) (recs : Nat → DiskNode) (rest : Multiset Nat) (k : Nat)
    (s : St) (b : Nat) (s' : St) : Prop where
  txn : Txn s₀ tbl recs (b ::ₘ rest) (k + 1) s'
  fresh : bitTest s₀.core.committed b = false
  new : b ∉ tblBlocks tbl + rest
  same : ∃ w, s' = s.setWorking w

variable {Q : Except Err Unit → St → Prop}

section

variable (h : Txn s₀ tbl recs rest k s)
include h

theorem Txn.grow {w : Bytes} {b : Nat} (hw : s.working = some w) (h1 : dataFirst s₀.core ≤ b)
    (h2 : b < s₀.core.totalBlocks) (hc : bitTest s₀.core.committed b = false)
    (hb : bitTest w b = false) : Grown s₀ tbl recs rest k s b (s.setWorking (bitSet w b)) := by
  obtain ⟨w', hw', hok⟩ := h.work
  rw [hw] at hw'
  cases hw'
  refine ⟨⟨h.safe.setWorking, h.geom, h.reserved, h.map, h.tables, _, rfl, ?_, ?_, ?_⟩, hc,
    hok.marks.not_mem_of_clear hb, _, rfl⟩
  · have hset := hok.marks.set h1 h2 hb
    rwa [← add_cons] at hset
  · have hone := freshCount_bitSet s₀.core.totalBlocks s₀.core.committed w b
    have := hok.fresh
    omega
  · intro i hi
    rw [bitSet_of_ne (by have := bmBytes_bound h.geom h2; omega)]
    exact hok.canon i hi

/-- **An allocation takes a block that neither the committed state nor the transaction holds.** It
only fails when the transaction has taken every free block. -/
theorem wp_allocBlock (hwhy : s₀.clear ≤ k → Why .enospc) :
    Wp allocBlock (outcome (Grown s₀ tbl recs rest k s) (Abort s₀ Why)) s := by
  obtain ⟨w, hw, hok⟩ := h.work
  refine wp_getCore (wp_getWorking hw ?_)
  rw [h.safe.core]
  cases hf : firstFree s₀.core w with
  | none =>
    refine wp_fail (h.safe.abort_why (hwhy ?_))
    have hall := List.find?_eq_none.mp hf
    refine Nat.le_trans (countClear_le_fresh h.reserved fun i hi hi' => ?_) hok.fresh
    have hi'' := hall i (List.mem_range'_1.mpr ⟨hi, by omega⟩)
    cases hc : bitTest s₀.core.committed i <;> cases hb : bitTest w i <;> simp_all
  | some b =>
    have hmem := List.mem_range'_1.mp (List.mem_of_find?_eq_some hf)
    have hfree := List.find?_some hf
    simp only [Bool.and_eq_true, Bool.not_eq_true'] at hfree
    have hfirst := h.geom.first
    exact wp_setWorking (h.grow hw hmem.1 (by omega) hfree.1 hfree.2)

theorem wp_allocNear (hwhy : s₀.clear ≤ k → Why .enospc) (hint : Nat) :
    Wp (allocNear hint) (outcome (Grown s₀ tbl recs rest k s) (Abort s₀ Why)) s := by
  obtain ⟨w, hw, hok⟩ := h.work
  refine wp_getCore (wp_getWorking hw ?_)
  rw [h.safe.core]
  split
  · rename_i hc
    exact wp_setWorking (h.grow hw hc.1 hc.2.1 hc.2.2.1 hc.2.2.2)
  · exact wp_allocBlock h hwhy

/-- A transaction with a bitmap in which `l` has been cleared. -/
theorem Txn.release {w : Bytes} {b : Nat} (hw : s.working = some w) (h1 : dataFirst s₀.core ≤ b)
    (hb : b ∉ tblBlocks tbl) : Txn s₀ tbl recs (rest.erase b) k (s.setWorking (bitClr w b)) := by
  obtain ⟨w', hw', hok⟩ := h.work
  rw [hw] at hw'
  cases hw'
  refine ⟨h.safe.setWorking, h.geom, h.reserved, h.map, h.tables, _, rfl, ?_, ?_, ?_⟩
  · have hclr := hok.marks.clr (b := b) h1
    rwa [erase_add_right_neg _ hb] at hclr
  · exact (freshCount_bitClr _ _ _ _).trans hok.fresh
  · intro i hi
    by_cases hbyte : i = b / 8
    · -- the byte past the bitmap is zero already, and clearing a bit keeps it so
      subst hbyte
      rw [bitClr, update_self, hok.canon _ hi, UInt8.zero_and]
    · rw [bitClr_of_ne hbyte]
      exact hok.canon i hi

/-- Freeing a block outside the tables; one that is not held may be freed again. -/
theorem wp_freeBlock {b : Nat} (h1 : dataFirst s₀.core ≤ b) (hb : b ∉ tblBlocks tbl)
    (hok : ∀ w, Txn s₀ tbl recs (rest.erase b) k (s.setWorking w) → Q (.ok ()) (s.setWorking w)) :
    Wp (freeBlock b) Q s := by
  have hpos := h.data_pos
  obtain ⟨w, hw, -⟩ := h.work
  unfold freeBlock
  rw [if_neg (by omega)]
  exact wp_getWorking hw (wp_last (wp_setWorking (hok _ (h.release hw h1 hb))))

/-- Writing a buffer to a block allocated in this transaction. -/
theorem wp_bwriteFresh {b : Nat} {src : Buf} {d : Bytes} (hb : b ∈ rest)
    (hc : bitTest s₀.core.committed b = false) (hsrc : s.buf src = some d)
    (hok : Txn s₀ tbl recs rest k (s.put b d) → Q (.ok ()) (s.put b d))
    (herr : Q (.error .eio) s.fault) : Wp (bwrite b src) Q s :=
  wp_bwrite (by rw [h.safe.core]; exact (h.range_rest hb).2) hsrc (hok (h.put hb hc)) herr

/-! ## Writing node records -/

theorem wp_loadTable (hbi : bi < 256) : Wp (loadTable (tbl bi))
      (outcome (fun _ s' => ∃ t, s' = s.setBuf .tbl (some t) ∧
        ∀ k < 16, nodeDecode t (k * 256) = recs (bi * 16 + k)) (Abort s₀ Why)) s := by
  unfold loadTable
  by_cases h0 : (tbl bi).phys = 0
  · rw [if_pos h0]
    have ht := h.tables bi hbi
    rw [if_pos h0] at ht
    refine wp_last (wp_setBuf (wp_pure ⟨zeroBlock, rfl, fun j hj => ?_⟩))
    rw [nodeDecode_zeroBlock, ht j hj]
  · rw [if_neg h0]
    obtain ⟨hrange, blk, hblk, hcrc, hrecs⟩ := h.loaded.table hbi h0
    exact wp_readMeta hrange hblk hcrc ⟨blk, rfl, hrecs⟩ (h.safe.setBuf.abort _)

end

variable {n : DiskNode}

variable {t : Bytes}

/-- A table block with one record replaced. -/
theorem nodeEncode_table (hn : n.Fits)
    (ht : ∀ k < 16, nodeDecode t (k * 256) = recs (id / 16 * 16 + k)) :
    ∀ k < 16, nodeDecode (nodeEncode t (id % 16 * 256) n) (k * 256)
      = update recs id n (id / 16 * 16 + k) := by
  intro j hj
  by_cases hjk : j = id % 16
  · subst hjk
    rw [nodeDecode_nodeEncode _ _ hn, slot_split, update_self]
  · rw [nodeDecode_nodeEncode_of_ne (by omega), ht j hj, update_of_ne (by omega)]

/-- Pointing a slot of the map at a fresh table block: the old block is left outside the tables. -/
theorem Txn.repoint {phys : Nat} {m : Bytes} (h : Txn s₀ tbl recs (phys ::ₘ rest) k s)
    (hid : id < 4096) (hm : s.buf .map = some m) (hd : s.disk phys = some t)
    (ht : ∀ k < 16, nodeDecode t (k * 256) = update recs id n (id / 16 * 16 + k)) :
    Txn s₀ (update tbl (id / 16) ⟨phys, blockCrc t⟩) (update recs id n)
      ((tbl (id / 16)).blocks + rest) k
      (s.setBuf .map (some (mapSet m (id / 16) ⟨phys, blockCrc t⟩))) := by
  have hslot := slot_lt hid
  have hphys := h.range_rest (mem_cons_self phys rest)
  have htot := h.geom.total
  have hfits : (⟨phys, blockCrc t⟩ : Bp).Fits := ⟨by simp only; omega, crc32c_lt _⟩
  have hne : phys ≠ 0 := by have := h.data_pos; omega
  refine ⟨h.safe.setBuf, h.geom, h.reserved, ⟨_, St.setBuf_same _ _ _, fun slot hs => ?_⟩, ?_, ?_⟩
  · obtain ⟨m', hm', hget⟩ := h.map
    rw [hm] at hm'
    cases hm'
    rw [mapGet_mapSet _ _ _ hfits]
    by_cases he : slot = id / 16
    · rw [if_pos he, he, update_self]
    · rw [if_neg he, update_of_ne he, hget slot hs]
  · intro slot hs
    by_cases he : slot = id / 16
    · subst he
      rw [update_self, if_neg hne]
      exact ⟨t, hd, rfl, ht⟩
    · -- another slot: the same table block, and none of its records is `id`
      have hrec : ∀ k < 16, update recs id n (slot * 16 + k) = recs (slot * 16 + k) :=
        fun j hj => update_of_ne (by omega) _ _
      have hold := h.tables slot hs
      rw [update_of_ne he]
      split
      · rename_i h0
        rw [if_pos h0] at hold
        exact fun j hj => (hrec j hj).trans (hold j hj)
      · rename_i h0
        rw [if_neg h0] at hold
        obtain ⟨blk, h1, h2, h3⟩ := hold
        exact ⟨blk, h1, h2, fun j hj => (h3 j hj).trans (hrec j hj).symm⟩
  · obtain ⟨w, hw, hok⟩ := h.work
    refine ⟨w, hw, ?_, hok.fresh, hok.canon⟩
    have hsum := tblBlocks_update tbl hslot ⟨phys, blockCrc t⟩
    have hb : (⟨phys, blockCrc t⟩ : Bp).blocks = {phys} := if_neg hne
    have heq : tblBlocks tbl + (phys ::ₘ rest) =
        tblBlocks (update tbl (id / 16) ⟨phys, blockCrc t⟩)
          + ((tbl (id / 16)).blocks + rest) := by
      rw [← add_assoc, hsum, hb, ← singleton_add, add_assoc]
    rw [← heq]
    exact hok.marks

/-- The table block of node `id` has moved, or is new; the others are where they were. -/
structure Repoints (tbl : Nat → Bp) (id : Nat) (tbl' : Nat → Bp) : Prop where
  here : (tbl' (id / 16)).phys ≠ 0
  other : ∀ slot, slot ≠ id / 16 → tbl' slot = tbl slot

/-- **Writing a node record** replaces it in the transaction, at the cost of one block, and leaves
every block outside the tables alone. -/
theorem wp_nodeWrite (h : Txn s₀ tbl recs rest k s) (hid : id < s₀.core.nodeCount) (hn : n.Fits)
    (hwhy : s₀.clear ≤ k → Why .enospc) :
    Wp (nodeWrite id n) (outcome (fun _ s' => ∃ tbl', Txn s₀ tbl' (update recs id n) rest
      (k + 1) s' ∧ (∀ b ∈ rest, s'.disk b = s.disk b) ∧ Repoints tbl id tbl') (Abort s₀ Why)) s := by
  have hid' : id < 4096 := hid.trans_le h.geom.nodes.2
  have hslot := slot_lt hid'
  obtain ⟨m, hm, hget⟩ := h.map
  refine wp_getBuf hm ?_
  simp only [hget _ hslot]
  refine Wp.bind (wp_loadTable h hslot) ?_
  rintro _ s₁ ⟨t, rfl, ht⟩
  refine wp_getBuf (St.setBuf_same _ _ _) (wp_setBuf ?_)
  have h₁ : Txn s₀ tbl recs rest k ((s.setBuf .tbl (some t)).setBuf .tbl
      (some (nodeEncode t (id % 16 * 256) n))) := (h.setBuf (by decide)).setBuf (by decide)
  refine Wp.bind (wp_allocBlock h₁ hwhy) ?_
  rintro phys s₂ ⟨h₂, hfresh, hnew, w, rfl⟩
  refine Wp.bind (P := fun bp s' => bp = ⟨phys, blockCrc (nodeEncode t (id % 16 * 256) n)⟩ ∧ s' = _)
    (wp_writeMeta (d := nodeEncode t (id % 16 * 256) n) ?_ ?_ ⟨rfl, rfl⟩ (h₂.safe.abort _)) ?_
  · rw [h₂.safe.core]
    exact (h₂.range_rest (mem_cons_self _ _)).2
  · rw [St.setWorking_buf, St.setBuf_same]
  rintro bp s₃ ⟨rfl, rfl⟩
  have h₃ := h₂.put (d := nodeEncode t (id % 16 * 256) n) (mem_cons_self _ _) hfresh
  have hm₃ : (((((s.setBuf .tbl (some t)).setBuf .tbl
      (some (nodeEncode t (id % 16 * 256) n))).setWorking w).put phys
        (nodeEncode t (id % 16 * 256) n))).buf .map = some m := by
    rw [St.put_buf, St.setWorking_buf, St.setBuf_of_ne (by decide), St.setBuf_of_ne (by decide), hm]
  refine wp_getBuf hm₃ (wp_setBuf ?_)
  have h₄ := h₃.repoint hid' hm₃ (St.put_same _ _ _) (nodeEncode_table hn ht)
  have hframe : ∀ b ∈ rest, (((s.setBuf .tbl (some t)).setBuf .tbl
      (some (nodeEncode t (id % 16 * 256) n))).setWorking w |>.put phys
        (nodeEncode t (id % 16 * 256) n)).disk b = s.disk b := fun b hb => by
    have hne : b ≠ phys := fun e => hnew (mem_add.mpr (Or.inr (e ▸ hb)))
    rw [St.put_of_ne hne]
    rfl
  have hre : Repoints tbl id (update tbl (id / 16)
      ⟨phys, blockCrc (nodeEncode t (id % 16 * 256) n)⟩) := by
    have hphys := (h₂.range_rest (mem_cons_self _ _)).1
    have hpos := h.data_pos
    refine ⟨?_, fun slot hne => update_of_ne hne _ _⟩
    rw [update_self]
    exact fun h0 => by
      have h0' : phys = 0 := h0
      omega
  by_cases h0 : (tbl (id / 16)).phys = 0
  · have hb : (tbl (id / 16)).blocks = 0 := if_pos h0
    rw [hb, zero_add] at h₄
    unfold freeBlock
    rw [if_pos h0]
    exact wp_pure ⟨_, h₄, hframe, hre⟩
  · have hb : (tbl (id / 16)).blocks = {(tbl (id / 16)).phys} := if_neg h0
    rw [hb, singleton_add] at h₄
    have hmem := mem_cons_self (tbl (id / 16)).phys rest
    refine wp_freeBlock h₄ (h₄.range_rest hmem).1 (h₄.not_mem_tbl hmem) fun w' h₅ => ?_
    rw [erase_cons_head] at h₅
    exact ⟨_, h₅, hframe, hre⟩

end Hallucinate.Gfs
