import Hallucinate.Gfs.Ops
import Hallucinate.Gfs.Txn

/-!
# The committed state

What a device and a handle hold between two calls, in terms of the node records and the blocks of
each node's edge chain: the `View`.

* `ChainAt` and `FileAt` say how the edges of a node and the contents of a file lie on the device.
  An edge chain is `Packed`: every block but the first is full. The extents of a file are in order,
  end with the file, and the bytes past its end in its last block are zero.
* `Live s tbl recs rest`: the live node map of `s` has the table blocks `tbl` with the records `recs`,
  and the committed bitmap marks the reserved blocks, the map, the tables and the blocks `rest`, each
  once. The live bitmap copy and the live superblock on the device are those of the handle.
* `Committed s tbl V leak`: a live state whose tree is `V`; it marks the blocks of the tree and the
  blocks `leak` that nothing refers to.

Every block of the tree is `Stable` (`Committed.stable`), so no transaction changes it before it
commits.
-/

namespace Hallucinate.Gfs

open Lib List

/-! ## Edge chains -/

/-- A block of an edge chain, with its edges. -/
structure EBlk where
  phys : Nat
  edges : List Edge

/-- The first records of an edge block. -/
structure Records (blk : Bytes) (es : List Edge) : Prop where
  le : es.length ≤ 14
  get : ∀ k (h : k < es.length), edgeAt blk k = es[k]
  fits : ∀ e ∈ es, e.Fits

/-- The records of an edge block, all of them. -/
structure EdgesIn (blk : Bytes) (es : List Edge) : Prop extends Records blk es where
  count : ebCount blk = es.length

/-- The chain of edge blocks a pointer leads to. -/
def ChainAt (disk : Nat → Option Bytes) : Bp → List EBlk → Prop
  | bp, [] => bp.phys = 0
  | bp, c :: cs => bp.phys = c.phys ∧ c.phys ≠ 0 ∧ ∃ blk, disk c.phys = some blk ∧
      blockCrc blk = bp.crc ∧ EdgesIn blk c.edges ∧ ChainAt disk (ebNext blk) cs

def chainBlocks (cs : List EBlk) : List Nat := cs.map EBlk.phys

def chainEdges (cs : List EBlk) : List Edge := cs.flatMap EBlk.edges

/-- Every block but the first is full, and the first is not empty. -/
def Packed : List EBlk → Prop
  | [] => True
  | c :: cs => 1 ≤ c.edges.length ∧ ∀ c' ∈ cs, c'.edges.length = 14

variable {disk disk' : Nat → Option Bytes} {bp : Bp} {cs : List EBlk}

theorem ChainAt.congr (h : ChainAt disk bp cs) (hd : ∀ b ∈ chainBlocks cs, disk' b = disk b) :
    ChainAt disk' bp cs := by
  induction cs generalizing bp with
  | nil => exact h
  | cons c cs ih =>
    obtain ⟨h1, h2, blk, h3, h4, h5, h6⟩ := h
    refine ⟨h1, h2, blk, ?_, h4, h5, ih h6 fun b hb => hd b (mem_cons_of_mem _ hb)⟩
    rw [hd c.phys mem_cons_self, h3]

theorem ChainAt.edges_fit (h : ChainAt disk bp cs) : ∀ e ∈ chainEdges cs, e.Fits := by
  induction cs generalizing bp with
  | nil => exact fun e he => nomatch he
  | cons c cs ih =>
    obtain ⟨-, -, blk, -, -, hin, hnext⟩ := h
    intro e he
    rcases mem_append.mp he with hc | hcs
    · exact hin.fits e hc
    · exact ih hnext e hcs

/-- The pointer to a chain determines whether it is empty. -/
theorem ChainAt.nil_iff (h : ChainAt disk bp cs) : bp.phys = 0 ↔ cs = [] := by
  cases cs with
  | nil => exact ⟨fun _ => rfl, fun _ => h⟩
  | cons c cs =>
    obtain ⟨h1, h2, -⟩ := h
    constructor
    · intro h0
      exact absurd (h1.symm.trans h0) h2
    · intro h0
      cases h0

theorem chainEdges_cons (c : EBlk) (cs : List EBlk) :
    chainEdges (c :: cs) = c.edges ++ chainEdges cs := flatMap_cons

theorem chainEdges_length_full (h : ∀ c ∈ cs, c.edges.length = 14) :
    (chainEdges cs).length = 14 * cs.length := by
  induction cs with
  | nil => rfl
  | cons c cs ih =>
    have hrest := ih fun d hd => h d (mem_cons_of_mem _ hd)
    rw [chainEdges_cons, length_append, h c mem_cons_self, hrest, length_cons]
    omega

/-- A packed chain has 14 edges to the block; the first block has what is left. -/
theorem Packed.length {c : EBlk} (h : Packed (c :: cs)) :
    (chainEdges (c :: cs)).length = c.edges.length + 14 * cs.length := by
  rw [chainEdges_cons, length_append, chainEdges_length_full h.2]

theorem Packed.eq_nil (h : Packed cs) (hnil : chainEdges cs = []) : cs = [] := by
  cases cs with
  | nil => rfl
  | cons c cs =>
    have hlen := congrArg List.length hnil
    have hpos := h.1
    rw [chainEdges_cons, length_append, length_nil] at hlen
    omega

/-! ## Files -/

/-- The blocks of an extent. -/
def Extent.blocks (e : Extent) : List Nat := (List.range e.len).map (e.phys + ·)

/-- The blocks of a node's extents. -/
def extBlocks (n : DiskNode) : List Nat := n.exts.flatMap Extent.blocks

structure FileAt (disk : Nat → Option Bytes) (n : DiskNode) : Prop where
  count : n.nExtents ≤ 8
  data : n.type ≠ nodeData → n.nExtents = 0
  size : n.size ≤ maxFileSize
  pos : ∀ e ∈ n.exts, 0 < e.len
  sorted : n.exts.Pairwise fun e e' => e.logical + e.len ≤ e'.logical
  eof : ∀ e ∈ n.exts, e.logical + e.len ≤ (n.size + 4095) / 4096
  blocks : ∀ b ∈ extBlocks n, (disk b).isSome
  tail : ∀ blk, bmap n (n.size / 4096) ≠ 0 → disk (bmap n (n.size / 4096)) = some blk →
    ∀ i, n.size % 4096 ≤ i → i < 4096 → blk i = 0

variable {b : Nat}

theorem mem_extentBlocks {e : Extent} : b ∈ e.blocks ↔ e.phys ≤ b ∧ b < e.phys + e.len := by
  simp only [Extent.blocks, mem_map, mem_range]
  constructor
  · rintro ⟨j, hj, rfl⟩
    omega
  · rintro ⟨h1, h2⟩
    exact ⟨b - e.phys, by omega, by omega⟩

variable {n : DiskNode}

theorem mem_extBlocks : b ∈ extBlocks n ↔ ∃ e ∈ n.exts, e.phys ≤ b ∧ b < e.phys + e.len := by
  simp only [extBlocks, mem_flatMap, mem_extentBlocks]

/-- `bmap` finds a block in one of the extents, or none covers the logical block. -/
theorem bmap_cases (n : DiskNode) (lbn : Nat) :
    (∃ e ∈ n.exts, e.logical ≤ lbn ∧ lbn < e.logical + e.len ∧
      bmap n lbn = e.phys + (lbn - e.logical)) ∨
    (bmap n lbn = 0 ∧ ∀ e ∈ n.exts, ¬(e.logical ≤ lbn ∧ lbn < e.logical + e.len)) := by
  unfold bmap
  cases hf : n.exts.find? fun e => e.logical ≤ lbn ∧ lbn < e.logical + e.len with
  | none =>
    have hall := find?_eq_none.mp hf
    exact Or.inr ⟨rfl, fun e he => by simpa using hall e he⟩
  | some e =>
    have hmem := mem_of_find?_eq_some hf
    have hp := find?_some hf
    rw [decide_eq_true_eq] at hp
    exact Or.inl ⟨e, hmem, hp.1, hp.2, rfl⟩

theorem bmap_mem {lbn : Nat} (h : bmap n lbn ≠ 0) : bmap n lbn ∈ extBlocks n := by
  rcases bmap_cases n lbn with ⟨e, he, h1, h2, h3⟩ | ⟨h0, -⟩
  · rw [h3, mem_extBlocks]
    exact ⟨e, he, by omega, by omega⟩
  · exact absurd h0 h

theorem FileAt.congr (h : FileAt disk n) (hd : ∀ b ∈ extBlocks n, disk' b = disk b) :
    FileAt disk' n := by
  refine ⟨h.count, h.data, h.size, h.pos, h.sorted, h.eof, fun b hb => ?_, fun blk h0 hblk => ?_⟩
  · rw [hd b hb]
    exact h.blocks b hb
  · rw [hd _ (bmap_mem h0)] at hblk
    exact h.tail blk h0 hblk

/-! ## Nodes -/

/-- A node record, its edges and its file on the device. -/
structure NodeAt (disk : Nat → Option Bytes) (n : DiskNode) (cs : List EBlk) : Prop where
  fits : n.Fits
  chain : ChainAt disk n.edgeHead cs
  packed : Packed cs
  count : n.edgeCount = (chainEdges cs).length % 2 ^ 32
  file : FileAt disk n

/-- The blocks of a node. -/
def nodeHeld (n : DiskNode) (cs : List EBlk) : Multiset Nat := chainBlocks cs + extBlocks n

theorem mem_nodeHeld : b ∈ nodeHeld n cs ↔ b ∈ chainBlocks cs ∨ b ∈ extBlocks n := by
  unfold nodeHeld
  rw [Multiset.mem_add, Multiset.mem_coe, Multiset.mem_coe]

theorem NodeAt.congr (h : NodeAt disk n cs) (hd : ∀ b ∈ nodeHeld n cs, disk' b = disk b) :
    NodeAt disk' n cs :=
  ⟨h.fits, h.chain.congr fun b hb => hd b (mem_nodeHeld.mpr (Or.inl hb)), h.packed, h.count,
    h.file.congr fun b hb => hd b (mem_nodeHeld.mpr (Or.inr hb))⟩

theorem exts_of_nExtents (h : n.nExtents = 0) : n.exts = [] := by
  unfold DiskNode.exts
  rw [h]
  rfl

theorem extBlocks_of_nExtents (h : n.nExtents = 0) : extBlocks n = [] := by
  unfold extBlocks
  rw [exts_of_nExtents h]
  rfl

/-- A file without extents. -/
theorem FileAt.of_nExtents (h : n.nExtents = 0) (hs : n.size ≤ maxFileSize) : FileAt disk n := by
  have he := exts_of_nExtents h
  refine ⟨by omega, fun _ => h, hs, by simp [he], by simp [he], by simp [he], ?_, fun blk h0 => ?_⟩
  · simp [extBlocks_of_nExtents h]
  · have := bmap_mem h0
    rw [extBlocks_of_nExtents h] at this
    cases this

theorem zeroNode_at (disk : Nat → Option Bytes) : NodeAt disk zeroNode [] :=
  ⟨zeroNode_fits, rfl, trivial, rfl, FileAt.of_nExtents rfl (Nat.zero_le _)⟩

theorem nodeHeld_zeroNode : nodeHeld zeroNode [] = 0 := by
  unfold nodeHeld
  rw [extBlocks_of_nExtents rfl]
  rfl

/-! ## The view -/

structure View where
  recs : Nat → DiskNode
  chain : Nat → List EBlk

/-- The view with another record and another edge chain for node `id`. -/
def View.set (V : View) (id : Nat) (n : DiskNode) (cs : List EBlk) : View :=
  ⟨Function.update V.recs id n, Function.update V.chain id cs⟩

/-- The blocks of all nodes. -/
def View.held (V : View) (count : Nat) : Multiset Nat :=
  ∑ id ∈ Finset.range count, nodeHeld (V.recs id) (V.chain id)

/-- The blocks outside the node tables: the node map, leaked blocks and the blocks of all nodes. -/
def heldBlocks (c : Core) (V : View) (leak : Multiset Nat) : Multiset Nat :=
  c.nodemap.phys ::ₘ (leak + V.held c.nodeCount)

/-- The nodes of a view on the device; those outside `1..node_count-1` are never used. -/
structure ViewAt (disk : Nat → Option Bytes) (count : Nat) (V : View) : Prop where
  node : ∀ id, NodeAt disk (V.recs id) (V.chain id)
  outside : ∀ id, id = 0 ∨ count ≤ id → V.recs id = zeroNode ∧ V.chain id = []

variable {count id : Nat}

theorem View.mem_held {V : View} (hid : id < count) (hb : b ∈ nodeHeld (V.recs id) (V.chain id)) :
    b ∈ V.held count :=
  Multiset.mem_sum.mpr ⟨id, Finset.mem_range.mpr hid, hb⟩

/-- A node that has blocks is one of the nodes of the file system. -/
theorem ViewAt.lt {V : View} (h : ViewAt disk count V) (hb : b ∈ nodeHeld (V.recs id) (V.chain id)) :
    id < count := by
  by_contra hid
  obtain ⟨h1, h2⟩ := h.outside id (Or.inr (by omega))
  rw [h1, h2, mem_nodeHeld, extBlocks_of_nExtents rfl] at hb
  rcases hb with hb | hb <;> cases hb

theorem ViewAt.mem_heldBlocks {c : Core} {V : View} {leak : Multiset Nat}
    (h : ViewAt disk c.nodeCount V) (hb : b ∈ nodeHeld (V.recs id) (V.chain id)) :
    b ∈ heldBlocks c V leak :=
  Multiset.mem_cons_of_mem (Multiset.mem_add.mpr (Or.inr (View.mem_held (h.lt hb) hb)))

theorem ViewAt.congr {V : View} (h : ViewAt disk count V)
    (hd : ∀ id, ∀ b ∈ nodeHeld (V.recs id) (V.chain id), disk' b = disk b) : ViewAt disk' count V :=
  ⟨fun id => (h.node id).congr (hd id), h.outside⟩

/-- The superblock of a handle. -/
def liveSuper (c : Core) : Super :=
  superOf c c.generation c.nodemap (crc32c (slice c.committed 0 c.bmBytes)) c.freeBlocks c.freeNodes

structure Live (s : St) (tbl : Nat → Bp) (recs : Nat → DiskNode) (rest : Multiset Nat) : Prop where
  geom : Geom s.core
  map : ∃ m, s.disk s.core.nodemap.phys = some m ∧ blockCrc m = s.core.nodemap.crc ∧
    ∀ slot < 256, mapGet m slot = tbl slot
  tables : TableAt s.disk tbl recs
  marks : Marks (dataFirst s.core) s.core.totalBlocks
    (tblBlocks tbl + (s.core.nodemap.phys ::ₘ rest)) s.core.committed
  canon : ∀ i, s.core.bmBytes ≤ i → s.core.committed i = 0
  bitmap : ∀ j < s.core.bitmapBlocks,
    s.disk (s.core.bitmapStart + s.core.generation % 2 * s.core.bitmapBlocks + j)
      = some (bitmapBlock s.core.bmBytes s.core.committed j)
  super : s.disk (s.core.generation % 2) = some (sbEncode (liveSuper s.core))
  freeBlocks : s.core.freeBlocks = s.clear

structure Committed (s : St) (tbl : Nat → Bp) (V : View) (leak : Multiset Nat) : Prop extends
    Live s tbl V.recs (leak + V.held s.core.nodeCount) where
  view : ViewAt s.disk s.core.nodeCount V

namespace Live

variable {s : St} {tbl : Nat → Bp} {recs : Nat → DiskNode} {rest : Multiset Nat}

theorem reserved (h : Live s tbl recs rest) (hb : b < dataFirst s.core) :
    bitTest s.core.committed b = true :=
  (h.marks.mem_iff b (by have := h.geom.first; omega)).mpr (Or.inl hb)

/-- A marked data block is stable. -/
theorem stable_of_mem (h : Live s tbl recs rest)
    (hb : b ∈ tblBlocks tbl + (s.core.nodemap.phys ::ₘ rest)) : Stable s.core b := by
  refine ⟨h.marks.bitTest_of_mem hb, fun hin => ?_⟩
  have hge := (h.marks.range b hb).1
  have hmod : (s.core.generation + 1) % 2 ≤ 1 := by omega
  have hmul := Nat.mul_le_mul_right s.core.bitmapBlocks hmod
  have hstart := h.geom.start
  unfold Inactive at hin
  rw [h.geom.dataFirst_eq] at hge
  omega

end Live

namespace Committed

variable {s : St} {tbl : Nat → Bp} {V : View} {leak : Multiset Nat}

/-- **Every block of a node is stable.** -/
theorem stable (h : Committed s tbl V leak) (hb : b ∈ nodeHeld (V.recs id) (V.chain id)) :
    Stable s.core b :=
  h.stable_of_mem (Multiset.mem_add.mpr (Or.inr (h.view.mem_heldBlocks hb)))

end Committed

end Hallucinate.Gfs
