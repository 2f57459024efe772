import Hallucinate.Lib.Bytes

/-!
# The on-disk format of graphfs (`kernel/fs/graphfs_core.c`, `kernel/lib/crc32c.c`)

Superblock, node record, node map entry and edge block as the source encodes them: little-endian
scalars at fixed offsets of a 4096-byte block. A block is a map from byte offsets; offsets from
4096 on are never read. The C structs hold unsigned integers of 32 or 64 bits; here they are `Nat`,
and `Fits` says that the fields are in range. Every decoded value fits.

Results: node records, map entries, edges and superblocks read back as they were encoded
(`nodeDecode_nodeEncode`, `mapGet_mapSet`, `edgeAt_edgeEncode`, `sbDecode_sbEncode`), records in
other slots keep their bytes, and an encoded superblock is valid (`sbValid_sbEncode`); all of it is
`codecs_round_trip`. The checksum is executable and is never unfolded here.
-/

namespace Hallucinate.Gfs

open Lib List

/-! ## Checksum -/

/-- One bit of `crc32c_update`; the mask is all ones when the low bit is set. -/
def crcBit (crc : UInt32) : UInt32 := (crc >>> 1) ^^^ (0x82F63B78 &&& (0 - (crc &&& 1)))

/-- One byte of `crc32c_update`. -/
def crcByte (crc : UInt32) (b : UInt8) : UInt32 := Nat.repeat crcBit 8 (crc ^^^ b.toUInt32)

/-- `crc32c_update`. -/
def crc32cUpdate (crc : UInt32) (data : List UInt8) : UInt32 := data.foldl crcByte crc

/-- `crc32c_final`. -/
def crc32cFinal (crc : UInt32) : UInt32 := crc ^^^ 0xFFFFFFFF

/-- `crc32c`. -/
@[irreducible] def crc32c (data : List UInt8) : Nat :=
  (crc32cFinal (crc32cUpdate 0xFFFFFFFF data)).toNat

theorem crc32c_lt (data : List UInt8) : crc32c data < 2 ^ 32 := by
  unfold crc32c
  exact UInt32.toNat_lt _

theorem crc32cUpdate_append (crc : UInt32) (l l' : List UInt8) :
    crc32cUpdate crc (l ++ l') = crc32cUpdate (crc32cUpdate crc l) l' :=
  foldl_append

-- the known answer of `crc32c.h`, for "123456789"
example : crc32c [49, 50, 51, 52, 53, 54, 55, 56, 57] = 0xE3069283 := by decide +kernel

/-- The checksum of a block. -/
def blockCrc (blk : Bytes) : Nat := crc32c (slice blk 0 4096)

def zeroBlock : Bytes := fun _ => 0

theorem rd_zeroBlock (off w : Nat) : rd zeroBlock off w = 0 :=
  rd_zero zeroBlock off w fun _ _ _ => rfl

/-! ## Node records -/

/-- `struct gfs_bp`. -/
structure Bp where
  phys : Nat
  crc : Nat
  deriving DecidableEq

/-- `struct gfs_extent`. -/
structure Extent where
  logical : Nat
  phys : Nat
  len : Nat
  deriving DecidableEq

/-- `struct disk_node`. -/
structure DiskNode where
  type : Nat
  mode : Nat
  size : Nat
  nlink : Nat
  nExtents : Nat
  edgeCount : Nat
  parent : Nat
  edgeHead : Bp
  ext : Fin 8 → Extent

/-- `GFS_NODE_FREE`. -/
def nodeFree : Nat := 0
/-- `GFS_NODE_NAMESPACE`. -/
def nodeNamespace : Nat := 1
/-- `GFS_NODE_DATA`. -/
def nodeData : Nat := 2

/-- A record of zeros, as `memset` and `= {0}` leave it; its type is `GFS_NODE_FREE`. -/
def zeroNode : DiskNode := ⟨0, 0, 0, 0, 0, 0, 0, ⟨0, 0⟩, fun _ => ⟨0, 0, 0⟩⟩

def ndType := 0
def ndMode := 4
def ndSize := 8
def ndNlink := 16
def ndNextents := 20
def ndEdgecount := 24
def ndParent := 32
def ndEdgePhys := 40
def ndEdgeCrc := 48
def ndExtents := 56
def extLogical := 0
def extPhys := 8
def extLen := 16

/-- `node_decode` of the record at `r`. -/
def nodeDecode (m : Bytes) (r : Nat) : DiskNode where
  type := rd m (r + ndType) 4
  mode := rd m (r + ndMode) 4
  size := rd m (r + ndSize) 8
  nlink := rd m (r + ndNlink) 4
  nExtents := rd m (r + ndNextents) 4
  edgeCount := rd m (r + ndEdgecount) 4
  parent := rd m (r + ndParent) 8
  edgeHead := ⟨rd m (r + ndEdgePhys) 8, rd m (r + ndEdgeCrc) 4⟩
  ext := fun k =>
    ⟨rd m (r + (ndExtents + k * 24 + extLogical)) 8, rd m (r + (ndExtents + k * 24 + extPhys)) 8,
      rd m (r + (ndExtents + k * 24 + extLen)) 4⟩

/-- The scalars `node_encode` stores, in its order. -/
def nodeFields (n : DiskNode) : List Field :=
  [⟨ndType, 4, n.type⟩, ⟨ndMode, 4, n.mode⟩, ⟨ndSize, 8, n.size⟩, ⟨ndNlink, 4, n.nlink⟩,
    ⟨ndNextents, 4, n.nExtents⟩, ⟨ndEdgecount, 4, n.edgeCount⟩, ⟨ndParent, 8, n.parent⟩,
    ⟨ndEdgePhys, 8, n.edgeHead.phys⟩, ⟨ndEdgeCrc, 4, n.edgeHead.crc⟩] ++
  (List.finRange 8).flatMap fun k =>
    [⟨ndExtents + k * 24 + extLogical, 8, (n.ext k).logical⟩,
      ⟨ndExtents + k * 24 + extPhys, 8, (n.ext k).phys⟩,
      ⟨ndExtents + k * 24 + extLen, 4, (n.ext k).len⟩]

/-- `node_encode` into the record at `r`. -/
def nodeEncode (m : Bytes) (r : Nat) (n : DiskNode) : Bytes :=
  writeFields (fill m r 256 0) r (nodeFields n)

def Bp.Fits (bp : Bp) : Prop := bp.phys < 2 ^ 64 ∧ bp.crc < 2 ^ 32

def Extent.Fits (e : Extent) : Prop := e.logical < 2 ^ 64 ∧ e.phys < 2 ^ 64 ∧ e.len < 2 ^ 32

/-- The fields are in the range of their C types. -/
structure DiskNode.Fits (n : DiskNode) : Prop where
  type : n.type < 2 ^ 32
  mode : n.mode < 2 ^ 32
  size : n.size < 2 ^ 64
  nlink : n.nlink < 2 ^ 32
  nExtents : n.nExtents < 2 ^ 32
  edgeCount : n.edgeCount < 2 ^ 32
  parent : n.parent < 2 ^ 64
  edgeHead : n.edgeHead.Fits
  ext : ∀ k, (n.ext k).Fits

theorem zeroNode_fits : zeroNode.Fits := by
  refine ⟨?_, ?_, ?_, ?_, ?_, ?_, ?_, ?_, fun k => ?_⟩ <;>
    simp [zeroNode, Bp.Fits, Extent.Fits]

theorem nodeDecode_zeroBlock (r : Nat) : nodeDecode zeroBlock r = zeroNode := by
  simp only [nodeDecode, rd_zeroBlock]
  rfl

variable {m' : Bytes} {r : Nat}

/-- A record is decoded from its own 256 bytes. -/
theorem nodeDecode_congr {m : Bytes} (h : ∀ i, r ≤ i → i < r + 256 → m i = m' i) :
    nodeDecode m r = nodeDecode m' r := by
  have hrd : ∀ off w, off + w ≤ 256 → rd m (r + off) w = rd m' (r + off) w := fun off w hw =>
    rd_congr fun i h1 h2 => h i (by omega) (by omega)
  have hext : ∀ k : Fin 8, ndExtents + k * 24 + 24 ≤ 256 := by decide
  simp only [nodeDecode, DiskNode.mk.injEq]
  refine ⟨hrd _ _ (by decide), hrd _ _ (by decide), hrd _ _ (by decide), hrd _ _ (by decide),
    hrd _ _ (by decide), hrd _ _ (by decide), hrd _ _ (by decide), ?_, ?_⟩
  · rw [hrd _ 8 (by decide), hrd _ 4 (by decide)]
  · funext k
    have := hext k
    simp only [extLogical, extPhys, extLen] at *
    rw [hrd _ 8 (by omega), hrd _ 8 (by omega), hrd _ 4 (by omega)]

/-- The layout does not depend on the values. -/
theorem nodeFields_layout (n : DiskNode) :
    (nodeFields n).map (fun f => (f.off, f.width)) =
      (nodeFields zeroNode).map fun f => (f.off, f.width) := rfl

theorem nodeFields_disjoint (n : DiskNode) : (nodeFields n).Pairwise Field.Disjoint := by
  have hmap : ∀ m : DiskNode, (nodeFields m).Pairwise Field.Disjoint ↔
      ((nodeFields m).map fun f => (f.off, f.width)).Pairwise
        fun a b => a.1 + a.2 ≤ b.1 ∨ b.1 + b.2 ≤ a.1 := fun m => by
    rw [pairwise_map]
    rfl
  rw [hmap, nodeFields_layout, ← hmap]
  decide

theorem nodeFields_bound (n : DiskNode) : ∀ f ∈ nodeFields n, f.off + f.width ≤ 256 := by
  have hall : ∀ p ∈ (nodeFields n).map (fun f => (f.off, f.width)), p.1 + p.2 ≤ 256 := by
    rw [nodeFields_layout]
    decide
  exact fun f hf => hall (f.off, f.width) (mem_map.mpr ⟨f, hf, rfl⟩)

variable {i : Nat} {n : DiskNode}

/-- Bytes outside the record keep their value. -/
theorem nodeEncode_of_not_mem {m : Bytes} (h : i < r ∨ r + 256 ≤ i) : nodeEncode m r n i = m i := by
  unfold nodeEncode
  rw [writeFields_of_not_mem, fill_of_not_mem h]
  intro f hf
  have := nodeFields_bound n f hf
  omega

variable {off w v : Nat}

theorem rd_nodeEncode {m : Bytes} (hv : v < 256 ^ w)
    (h : (⟨off, w, v⟩ : Field) ∈ nodeFields n := by simp [nodeFields]) :
    rd (nodeEncode m r n) (r + off) w = v :=
  rd_writeFields (nodeFields_disjoint n) h hv

/-- **A node record reads back as it was encoded.** -/
theorem nodeDecode_nodeEncode (m : Bytes) (r : Nat) (h : n.Fits) :
    nodeDecode (nodeEncode m r n) r = n := by
  have hext : ∀ k : Fin 8, ∀ f ∈ ([⟨ndExtents + k * 24 + extLogical, 8, (n.ext k).logical⟩,
      ⟨ndExtents + k * 24 + extPhys, 8, (n.ext k).phys⟩,
      ⟨ndExtents + k * 24 + extLen, 4, (n.ext k).len⟩] : List Field), f ∈ nodeFields n :=
    fun k f hf => mem_append_right _ (mem_flatMap.mpr ⟨k, mem_finRange k, hf⟩)
  obtain ⟨ty, mo, sz, nl, ne, ec, pa, eh, ex⟩ := n
  simp only [nodeDecode, DiskNode.mk.injEq]
  refine ⟨rd_nodeEncode h.type, rd_nodeEncode h.mode, rd_nodeEncode h.size, rd_nodeEncode h.nlink,
    rd_nodeEncode h.nExtents, rd_nodeEncode h.edgeCount, rd_nodeEncode h.parent, ?_, ?_⟩
  · rw [rd_nodeEncode h.edgeHead.1, rd_nodeEncode h.edgeHead.2]
  · funext k
    obtain ⟨h1, h2, h3⟩ := h.ext k
    rw [rd_nodeEncode h1 (hext k _ (by simp)), rd_nodeEncode h2 (hext k _ (by simp)),
      rd_nodeEncode h3 (hext k _ (by simp))]

/-- A record in another place keeps its value. -/
theorem nodeDecode_nodeEncode_of_ne {m : Bytes} {r' : Nat} (h : r' + 256 ≤ r ∨ r + 256 ≤ r') :
    nodeDecode (nodeEncode m r n) r' = nodeDecode m r' :=
  nodeDecode_congr fun _ _ _ => nodeEncode_of_not_mem (by omega)

/-! ## The node map -/

/-- `map_get` on the map block `m`. -/
def mapGet (m : Bytes) (bi : Nat) : Bp := ⟨rd m (bi * 16 + 0) 8, rd m (bi * 16 + 8) 4⟩

/-- `map_set` on the map block `m`. -/
def mapSet (m : Bytes) (bi : Nat) (bp : Bp) : Bytes :=
  writeFields m (bi * 16) [⟨0, 8, bp.phys⟩, ⟨8, 4, bp.crc⟩, ⟨12, 4, 0⟩]

theorem mapGet_zeroBlock (bi : Nat) : mapGet zeroBlock bi = ⟨0, 0⟩ := by
  simp only [mapGet, rd_zeroBlock]

variable {bp : Bp}

theorem mapSet_of_not_mem {m : Bytes} {bi : Nat} (h : i < bi * 16 ∨ bi * 16 + 16 ≤ i) :
    mapSet m bi bp i = m i := by
  apply writeFields_of_not_mem
  intro f hf
  simp only [mem_cons, not_mem_nil, or_false] at hf
  rcases hf with rfl | rfl | rfl <;> simp only <;> omega

/-- **A map entry reads back, and every other entry keeps its value.** -/
theorem mapGet_mapSet (m : Bytes) (bi bj : Nat) (h : bp.Fits) :
    mapGet (mapSet m bi bp) bj = if bj = bi then bp else mapGet m bj := by
  have hdisj : ([⟨0, 8, bp.phys⟩, ⟨8, 4, bp.crc⟩, ⟨12, 4, 0⟩] : List Field).Pairwise
      Field.Disjoint := by
    simp [Field.Disjoint]
  split
  · rename_i heq
    subst heq
    unfold mapGet mapSet
    rw [rd_writeFields (v := bp.phys) hdisj (by simp) h.1,
      rd_writeFields (v := bp.crc) hdisj (by simp) h.2]
  · rename_i hne
    have hrd : ∀ off w, off + w ≤ 16 → rd (mapSet m bi bp) (bj * 16 + off) w
        = rd m (bj * 16 + off) w := fun off w hw =>
      rd_congr fun i h1 h2 => mapSet_of_not_mem (by omega)
    unfold mapGet
    rw [hrd 0 8 (by decide), hrd 8 4 (by decide)]

/-! ## Edge blocks -/

/-- An edge, as `struct gfs_edge` holds it. -/
structure Edge where
  type : Nat
  target : Nat
  name : List UInt8
  deriving DecidableEq

/-- `GFS_EDGE_NAME`. -/
def edgeName : Nat := 1
/-- `GFS_EDGE_TAG`. -/
def edgeTag : Nat := 2
/-- `GFS_EDGE_REF`. -/
def edgeRef : Nat := 3

def ebMagic := 0
def ebCountOff := 4
def ebNextPhys := 8
def ebNextCrc := 16
def erType := 0
def erNamelen := 4
def erTarget := 8
def erName := 16

/-- The offset of record `k` of an edge block. -/
def ebRecord (k : Nat) : Nat := 24 + k * 272

/-- `EB_COUNT` of an edge block. -/
def ebCount (m : Bytes) : Nat := rd m ebCountOff 4

/-- `EB_NEXT_PHYS` and `EB_NEXT_CRC` of an edge block. -/
def ebNext (m : Bytes) : Bp := ⟨rd m ebNextPhys 8, rd m ebNextCrc 4⟩

/-- Record `k` of an edge block. -/
def edgeAt (m : Bytes) (k : Nat) : Edge where
  type := rd m (ebRecord k + erType) 4
  target := rd m (ebRecord k + erTarget) 8
  name := slice m (ebRecord k + erName) (rd m (ebRecord k + erNamelen) 4)

/-- `edge_encode` into record `k`. -/
def edgeEncode (m : Bytes) (k : Nat) (e : Edge) : Bytes :=
  copyIn (writeFields (fill m (ebRecord k) 272 0) (ebRecord k)
    [⟨erType, 4, e.type⟩, ⟨erNamelen, 4, e.name.length⟩, ⟨erTarget, 8, e.target⟩])
    (ebRecord k + erName) e.name

/-- The test of `edge_lookup` and `edge_remove_name` on record `k`. -/
def edgeMatches (m : Bytes) (k : Nat) (name : List UInt8) : Bool :=
  rd m (ebRecord k + erType) 4 == edgeName && rd m (ebRecord k + erNamelen) 4 == name.length &&
    slice m (ebRecord k + erName) name.length == name

/-- An empty edge block with its magic number (`GFS_EDGE_MAGIC`). -/
def ebFresh : Bytes := wr zeroBlock ebMagic 4 0x45474447

/-- The count and next pointer of an edge block's header. -/
def ebHeader (count : Nat) (next : Bp) : List Field :=
  [⟨ebCountOff, 4, count⟩, ⟨ebNextPhys, 8, next.phys⟩, ⟨ebNextCrc, 4, next.crc⟩]

/-- `m` with that header. -/
def ebSetHeader (m : Bytes) (count : Nat) (next : Bp) : Bytes :=
  writeFields m 0 (ebHeader count next)

/-- The fields are in the range of their C types, and the name of a length graphfs allows. -/
structure Edge.Fits (e : Edge) : Prop where
  type : e.type < 2 ^ 32
  target : e.target < 2 ^ 64
  name : e.name.length ≤ 255

variable {k : Nat}

/-- An edge is decoded from its own 272 bytes. -/
theorem edgeAt_congr {m : Bytes} (h : ∀ i, ebRecord k ≤ i → i < ebRecord k + 272 → m i = m' i)
    (hlen : (edgeAt m k).name.length ≤ 255) : edgeAt m k = edgeAt m' k := by
  have hrd : ∀ off w, off + w ≤ 272 → rd m (ebRecord k + off) w = rd m' (ebRecord k + off) w :=
    fun off w hw => rd_congr fun i h1 h2 => h i (by omega) (by omega)
  have hnl : rd m (ebRecord k + erNamelen) 4 ≤ 255 := by
    simpa [edgeAt] using hlen
  unfold edgeAt
  rw [hrd erType 4 (by decide), hrd erTarget 8 (by decide), ← hrd erNamelen 4 (by decide),
    slice_congr fun i h1 h2 => h i (by omega) (by unfold erName at h2; omega)]

variable {e : Edge}

theorem edgeEncode_of_not_mem {m : Bytes} (he : e.name.length ≤ 255)
    (h : i < ebRecord k ∨ ebRecord k + 272 ≤ i) : edgeEncode m k e i = m i := by
  unfold edgeEncode
  rw [copyIn_of_not_mem (by unfold erName; omega), writeFields_of_not_mem, fill_of_not_mem h]
  intro f hf
  simp only [mem_cons, not_mem_nil, or_false] at hf
  rcases hf with rfl | rfl | rfl <;> simp only [erType, erNamelen, erTarget] <;> omega

/-- **An edge reads back as it was encoded.** -/
theorem edgeAt_edgeEncode (m : Bytes) (k : Nat) (h : e.Fits) : edgeAt (edgeEncode m k e) k = e := by
  have hdisj : ([⟨erType, 4, e.type⟩, ⟨erNamelen, 4, e.name.length⟩, ⟨erTarget, 8, e.target⟩] :
      List Field).Pairwise Field.Disjoint := by
    simp [Field.Disjoint, erType, erNamelen, erTarget]
  -- the name starts after the scalars
  have hrd : ∀ off w v, (⟨off, w, v⟩ : Field) ∈ ([⟨erType, 4, e.type⟩,
      ⟨erNamelen, 4, e.name.length⟩, ⟨erTarget, 8, e.target⟩] : List Field) → off + w ≤ 16 →
      v < 256 ^ w → rd (edgeEncode m k e) (ebRecord k + off) w = v := by
    intro off w v hf hb hv
    rw [← rd_writeFields (b := ebRecord k) (m := fill m (ebRecord k) 272 0) hdisj hf hv]
    exact rd_congr fun i h1 h2 => copyIn_of_not_mem (by unfold erName; omega)
  have hn := h.name
  have h1 := hrd erType 4 e.type (by simp) (by decide) h.type
  have h2 := hrd erNamelen 4 e.name.length (by simp) (by decide) (by omega)
  have h3 := hrd erTarget 8 e.target (by simp) (by decide) h.target
  unfold edgeAt
  rw [h1, h2, h3]
  unfold edgeEncode
  rw [slice_copyIn]

variable {j : Nat}

/-- **A copied record holds the same edge**: the `memcpy` of `edge_remove_name`. -/
theorem edgeAt_copy {m : Bytes} (h : (edgeAt m' k).name.length ≤ 255) :
    edgeAt (copyIn m (ebRecord j) (slice m' (ebRecord k) 272)) j = edgeAt m' k := by
  have hcell : ∀ i, i < 272 →
      copyIn m (ebRecord j) (slice m' (ebRecord k) 272) (ebRecord j + i) = m' (ebRecord k + i) := by
    intro i hi
    rw [copyIn_of_mem (by rwa [slice_length]), slice_getElem]
  have hsl : ∀ off w, off + w ≤ 272 →
      slice (copyIn m (ebRecord j) (slice m' (ebRecord k) 272)) (ebRecord j + off) w
        = slice m' (ebRecord k + off) w := by
    intro off w hw
    apply map_congr_left
    intro i hi
    have hlt := mem_range.mp hi
    have := hcell (off + i) (by omega)
    rwa [← Nat.add_assoc, ← Nat.add_assoc] at this
  have hnl : rd m' (ebRecord k + erNamelen) 4 ≤ 255 := by
    simpa [edgeAt] using h
  have hrd : ∀ off w, off + w ≤ 272 →
      rd (copyIn m (ebRecord j) (slice m' (ebRecord k) 272)) (ebRecord j + off) w
        = rd m' (ebRecord k + off) w := fun off w hw => by
    unfold rd
    rw [hsl off w hw]
  unfold edgeAt
  rw [hrd erType 4 (by decide), hrd erTarget 8 (by decide), hrd erNamelen 4 (by decide),
    hsl erName _ (by unfold erName; omega)]

theorem copyRecord_of_not_mem {m : Bytes} (h : i < ebRecord j ∨ ebRecord j + 272 ≤ i) :
    copyIn m (ebRecord j) (slice m' (ebRecord k) 272) i = m i :=
  copyIn_of_not_mem (by rwa [slice_length])

variable {name : List UInt8}

/-- Comparing the length and then the bytes compares the names. -/
theorem edgeNamed_iff {m : Bytes} : rd m (ebRecord k + erNamelen) 4 = name.length ∧
      slice m (ebRecord k + erName) name.length = name ↔ (edgeAt m k).name = name := by
  constructor
  · rintro ⟨h1, h2⟩
    unfold edgeAt
    rw [h1, h2]
  · intro h
    have hl : rd m (ebRecord k + erNamelen) 4 = name.length := by
      rw [← h]
      exact (slice_length ..).symm
    exact ⟨hl, by rw [← hl]; exact h⟩

/-- The lookup test, on the decoded edge. -/
theorem edgeMatches_iff {m : Bytes} :
    edgeMatches m k name = true ↔ (edgeAt m k).type = edgeName ∧ (edgeAt m k).name = name := by
  unfold edgeMatches
  simp only [Bool.and_eq_true, beq_iff_eq, and_assoc, edgeNamed_iff]
  rfl

section Header

variable {m : Bytes} {count : Nat} {next : Bp}

theorem rd_ebSetHeader (h : (⟨off, w, v⟩ : Field) ∈ ebHeader count next) (hv : v < 256 ^ w) :
    rd (ebSetHeader m count next) off w = v := by
  have hdisj : (ebHeader count next).Pairwise Field.Disjoint := by
    simp [ebHeader, Field.Disjoint, ebCountOff, ebNextPhys, ebNextCrc]
  have hrd := rd_writeFields (b := 0) (m := m) hdisj h hv
  rwa [Nat.zero_add] at hrd

theorem ebCount_ebSetHeader (h : count < 2 ^ 32) : ebCount (ebSetHeader m count next) = count :=
  rd_ebSetHeader (by simp [ebHeader]) h

theorem ebNext_ebSetHeader (h : next.Fits) : ebNext (ebSetHeader m count next) = next := by
  unfold ebNext
  rw [rd_ebSetHeader (v := next.phys) (by simp [ebHeader]) h.1,
    rd_ebSetHeader (v := next.crc) (by simp [ebHeader]) h.2]

/-- The header is in the first 24 bytes. -/
theorem ebSetHeader_of_le (h : 24 ≤ i) : ebSetHeader m count next i = m i := by
  apply writeFields_of_not_mem
  intro f hf
  simp only [ebHeader, mem_cons, not_mem_nil, or_false] at hf
  rcases hf with rfl | rfl | rfl <;> simp only [ebCountOff, ebNextPhys, ebNextCrc] <;> omega

end Header

/-! ## Superblocks -/

/-- What `sb_encode` stores and `sb_decode` reads, with the bitmap checksum. -/
structure Super where
  generation : Nat
  totalBlocks : Nat
  nodeCount : Nat
  rootNode : Nat
  bitmapStart : Nat
  bitmapBlocks : Nat
  bmCrc : Nat
  nodemap : Bp
  freeBlocks : Nat
  freeNodes : Nat
  deriving DecidableEq

/-- `GFS_SB_MAGIC`. -/
def sbMagicValue : Nat := 0x3153464852475248

def sbMagic := 0
def sbVersion := 8
def sbBlockSize := 12
def sbCrc := 16
def sbGen := 24
def sbTotal := 32
def sbNodeCount := 40
def sbRoot := 48
def sbBmStart := 56
def sbBmBlocks := 64
def sbBmCrc := 72
def sbNodemapPhys := 80
def sbNodemapCrc := 88
def sbFreeBlocks := 96
def sbFreeNodes := 104

/-- The scalars `sb_encode` stores before the checksum. -/
def sbFields (s : Super) : List Field :=
  [⟨sbMagic, 8, sbMagicValue⟩, ⟨sbVersion, 4, 1⟩, ⟨sbBlockSize, 4, 4096⟩,
    ⟨sbGen, 8, s.generation⟩, ⟨sbTotal, 8, s.totalBlocks⟩, ⟨sbNodeCount, 8, s.nodeCount⟩,
    ⟨sbRoot, 8, s.rootNode⟩, ⟨sbBmStart, 8, s.bitmapStart⟩, ⟨sbBmBlocks, 8, s.bitmapBlocks⟩,
    ⟨sbBmCrc, 4, s.bmCrc⟩, ⟨sbNodemapPhys, 8, s.nodemap.phys⟩, ⟨sbNodemapCrc, 4, s.nodemap.crc⟩,
    ⟨sbFreeBlocks, 8, s.freeBlocks⟩, ⟨sbFreeNodes, 8, s.freeNodes⟩]

/-- `sb_encode`: the checksum is over the block with its own field zeroed. -/
def sbEncode (s : Super) : Bytes :=
  let blk := wr (writeFields zeroBlock 0 (sbFields s)) sbCrc 4 0
  wr blk sbCrc 4 (blockCrc blk)

/-- `sb_valid`; the generation it hands out is that of `sbDecode`. -/
def sbValid (s : Bytes) : Bool :=
  rd s sbMagic 8 == sbMagicValue && rd s sbVersion 4 == 1 && rd s sbBlockSize 4 == 4096 &&
    blockCrc (wr s sbCrc 4 0) == rd s sbCrc 4

/-- `sb_decode`, and `SB_BM_CRC`, which `gfs_mount` reads itself. -/
def sbDecode (s : Bytes) : Super where
  generation := rd s sbGen 8
  totalBlocks := rd s sbTotal 8
  nodeCount := rd s sbNodeCount 8
  rootNode := rd s sbRoot 8
  bitmapStart := rd s sbBmStart 8
  bitmapBlocks := rd s sbBmBlocks 8
  bmCrc := rd s sbBmCrc 4
  nodemap := ⟨rd s sbNodemapPhys 8, rd s sbNodemapCrc 4⟩
  freeBlocks := rd s sbFreeBlocks 8
  freeNodes := rd s sbFreeNodes 8

structure Super.Fits (s : Super) : Prop where
  generation : s.generation < 2 ^ 64
  totalBlocks : s.totalBlocks < 2 ^ 64
  nodeCount : s.nodeCount < 2 ^ 64
  rootNode : s.rootNode < 2 ^ 64
  bitmapStart : s.bitmapStart < 2 ^ 64
  bitmapBlocks : s.bitmapBlocks < 2 ^ 64
  bmCrc : s.bmCrc < 2 ^ 32
  nodemap : s.nodemap.Fits
  freeBlocks : s.freeBlocks < 2 ^ 64
  freeNodes : s.freeNodes < 2 ^ 64

theorem sbFields_disjoint (s : Super) : (sbFields s).Pairwise Field.Disjoint := by
  simp [sbFields, Field.Disjoint, sbMagic, sbVersion, sbBlockSize, sbGen, sbTotal, sbNodeCount,
    sbRoot, sbBmStart, sbBmBlocks, sbBmCrc, sbNodemapPhys, sbNodemapCrc, sbFreeBlocks, sbFreeNodes]

/-- No field overlaps the checksum. -/
theorem sbFields_crc (s : Super) :
    ∀ f ∈ sbFields s, f.off + f.width ≤ sbCrc ∨ sbCrc + 4 ≤ f.off := by
  simp [sbFields, sbCrc, sbMagic, sbVersion, sbBlockSize, sbGen, sbTotal, sbNodeCount,
    sbRoot, sbBmStart, sbBmBlocks, sbBmCrc, sbNodemapPhys, sbNodemapCrc, sbFreeBlocks, sbFreeNodes]

variable {s : Super}

theorem rd_sbEncode (hv : v < 256 ^ w)
    (h : (⟨off, w, v⟩ : Field) ∈ sbFields s := by simp [sbFields]) : rd (sbEncode s) off w = v := by
  have hcrc := sbFields_crc s _ h
  have hrd := rd_writeFields (b := 0) (m := zeroBlock) (sbFields_disjoint s) h hv
  rw [Nat.zero_add] at hrd
  unfold sbEncode
  simp only at hcrc hrd ⊢
  rw [rd_wr_of_disjoint (by omega), rd_wr_of_disjoint (by omega), hrd]

/-- **A superblock reads back as it was encoded.** -/
theorem sbDecode_sbEncode (h : s.Fits) : sbDecode (sbEncode s) = s := by
  obtain ⟨gen, tot, nc, root, bs, bb, bc, nm, fb, fn⟩ := s
  simp only [sbDecode, Super.mk.injEq]
  refine ⟨rd_sbEncode h.generation, rd_sbEncode h.totalBlocks, rd_sbEncode h.nodeCount,
    rd_sbEncode h.rootNode, rd_sbEncode h.bitmapStart, rd_sbEncode h.bitmapBlocks,
    rd_sbEncode h.bmCrc, ?_, rd_sbEncode h.freeBlocks, rd_sbEncode h.freeNodes⟩
  rw [rd_sbEncode h.nodemap.1, rd_sbEncode h.nodemap.2]

/-- **An encoded superblock is valid.** -/
theorem sbValid_sbEncode (s : Super) : sbValid (sbEncode s) = true := by
  unfold sbValid
  rw [rd_sbEncode (v := sbMagicValue) (by decide), rd_sbEncode (v := 1) (by decide),
    rd_sbEncode (v := 4096) (by decide)]
  have hcrc : ∀ blk : Bytes, blockCrc blk < 256 ^ 4 := fun blk => crc32c_lt _
  -- zeroing the stored checksum gives back the block it was computed over
  simp only [sbEncode, wr_wr, rd_wr, Nat.mod_eq_of_lt (hcrc _), beq_self_eq_true, Bool.and_true]

/-! ## The four codecs -/

/-- **Every codec round-trips in place.** Whatever the block held before: a node record, a map entry
and an edge read back as they were stored and the other records of the block keep their bytes, the
name comparison of `edge_lookup` accepts the stored name and no other, and `sb_valid` accepts the
superblock of any field values, from which `sb_decode` reads them back. -/
theorem codecs_round_trip (blk : Bytes) :
    (∀ (n : DiskNode) (slot : Fin 16), n.Fits →
      nodeDecode (nodeEncode blk (slot * 256) n) (slot * 256) = n ∧
      ∀ j : Fin 16, j ≠ slot →
        slice (nodeEncode blk (slot * 256) n) (j * 256) 256 = slice blk (j * 256) 256) ∧
    (∀ (bp : Bp) (bi : Fin 256), bp.Fits → mapGet (mapSet blk bi bp) bi = bp ∧
      ∀ bj : Fin 256, bj ≠ bi → slice (mapSet blk bi bp) (bj * 16) 16 = slice blk (bj * 16) 16) ∧
    (∀ (e : Edge) (k : Fin 14), e.Fits → edgeAt (edgeEncode blk k e) k = e ∧
      (∀ name : List UInt8, rd (edgeEncode blk k e) (ebRecord k + erNamelen) 4 = name.length ∧
        slice (edgeEncode blk k e) (ebRecord k + erName) name.length = name ↔ name = e.name) ∧
      (∀ name, edgeMatches (edgeEncode blk k e) k name = true ↔ e.type = edgeName ∧ name = e.name) ∧
      ∀ j : Fin 14, j ≠ k →
        slice (edgeEncode blk k e) (ebRecord j) 272 = slice blk (ebRecord j) 272) ∧
    ∀ s : Super, s.Fits → sbValid (sbEncode s) = true ∧ sbDecode (sbEncode s) = s := by
  refine ⟨fun n slot hn => ⟨nodeDecode_nodeEncode _ _ hn, fun j hj => ?_⟩,
    fun bp bi hb => ⟨?_, fun bj hj => ?_⟩,
    fun e k he => ⟨edgeAt_edgeEncode _ _ he, fun name => ?_, fun name => ?_, fun j hj => ?_⟩,
    fun s hs => ⟨sbValid_sbEncode s, sbDecode_sbEncode hs⟩⟩
  · have hne : (j : Nat) ≠ slot := Fin.val_ne_of_ne hj
    exact slice_congr fun i h1 h2 => nodeEncode_of_not_mem (by omega)
  · rw [mapGet_mapSet _ _ _ hb, if_pos rfl]
  · have hne : (bj : Nat) ≠ bi := Fin.val_ne_of_ne hj
    exact slice_congr fun i h1 h2 => mapSet_of_not_mem (by omega)
  · rw [edgeNamed_iff, edgeAt_edgeEncode _ _ he, eq_comm]
  · rw [edgeMatches_iff, edgeAt_edgeEncode _ _ he, @eq_comm _ name]
  · have hne : (j : Nat) ≠ k := Fin.val_ne_of_ne hj
    refine slice_congr fun i h1 h2 => edgeEncode_of_not_mem he.name ?_
    unfold ebRecord at *
    omega

/-- An edge called `a` in the last record of a block of zeros. -/
theorem codecs_round_trip_edge :
    edgeAt (edgeEncode zeroBlock 13 ⟨edgeName, 5, [97]⟩) 13 = ⟨edgeName, 5, [97]⟩ :=
  ((codecs_round_trip zeroBlock).2.2.1 ⟨edgeName, 5, [97]⟩ 13
    ⟨by decide, by decide, by decide⟩).1

end Hallucinate.Gfs
