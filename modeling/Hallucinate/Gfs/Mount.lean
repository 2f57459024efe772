import Hallucinate.Gfs.Handle

/-!
# Making and mounting a file system (`gfs_mkfs`, `gfs_mount`)

`gfs_mkfs` only writes to the device. `gfs_mount` starts from a cleared handle (`mountInit`) and
takes the valid superblock with the highest generation.
-/

namespace Hallucinate.Gfs

open Lib

/-! ## `gfs_mkfs` -/

/-- `ops->write`, with `GFS_EIO` for a failure. -/
def writeOrEio (lba : Nat) (data : Bytes) : GfsM Unit := do
  let ok ← devWrite lba data
  if ok then pure () else fail .eio

/-- The bytes of an allocation bitmap: `(total_blocks + 7) / 8` in 64-bit arithmetic. -/
def bitmapBytes (total : Nat) : Nat := (total + 7) % 2 ^ 64 / 8

/-- The blocks of one bitmap copy, at least one. -/
def bitmapBlocksFor (total : Nat) : Nat := max ((bitmapBytes total + 4095) / 4096) 1

/-- Block `j` of the first bitmap: the blocks below `used` are marked. -/
def mkfsBitmapBlock (total used j : Nat) : Bytes :=
  (List.range 32768).foldl (fun blk bit =>
    if j * 32768 + bit < total ∧ j * 32768 + bit < used then bitSet blk bit else blk) zeroBlock

/-- The record of the root: "/.." is "/". -/
def rootRecord : DiskNode := { zeroNode with type := nodeNamespace, parent := 1 }

/-- One copy of the bitmap; returns its checksum. -/
def mkfsBitmap (total used copy : Nat) : GfsM Nat := do
  let running ← Prog.foldP (fun running j => do
    let blk := mkfsBitmapBlock total used j
    writeOrEio (2 + copy * bitmapBlocksFor total + j) blk
    pure (crc32cUpdate running (slice blk 0 (min (bitmapBytes total - j * 4096) 4096))))
    0xFFFFFFFF (List.range (bitmapBlocksFor total))
  pure (crc32cFinal running).toNat

/-- `gfs_mkfs`. -/
def gfsMkfs (total nodeCount : Nat) : GfsM Unit :=
  let nodeCount := min (max nodeCount 2) 4096
  let nodemapPhys := 2 + 2 * bitmapBlocksFor total
  let rootTblPhys := nodemapPhys + 1
  let used := rootTblPhys + 1
  if total < used then fail .einval
  else do
    let tbl := nodeEncode zeroBlock 256 rootRecord
    writeOrEio rootTblPhys tbl
    let map := writeFields zeroBlock 0 [⟨0, 8, rootTblPhys⟩, ⟨8, 4, blockCrc tbl⟩]
    writeOrEio nodemapPhys map
    let _ ← mkfsBitmap total used 0
    let bmCrc ← mkfsBitmap total used 1
    let sb (gen : Nat) : Super := ⟨gen, total, nodeCount, 1, 2, bitmapBlocksFor total, bmCrc,
      ⟨nodemapPhys, blockCrc map⟩, total - used, nodeCount - 2⟩
    writeOrEio 0 (sbEncode (sb 0))
    writeOrEio 1 (sbEncode (sb 1))

/-! ## `gfs_mount` -/

/-- `gfs_mount_work_size`. -/
def gfsMountWorkSize (total : Nat) : Nat := 2 * bitmapBytes total

/-- The handle fields that `sb_decode` sets. -/
def coreOf (s : Super) : Core where
  writable := false
  generation := s.generation
  totalBlocks := s.totalBlocks
  nodeCount := s.nodeCount
  rootNode := s.rootNode
  bitmapStart := s.bitmapStart
  bitmapBlocks := s.bitmapBlocks
  nodemap := s.nodemap
  freeBlocks := s.freeBlocks
  freeNodes := s.freeNodes
  committed := zeroBlock
  bmBytes := 0

/-- `sb_geometry_ok`. -/
def sbGeometryOk (s : Super) : Bool :=
  2 ≤ s.nodeCount && s.nodeCount ≤ 4096 && s.rootNode == 1 && s.bitmapStart == 2 &&
    s.bitmapBlocks != 0 && dataFirst (coreOf s) ≤ s.totalBlocks &&
    dataFirst (coreOf s) ≤ s.nodemap.phys && s.nodemap.phys < s.totalBlocks

/-- The choice `gfs_mount` makes at each slot: a valid superblock replaces one of a lower
generation. -/
def betterSuper (chosen : Option Bytes) (s : Bytes) : Option Bytes :=
  match chosen with
  | none => if sbValid s then some s else none
  | some c =>
    if sbValid s ∧ (sbDecode c).generation < (sbDecode s).generation then some s else some c

/-- The loop over the superblock slots. A slot that cannot be read is passed over. -/
def pickSuper : List Nat → Option Bytes → GfsM (Option Bytes)
  | [], chosen => pure chosen
  | slot :: slots, chosen => do
    let ok ← devRead slot .sb
    if ok then do
      let s ← getBuf .sb
      pickSuper slots (betterSuper chosen s)
    else pickSuper slots chosen

/-- `read_bitmap`: bitmap copy `parity` of `bmBytes` bytes. -/
def readBitmap (bmBytes parity : Nat) : GfsM Bytes := do
  let fs ← getCore
  Prog.foldP (fun bm j => do
    bread (bitmapLba fs parity j) .b
    let blk ← getBuf .b
    pure (copyIn bm (bitmapOff j) (slice blk 0 (bitmapChunk bmBytes (bitmapOff j)))))
    zeroBlock (List.range fs.bitmapBlocks)

/-- `gfs_mount` on a cleared handle; `work` is the size of the caller's work buffer, if any. -/
def gfsMount (writable : Bool) (work : Option Nat) : GfsM Unit := do
  let chosen ← pickSuper [0, 1] none
  match chosen with
  | none => fail .ebadfs
  | some c => do
    let s := sbDecode c
    setCore (coreOf s)
    if sbGeometryOk s = false then fail .ebadfs
    else do
      let rc ← (readMeta s.nodemap .map).attempt
      match rc with
      | .error .ebadcrc => fail .ebadcrc
      | .error _ => fail .ebadfs
      | .ok () => do
        setCore { coreOf s with writable := writable }
        if writable = false then pure ()
        else if work.getD 0 < gfsMountWorkSize s.totalBlocks ∨ work = none then fail .enomem
        else do
          let bmBytes := bitmapBytes s.totalBlocks
          let bm ← readBitmap bmBytes (s.generation % 2)
          setCore { coreOf s with writable := writable, committed := bm, bmBytes := bmBytes }
          if crc32c (slice bm 0 bmBytes) ≠ s.bmCrc then fail .ebadcrc
          else setWorking bm

/-- A handle as the `memset` of `gfs_mount` clears it, on a device. -/
def mountInit (disk : Nat → Option Bytes) : St where
  core := coreOf ⟨0, 0, 0, 0, 0, 0, 0, ⟨0, 0⟩, 0, 0⟩
  buf := fun _ => some zeroBlock
  working := none
  disk := disk
  log := []
  failed := false

end Hallucinate.Gfs
