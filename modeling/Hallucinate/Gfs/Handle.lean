import Hallucinate.Gfs.Layout
import Hallucinate.Lib.Bitmap
import Hallucinate.Lib.Prog

/-!
# The graphfs handle, its device and transactions (`kernel/fs/graphfs_core.c`)

The calls of graphfs are programs over the commands of a handle: device reads and writes, which
the environment may fail one by one, and accesses to the fields and scratch buffers of
`struct gfs`. The state `St` holds the handle and the device:

* `core` is the cached superblock with the committed bitmap, `working` the working bitmap;
* `buf` are the scratch blocks. The five of `struct gfs` are shared by all calls; the last three
  are the stack arrays of `gfs_fsck`. `none` is a buffer whose contents are indeterminate: a failed
  device read leaves its destination so;
* `disk` maps block numbers to contents, `none` for a block never written. A failed write leaves
  the block as it was;
* `log` are the device writes of the current call in order, and `failed` says whether a device
  operation of the call has failed. No program reads either.

A C loop over an edge chain ends at a null pointer. Its model is given `total_blocks` rounds, the
most distinct blocks a chain can have, and `diverge`s after them, so that a result of the model
shows that the loop ends.
-/

namespace Hallucinate.Gfs

open Lib

/-- `enum gfs_err`, without `GFS_OK`. -/
inductive Err
  | eio | ebadfs | ecorrupt | ebadcrc | enoent | eexist | enotdir | eisdir | enospc | einval
  | enametoolong | enotempty | emanyparents | efbig | erofs | enomem | efrag | eworksize
  deriving DecidableEq, Repr

/-- The blocks of scratch memory. -/
inductive Buf
  | sb | map | tbl | a | b
  | fsckTbl | fsckEb | fsckBm
  deriving DecidableEq, Repr

/-- The cached superblock state of `struct gfs`, with the committed bitmap. -/
structure Core where
  writable : Bool
  generation : Nat
  totalBlocks : Nat
  nodeCount : Nat
  rootNode : Nat
  bitmapStart : Nat
  bitmapBlocks : Nat
  nodemap : Bp
  freeBlocks : Nat
  freeNodes : Nat
  committed : Bytes
  bmBytes : Nat

/-- The handle and the device behind it. -/
structure St where
  core : Core
  buf : Buf → Option Bytes
  working : Option Bytes
  disk : Nat → Option Bytes
  log : List (Nat × Bytes)
  failed : Bool

inductive Cmd
  | read (lba : Nat) (dst : Buf)
  | write (lba : Nat) (data : Bytes)
  | getBuf (src : Buf)
  | setBuf (dst : Buf) (data : Bytes)
  | getCore
  | setCore (c : Core)
  | getWorking
  | setWorking (w : Bytes)
  | diverge

def Cmd.Ans : Cmd → Type
  | .read _ _ => Bool
  | .write _ _ => Bool
  | .getBuf _ => Bytes
  | .setBuf _ _ => Unit
  | .getCore => Core
  | .setCore _ => Unit
  | .getWorking => Bytes
  | .setWorking _ => Unit
  | .diverge => Empty

abbrev gfsSig : Sig := ⟨Cmd, Cmd.Ans⟩

abbrev GfsM (α : Type) := Prog gfsSig Err α

namespace St

def setBuf (s : St) (dst : Buf) (v : Option Bytes) : St :=
  { s with buf := Function.update s.buf dst v }

def setWorking (s : St) (w : Bytes) : St := { s with working := some w }

def setCore (s : St) (c : Core) : St := { s with core := c }

/-- The state after a device operation failed. -/
def fault (s : St) : St := { s with failed := true }

/-- The state after a device write. -/
def put (s : St) (lba : Nat) (data : Bytes) : St :=
  { s with disk := Function.update s.disk lba (some data), log := s.log ++ [(lba, data)] }

end St

/-- What each command does; only the device operations can fail. -/
def gfsMachine : Machine gfsSig St where
  fallible
    | .read _ _ => true
    | .write _ _ => true
    | _ => false
  step
    | .read lba dst, fault, s =>
      if fault then some (false, (s.setBuf dst none).fault)
      else (s.disk lba).map fun blk => (true, s.setBuf dst (some blk))
    | .write lba data, fault, s => some (if fault then (false, s.fault) else (true, s.put lba data))
    | .getBuf src, _, s => (s.buf src).map fun blk => (blk, s)
    | .setBuf dst data, _, s => some ((), s.setBuf dst (some data))
    | .getCore, _, s => some (s.core, s)
    | .setCore c, _, s => some ((), s.setCore c)
    | .getWorking, _, s => s.working.map fun w => (w, s)
    | .setWorking w, _, s => some ((), s.setWorking w)
    | .diverge, _, _ => none

def devRead (lba : Nat) (dst : Buf) : GfsM Bool := Prog.exec (S := gfsSig) (.read lba dst)
def devWrite (lba : Nat) (data : Bytes) : GfsM Bool := Prog.exec (S := gfsSig) (.write lba data)
def getBuf (src : Buf) : GfsM Bytes := Prog.exec (S := gfsSig) (.getBuf src)
def setBuf (dst : Buf) (data : Bytes) : GfsM Unit := Prog.exec (S := gfsSig) (.setBuf dst data)
def getCore : GfsM Core := Prog.exec (S := gfsSig) .getCore
def setCore (c : Core) : GfsM Unit := Prog.exec (S := gfsSig) (.setCore c)
def getWorking : GfsM Bytes := Prog.exec (S := gfsSig) .getWorking
def setWorking (w : Bytes) : GfsM Unit := Prog.exec (S := gfsSig) (.setWorking w)
def diverge {α : Type} : GfsM α := Prog.exec (S := gfsSig) .diverge >>= fun e => nomatch e
def fail {α : Type} (e : Err) : GfsM α := Prog.fail e

/-! ## Raw and checksummed block I/O -/

/-- `bread`. -/
def bread (lba : Nat) (dst : Buf) : GfsM Unit := do
  let fs ← getCore
  if fs.totalBlocks ≤ lba then fail .ecorrupt
  else do
    let ok ← devRead lba dst
    if ok then pure () else fail .eio

/-- `bwrite`. -/
def bwrite (lba : Nat) (src : Buf) : GfsM Unit := do
  let fs ← getCore
  if fs.totalBlocks ≤ lba then fail .ecorrupt
  else do
    let data ← getBuf src
    let ok ← devWrite lba data
    if ok then pure () else fail .eio

/-- `read_meta`. -/
def readMeta (bp : Bp) (dst : Buf) : GfsM Unit := do
  bread bp.phys dst
  let blk ← getBuf dst
  if blockCrc blk ≠ bp.crc then fail .ebadcrc else pure ()

/-- `write_meta`. -/
def writeMeta (phys : Nat) (src : Buf) : GfsM Bp := do
  bwrite phys src
  let blk ← getBuf src
  pure ⟨phys, blockCrc blk⟩

/-! ## The allocator -/

/-- `data_first`, in 64-bit arithmetic. -/
def dataFirst (fs : Core) : Nat := (fs.bitmapStart + 2 * fs.bitmapBlocks) % 2 ^ 64

/-- The scan of `alloc_block`: the first block free in both bitmaps. -/
def firstFree (fs : Core) (w : Bytes) : Option Nat :=
  (List.range' (dataFirst fs) (fs.totalBlocks - dataFirst fs)).find? fun i =>
    !bitTest fs.committed i && !bitTest w i

/-- `alloc_block`. -/
def allocBlock : GfsM Nat := do
  let fs ← getCore
  let w ← getWorking
  match firstFree fs w with
  | some i => do
    setWorking (bitSet w i)
    pure i
  | none => fail .enospc

/-- `alloc_near`. -/
def allocNear (hint : Nat) : GfsM Nat := do
  let fs ← getCore
  let w ← getWorking
  if dataFirst fs ≤ hint ∧ hint < fs.totalBlocks ∧ bitTest fs.committed hint = false ∧
      bitTest w hint = false then do
    setWorking (bitSet w hint)
    pure hint
  else allocBlock

/-- `free_block`. -/
def freeBlock (blk : Nat) : GfsM Unit :=
  if blk = 0 then pure ()
  else do
    let w ← getWorking
    setWorking (bitClr w blk)

/-- The loops that free the blocks `phys + j` of an extent, for `j` in `js`. -/
def freeRun (phys : Nat) (js : List Nat) : GfsM Unit :=
  Prog.foldP (fun _ j => freeBlock (phys + j)) () js

/-- `count_free`. -/
def countFree : GfsM Nat := do
  let fs ← getCore
  let w ← getWorking
  pure (countClear fs.totalBlocks w)

/-! ## Node records -/

/-- `node_read`; a map slot without a block stands for free nodes. -/
def nodeRead (id : Nat) : GfsM DiskNode := do
  let fs ← getCore
  if id = 0 ∨ fs.nodeCount ≤ id then fail .einval
  else do
    let m ← getBuf .map
    let bp := mapGet m (id / 16)
    if bp.phys = 0 then pure zeroNode
    else do
      readMeta bp .tbl
      let t ← getBuf .tbl
      pure (nodeDecode t (id % 16 * 256))

/-- The table block `node_write` starts from, in the buffer. -/
def loadTable (old : Bp) : GfsM Unit :=
  if old.phys = 0 then setBuf .tbl zeroBlock else readMeta old .tbl

/-- `node_write`: the table block is rewritten to a fresh block. -/
def nodeWrite (id : Nat) (n : DiskNode) : GfsM Unit := do
  let m ← getBuf .map
  let old := mapGet m (id / 16)
  loadTable old
  let t ← getBuf .tbl
  setBuf .tbl (nodeEncode t (id % 16 * 256) n)
  let phys ← allocBlock
  let bp ← writeMeta phys .tbl
  let m ← getBuf .map
  setBuf .map (mapSet m (id / 16) bp)
  freeBlock old.phys

/-! ## Transactions -/

/-- `txn_begin`. -/
def txnBegin : GfsM Unit := do
  let fs ← getCore
  if fs.writable = false then fail .erofs
  else do
    setWorking fs.committed
    readMeta fs.nodemap .map

/-- The device block that holds block `j` of bitmap copy `parity`. -/
def bitmapLba (fs : Core) (parity j : Nat) : Nat :=
  (fs.bitmapStart + parity * fs.bitmapBlocks + j) % 2 ^ 64

/-- `off` of `read_bitmap` and `write_bitmap`. -/
def bitmapOff (j : Nat) : Nat := j * 4096 % 2 ^ 64

/-- `chunk` of `read_bitmap` and `write_bitmap`: `bm_bytes - off` is a 64-bit unsigned number. -/
def bitmapChunk (bmBytes off : Nat) : Nat := min ((bmBytes + (2 ^ 64 - off)) % 2 ^ 64) 4096

/-- Block `j` of a bitmap copy; the bytes past the bitmap are zero. -/
def bitmapBlock (bmBytes : Nat) (bm : Bytes) (j : Nat) : Bytes :=
  copyIn zeroBlock 0 (slice bm (bitmapOff j) (bitmapChunk bmBytes (bitmapOff j)))

/-- `write_bitmap` of the working bitmap. -/
def writeBitmap (parity : Nat) : GfsM Unit := do
  let fs ← getCore
  Prog.foldP (fun _ j => do
    let w ← getWorking
    setBuf .b (bitmapBlock fs.bmBytes w j)
    bwrite (bitmapLba fs parity j) .b) () (List.range fs.bitmapBlocks)

/-- The superblock of a handle with the fields a commit changes. -/
def superOf (fs : Core) (gen : Nat) (nodemap : Bp) (bmCrc freeBlocks freeNodes : Nat) : Super :=
  ⟨gen, fs.totalBlocks, fs.nodeCount, fs.rootNode, fs.bitmapStart, fs.bitmapBlocks, bmCrc, nodemap,
    freeBlocks, freeNodes⟩

/-- `txn_commit`. The superblock write is the last; the handle adopts the state after it. -/
def txnCommit (nodesDelta : Int) : GfsM Unit := do
  let fs ← getCore
  let newGen := (fs.generation + 1) % 2 ^ 64
  let parity := newGen % 2
  let mpPhys ← allocBlock
  let newMap ← writeMeta mpPhys .map
  freeBlock fs.nodemap.phys
  let freeBlocks ← countFree
  let freeNodes := ((fs.freeNodes + nodesDelta) % 2 ^ 64).toNat
  writeBitmap parity
  let w ← getWorking
  setBuf .sb (sbEncode (superOf fs newGen newMap (crc32c (slice w 0 fs.bmBytes)) freeBlocks
    freeNodes))
  bwrite parity .sb
  setCore { fs with
    generation := newGen, nodemap := newMap, freeBlocks := freeBlocks, freeNodes := freeNodes,
    committed := w }

end Hallucinate.Gfs
