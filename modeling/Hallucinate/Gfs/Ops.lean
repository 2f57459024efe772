import Hallucinate.Gfs.Edge

/-!
# The calls of graphfs (`kernel/fs/graphfs_core.c`)

The reading calls and the seven mutating ones, each as one program. `const char *` arguments are
`CStr`s; a buffer with its length is the list of its bytes. A call that hands out a value through a
pointer returns it here: the new id of `gfs_node_create` and `gfs_create_at`, the node of
`gfs_lookup`, the bytes of `gfs_read`.

`gfs_write` keeps the physical block of each of the file's logical blocks in the scratch block `a`,
as 512 scalars of eight bytes.
-/

namespace Hallucinate.Gfs

open Lib

/-- The bytes of a C string, without the terminating zero. -/
structure CStr where
  bytes : List UInt8
  noNul : 0 ∉ bytes

/-- `name_len_ok`: the name, or why it is refused. -/
def nameLenOk (name : CStr) : Except Err (List UInt8) :=
  if name.bytes.length = 0 then .error .einval
  else if 255 < name.bytes.length then .error .enametoolong
  else if 47 ∈ name.bytes then .error .einval
  else .ok name.bytes

/-- The outcome of a check that needs no command. -/
def check {α : Type} (r : Except Err α) : GfsM α := .ret r

/-! ## Reading -/

/-- `map_load`. -/
def mapLoad : GfsM Unit := do
  let fs ← getCore
  readMeta fs.nodemap .map

/-- `struct gfs_node`. -/
structure Node where
  type : Nat
  mode : Nat
  size : Nat
  nlink : Nat
  edgeCount : Nat
  parent : Nat
  deriving DecidableEq, Repr

/-- `gfs_node_get`. -/
def gfsNodeGet (id : Nat) : GfsM Node := do
  mapLoad
  let n ← nodeRead id
  if n.type = nodeFree then fail .enoent
  else pure ⟨n.type, n.mode, n.size, n.nlink, n.edgeCount, n.parent⟩

/-- `gfs_lookup`. -/
def gfsLookup (dir : Nat) (name : CStr) : GfsM Nat := do
  let name ← check (nameLenOk name)
  mapLoad
  let d ← nodeRead dir
  if d.type ≠ nodeNamespace then fail .enotdir
  else edgeLookup d name

/-- One component in `gfs_resolve`: a name in the directory `dir`. -/
def resolveStep (dir : Nat) (comp : List UInt8) : GfsM Nat := do
  let d ← nodeRead dir
  if d.type ≠ nodeNamespace then fail .enotdir
  else edgeLookup d comp

/-- The inner loop of `gfs_resolve`, from byte `n` of a component on: the bytes copied to `comp`, and
what `p` points to after them. -/
def scanComponent : Nat → List UInt8 → Except Err (List UInt8 × List UInt8)
  | _, [] => .ok ([], [])
  | n, b :: p =>
    if b = 47 then .ok ([], b :: p)
    else if 255 ≤ n then .error .enametoolong
    else match scanComponent (n + 1) p with
      | .error e => .error e
      | .ok (comp, rest) => .ok (b :: comp, rest)

variable {n : Nat} {p comp rest : List UInt8}

theorem scanComponent_rest (h : scanComponent n p = .ok (comp, rest)) : comp ++ rest = p := by
  induction p generalizing n comp with
  | nil =>
    cases h
    rfl
  | cons b p ih =>
    rw [scanComponent] at h
    split at h
    · cases h
      rfl
    · split at h
      · cases h
      · cases hs : scanComponent (n + 1) p with
        | error e =>
          rw [hs] at h
          cases h
        | ok cr =>
          rw [hs] at h
          cases h
          exact congrArg (b :: ·) (ih hs)

variable {b : UInt8}

/-- A component that does not start with a slash is not empty. -/
theorem scanComponent_length (hb : b ≠ 47) (h : scanComponent n (b :: p) = .ok (comp, rest)) :
    rest.length ≤ p.length := by
  have happ := congrArg List.length (scanComponent_rest h)
  have hne : comp ≠ [] := by
    rintro rfl
    rw [scanComponent, if_neg hb] at h
    split at h
    · cases h
    · split at h <;> cases h
  have hpos := List.length_pos_iff.mpr hne
  rw [List.length_append, List.length_cons] at happ
  omega

/-- What is left after the slashes does not start with one. -/
theorem skip_slashes {p' : List UInt8} (hp : p.dropWhile (· = 47) = b :: p') :
    b ≠ 47 ∧ p'.length < p.length := by
  have hhead := List.head?_dropWhile_not (· = (47 : UInt8)) p
  have hle := (List.dropWhile_suffix (· = (47 : UInt8)) (l := p)).length_le
  rw [hp] at hhead hle
  exact ⟨by simpa using hhead, hle⟩

/-- The loop of `gfs_resolve`, from node `cur`. -/
def resolveLoop (p : List UInt8) (cur : Nat) : GfsM Nat :=
  match hp : p.dropWhile (· = 47) with
  | [] => pure cur
  | b :: p' =>
    match hs : scanComponent 0 (b :: p') with
    | .error e => fail e
    | .ok (comp, rest) => do
      let cur ← resolveStep cur comp
      resolveLoop rest cur
termination_by p.length
decreasing_by
  obtain ⟨hb, hlt⟩ := skip_slashes hp
  have hlen := scanComponent_length hb hs
  omega

/-- `gfs_resolve`. -/
def gfsResolve (path : CStr) : GfsM Nat :=
  if path.bytes.head? ≠ some 47 then fail .einval
  else do
    mapLoad
    let fs ← getCore
    resolveLoop path.bytes fs.rootNode

/-- The components of a path: what stands between slashes, and is not empty. -/
def components (path : List UInt8) : List (List UInt8) := (path.splitOn 47).filter (· ≠ [])

/-- The components of a path one after the other, from node `cur`. -/
def resolveWalk : List (List UInt8) → Nat → GfsM Nat
  | [], cur => pure cur
  | comp :: comps, cur =>
    if 255 < comp.length then fail .enametoolong
    else do
      let cur ← resolveStep cur comp
      resolveWalk comps cur

/-- The loop of `gfs_edge_get`; `running` is the number of edges in the blocks passed. -/
def edgeGetWalk (index : Nat) : Nat → Bp → Nat → GfsM Edge
  | fuel, cur, running =>
    if cur.phys = 0 then fail .ecorrupt
    else match fuel with
      | 0 => diverge
      | fuel + 1 => do
        readMeta cur .a
        let a ← getBuf .a
        if index < (running + ebCount a) % 2 ^ 32 then
          let e := edgeAt a (index - running)
          if 255 < e.name.length then fail .ecorrupt else pure e
        else edgeGetWalk index fuel (ebNext a) ((running + ebCount a) % 2 ^ 32)

/-- `gfs_edge_get`. -/
def gfsEdgeGet (id index : Nat) : GfsM Edge := do
  mapLoad
  let n ← nodeRead id
  if n.type = nodeFree then fail .enoent
  else if n.edgeCount ≤ index then fail .einval
  else do
    let fs ← getCore
    edgeGetWalk index fs.totalBlocks n.edgeHead 0

/-- `n->ext[k]`. -/
def DiskNode.extAt (n : DiskNode) (k : Nat) : Extent :=
  if h : k < 8 then n.ext ⟨k, h⟩ else ⟨0, 0, 0⟩

/-- `n->ext[k] = e`. -/
def DiskNode.setExt (n : DiskNode) (k : Nat) (e : Extent) : DiskNode :=
  { n with ext := fun i => if i.val = k then e else n.ext i }

/-- The extents in use. -/
def DiskNode.exts (n : DiskNode) : List Extent := (List.range n.nExtents).map n.extAt

/-- `bmap`: the block of a file's logical block, 0 for a hole. -/
def bmap (n : DiskNode) (lbn : Nat) : Nat :=
  match n.exts.find? fun e => e.logical ≤ lbn ∧ lbn < e.logical + e.len with
  | some e => e.phys + (lbn - e.logical)
  | none => 0

/-- The loop of `gfs_read` from `pos` to `stop`; a round goes to the end of a block at most. -/
def readWalk (n : DiskNode) (stop : Nat) : Nat → Nat → List UInt8 → GfsM (List UInt8)
  | fuel, pos, out =>
    if stop ≤ pos then pure out
    else match fuel with
      | 0 => diverge
      | fuel + 1 => do
        let boff := pos % 4096
        let chunk := min (4096 - boff) (stop - pos)
        let phys := bmap n (pos / 4096)
        if phys = 0 then readWalk n stop fuel (pos + chunk) (out ++ List.replicate chunk 0)
        else do
          bread phys .b
          let blk ← getBuf .b
          readWalk n stop fuel (pos + chunk) (out ++ slice blk boff chunk)

/-- `gfs_read`: the bytes read. -/
def gfsRead (id off len : Nat) : GfsM (List UInt8) := do
  mapLoad
  let n ← nodeRead id
  if n.type = nodeFree then fail .enoent
  else if n.type ≠ nodeData then fail .eisdir
  else if n.size ≤ off then pure []
  else
    let len := min len (n.size - off)
    readWalk n (off + len) len off []

/-! ## Nodes and edges -/

/-- The scan of `node_find_free` over the table blocks `bis`, `none` when there is no free id. -/
def findFreeIn : List Nat → GfsM (Option Nat)
  | [] => pure none
  | bi :: bis => do
    let fs ← getCore
    let m ← getBuf .map
    let bp := mapGet m bi
    if bp.phys = 0 then pure (some (if bi * 16 = 0 then 1 else bi * 16))
    else do
      readMeta bp .tbl
      let t ← getBuf .tbl
      match (List.range 16).find? fun k =>
          bi * 16 + k ≠ 0 ∧ bi * 16 + k < fs.nodeCount ∧ rd t (k * 256 + ndType) 4 = nodeFree with
      | some k => pure (some (bi * 16 + k))
      | none => findFreeIn bis

/-- `node_find_free`. -/
def nodeFindFree : GfsM Nat := do
  let fs ← getCore
  let id ← findFreeIn (List.range ((fs.nodeCount + 15) / 16))
  match id with
  | none => fail .enospc
  | some id => if id = 0 ∨ fs.nodeCount ≤ id then fail .enospc else pure id

/-- `gfs_node_create`. -/
def gfsNodeCreate (type : Nat) (mode : UInt32) : GfsM Nat :=
  if type ≠ nodeNamespace ∧ type ≠ nodeData then fail .einval
  else do
    txnBegin
    let id ← nodeFindFree
    nodeWrite id { zeroNode with type := type, mode := mode.toNat }
    txnCommit (-1)
    pure id

/-- `rc == GFS_OK` is an error `e`, `GFS_ENOENT` is fine, and any other error is passed on. -/
def expectNoEntry {α : Type} (e : Err) : Except Err α → GfsM Unit
  | .ok _ => fail e
  | .error .enoent => pure ()
  | .error e' => fail e'

/-- The checks of `gfs_link` that only a NAME edge has. -/
def linkChecks (d t : DiskNode) (name : List UInt8) : GfsM Unit :=
  if d.type ≠ nodeNamespace then fail .enotdir
  else do
    let rc ← (edgeLookup d name).attempt
    expectNoEntry .eexist rc
    Prog.when (t.type = nodeNamespace ∧ 1 ≤ t.nlink) (fail .emanyparents)

/-- The target of a new NAME edge, with its link counted and, for a namespace, its parent set. -/
def linkTarget (t : DiskNode) (dir : Nat) : DiskNode :=
  { t with
    nlink := (t.nlink + 1) % 2 ^ 32, parent := if t.type = nodeNamespace then dir else t.parent }

/-- `gfs_link`. -/
def gfsLink (dir : Nat) (name : CStr) (target type : Nat) : GfsM Unit :=
  if type ≠ edgeName ∧ type ≠ edgeTag ∧ type ≠ edgeRef then fail .einval
  else do
    let name ← check (nameLenOk name)
    txnBegin
    let d ← nodeRead dir
    let t ← nodeRead target
    if t.type = nodeFree then fail .enoent
    else do
      Prog.when (type = edgeName) (linkChecks d t name)
      let d ← edgeAdd d ⟨type, target, name⟩
      Prog.when (type = edgeName) (nodeWrite target (linkTarget t dir))
      nodeWrite dir d
      txnCommit 0

/-- A link less: `nlink--` on a `uint32_t`. -/
@[irreducible] def unlinked (t : DiskNode) : DiskNode := { t with nlink := (t.nlink + (2 ^ 32 - 1)) % 2 ^ 32 }

/-- Drop a link of node `id`, whose record is `t`: a node without links is freed with its blocks.
Returns the change of the free-node count. -/
def dropLink (id : Nat) (t : DiskNode) : GfsM Int :=
  if (unlinked t).nlink = 0 then do
    Prog.foldP (fun _ k => freeRun (t.extAt k).phys (List.range (t.extAt k).len)) ()
      (List.range t.nExtents)
    edgeChainFree t.edgeHead
    nodeWrite id zeroNode
    pure 1
  else do
    nodeWrite id (unlinked t)
    pure 0

/-- `gfs_unlink`. -/
def gfsUnlink (dir : Nat) (name : CStr) : GfsM Unit := do
  let name ← check (nameLenOk name)
  txnBegin
  let d ← nodeRead dir
  if d.type ≠ nodeNamespace then fail .enotdir
  else do
    let target ← edgeLookup d name
    let t ← nodeRead target
    if t.type = nodeNamespace ∧ 0 < t.edgeCount then fail .enotempty
    else do
      let (d, _) ← edgeRemoveName d name
      nodeWrite dir d
      let delta ← dropLink target t
      txnCommit delta

/-- `gfs_create_at`. -/
def gfsCreateAt (dir : Nat) (name : CStr) (type : Nat) (mode : UInt32) : GfsM Nat :=
  if type ≠ nodeNamespace ∧ type ≠ nodeData then fail .einval
  else do
    let name ← check (nameLenOk name)
    txnBegin
    let d ← nodeRead dir
    if d.type ≠ nodeNamespace then fail .enotdir
    else do
      let rc ← (edgeLookup d name).attempt
      expectNoEntry .eexist rc
      let id ← nodeFindFree
      nodeWrite id { zeroNode with
        type := type, mode := mode.toNat, nlink := 1,
        parent := if type = nodeNamespace then dir else 0 }
      let d ← edgeAdd d ⟨edgeName, id, name⟩
      nodeWrite dir d
      txnCommit (-1)
      pure id

/-! ## Renaming -/

/-- The walk of `gfs_rename` from `newdir` up to the root, looking for the node to move. It gives up
when the guard has passed `node_count`; `fuel` is what is left to it. -/
def parentWalk (src : Nat) : Nat → Nat → GfsM Unit
  | fuel, cur => do
    let fs ← getCore
    if cur = fs.rootNode then pure ()
    else if cur = src then fail .einval
    else match fuel with
      | 0 => fail .ecorrupt
      | fuel + 1 => do
        let walk ← nodeRead cur
        parentWalk src fuel walk.parent

/-- The checks on a node that a rename would replace. -/
def replaceChecks (sn dn : DiskNode) : GfsM Unit :=
  if sn.type = nodeNamespace then
    if dn.type ≠ nodeNamespace then fail .enotdir
    else if 0 < dn.edgeCount then fail .enotempty
    else pure ()
  else if dn.type = nodeNamespace then fail .eisdir
  else pure ()

/-- What `gfs_rename` knows once all its checks have passed. `ndn` is the record of the new
directory; when it is the old directory, `od` plays both roles and `ndn` is not used. -/
structure RenamePlan where
  od : DiskNode
  ndn : DiskNode
  src : Nat
  sn : DiskNode
  /-- The node that the new name refers to now, with its record. -/
  dst : Option (Nat × DiskNode)

/-- The second half of `gfs_rename`: edges first, node records last. -/
def renameMutate (olddir : Nat) (oldname : List UInt8) (newdir : Nat) (newname : List UInt8)
    (p : RenamePlan) : GfsM Unit := do
  let (od, _) ← edgeRemoveName p.od oldname
  let nd := if olddir = newdir then od else p.ndn
  let (nd, delta) ← (match p.dst with
    | none => pure (nd, 0)
    | some (dst, dn) => do
      let (nd, _) ← edgeRemoveName nd newname
      let delta ← dropLink dst dn
      pure (nd, delta))
  let nd ← edgeAdd nd ⟨edgeName, p.src, newname⟩
  Prog.when (p.sn.type = nodeNamespace ∧ p.sn.parent ≠ newdir)
    (nodeWrite p.src { p.sn with parent := newdir })
  nodeWrite olddir (if olddir = newdir then nd else od)
  Prog.when (olddir ≠ newdir) (nodeWrite newdir nd)
  txnCommit delta

/-- The checks of `gfs_rename`; `none` when both names already refer to the same node. -/
def renameChecks (olddir : Nat) (oldname : List UInt8) (newdir : Nat) (newname : List UInt8) :
    GfsM (Option RenamePlan) := do
  let od ← nodeRead olddir
  if od.type ≠ nodeNamespace then fail .enotdir
  else do
    let ndn ← (if olddir = newdir then pure od else nodeRead newdir)
    if ndn.type ≠ nodeNamespace then fail .enotdir
    else do
      let src ← edgeLookup od oldname
      let sn ← nodeRead src
      let fs ← getCore
      Prog.when (sn.type = nodeNamespace ∧ olddir ≠ newdir)
        (parentWalk src (fs.nodeCount + 1) newdir)
      let rc ← (edgeLookup ndn newname).attempt
      match rc with
      | .ok dst =>
        if dst = src then pure none
        else do
          let dn ← nodeRead dst
          replaceChecks sn dn
          pure (some ⟨od, ndn, src, sn, some (dst, dn)⟩)
      | .error .enoent => pure (some ⟨od, ndn, src, sn, none⟩)
      | .error e => fail e

/-- `gfs_rename`. -/
def gfsRename (olddir : Nat) (oldname : CStr) (newdir : Nat) (newname : CStr) : GfsM Unit := do
  let oldname ← check (nameLenOk oldname)
  let newname ← check (nameLenOk newname)
  txnBegin
  let plan ← renameChecks olddir oldname newdir newname
  match plan with
  | none => pure ()
  | some p => renameMutate olddir oldname newdir newname p

/-! ## File content -/

/-- `GFS_MAX_FILE_SIZE`. -/
def maxFileSize : Nat := 512 * 4096

/-- Entry `lbn` of the physical map. -/
def pmapGet (pm : Bytes) (lbn : Nat) : Nat := rd pm (lbn * 8) 8

def pmapSet (pm : Bytes) (lbn phys : Nat) : Bytes := wr pm (lbn * 8) 8 phys

/-- The physical map of the blocks a file has. -/
def pmapLoad (n : DiskNode) : Bytes :=
  n.exts.foldl (fun pm e => (List.range e.len).foldl (fun pm j =>
    if e.logical + j < 512 then pmapSet pm (e.logical + j) (e.phys + j) else pm) pm) zeroBlock

/-- What is in block `b` before the new bytes are copied in. A block that is overwritten whole is not
read: every byte of it will be set. -/
def loadOld (oldp wlen : Nat) : GfsM Unit :=
  if wlen < 4096 ∧ oldp ≠ 0 then bread oldp .b else setBuf .b zeroBlock

/-- One round of `gfs_write`'s loop over the blocks it touches: the new contents of block `lbn` go to
a fresh block. Returns the hint for the next one. -/
def writeRound (off : Nat) (src : List UInt8) (hint lbn : Nat) : GfsM Nat := do
  let pm ← getBuf .a
  let oldp := pmapGet pm lbn
  let bstart := lbn * 4096
  let wstart := max off bstart
  let wend := min (off + src.length) (bstart + 4096)
  loadOld oldp (wend - wstart)
  let blk ← getBuf .b
  setBuf .b (copyIn blk (wstart - bstart) ((src.drop (wstart - off)).take (wend - wstart)))
  let np ← allocNear hint
  bwrite np .b
  freeBlock oldp
  let pm ← getBuf .a
  setBuf .a (pmapSet pm lbn np)
  pure (np + 1)

/-- One block of the coalescing loop. -/
def coalesceStep (pm : Bytes) (n : DiskNode) (lbn : Nat) : Except Err DiskNode :=
  let phys := pmapGet pm lbn
  let last := n.extAt (n.nExtents - 1)
  if phys = 0 then .ok n
  else if 0 < n.nExtents ∧ last.logical + last.len = lbn ∧ last.phys + last.len = phys then
    .ok (n.setExt (n.nExtents - 1) { last with len := last.len + 1 })
  else if n.nExtents = 8 then .error .efrag
  else .ok { n.setExt n.nExtents ⟨lbn, phys, 1⟩ with nExtents := n.nExtents + 1 }

/-- The physical map back in inline extents. -/
def coalesce (pm : Bytes) (n : DiskNode) (newBlocks : Nat) : Except Err DiskNode :=
  (List.range newBlocks).foldlM (coalesceStep pm) { n with nExtents := 0 }

/-- `gfs_write`: the number of bytes written. -/
def gfsWrite (id off : Nat) (src : List UInt8) : GfsM Nat :=
  if src.length = 0 then pure 0
  else if maxFileSize < off ∨ maxFileSize < src.length ∨ maxFileSize < off + src.length then
    fail .efbig
  else do
    txnBegin
    let n ← nodeRead id
    if n.type = nodeFree then fail .enoent
    else if n.type ≠ nodeData then fail .eisdir
    else do
      let newSize := max n.size (off + src.length)
      setBuf .a (pmapLoad n)
      let first := off / 4096
      let needed := (off + src.length - 1) / 4096 - first + 1
      let free ← countFree
      if free < needed + 2 then fail .enospc
      else do
        let _ ← Prog.foldP (writeRound off src) 0 (List.range' first needed)
        let pm ← getBuf .a
        let n ← check (coalesce pm n ((newSize + 4095) / 4096))
        nodeWrite id { n with size := newSize }
        txnCommit 0
        pure src.length

/-- One extent of the trimming loop of `gfs_truncate`, which keeps `keep` blocks; `out` extents are
kept so far. -/
def trimStep (keep : Nat) (st : Nat × DiskNode) (k : Nat) : GfsM (Nat × DiskNode) := do
  let (out, n) := st
  let e := n.extAt k
  if keep ≤ e.logical then do
    freeRun e.phys (List.range e.len)
    pure (out, n)
  else if keep < e.logical + e.len then do
    let klen := keep - e.logical
    freeRun e.phys (List.range' klen (e.len - klen))
    pure (out + 1, n.setExt out { e with len := klen })
  else pure (out + 1, n.setExt out e)

/-- `gfs_truncate`'s rewrite of the last block with its tail zeroed. -/
def zeroTail (n : DiskNode) (size : Nat) : GfsM DiskNode := do
  let lbn := size / 4096
  let oldp := bmap n lbn
  if size % 4096 = 0 ∨ oldp = 0 then pure n
  else do
    bread oldp .b
    let blk ← getBuf .b
    setBuf .b (fill blk (size % 4096) (4096 - size % 4096) 0)
    let np ← allocBlock
    bwrite np .b
    freeBlock oldp
    let last := n.extAt (n.nExtents - 1)
    if last.len = 1 then pure (n.setExt (n.nExtents - 1) { last with phys := np })
    else if n.nExtents = 8 then fail .efrag
    else
      let n := n.setExt (n.nExtents - 1) { last with len := last.len - 1 }
      pure { n.setExt n.nExtents ⟨lbn, np, 1⟩ with nExtents := n.nExtents + 1 }

/-- `gfs_truncate`. -/
def gfsTruncate (id size : Nat) : GfsM Unit :=
  if maxFileSize < size then fail .efbig
  else do
    txnBegin
    let n ← nodeRead id
    if n.type = nodeFree then fail .enoent
    else if n.type ≠ nodeData then fail .eisdir
    else if size = n.size then pure ()
    else do
      let n ← (if size < n.size then do
          let (out, n) ← Prog.foldP (trimStep ((size + 4095) / 4096)) (0, n)
            (List.range n.nExtents)
          zeroTail { n with nExtents := out } size
        else pure n)
      nodeWrite id { n with size := size }
      txnCommit 0

/-! ## Calls -/

/-- The mutating calls. -/
inductive Call
  | nodeCreate (type : Nat) (mode : UInt32)
  | link (dir : Nat) (name : CStr) (target type : Nat)
  | unlink (dir : Nat) (name : CStr)
  | write (id off : Nat) (src : List UInt8)
  | createAt (dir : Nat) (name : CStr) (type : Nat) (mode : UInt32)
  | rename (olddir : Nat) (oldname : CStr) (newdir : Nat) (newname : CStr)
  | truncate (id size : Nat)

/-- The program of a call; a call that returns `GFS_OK` without a value returns 0. -/
def Call.prog : Call → GfsM Nat
  | .nodeCreate type mode => gfsNodeCreate type mode
  | .link dir name target type => gfsLink dir name target type >>= fun _ => pure 0
  | .unlink dir name => gfsUnlink dir name >>= fun _ => pure 0
  | .write id off src => gfsWrite id off src
  | .createAt dir name type mode => gfsCreateAt dir name type mode
  | .rename olddir oldname newdir newname =>
    gfsRename olddir oldname newdir newname >>= fun _ => pure 0
  | .truncate id size => gfsTruncate id size >>= fun _ => pure 0

/-- The reading calls. -/
inductive Query
  | nodeGet (id : Nat)
  | lookup (dir : Nat) (name : CStr)
  | resolve (path : CStr)
  | edgeGet (id index : Nat)
  | read (id off len : Nat)

/-- What a reading call hands out. -/
inductive Answer
  | node (n : Node)
  | id (id : Nat)
  | edge (e : Edge)
  | bytes (bs : List UInt8)
  deriving DecidableEq

/-- The program of a reading call. -/
def Query.prog : Query → GfsM Answer
  | .nodeGet id => gfsNodeGet id >>= fun n => pure (.node n)
  | .lookup dir name => gfsLookup dir name >>= fun id => pure (.id id)
  | .resolve path => gfsResolve path >>= fun id => pure (.id id)
  | .edgeGet id index => gfsEdgeGet id index >>= fun e => pure (.edge e)
  | .read id off len => gfsRead id off len >>= fun bs => pure (.bytes bs)

/-- A call from a state, under the device failures `o`. The log and the failure flag are those of
the call. -/
def call {α : Type} (p : GfsM α) (o : Nat → Bool) (s : St) : Option (Except Err α × St) :=
  p.run gfsMachine o { s with log := [], failed := false }

end Hallucinate.Gfs
