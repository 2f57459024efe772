import Hallucinate.Drivers.Virtq
import Hallucinate.Lib.Bytes

/-!
# The block layer over virtio-blk (`kernel/block/block.c`, `kernel/drivers/virtio_blk.c`)

`block_read` and `block_write` go through a write-through cache of 64 frames, replaced LRU. A miss or
a write becomes one request of `vblk_rw`: a chain of header, 4 KiB of data and status byte. Header
and status share one frame, which all requests use; the data is the frame of a cache entry.
`vblk_rw` polls the used ring until the chain comes back or the deadline has passed.

Memory and disk are bytes by address. The device is a party of its own. It fetches a chain it was
given (descriptors and header are read then), serves it (data is moved and the status byte written)
and completes it, each at any later time and in any order among the chains. A request it fails may
move any bytes in its own range. Calls come one after another, as `fs_lock` makes them.

Left out: `block_selftest` and the boot messages. `busy` is `pc ≠ idle`.
-/

namespace Hallucinate.Drivers.Blk

open Lib

/-- `BLOCK_SIZE`. -/
def blockSize : Nat := 4096

/-- `SECTORS_PER_BLOCK`. -/
def sectorsPerBlock : Nat := blockSize / 512

/-- `REQ_TIMEOUT_MS`. -/
def reqTimeoutMs : Nat := 2000

/-- What boot has fixed: the queue of `2 ^ k` descriptors, the tick rate, the capacity that the
device reports, and the frames of the request and of the cache, which `pmm_alloc_frame` gave. -/
structure Machine where
  k : Nat
  hz : UInt32
  sectors : UInt64
  reqPhys : UInt64
  frame : Fin 64 → UInt64
  queue_le : k ≤ 15
  req_end : reqPhys.toNat + 4096 ≤ 2 ^ 64
  frames_apart : ∀ i j, i ≠ j →
    (frame i).toNat + 4096 ≤ (frame j).toNat ∨ (frame j).toNat + 4096 ≤ (frame i).toNat
  req_apart : ∀ i, (frame i).toNat + 4096 ≤ reqPhys.toNat ∨ reqPhys.toNat + 4096 ≤ (frame i).toNat

/-- `nblocks`. -/
def Machine.nblocks (m : Machine) : Nat := m.sectors.toNat / sectorsPerBlock

/-- One block of data. -/
abbrev Block := { b : List UInt8 // b.length = blockSize }

inductive Call
  | read (lba : Nat)
  | write (lba : Nat) (buf : Block)

def Call.lba : Call → Nat
  | .read lba => lba
  | .write lba _ => lba

/-- `is_write`. -/
def Call.isWrite : Call → Bool
  | .read _ => false
  | .write _ _ => true

inductive Rc
  | ok
  | einval
  | eio
  deriving DecidableEq

/-- What a call returns: its code and, after a read, the bytes in the caller's buffer. -/
structure Ret where
  rc : Rc
  data : List UInt8
  deriving DecidableEq

/-- The ways in which `vblk_rw` stops the kernel. -/
inductive Panic
  /-- `KASSERT(head >= 0)` -/
  | noDescriptors
  /-- `KASSERT(id == -1)` -/
  | foreignChain
  /-- "device corrupted the used ring" -/
  | corruptRing
  deriving DecidableEq

/-- Where the one caller is. -/
inductive Pc
  | idle
  | polling (c : Call) (i : Fin 64) (head deadline : Nat)
  | panicked (why : Panic)

/-- `struct cache_entry`; the data is in the entry's frame. -/
structure CacheEntry where
  lba : Nat
  stamp : Nat

/-- A request that the device has fetched and not completed. -/
structure DevReq where
  head : Nat
  type : Nat
  sector : Nat
  data : Buffer
  status : Buffer
  served : Bool

structure Sys where
  q : Drivers.Sys
  mem : Bytes
  disk : Bytes
  cache : Fin 64 → CacheEntry
  lruClock : Nat
  ticks : Nat
  pc : Pc
  dev : List DevReq

/-! ## `vblk_rw` up to the poll loop -/

/-- `struct vblk_hdr`. -/
def vblkHdr (isWrite : Bool) (lba : Nat) : List Field :=
  [⟨0, 4, if isWrite then 1 else 0⟩, ⟨4, 4, 0⟩, ⟨8, 8, lba * sectorsPerBlock % 2 ^ 64⟩]

/-- The request frame after the header and the status byte 0xFF were stored. -/
def storeReq (m : Machine) (mem : Bytes) (isWrite : Bool) (lba : Nat) : Bytes :=
  copyIn (writeFields mem m.reqPhys.toNat (vblkHdr isWrite lba)) (m.reqPhys.toNat + 16) [0xFF]

/-- `sgs`. -/
def reqSgs (m : Machine) (i : Fin 64) : List VirtqSg :=
  [⟨m.reqPhys, 16⟩, ⟨m.frame i, 4096⟩, ⟨m.reqPhys + 16, 1⟩]

/-- How many of the three buffers the device reads. -/
def reqOut (isWrite : Bool) : Nat := if isWrite then 2 else 1

def reqIn (isWrite : Bool) : Nat := if isWrite then 1 else 2

def deadline (m : Machine) (ticks : Nat) : Nat :=
  (ticks + reqTimeoutMs * m.hz.toNat / 1000 + 1) % 2 ^ 64

/-- `vblk_rw` for the data in the frame of entry `i`, up to the poll loop. -/
def vblkRw (m : Machine) (s : Sys) (c : Call) (i : Fin 64) : Sys :=
  let r := virtqAdd s.q.vq (reqSgs m i) (reqOut c.isWrite) (reqIn c.isWrite)
  { s with
    mem := storeReq m s.mem c.isWrite c.lba
    q := { s.q with
      vq := r.2
      chains := chainsAdded s.q.chains (reqSgs m i) (reqOut c.isWrite) r.1 }
    pc := if r.1 < 0 then .panicked .noDescriptors
      else .polling c i r.1.toNat (deadline m s.ticks) }

/-! ## The cache -/

/-- `cache_lookup`. -/
def cacheLookup (cache : Fin 64 → CacheEntry) (lba : Nat) : Option (Fin 64) :=
  (List.finRange 64).find? fun i => (cache i).stamp ≠ 0 ∧ (cache i).lba = lba

/-- `cache_victim`. -/
def cacheVictim (cache : Fin 64 → CacheEntry) : Fin 64 :=
  (List.finRange 64).tail.foldl (fun v i => if (cache i).stamp < (cache v).stamp then i else v) 0

/-- The entry that is taken first. -/
abbrev firstEntry : Fin 64 := 0

variable {cache : Fin 64 → CacheEntry}

theorem cacheLookup_some {lba : Nat} {i : Fin 64} (h : cacheLookup cache lba = some i) :
    (cache i).stamp ≠ 0 ∧ (cache i).lba = lba := by
  simpa using List.find?_some h

theorem cacheLookup_none {lba : Nat} (h : cacheLookup cache lba = none) (i : Fin 64)
    (hst : (cache i).stamp ≠ 0) : (cache i).lba ≠ lba := by
  have hi := List.find?_eq_none.mp h i (List.mem_finRange i)
  simp only [decide_eq_true_eq, not_and] at hi
  exact hi hst

/-- `e->data`. -/
def data (m : Machine) (mem : Bytes) (i : Fin 64) : List UInt8 :=
  slice mem (m.frame i).toNat blockSize

def Sys.setEntry (s : Sys) (i : Fin 64) (e : CacheEntry) : Sys :=
  { s with cache := Function.update s.cache i e }

/-- `e->stamp = ++lru_clock`. -/
def touch (s : Sys) (i : Fin 64) : Sys :=
  { s.setEntry i { s.cache i with stamp := (s.lruClock + 1) % 2 ^ 64 } with
    lruClock := (s.lruClock + 1) % 2 ^ 64 }

/-- `block_read`; `none` when the call is left in the poll loop. -/
def blockRead (m : Machine) (s : Sys) (lba : Nat) : Sys × Option Ret :=
  if m.nblocks ≤ lba then (s, some ⟨.einval, []⟩)
  else match cacheLookup s.cache lba with
    | some i => (touch s i, some ⟨.ok, data m s.mem i⟩)
    | none => (vblkRw m s (.read lba) (cacheVictim s.cache), none)

/-- The entry that `block_write` takes, with its `lba` set. -/
def writeEntry (s : Sys) (lba : Nat) : Sys × Fin 64 :=
  match cacheLookup s.cache lba with
  | some i => (s, i)
  | none => (s.setEntry (cacheVictim s.cache) { s.cache (cacheVictim s.cache) with lba := lba },
      cacheVictim s.cache)

/-- `block_write`. -/
def blockWrite (m : Machine) (s : Sys) (lba : Nat) (buf : Block) : Sys × Option Ret :=
  if m.nblocks ≤ lba then (s, some ⟨.einval, []⟩)
  else
    let (s, i) := writeEntry s lba
    let s := touch { s with mem := copyIn s.mem (m.frame i).toNat buf.1 } i
    (vblkRw m s (.write lba buf) i, none)

/-- The end of a call whose request has failed. -/
def failed (s : Sys) (i : Fin 64) : Sys × Option Ret :=
  ({ s.setEntry i { s.cache i with stamp := 0 } with pc := .idle }, some ⟨.eio, []⟩)

/-- The end of a call whose chain has come back. -/
def finish (m : Machine) (s : Sys) (c : Call) (i : Fin 64) : Sys × Option Ret :=
  if s.mem (m.reqPhys.toNat + 16) ≠ 0 then failed s i
  else match c with
    | .read lba =>
      ({ touch (s.setEntry i { s.cache i with lba := lba }) i with pc := .idle },
        some ⟨.ok, data m s.mem i⟩)
    | .write _ _ => ({ s with pc := .idle }, some ⟨.ok, []⟩)

/-- One pass of the poll loop. -/
def poll (m : Machine) (s : Sys) (c : Call) (i : Fin 64) (head deadline : Nat) :
    Sys × Option Ret :=
  let (r, vq) := virtqTakeUsed s.q.vq
  let s := { s with q := s.q.taken r vq }
  match r with
  | .chain id _ =>
    if id = head then finish m s c i else ({ s with pc := .panicked .foreignChain }, none)
  | .broken => ({ s with pc := .panicked .corruptRing }, none)
  | .empty => if deadline < s.ticks then failed s i else (s, none)

/-! ## The device -/

/-- The request in a chain: the header is read when the chain is fetched. -/
def fetched (mem : Bytes) (head : Nat) : List Buffer → Option DevReq
  | [hdr, d, st] => some
      { head := head, type := rd mem hdr.addr.toNat 4, sector := rd mem (hdr.addr.toNat + 8) 8
        data := d, status := st, served := false }
  | _ => none

/-- The request reads the disk into a buffer that the device may write. -/
def DevReq.IsIn (r : DevReq) : Prop := r.type = 0 ∧ r.data.write = true

/-- The request writes the disk from a buffer that the device may read. -/
def DevReq.IsOut (r : DevReq) : Prop := r.type = 1 ∧ r.data.write = false

instance (r : DevReq) : Decidable r.IsIn := inferInstanceAs (Decidable (_ ∧ _))
instance (r : DevReq) : Decidable r.IsOut := inferInstanceAs (Decidable (_ ∧ _))

/-- The bytes that a successful request moves. -/
def DevReq.payload (r : DevReq) (mem disk : Bytes) : List UInt8 :=
  if r.IsIn then slice disk (r.sector * 512) r.data.len.toNat
  else if r.IsOut then slice mem r.data.addr.toNat r.data.len.toNat
  else []

/-- Memory after the request has moved `moved` and stored the status `code`. -/
def DevReq.memAfter (r : DevReq) (mem : Bytes) (moved : List UInt8) (code : UInt8) : Bytes :=
  copyIn (if r.IsIn then copyIn mem r.data.addr.toNat moved else mem) r.status.addr.toNat [code]

/-- The disk after the request has moved `moved`. -/
def DevReq.diskAfter (r : DevReq) (disk : Bytes) (moved : List UInt8) : Bytes :=
  if r.IsOut then copyIn disk (r.sector * 512) moved else disk

/-! ## Steps -/

inductive Ev
  | call (c : Call) (ret : Option Ret)
  | poll (c : Call) (ret : Option Ret)
  | fetch (head : Nat)
  | serve (head : Nat)
  | complete (head : Nat)
  | tick (n : Nat)

/-- The call that a step returns from. -/
def Ev.returned : Ev → Option (Call × Ret)
  | .call c (some r) => some (c, r)
  | .poll c (some r) => some (c, r)
  | _ => none

def blockCall (m : Machine) (s : Sys) : Call → Sys × Option Ret
  | .read lba => blockRead m s lba
  | .write lba buf => blockWrite m s lba buf

inductive Step (m : Machine) : Sys → Ev → Sys → Prop
  | call {s : Sys} (hidle : s.pc = .idle) (c : Call) :
      Step m s (.call c (blockCall m s c).2) (blockCall m s c).1
  | poll {s : Sys} {c : Call} {i : Fin 64} {head deadline : Nat}
      (hpoll : s.pc = .polling c i head deadline) :
      Step m s (.poll c (poll m s c i head deadline).2) (poll m s c i head deadline).1
  | fetch {s : Sys} {ch : Chain} {r : DevReq} (hch : ch ∈ s.q.chains)
      (hdone : ch.head ∉ s.q.done.map Prod.fst) (hdev : ch.head ∉ s.dev.map DevReq.head)
      (hr : fetched s.mem ch.head
        ((chainDescs s.q.vq ch.head).map fun j => (s.q.vq.desc j).buffer) = some r) :
      Step m s (.fetch ch.head) { s with dev := s.dev ++ [r] }
  | serve {s : Sys} {r : DevReq} (hr : r ∈ s.dev) (hnew : r.served = false) (code : UInt8)
      (moved : List UInt8) (hlen : moved.length ≤ r.data.len.toNat)
      (hok : code = 0 → moved = r.payload s.mem s.disk) :
      Step m s (.serve r.head)
        { s with
          mem := r.memAfter s.mem moved code
          disk := r.diskAfter s.disk moved
          dev := s.dev.map fun x => if x.head = r.head then { x with served := true } else x }
  | complete {s : Sys} {r : DevReq} {q : Drivers.Sys} (hr : r ∈ s.dev) (hserved : r.served = true)
      (len : UInt32) (hq : Drivers.Step s.q (.complete r.head len) q) :
      Step m s (.complete r.head) { s with q := q, dev := s.dev.filter fun x => x.head ≠ r.head }
  | tick {s : Sys} (n : Nat) : Step m s (.tick n) { s with ticks := (s.ticks + n) % 2 ^ 64 }

/-- The state after `virtio_blk_init` and `block_register`, over any memory and disk. -/
def Sys.start (m : Machine) (mem disk : Bytes) (table : Nat → VirtqDesc) : Sys where
  q := Drivers.Sys.start (2 ^ m.k) table
  mem := mem
  disk := disk
  cache _ := ⟨0, 0⟩
  lruClock := 0
  ticks := 0
  pc := .idle
  dev := []

end Hallucinate.Drivers.Blk
