import Hallucinate.Drivers.Blk

/-!
# Isolation of virtio-blk requests

`vblk_rw` relies on a queue that is empty between requests. Where every call that reaches the device
finds it so (`StepOk`), requests do not disturb each other: `blk_isolated`. A request that has timed
out is still with the device, together with the request frame and the frame of its cache entry, and
that entry is the next LRU victim. `blk_entangled` has two ways in which the next call goes wrong: the
late completion trips the assertion, and the late transfer overwrites a cache entry that the next call
has filled and marked valid.

The invariant `Inv` has three cases (`Mode`): nothing outstanding, one request that its call is
waiting for, or one request whose call has timed out. In the last case the entry of the request is
dropped and no other entry is valid for its block, so the device may do what it likes with both.
-/

namespace Hallucinate.Drivers.Blk

open Lib Function List

/-- The device's contents of `lba`. -/
def diskBlock (disk : Bytes) (lba : Nat) : List UInt8 := slice disk (lba * blockSize) blockSize

@[simp] theorem diskBlock_length (disk : Bytes) (lba : Nat) :
    (diskBlock disk lba).length = blockSize :=
  slice_length _ _ _

/-- If entry `i` is marked valid, it holds the device's contents of its block. -/
def Clean (m : Machine) (s : Sys) (i : Fin 64) : Prop :=
  (s.cache i).stamp ≠ 0 → data m s.mem i = diskBlock s.disk (s.cache i).lba

/-- The entry that a call in progress is using. -/
def Pc.entry : Pc → Option (Fin 64)
  | .polling _ i _ _ => some i
  | _ => none

/-- The call goes to the device. -/
def callsDevice (m : Machine) (s : Sys) (c : Call) : Prop :=
  c.lba < m.nblocks ∧ (c.isWrite = true ∨ cacheLookup s.cache c.lba = none)

/-- A call that goes to the device finds every descriptor free, and there are three. -/
def StepOk (m : Machine) (s : Sys) : Ev → Prop
  | .call c _ => callsDevice m s c → s.q.vq.numFree = s.q.vq.size ∧ 3 ≤ s.q.vq.size
  | _ => True

/-- What a call that returns 0 has done: a read has the device's contents of its block, and after a
write they are what was written. -/
def Call.Done (r : Ret) (disk : Bytes) : Call → Prop
  | .read lba => r.data = diskBlock disk lba
  | .write lba buf => diskBlock disk lba = buf.1

/-- If the step returns 0 from a call, it has transferred the data of that call. -/
def Delivered (e : Ev) (s : Sys) : Prop :=
  ∀ c r, e.returned = some (c, r) → r.rc = .ok → c.Done r s.disk

/-! ## Memory and disk -/

variable {src : List UInt8}

variable {mem' : Bytes}

section Memory

variable {m : Machine} {mem disk : Bytes} {i j : Fin 64}

theorem Machine.status_addr (m : Machine) : (m.reqPhys + 16).toNat = m.reqPhys.toNat + 16 := by
  have h := m.req_end
  rw [UInt64.toNat_add]
  exact Nat.mod_eq_of_lt (by simp; omega)

/-- What is stored in the request frame does not show in a cache frame. -/
theorem data_congr (h : ∀ p, p < m.reqPhys.toNat ∨ m.reqPhys.toNat + 4096 ≤ p → mem' p = mem p)
    (i : Fin 64) : data m mem' i = data m mem i := by
  have hapart := m.req_apart i
  exact slice_congr fun p h1 h2 => h p (by simp only [blockSize] at h2; omega)

theorem data_status (code : UInt8) (i : Fin 64) :
    data m (copyIn mem (m.reqPhys.toNat + 16) [code]) i = data m mem i :=
  data_congr (fun p hp => copyIn_of_not_mem (by simp only [length_singleton]; omega)) i

theorem data_storeReq (w : Bool) (lba : Nat) (i : Fin 64) :
    data m (storeReq m mem w lba) i = data m mem i := by
  rw [storeReq, data_status]
  refine data_congr (fun p hp => writeFields_of_not_mem fun f hf => ?_) i
  simp only [vblkHdr, mem_cons, not_mem_nil, or_false] at hf
  rcases hf with rfl | rfl | rfl <;> dsimp only <;> omega

/-- A frame is not seen through another one. -/
theorem data_copyIn_of_ne (hne : j ≠ i) (hlen : src.length ≤ blockSize) :
    data m (copyIn mem (m.frame i).toNat src) j = data m mem j := by
  have hapart := m.frames_apart i j (Ne.symm hne)
  simp only [blockSize] at hlen
  exact slice_copyIn_of_disjoint (by simp only [blockSize]; omega)

theorem data_copyIn (hlen : src.length = blockSize) :
    data m (copyIn mem (m.frame i).toNat src) i = src := by
  rw [data, ← hlen]
  exact slice_copyIn _ _ _

theorem diskBlock_copyIn {lba : Nat} (hlen : src.length = blockSize) :
    diskBlock (copyIn disk (lba * blockSize) src) lba = src := by
  rw [diskBlock, ← hlen]
  exact slice_copyIn _ _ _

/-- A block is not seen through another one. -/
theorem diskBlock_copyIn_of_ne {lba lba' : Nat} (hne : lba' ≠ lba) (hlen : src.length ≤ blockSize) :
    diskBlock (copyIn disk (lba * blockSize) src) lba' = diskBlock disk lba' := by
  refine slice_copyIn_of_disjoint ?_
  simp only [blockSize] at hlen ⊢
  rcases Nat.lt_or_gt_of_ne hne with h | h <;> omega

end Memory

/-! ## One request -/

variable {ch : Chain}

variable {code : UInt8} {moved : List UInt8} {q : Drivers.Sys}

section Request

variable {m : Machine} {mem : Bytes} {s : Sys} {c : Call} {i : Fin 64}

/-- The buffers of a request. -/
def reqBufs (m : Machine) (c : Call) (i : Fin 64) : List Buffer :=
  requestFrom (reqOut c.isWrite) 0 (reqSgs m i)

theorem reqBufs_eq (m : Machine) (c : Call) (i : Fin 64) :
    reqBufs m c i = [⟨m.reqPhys, 16, false⟩, ⟨m.frame i, 4096, !c.isWrite⟩,
      ⟨m.reqPhys + 16, 1, true⟩] := by
  cases c <;> rfl

/-- The request of `c` as the device should see it. -/
def devReq (m : Machine) (c : Call) (i : Fin 64) (head : Nat) (served : Bool) : DevReq where
  head := head
  type := if c.isWrite then 1 else 0
  sector := c.lba * sectorsPerBlock
  data := ⟨m.frame i, 4096, !c.isWrite⟩
  status := ⟨m.reqPhys + 16, 1, true⟩
  served := served

/-- The header of `c` is in the request frame. -/
def HdrIn (m : Machine) (mem : Bytes) (c : Call) : Prop :=
  rd mem m.reqPhys.toNat 4 = (if c.isWrite then 1 else 0) ∧
    rd mem (m.reqPhys.toNat + 8) 8 = c.lba * sectorsPerBlock

theorem HdrIn.fetched (h : HdrIn m mem c) (head : Nat) :
    fetched mem head (reqBufs m c i) = some (devReq m c i head false) := by
  rw [reqBufs_eq, Blk.fetched, h.1, h.2, devReq]

theorem hdrIn_storeReq (hlt : c.lba < m.nblocks) :
    HdrIn m (storeReq m mem c.isWrite c.lba) c := by
  have hsec : c.lba * sectorsPerBlock < 2 ^ 64 := by
    have hs := m.sectors.toNat_lt
    simp only [Machine.nblocks, sectorsPerBlock, blockSize] at hlt ⊢
    omega
  have hstatus : ∀ off w, off + w ≤ 16 →
      rd (storeReq m mem c.isWrite c.lba) (m.reqPhys.toNat + off) w =
        rd (writeFields mem m.reqPhys.toNat (vblkHdr c.isWrite c.lba)) (m.reqPhys.toNat + off) w :=
    fun off w hw => rd_congr fun p _ _ => copyIn_of_not_mem (by omega)
  have hdis : (vblkHdr c.isWrite c.lba).Pairwise Field.Disjoint := by
    simp [vblkHdr, Field.Disjoint]
  constructor
  · rw [← Nat.add_zero m.reqPhys.toNat, hstatus 0 4 (by decide)]
    exact rd_writeFields hdis (by simp [vblkHdr]) (by cases c.isWrite <;> decide)
  · rw [hstatus 8 8 (by decide)]
    refine rd_writeFields hdis ?_ (by omega)
    rw [vblkHdr, Nat.mod_eq_of_lt hsec]
    simp

/-- The data of `c` has been moved. -/
def Moved (m : Machine) (s : Sys) (c : Call) (i : Fin 64) : Prop :=
  match c with
  | .read lba => data m s.mem i = diskBlock s.disk lba
  | .write lba buf => diskBlock s.disk lba = buf.1

/-- If the status byte says so, the data of `c` has been moved. -/
def Settled (m : Machine) (s : Sys) (c : Call) (i : Fin 64) : Prop :=
  s.mem (m.reqPhys.toNat + 16) = 0 → Moved m s c i

/-- How far the device is with the chain at `head`. -/
inductive Phase (m : Machine) (s : Sys) (c : Call) (i : Fin 64) (head : Nat) : Prop
  | given (hdev : s.dev = []) (hdone : s.q.done = [])
  | fetched (hdev : s.dev = [devReq m c i head false]) (hdone : s.q.done = [])
  | served (hdev : s.dev = [devReq m c i head true]) (hdone : s.q.done = [])
      (hset : Settled m s c i)
  | completed (len : UInt32) (hdev : s.dev = []) (hdone : s.q.done = [(head, len)])
      (hset : Settled m s c i)

theorem Phase.congr {s' : Sys} {head : Nat} (h : Phase m s c i head) (hdev : s'.dev = s.dev)
    (hdone : s'.q.done = s.q.done) (hmem : s'.mem = s.mem) (hdisk : s'.disk = s.disk) :
    Phase m s' c i head := by
  have hset : Settled m s c i → Settled m s' c i := fun h hst => by
    rw [hmem] at hst
    have hmoved := h hst
    cases c <;> simp only [Moved, hmem, hdisk] at hmoved ⊢ <;> exact hmoved
  cases h with
  | given h1 h2 => exact .given (hdev.trans h1) (hdone.trans h2)
  | fetched h1 h2 => exact .fetched (hdev.trans h1) (hdone.trans h2)
  | served h1 h2 h3 => exact .served (hdev.trans h1) (hdone.trans h2) (hset h3)
  | completed len h1 h2 h3 => exact .completed len (hdev.trans h1) (hdone.trans h2) (hset h3)

/-- The request of `c`, on entry `i`, is the only one outstanding, and no other entry depends on it. -/
structure Req (m : Machine) (s : Sys) (c : Call) (i : Fin 64) (ch : Chain) : Prop where
  chains : s.q.chains = [ch]
  bufs : ch.bufs = reqBufs m c i
  inRange : c.lba < m.nblocks
  hdr : HdrIn m s.mem c
  source : ∀ lba buf, c = .write lba buf → data m s.mem i = buf.1 ∧ (s.cache i).lba = lba
  lone : ∀ j, j ≠ i → (s.cache j).stamp ≠ 0 → (s.cache j).lba ≠ c.lba
  others : ∀ j, j ≠ i → Clean m s j
  phase : Phase m s c i ch.head

theorem HdrIn.congr (h : HdrIn m mem c)
    (hm : ∀ p, m.reqPhys.toNat ≤ p → p < m.reqPhys.toNat + 16 → mem' p = mem p) : HdrIn m mem' c :=
  ⟨(rd_congr fun p _ _ => hm p (by omega) (by omega)).trans h.1,
    (rd_congr fun p _ _ => hm p (by omega) (by omega)).trans h.2⟩

theorem devReq_read_mem (m : Machine) (lba head : Nat) (mem : Bytes) (moved : List UInt8)
    (code : UInt8) : (devReq m (.read lba) i head false).memAfter mem moved code =
      copyIn (copyIn mem (m.frame i).toNat moved) (m.reqPhys.toNat + 16) [code] := by
  rw [← m.status_addr]
  rfl

theorem devReq_write_mem (m : Machine) (lba : Nat) (buf : Block) (head : Nat) (mem : Bytes)
    (moved : List UInt8) (code : UInt8) :
    (devReq m (.write lba buf) i head false).memAfter mem moved code =
      copyIn mem (m.reqPhys.toNat + 16) [code] := by
  rw [← m.status_addr]
  rfl

theorem sector_addr (lba : Nat) : lba * sectorsPerBlock * 512 = lba * blockSize := by
  rw [Nat.mul_assoc]
  rfl

theorem devReq_write_disk (m : Machine) (lba : Nat) (buf : Block) (head : Nat) (disk : Bytes)
    (moved : List UInt8) : (devReq m (.write lba buf) i head false).diskAfter disk moved =
      copyIn disk (lba * blockSize) moved := by
  rw [← sector_addr]
  rfl

theorem devReq_read_payload (m : Machine) (lba head : Nat) (mem disk : Bytes) :
    (devReq m (.read lba) i head false).payload mem disk = diskBlock disk lba := by
  rw [diskBlock, ← sector_addr]
  rfl

theorem status_stored (mem : Bytes) (off : Nat) (code : UInt8) : copyIn mem off [code] off = code := by
  simp [copyIn]

/-- What serving the request of `c` on entry `i` leaves alone, and what it has done if the status
says so: data moves between the frame of `i` and the block of `c` only. -/
structure Served (m : Machine) (s s' : Sys) (c : Call) (i : Fin 64) : Prop where
  hdr : HdrIn m s'.mem c
  settled : Settled m s' c i
  source : ∀ lba buf, c = .write lba buf → data m s'.mem i = buf.1
  frames : ∀ j, j ≠ i → data m s'.mem j = data m s.mem j
  blocks : ∀ lba, lba ≠ c.lba → diskBlock s'.disk lba = diskBlock s.disk lba

theorem served_of_serve {s' : Sys} (hdr : HdrIn m s.mem c) {head : Nat}
    (hlen : moved.length ≤ blockSize)
    (hok : code = 0 → moved = (devReq m c i head false).payload s.mem s.disk)
    (hsrc : ∀ lba buf, c = .write lba buf → data m s.mem i = buf.1)
    (hmem : s'.mem = (devReq m c i head false).memAfter s.mem moved code)
    (hdisk : s'.disk = (devReq m c i head false).diskAfter s.disk moved) : Served m s s' c i := by
  cases c with
  | read lba =>
    rw [devReq_read_mem] at hmem
    obtain hdisk : s'.disk = s.disk := hdisk
    have hapart := m.req_apart i
    simp only [blockSize] at hlen
    refine ⟨hdr.congr fun p h1 h2 => ?_, fun hst => ?_, nofun, fun j hj => ?_, fun lba' _ => ?_⟩
    · rw [hmem, copyIn_of_not_mem (by omega), copyIn_of_not_mem (by omega)]
    · rw [hmem, status_stored] at hst
      have hmv := hok hst
      rw [devReq_read_payload] at hmv
      rw [Moved, hmem, data_status, data_copyIn (by rw [hmv, diskBlock_length]), hmv, hdisk]
    · rw [hmem, data_status, data_copyIn_of_ne hj hlen]
    · rw [hdisk]
  | write lba buf =>
    rw [devReq_write_mem] at hmem
    rw [devReq_write_disk] at hdisk
    refine ⟨hdr.congr fun p h1 h2 => ?_, fun hst => ?_, fun lba' buf' he => ?_, fun j _ => ?_,
      fun lba' hne => ?_⟩
    · rw [hmem, copyIn_of_not_mem (by omega)]
    · rw [hmem, status_stored] at hst
      have hmv : moved = data m s.mem i := hok hst
      rw [hsrc lba buf rfl] at hmv
      rw [Moved, hdisk, diskBlock_copyIn (by rw [hmv]; exact buf.2), hmv]
    · rw [hmem, data_status]
      exact hsrc lba' buf' he
    · rw [hmem, data_status]
    · rw [hdisk]
      exact diskBlock_copyIn_of_ne hne hlen

/-! ### The device's steps -/

/-- Only the device's part of the state has changed, and only where the request lets it. -/
theorem Req.served {s' : Sys} (h : Req m s c i ch) (hs : Served m s s' c i) (hq : s'.q = s.q)
    (hcache : s'.cache = s.cache) (hdev : s'.dev = [devReq m c i ch.head true])
    (hdone : s.q.done = []) : Req m s' c i ch := by
  refine ⟨by rw [hq]; exact h.chains, h.bufs, h.inRange, hs.hdr, fun lba buf he => ?_,
    by rw [hcache]; exact h.lone, fun j hj hst => ?_, .served hdev (by rw [hq]; exact hdone) hs.settled⟩
  · rw [hcache]
    exact ⟨hs.source lba buf he, (h.source lba buf he).2⟩
  · rw [hcache] at hst ⊢
    rw [hs.frames j hj, hs.blocks _ (h.lone j hj hst)]
    exact h.others j hj hst

/-- A change of the queue and of the device's list alone. -/
theorem Req.rephase {dev : List DevReq} (h : Req m s c i ch) (hq : q.chains = s.q.chains)
    (hp : Phase m { s with q := q, dev := dev } c i ch.head) :
    Req m { s with q := q, dev := dev } c i ch :=
  ⟨hq.trans h.chains, h.bufs, h.inRange, h.hdr, h.source, h.lone, h.others, hp⟩

/-- A change of the clock and of the caller alone. -/
theorem Req.clock {t : Nat} {pc : Pc} (h : Req m s c i ch) :
    Req m { s with ticks := t, pc := pc } c i ch :=
  ⟨h.chains, h.bufs, h.inRange, h.hdr, h.source, h.lone, h.others, h.phase.congr rfl rfl rfl rfl⟩

end Request

/-! ## The invariant -/

/-- What is outstanding, and who waits for it. -/
inductive Mode (m : Machine) (s : Sys) : Prop
  | ready (hpc : s.pc = .idle) (hch : s.q.chains = []) (hdev : s.dev = [])
      (hclean : ∀ i, Clean m s i)
  | waiting (c : Call) (i : Fin 64) (ch : Chain) (d : Nat) (hpc : s.pc = .polling c i ch.head d)
      (hr : Req m s c i ch)
  | orphaned (c : Call) (i : Fin 64) (ch : Chain) (hpc : s.pc = .idle) (hr : Req m s c i ch)
      (hdrop : (s.cache i).stamp = 0)

/-- No two valid entries are for one block. -/
def Unique (cache : Fin 64 → CacheEntry) : Prop :=
  ∀ i j, (cache i).stamp ≠ 0 → (cache j).stamp ≠ 0 → (cache i).lba = (cache j).lba → i = j

structure Inv (m : Machine) (s : Sys) : Prop where
  queue : Drivers.Inv (2 ^ m.k) s.q
  unique : Unique s.cache
  mode : Mode m s

variable {r : DevReq}

section Inv

variable {m : Machine} {s s' : Sys} {c : Call} {i : Fin 64}

theorem inv_start (m : Machine) (mem disk : Bytes) (table : Nat → VirtqDesc) :
    Inv m (Sys.start m mem disk table) :=
  ⟨Drivers.inv_start table _, fun _ _ h => absurd rfl h, .ready rfl rfl rfl fun _ h => absurd rfl h⟩

section

variable (hq : Drivers.Inv (2 ^ m.k) s.q)
include hq

theorem done_eq_nil (hch : s.q.chains = []) : s.q.done = [] := by
  rw [← map_eq_nil_iff (f := Prod.fst), eq_nil_iff_forall_not_mem]
  intro h hh
  have hmem := hq.known h hh
  rw [hch] at hmem
  exact absurd hmem (by simp)

/-- A queue with every descriptor free has nothing outstanding. -/
theorem chains_eq_nil (hfree : s.q.vq.numFree = s.q.vq.size) : s.q.chains = [] := by
  have hcount := hq.count
  rw [hfree, hq.sized] at hcount
  have hnil : heldDescs s.q.vq s.q.chains = [] := eq_nil_of_length_eq_zero (by omega)
  rw [eq_nil_iff_forall_not_mem]
  intro ch hch
  have hmem : ch.head ∈ heldDescs s.q.vq s.q.chains :=
    mem_flatMap.mpr ⟨ch, hch, (hq.holds ch hch).head_mem⟩
  rw [hnil] at hmem
  exact absurd hmem (by simp)

/-! ### Calls -/

/-- `vblk_rw` on an empty queue leaves its one request with the device. -/
theorem vblkRw_waiting (hch : s.q.chains = []) (hdev : s.dev = []) (h3 : 3 ≤ s.q.vq.numFree)
    (hlt : c.lba < m.nblocks)
    (hsrc : ∀ lba buf, c = .write lba buf → data m s.mem i = buf.1 ∧ (s.cache i).lba = lba)
    (hlone : ∀ j, j ≠ i → (s.cache j).stamp ≠ 0 → (s.cache j).lba ≠ c.lba)
    (hothers : ∀ j, j ≠ i → Clean m s j) : Drivers.Inv (2 ^ m.k) (vblkRw m s c i).q ∧ ∃ ch d,
      (vblkRw m s c i).pc = .polling c i ch.head d ∧ Req m (vblkRw m s c i) c i ch := by
  have htotal : reqOut c.isWrite + reqIn c.isWrite = 3 := by cases c <;> rfl
  have hlen : (reqSgs m i).length = reqOut c.isWrite + reqIn c.isWrite := htotal.symm
  have hsmall : reqOut c.isWrite + reqIn c.isWrite < 2 ^ 16 := by rw [htotal]; decide
  have hhead := (virtqAdd_accepted hsmall hlen (by omega) (by omega)
    (nodup_append.mp hq.nodup).1).1
  have hadd := hq.add hlen hsmall
  have hnew : chainsAdded s.q.chains (reqSgs m i) (reqOut c.isWrite) s.q.vq.freeHead =
      [⟨s.q.vq.freeHead, reqBufs m c i⟩] := by
    rw [chainsAdded, if_neg (by omega), hch]
    rfl
  have hnonneg : ¬(s.q.vq.freeHead : Int) < 0 := by omega
  have hdone := done_eq_nil hq hch
  refine ⟨hadd, ⟨s.q.vq.freeHead, reqBufs m c i⟩, deadline m s.ticks, ?_, ?_⟩
  · simp only [vblkRw, hhead, if_neg hnonneg, Int.toNat_natCast]
  · refine ⟨?_, rfl, hlt, hdrIn_storeReq hlt, fun lba buf he => ?_, hlone, fun j hj hst => ?_,
      .given hdev hdone⟩
    · simp only [vblkRw, hhead, hnew]
    · simp only [vblkRw, data_storeReq]
      exact hsrc lba buf he
    · simp only [vblkRw, data_storeReq]
      exact hothers j hj hst

end

theorem Unique.set {cache : Fin 64 → CacheEntry} (h : Unique cache) {e : CacheEntry}
    (hlone : e.stamp ≠ 0 → ∀ j, j ≠ i → (cache j).stamp ≠ 0 → (cache j).lba ≠ e.lba) :
    Unique (update cache i e) := by
  intro a b ha hb hab
  by_cases hai : a = i <;> by_cases hbi : b = i
  · rw [hai, hbi]
  · subst hai
    rw [update_self] at ha hab
    rw [update_of_ne hbi] at hb hab
    exact absurd hab.symm (hlone ha b hbi hb)
  · subst hbi
    rw [update_self] at hb hab
    rw [update_of_ne hai] at ha hab
    exact absurd hab (hlone hb a hai ha)
  · rw [update_of_ne hai] at ha hab
    rw [update_of_ne hbi] at hb hab
    exact h a b ha hb hab

/-- Using an entry that is valid. -/
theorem Clean.touch {j : Fin 64} (h : Clean m s j) (hv : (s.cache i).stamp ≠ 0) :
    Clean m (touch s i) j := by
  intro hst
  by_cases hj : j = i
  · subst hj
    simp only [Blk.touch, Sys.setEntry, update_self]
    exact h hv
  · simp only [Blk.touch, Sys.setEntry, update_of_ne hj] at hst ⊢
    exact h hst

theorem Req.touch {j : Fin 64} (h : Req m s c i ch) (hj : j ≠ i) (hv : (s.cache j).stamp ≠ 0) :
    Req m (touch s j) c i ch := by
  have hlone : ∀ a, a ≠ i → ((Blk.touch s j).cache a).stamp ≠ 0 →
      ((Blk.touch s j).cache a).lba ≠ c.lba := fun a ha hst => by
    by_cases haj : a = j
    · subst haj
      simp only [Blk.touch, Sys.setEntry, update_self]
      exact h.lone a ha hv
    · simp only [Blk.touch, Sys.setEntry, update_of_ne haj] at hst ⊢
      exact h.lone a ha hst
  have hi : (Blk.touch s j).cache i = s.cache i := update_of_ne (Ne.symm hj) _ _
  refine ⟨h.chains, h.bufs, h.inRange, h.hdr, fun lba buf he => ?_, hlone,
    fun a ha => (h.others a ha).touch hv, ?_⟩
  · rw [hi]
    exact h.source lba buf he
  · exact h.phase.congr rfl rfl rfl rfl

/-- A cache hit. -/
theorem Inv.hit (h : Inv m s) (hidle : s.pc = .idle) (hv : (s.cache i).stamp ≠ 0) :
    Clean m s i ∧ Inv m (touch s i) := by
  have huniq : Unique (touch s i).cache :=
    h.unique.set fun _ j hj hst he => hj (h.unique j i hst hv he)
  cases h.mode with
  | ready hpc hch hdev hclean =>
    exact ⟨hclean i, h.queue, huniq, .ready hpc hch hdev fun j => (hclean j).touch hv⟩
  | waiting c' i' ch d hpc hr => rw [hidle] at hpc; cases hpc
  | orphaned c' i' ch hpc hr hdrop =>
    have hne : i ≠ i' := fun e => hv (e ▸ hdrop)
    refine ⟨hr.others i hne, h.queue, huniq, .orphaned c' i' ch hpc (hr.touch hne hv) ?_⟩
    have hi' : (touch s i).cache i' = s.cache i' := update_of_ne (Ne.symm hne) _ _
    rw [hi']
    exact hdrop

/-- A call that goes to the device is made with nothing outstanding. -/
theorem Inv.empty (h : Inv m s) (hfree : s.q.vq.numFree = s.q.vq.size) :
    s.q.chains = [] ∧ s.dev = [] ∧ ∀ i, Clean m s i := by
  have hnil := chains_eq_nil h.queue hfree
  cases h.mode with
  | ready hpc hch hdev hclean => exact ⟨hch, hdev, hclean⟩
  | waiting c i ch d hpc hr => rw [hr.chains] at hnil; cases hnil
  | orphaned c i ch hpc hr hdrop => rw [hr.chains] at hnil; cases hnil

theorem Inv.read (h : Inv m s) (hidle : s.pc = .idle) {lba : Nat}
    (hok : lba < m.nblocks → cacheLookup s.cache lba = none →
      s.q.vq.numFree = s.q.vq.size ∧ 3 ≤ s.q.vq.size) :
    Inv m (blockRead m s lba).1 ∧ ∀ r, (blockRead m s lba).2 = some r → r.rc = .ok →
      r.data = diskBlock (blockRead m s lba).1.disk lba := by
  unfold blockRead
  by_cases hlt : m.nblocks ≤ lba
  · rw [if_pos hlt]
    refine ⟨h, fun r hr hrc => ?_⟩
    obtain rfl := Option.some.inj hr
    cases hrc
  rw [if_neg hlt]
  cases hl : cacheLookup s.cache lba with
  | some i =>
    obtain ⟨hv, hlba⟩ := cacheLookup_some hl
    obtain ⟨hclean, hinv⟩ := h.hit hidle hv
    refine ⟨hinv, fun r hr _ => ?_⟩
    obtain rfl := Option.some.inj hr
    have hdisk : (touch s i).disk = s.disk := rfl
    rw [hdisk, ← hlba]
    dsimp only
    exact hclean hv
  | none =>
    obtain ⟨hfree, h3⟩ := hok (Nat.lt_of_not_le hlt) hl
    obtain ⟨hch, hdev, hclean⟩ := h.empty hfree
    obtain ⟨hq, ch, d, hpc, hr⟩ := vblkRw_waiting (c := .read lba) (i := cacheVictim s.cache) h.queue
      hch hdev (by omega) (Nat.lt_of_not_le hlt) nofun (fun j _ hst => cacheLookup_none hl j hst)
      (fun j _ => hclean j)
    exact ⟨⟨hq, h.unique, .waiting _ _ ch d hpc hr⟩, nofun⟩

/-- The entry that `block_write` takes is for `lba`, and no other valid one is. -/
theorem writeEntry_spec (hu : Unique s.cache) (lba : Nat) : ∃ i e,
    writeEntry s lba = (s.setEntry i e, i) ∧ e.lba = lba ∧
      ∀ j, j ≠ i → (s.cache j).stamp ≠ 0 → (s.cache j).lba ≠ lba := by
  unfold writeEntry
  cases hl : cacheLookup s.cache lba with
  | some i =>
    obtain ⟨hv, hlba⟩ := cacheLookup_some hl
    refine ⟨i, s.cache i, ?_, hlba, fun j hj hst he => hj (hu j i hst hv (he.trans hlba.symm))⟩
    simp only [Sys.setEntry, update_eq_self]
  | none =>
    exact ⟨_, _, rfl, rfl, fun j _ hst => cacheLookup_none hl j hst⟩

theorem Inv.write (h : Inv m s) {lba : Nat} (buf : Block)
    (hok : lba < m.nblocks → s.q.vq.numFree = s.q.vq.size ∧ 3 ≤ s.q.vq.size) :
    Inv m (blockWrite m s lba buf).1 ∧
      ∀ r, (blockWrite m s lba buf).2 = some r → r.rc ≠ .ok := by
  unfold blockWrite
  by_cases hlt : m.nblocks ≤ lba
  · rw [if_pos hlt]
    refine ⟨h, fun r hr hrc => ?_⟩
    obtain rfl := Option.some.inj hr
    cases hrc
  rw [if_neg hlt]
  obtain ⟨hfree, h3⟩ := hok (Nat.lt_of_not_le hlt)
  obtain ⟨hch, hdev, hclean⟩ := h.empty hfree
  obtain ⟨i, e, he, hlba, hlone⟩ := writeEntry_spec h.unique lba
  rw [he]
  dsimp only
  set s₁ := touch { s.setEntry i e with
    mem := copyIn (s.setEntry i e).mem (m.frame i).toNat buf.1 } i
  have hcache : s₁.cache = update s.cache i { e with stamp := (s.lruClock + 1) % 2 ^ 64 } := by
    simp only [s₁, touch, Sys.setEntry, update_self, update_idem]
  obtain ⟨hq, ch, d, hpc, hr⟩ := vblkRw_waiting (s := s₁) (c := .write lba buf) (i := i)
    h.queue hch hdev (h3.trans hfree.ge) (Nat.lt_of_not_le hlt)
    (fun lba' buf' he' => by
      obtain ⟨rfl, rfl⟩ := Call.write.inj he'
      rw [hcache, update_self]
      exact ⟨data_copyIn buf.2, hlba⟩)
    (fun j hne hst => by rw [hcache, update_of_ne hne] at hst ⊢; exact hlone j hne hst)
    (fun j hne hst => by
      rw [hcache, update_of_ne hne] at hst ⊢
      exact (data_copyIn_of_ne hne buf.2.le).trans (hclean j hst))
  have huniq : Unique s₁.cache := by
    rw [hcache]
    exact h.unique.set fun _ j hne hst => by rw [hlba]; exact hlone j hne hst
  exact ⟨⟨hq, huniq, .waiting _ i ch d hpc hr⟩, nofun⟩

/-! ### The poll loop -/

/-- The request has failed and its entry is dropped. -/
theorem Req.drop (h : Req m s c i ch) : Req m (failed s i).1 c i ch := by
  have hj : ∀ j, j ≠ i → (failed s i).1.cache j = s.cache j := fun j hj => update_of_ne hj _ _
  refine ⟨h.chains, h.bufs, h.inRange, h.hdr, fun lba buf he => ?_, fun j hne hst => ?_,
    fun j hne hst => ?_, ?_⟩
  · have hi : ((failed s i).1.cache i).lba = (s.cache i).lba := by
      simp only [failed, Sys.setEntry, update_self]
    rw [hi]
    exact h.source lba buf he
  · rw [hj j hne] at hst ⊢
    exact h.lone j hne hst
  · rw [hj j hne] at hst ⊢
    exact h.others j hne hst
  · exact h.phase.congr rfl rfl rfl rfl

theorem clean_drop (hothers : ∀ j, j ≠ i → Clean m s j) (j : Fin 64) : Clean m (failed s i).1 j := by
  intro hst
  by_cases hj : j = i
  · subst hj
    simp only [failed, Sys.setEntry, update_self, ne_eq, not_true_eq_false] at hst
  · simp only [failed, Sys.setEntry, update_of_ne hj] at hst ⊢
    exact hothers j hj hst

/-- The chain has come back: the status byte tells whether the data was moved. -/
theorem Inv.finish (hq : Drivers.Inv (2 ^ m.k) s.q) (hu : Unique s.cache) (hch : s.q.chains = [])
    (hdev : s.dev = []) (hset : Settled m s c i)
    (hsrc : ∀ lba buf, c = .write lba buf → data m s.mem i = buf.1 ∧ (s.cache i).lba = lba)
    (hlone : ∀ j, j ≠ i → (s.cache j).stamp ≠ 0 → (s.cache j).lba ≠ c.lba)
    (hothers : ∀ j, j ≠ i → Clean m s j) :
    Inv m (finish m s c i).1 ∧ ∀ r, (finish m s c i).2 = some r → r.rc = .ok →
      c.Done r (finish m s c i).1.disk := by
  unfold Blk.finish
  by_cases hst : s.mem (m.reqPhys.toNat + 16) ≠ 0
  · rw [if_pos hst]
    refine ⟨⟨hq, hu.set fun h0 => absurd rfl h0, .ready rfl hch hdev (clean_drop hothers)⟩,
      fun r hr hrc => ?_⟩
    obtain rfl := Option.some.inj hr
    cases hrc
  rw [if_neg hst]
  have hmoved := hset (not_not.mp hst)
  cases c with
  | read lba =>
    dsimp only
    set s₁ := touch (s.setEntry i ⟨lba, (s.cache i).stamp⟩) i
    have hcache : s₁.cache = update s.cache i ⟨lba, (s.lruClock + 1) % 2 ^ 64⟩ := by
      simp only [s₁, touch, Sys.setEntry, update_self, update_idem]
    refine ⟨⟨hq, ?_, .ready rfl hch hdev fun j hv => ?_⟩, fun r hr _ => ?_⟩
    · exact hcache ▸ hu.set (e := ⟨lba, _⟩) fun _ => hlone
    · simp only [hcache] at hv ⊢
      by_cases hj : j = i
      · subst hj
        rw [update_self]
        exact hmoved
      · rw [update_of_ne hj] at hv ⊢
        exact hothers j hj hv
    · cases hr
      simp only [Call.Done]
      exact hmoved
  | write lba buf =>
    obtain ⟨hdata, hlba⟩ := hsrc lba buf rfl
    refine ⟨⟨hq, hu, .ready rfl hch hdev fun j hv => ?_⟩, fun r _ _ => hmoved⟩
    by_cases hj : j = i
    · subst hj
      dsimp only
      rw [hdata, hlba]
      exact Eq.symm hmoved
    · exact hothers j hj hv

theorem Inv.poll (h : Inv m s) {head d : Nat} (hpoll : s.pc = .polling c i head d) :
    Inv m (poll m s c i head d).1 ∧ ∀ r, (poll m s c i head d).2 = some r → r.rc = .ok →
      c.Done r (poll m s c i head d).1.disk := by
  obtain ⟨ch, rfl, hr⟩ : ∃ ch : Chain, head = ch.head ∧ Req m s c i ch := by
    cases h.mode with
    | ready hpc => rw [hpc] at hpoll; cases hpoll
    | waiting c' i' ch d' hpc hr =>
      rw [hpc] at hpoll
      obtain ⟨rfl, rfl, rfl, rfl⟩ := Pc.polling.inj hpoll
      exact ⟨ch, rfl, hr⟩
    | orphaned c' i' ch hpc => rw [hpc] at hpoll; cases hpoll
  unfold Blk.poll
  rcases h.queue.take m.queue_le with ⟨hdone, ht⟩ | ⟨id, len, rest, hdone, ht, hq⟩
  · -- nothing has come back: go on, or give up and leave the request with the device
    rw [ht]
    have hself : s.q.taken .empty s.q.vq = s.q := rfl
    simp only [hself]
    by_cases hlate : d < s.ticks
    · rw [if_pos hlate]
      refine ⟨⟨h.queue, h.unique.set fun h0 => absurd rfl h0,
        .orphaned c i ch rfl hr.drop ?_⟩, fun r hr' hrc => ?_⟩
      · simp only [failed, Sys.setEntry, update_self]
      · obtain rfl := Option.some.inj hr'
        cases hrc
    · rw [if_neg hlate]
      exact ⟨h, nofun⟩
  · have hphase : s.dev = [] ∧ id = ch.head ∧ Settled m s c i := by
      cases hr.phase with
      | given _ hd => rw [hd] at hdone; cases hdone
      | fetched _ hd => rw [hd] at hdone; cases hdone
      | served _ hd => rw [hd] at hdone; cases hdone
      | completed len' hdev hd hset =>
        rw [hd] at hdone
        cases hdone
        exact ⟨hdev, rfl, hset⟩
    obtain ⟨hdev, rfl, hset⟩ := hphase
    generalize virtqTakeUsed s.q.vq = rv at ht hq
    obtain ⟨r, vq⟩ := rv
    obtain rfl : r = .chain ch.head len := ht
    simp only [if_true]
    have hnil : (s.q.taken (.chain ch.head len) vq).chains = [] := by
      simp [Sys.taken, hr.chains]
    generalize s.q.taken (.chain ch.head len) vq = q' at hq hnil
    exact Inv.finish (s := { s with q := q' }) hq h.unique hnil hdev
      (fun hst => by cases c <;> exact hset hst) hr.source hr.lone fun j hj => hr.others j hj

/-! ### The device -/

/-- A step of the device leaves the caller and the cache entries alone, so it is enough to look at the
one request there may be. -/
theorem Mode.device (h : Mode m s) :
    (s.q.chains = [] ∧ s.dev = []) ∨ ∃ c i ch, Req m s c i ch ∧
      ∀ s', s'.pc = s.pc → s'.cache = s.cache → Req m s' c i ch → Mode m s' := by
  cases h with
  | ready _ hch hdev => exact .inl ⟨hch, hdev⟩
  | waiting c i ch d hpc hr =>
    exact .inr ⟨c, i, ch, hr, fun s' hp _ hr' => .waiting c i ch d (hp.trans hpc) hr'⟩
  | orphaned c i ch hpc hr hdrop =>
    exact .inr ⟨c, i, ch, hr, fun s' hp hc hr' => .orphaned c i ch (hp.trans hpc) hr' (by
      rw [hc]
      exact hdrop)⟩

theorem Inv.fetch (h : Inv m s) (hch : ch ∈ s.q.chains) (hdone : ch.head ∉ s.q.done.map Prod.fst)
    (hdev : ch.head ∉ s.dev.map DevReq.head) (hr : fetched s.mem ch.head
      ((chainDescs s.q.vq ch.head).map fun j => (s.q.vq.desc j).buffer) = some r) :
    Inv m { s with dev := s.dev ++ [r] } := by
  rcases h.mode.device with ⟨hnil, -⟩ | ⟨c, i, ch', hreq, hmode⟩
  · rw [hnil] at hch
    cases hch
  obtain rfl : ch = ch' := by
    rw [hreq.chains] at hch
    exact mem_singleton.mp hch
  rw [(h.queue.holds ch hch).2, hreq.bufs, hreq.hdr.fetched] at hr
  obtain rfl := Option.some.inj hr
  refine ⟨h.queue, h.unique, hmode _ rfl rfl (hreq.rephase rfl ?_)⟩
  cases hreq.phase with
  | given h1 h2 => exact .fetched (by rw [h1]; rfl) h2
  | fetched h1 => rw [h1] at hdev; exact absurd (by simp [devReq]) hdev
  | served h1 => rw [h1] at hdev; exact absurd (by simp [devReq]) hdev
  | completed len _ h2 => rw [h2] at hdone; exact absurd (by simp) hdone

section

variable (h : Inv m s) (hr : r ∈ s.dev)
include h hr

/-- A request that the device has is the one there is. -/
theorem Inv.inDev : ∃ c i ch b, Req m s c i ch ∧
    (∀ s', s'.pc = s.pc → s'.cache = s.cache → Req m s' c i ch → Mode m s') ∧
    s.dev = [devReq m c i ch.head b] ∧ r = devReq m c i ch.head b ∧ s.q.done = [] ∧
    (b = true → Settled m s c i) := by
  rcases h.mode.device with ⟨-, hnil⟩ | ⟨c, i, ch, hreq, hmode⟩
  · rw [hnil] at hr
    cases hr
  cases hreq.phase with
  | given h1 => rw [h1] at hr; cases hr
  | fetched h1 h2 => exact ⟨c, i, ch, false, hreq, hmode, h1, by simpa [h1] using hr, h2, nofun⟩
  | served h1 h2 h3 =>
    exact ⟨c, i, ch, true, hreq, hmode, h1, by simpa [h1] using hr, h2, fun _ => h3⟩
  | completed len h1 => rw [h1] at hr; cases hr

theorem Inv.serve (hnew : r.served = false) (hlen : moved.length ≤ r.data.len.toNat)
    (hok : code = 0 → moved = r.payload s.mem s.disk) : Inv m { s with
      mem := r.memAfter s.mem moved code
      disk := r.diskAfter s.disk moved
      dev := s.dev.map fun x => if x.head = r.head then { x with served := true } else x } := by
  obtain ⟨c, i, ch, _, hreq, hmode, hdev, rfl, hdone, -⟩ := h.inDev hr
  cases hnew
  refine ⟨h.queue, h.unique, hmode _ rfl rfl (hreq.served (served_of_serve hreq.hdr hlen hok
    (fun lba buf he => (hreq.source lba buf he).1) rfl rfl) rfl rfl ?_ hdone)⟩
  simp [hdev, devReq]

theorem Inv.complete (hserved : r.served = true) {len : UInt32}
    (hq : Drivers.Step s.q (.complete r.head len) q) :
    Inv m { s with q := q, dev := s.dev.filter fun x => x.head ≠ r.head } := by
  obtain ⟨c, i, ch, _, hreq, hmode, hdev, rfl, hdone, hset⟩ := h.inDev hr
  cases hserved
  have hkeep : q.chains = s.q.chains ∧ q.done = s.q.done ++ [(ch.head, len)] := by
    generalize he : Drivers.Ev.complete (devReq m c i ch.head true).head len = e at hq
    cases hq with
    | add => cases he
    | complete c' len' hc honce =>
      obtain ⟨hhead, rfl⟩ := Drivers.Ev.complete.inj he
      rw [← hhead]
      exact ⟨rfl, rfl⟩
    | take => cases he
  refine ⟨hq.inv m.queue_le h.queue, h.unique, hmode _ rfl rfl (hreq.rephase hkeep.1 ?_)⟩
  refine .completed len (by simp [hdev]) (by rw [hkeep.2, hdone]; rfl) fun hst => ?_
  cases c <;> exact hset rfl hst

end

theorem Inv.tick (h : Inv m s) (t : Nat) : Inv m { s with ticks := t } := by
  refine ⟨h.queue, h.unique, ?_⟩
  cases h.mode with
  | ready hpc hch hdev hclean => exact .ready hpc hch hdev hclean
  | waiting c i ch d hpc hr => exact .waiting c i ch d hpc hr.clock
  | orphaned c i ch hpc hr hdrop => exact .orphaned c i ch hpc hr.clock hdrop

/-! ## Runs -/

theorem delivered_of_ret {c : Call} {o : Option Ret}
    (h : ∀ r, o = some r → r.rc = .ok → c.Done r s.disk) :
    Delivered (.call c o) s ∧ Delivered (.poll c o) s := by
  cases o with
  | none => exact ⟨nofun, nofun⟩
  | some r =>
    constructor
    all_goals
      rintro c' r' he hrc
      cases he
      exact h r rfl hrc

theorem Step.inv {e : Ev} (h : Inv m s) (hok : StepOk m s e) (hs : Step m s e s') :
    Inv m s' ∧ Delivered e s' := by
  cases hs with
  | call hidle c =>
    cases c with
    | read lba =>
      obtain ⟨hinv, hret⟩ := h.read hidle fun hlt hl => hok ⟨hlt, .inr hl⟩
      exact ⟨hinv, (delivered_of_ret (c := .read lba) hret).1⟩
    | write lba buf =>
      obtain ⟨hinv, hret⟩ := h.write buf fun hlt => hok ⟨hlt, .inl rfl⟩
      exact ⟨hinv, (delivered_of_ret fun r hr hrc => absurd hrc (hret r hr)).1⟩
  | poll hpoll =>
    obtain ⟨hinv, hret⟩ := h.poll hpoll
    exact ⟨hinv, (delivered_of_ret hret).2⟩
  | fetch hch hdone hdev hr => exact ⟨h.fetch hch hdone hdev hr, nofun⟩
  | serve hr hnew code moved hlen hok' => exact ⟨h.serve hr hnew hlen hok', nofun⟩
  | complete hr hserved len hq => exact ⟨h.complete hr hserved hq, nofun⟩
  | tick n => exact ⟨h.tick _, nofun⟩

theorem reach_inv {mem disk : Bytes} {table : Nat → VirtqDesc}
    (h : ReachVia (Step m) (StepOk m) (Sys.start m mem disk table) s) : Inv m s :=
  h.invariant (inv_start m mem disk table) fun hi hok hs => (hs.inv hi hok).1

/-- **Requests are isolated while the queue is empty between them.** In every state reached by steps
in which each call that goes to the device finds every descriptor free: no assertion of `vblk_rw` has
failed, every entry marked valid holds the device's contents of its block, apart from the one that
a call in progress is filling, and the next step, if it returns 0 from a call, has transferred the
data of that call. -/
theorem blk_isolated {mem disk : Bytes} {table : Nat → VirtqDesc}
    (h : ReachVia (Step m) (StepOk m) (Sys.start m mem disk table) s) :
    (∀ why, s.pc ≠ .panicked why) ∧
    (∀ i, s.pc.entry ≠ some i → (s.cache i).stamp ≠ 0 →
      data m s.mem i = diskBlock s.disk (s.cache i).lba) ∧
    ∀ e s', Step m s e s' → StepOk m s e → Delivered e s' := by
  have hinv := reach_inv h
  refine ⟨fun why hp => ?_, fun i hi hv => ?_, fun e s' hs hok => (hs.inv hinv hok).2⟩
  · cases hinv.mode with
    | ready hpc => rw [hpc] at hp; cases hp
    | waiting c i ch d hpc => rw [hpc] at hp; cases hp
    | orphaned c i ch hpc => rw [hpc] at hp; cases hp
  · cases hinv.mode with
    | ready hpc hch hdev hclean => exact hclean i hv
    | waiting c i' ch d hpc hr =>
      rw [hpc] at hi
      exact hr.others i (fun e => hi (by rw [e]; rfl)) hv
    | orphaned c i' ch hpc hr hdrop => exact hr.others i (fun e => hv (by rw [e]; exact hdrop)) hv

end Inv

/-! ## A request that outlives its call -/

section Late

/-- A queue of eight descriptors and a disk of two blocks. -/
def smallMachine : Machine where
  k := 3
  hz := 100
  sectors := 16
  reqPhys := 0
  frame i := UInt64.ofNat ((i.val + 1) * 4096)
  queue_le := by decide
  req_end := by decide
  frames_apart i j hij := by
    have hne : i.val ≠ j.val := fun e => hij (Fin.ext e)
    simp only [UInt64.toNat_ofNat']
    omega
  req_apart i := by
    have hreq : (0 : UInt64).toNat = 0 := rfl
    simp only [UInt64.toNat_ofNat']
    omega

/-- Block 0 is all 1, block 1 is all 2. -/
def smallStart : Sys :=
  Sys.start smallMachine (fun _ => 0) (fun p => if p < 4096 then 1 else 2) fun _ => ⟨0, 0, 0, 0⟩

variable {m : Machine} {s : Sys} (i : Fin 64) (lba head : Nat)

/-- The device serves a read without an error. -/
theorem Step.serve_read (hr : devReq m (.read lba) i head false ∈ s.dev) :
    Step m s (.serve head)
      { s with
        mem := (devReq m (.read lba) i head false).memAfter s.mem (diskBlock s.disk lba) 0
        disk := (devReq m (.read lba) i head false).diskAfter s.disk (diskBlock s.disk lba)
        dev := s.dev.map fun x => if x.head = head then { x with served := true } else x } :=
  Step.serve hr rfl 0 (diskBlock s.disk lba) (diskBlock_length _ _).le
    fun _ => (devReq_read_payload m lba head _ _).symm

/-- The device completes a read that it has served. -/
theorem Step.complete_read (hr : devReq m (.read lba) i head true ∈ s.dev)
    (hch : ⟨head, reqBufs m (.read lba) i⟩ ∈ s.q.chains)
    (honce : head ∉ s.q.done.map Prod.fst) :
    Step m s (.complete head)
      { s with
        q := { s.q with vq := s.q.vq.complete head 4097, done := s.q.done ++ [(head, 4097)] }
        dev := s.dev.filter fun x => x.head ≠ head } :=
  Step.complete hr rfl 4097 (.complete s.q ⟨head, _⟩ 4097 hch honce)

/-- The request of a read, in the queue of `s`. -/
abbrev readChain (lba head : Nat) : Chain := ⟨head, reqBufs smallMachine (.read lba) firstEntry⟩

set_option maxRecDepth 4000 in
/-- A read of block 1 that the device has served and completed. -/
theorem blk_isolated_read : ∃ s e s',
    ReachVia (Step smallMachine) (StepOk smallMachine) smallStart s ∧ Step smallMachine s e s' ∧
    e.returned = some (.read 1, ⟨.ok, data smallMachine s.mem 0⟩) ∧
    data smallMachine s.mem 0 = diskBlock s'.disk 1 := by
  have h0 : ReachVia (Step smallMachine) (StepOk smallMachine) smallStart smallStart := .refl
  have h1 := h0.tail (Step.call rfl (.read 1)) fun _ => ⟨rfl, by decide⟩
  have h2 := h1.tail (Step.fetch (show readChain 1 0 ∈ _ from mem_cons_self)
    (by decide) (by decide) rfl) trivial
  have h3 := h2.tail (Step.serve_read 0 1 0 mem_cons_self) trivial
  have h4 := h3.tail (Step.complete_read 0 1 0 mem_cons_self mem_cons_self (by decide)) trivial
  generalize hs : Sys.mk _ _ _ _ _ _ _ _ = s at h4
  have hpc : s.pc = .polling (.read 1) 0 0 201 := by rw [← hs]; rfl
  have hret : (poll smallMachine s (.read 1) 0 0 201).2 =
      some ⟨.ok, data smallMachine s.mem 0⟩ := by
    rw [← hs]
    rfl
  have hstep := Step.poll (m := smallMachine) hpc
  rw [hret] at hstep
  have hdone := (blk_isolated h4).2.2 _ _ hstep trivial (.read 1) _ rfl rfl
  simp only [Call.Done] at hdone
  exact ⟨_, _, _, h4, hstep, rfl, hdone⟩

/-- The read of block 0 has timed out after the device had fetched its request, and the read of
block 1 is waiting, on the same cache entry. -/
def lateStart : Sys :=
  let s := (blockCall smallMachine smallStart (.read 0)).1
  let s := { s with dev := [devReq smallMachine (.read 0) firstEntry 0 false], ticks := 300 }
  (blockCall smallMachine (poll smallMachine s (.read 0) firstEntry 0 201).1 (.read 1)).1

set_option maxRecDepth 4000 in
theorem run_lateStart : ∃ evs, Run (Step smallMachine) smallStart evs lateStart := by
  have h1 := Run.nil.snoc (Step.call (m := smallMachine) (s := smallStart) rfl (.read 0))
  have h2 := h1.snoc (Step.fetch (show readChain 0 0 ∈ _ from mem_cons_self)
    (by decide) (by decide) rfl)
  have h3 := h2.snoc (Step.tick 300)
  have h4 := h3.snoc (Step.poll (show _ = Pc.polling (.read 0) 0 0 201 from rfl))
  have h5 := h4.snoc (Step.call rfl (.read 1))
  exact ⟨_, h5⟩

set_option maxRecDepth 4000 in
/-- The chain of the timed-out request comes back to the next call. -/
theorem late_completion : ∃ evs s, Run (Step smallMachine) smallStart evs s ∧
    s.pc = .panicked .foreignChain := by
  obtain ⟨evs, h⟩ := run_lateStart
  have h1 := h.snoc (Step.serve_read 0 0 0 mem_cons_self)
  have h2 := h1.snoc (Step.complete_read 0 0 0 mem_cons_self mem_cons_self (by decide))
  have h3 := h2.snoc (Step.poll (show _ = Pc.polling (.read 1) 0 3 501 from rfl))
  exact ⟨_, _, h3, rfl⟩

set_option maxRecDepth 4000 in
/-- The data of the timed-out request lands in the entry that the next call has filled. -/
theorem late_transfer : ∃ evs s, Run (Step smallMachine) smallStart evs s ∧ s.pc = .idle ∧
    (s.cache 0).stamp ≠ 0 ∧ data smallMachine s.mem 0 ≠ diskBlock s.disk (s.cache 0).lba := by
  obtain ⟨evs, h⟩ := run_lateStart
  have h1 := h.snoc (Step.fetch (show readChain 1 3 ∈ _ from
    mem_cons_of_mem _ mem_cons_self) (by decide) (by decide) rfl)
  have h2 := h1.snoc (Step.serve_read 0 1 3 (mem_cons_of_mem _ mem_cons_self))
  have h3 := h2.snoc (Step.complete_read 0 1 3 (mem_cons_of_mem _ mem_cons_self)
    (mem_cons_of_mem _ mem_cons_self) (by decide))
  have h4 := h3.snoc (Step.poll (show _ = Pc.polling (.read 1) 0 3 501 from rfl))
  have h5 := h4.snoc (Step.serve_read 0 0 0 mem_cons_self)
  refine ⟨_, _, h5, rfl, by decide, fun he => ?_⟩
  dsimp only at he
  rw [devReq_read_mem, data_status, data_copyIn (diskBlock_length _ _)] at he
  exact absurd (eq_of_slice_eq he (show 0 < blockSize by decide)) (by decide)

/-- **A request that has timed out disturbs the next one**: its completion fails the assertion that
only one request is in flight, and its data overwrites a valid cache entry of another block. -/
theorem blk_entangled :
    (∃ evs s, Run (Step smallMachine) smallStart evs s ∧ s.pc = .panicked .foreignChain) ∧
    ∃ evs s, Run (Step smallMachine) smallStart evs s ∧ s.pc = .idle ∧ (s.cache 0).stamp ≠ 0 ∧
      data smallMachine s.mem 0 ≠ diskBlock s.disk (s.cache 0).lba :=
  ⟨late_completion, late_transfer⟩

end Late

end Hallucinate.Drivers.Blk
