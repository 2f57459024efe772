import Hallucinate.Drivers.Blk

/-!
# The block cache over any driver (`kernel/block/block.c`)

`block_read` and `block_write` over a device with a `read` and a `write` operation, each of which
may fail: a failed read leaves the buffer it was given with any contents, a failed write leaves the
block on the device with any contents. The frames of the entries are memory of their own here
(`Drivers/Blk.lean` has them in the memory that the virtio device shares); a call runs to its end,
which the `busy` assertion asks of its callers.

**`cache_transparent`**: along every run the valid entries have distinct block numbers and hold what
the device holds, a read that returns 0 gives the device's contents, and after a write that returns
0 the device holds the block. The clock may wrap around: an entry stamped 0 is dropped, which is
never wrong.
-/

namespace Hallucinate.Drivers.Cache

open Lib Blk Function

/-- The cache and the device behind it, by block number. -/
structure Store where
  cache : Fin 64 → CacheEntry
  data : Fin 64 → Block
  lruClock : Nat
  device : Nat → Block

/-- What goes wrong in a driver operation: the code it returns, and what it leaves behind. -/
structure Failure where
  rc : Int
  nonzero : rc ≠ 0
  junk : Block

/-- The result of the driver operation that a call makes, if it makes one. -/
abbrev Outcome := Option Failure

/-- The code that a call returns and, after a read that succeeds, what is in its buffer. -/
structure Result where
  rc : Int
  buf : Option Block

/-- `EINVAL` of `errno.h`. -/
def einval : Int := 22

/-- `e->stamp = ++lru_clock`. -/
def Store.touch (s : Store) (i : Fin 64) : Store :=
  { s with
    cache := update s.cache i { s.cache i with stamp := (s.lruClock + 1) % 2 ^ 64 }
    lruClock := (s.lruClock + 1) % 2 ^ 64 }

/-- `e->stamp = 0`. -/
def Store.drop (s : Store) (i : Fin 64) : Store :=
  { s with cache := update s.cache i { s.cache i with stamp := 0 } }

/-- `e->lba = lba`. -/
def Store.setLba (s : Store) (i : Fin 64) (lba : Nat) : Store :=
  { s with cache := update s.cache i { s.cache i with lba := lba } }

/-- Store a block in an entry. -/
def Store.setData (s : Store) (i : Fin 64) (b : Block) : Store :=
  { s with data := update s.data i b }

/-- `bd->write(bd, lba, e->data)`. -/
def Store.driverWrite (s : Store) (i : Fin 64) (lba : Nat) : Outcome → Store
  | none => { s with device := update s.device lba (s.data i) }
  | some x => { s with device := update s.device lba x.junk }

/-- The end of `block_read`. -/
def readEntry (s : Store) (i : Fin 64) : Result × Store := (⟨0, some (s.data i)⟩, s.touch i)

/-- `block_read`. -/
def blockRead (nblocks : Nat) (s : Store) (lba : Nat) (o : Outcome) : Result × Store :=
  if nblocks ≤ lba then (⟨-einval, none⟩, s)
  else match cacheLookup s.cache lba with
    | some i => readEntry s i
    | none =>
      let i := cacheVictim s.cache
      match o with
      | some x => (⟨x.rc, none⟩, (s.setData i x.junk).drop i)
      | none => readEntry ((s.setData i (s.device lba)).setLba i lba) i

/-- The entry that `block_write` uses, with its `lba` set. -/
def writeEntry (s : Store) (lba : Nat) : Store × Fin 64 :=
  match cacheLookup s.cache lba with
  | some i => (s, i)
  | none => (s.setLba (cacheVictim s.cache) lba, cacheVictim s.cache)

/-- `block_write`. -/
def blockWrite (nblocks : Nat) (s : Store) (lba : Nat) (buf : Block) (o : Outcome) :
    Result × Store :=
  if nblocks ≤ lba then (⟨-einval, none⟩, s)
  else
    let (s, i) := writeEntry s lba
    let s := ((s.setData i buf).touch i).driverWrite i lba o
    match o with
    | some x => (⟨x.rc, none⟩, s.drop i)
    | none => (⟨0, none⟩, s)

/-- One call, with what the driver does. -/
inductive Op
  | read (lba : Nat) (o : Outcome)
  | write (lba : Nat) (buf : Block) (o : Outcome)

def exec (nblocks : Nat) (s : Store) : Op → Result × Store
  | .read lba o => blockRead nblocks s lba o
  | .write lba buf o => blockWrite nblocks s lba buf o

/-- After `block_register`, over any device and any memory. -/
def Store.start (data : Fin 64 → Block) (device : Nat → Block) : Store where
  cache _ := ⟨0, 0⟩
  data := data
  lruClock := 0
  device := device

def CacheStep (nblocks : Nat) (s : Store) (op : Op) (s' : Store) : Prop :=
  s' = (exec nblocks s op).2

/-! ## Coherence -/

variable {nblocks : Nat} {s : Store} {i j : Fin 64} {lba : Nat}

/-- The entry counts. -/
def Store.Valid (s : Store) (i : Fin 64) : Prop := (s.cache i).stamp ≠ 0

/-- Valid entries are for different blocks, and hold what the device holds. -/
structure Coherent (s : Store) : Prop where
  inj : ∀ i j, s.Valid i → s.Valid j → (s.cache i).lba = (s.cache j).lba → i = j
  clean : ∀ i, s.Valid i → s.data i = s.device (s.cache i).lba

/-- `s'` differs from `s` in entry `i` and block `lba` only. -/
structure Elsewhere (s s' : Store) (i : Fin 64) (lba : Nat) : Prop where
  cache : ∀ j, j ≠ i → s'.cache j = s.cache j
  data : ∀ j, j ≠ i → s'.data j = s.data j
  device : ∀ b, b ≠ lba → s'.device b = s.device b

/-- **One entry and its block change.** If no other entry was valid for `lba` and entry `i`, where
it counts, is now a copy of it, the store is still coherent. Every call goes through this. -/
theorem Coherent.replace (h : Coherent s) {s' : Store} (he : Elsewhere s s' i lba)
    (hfree : ∀ j, j ≠ i → s.Valid j → (s.cache j).lba ≠ lba)
    (hi : s'.Valid i → (s'.cache i).lba = lba ∧ s'.data i = s'.device lba) : Coherent s' := by
  have hkeep : ∀ j, j ≠ i → s'.Valid j → s.Valid j := fun j hj hv => by
    unfold Store.Valid at hv ⊢
    rwa [he.cache j hj] at hv
  constructor
  · intro a b ha hb hab
    by_cases hai : a = i <;> by_cases hbi : b = i
    · rw [hai, hbi]
    · subst hai
      rw [(hi ha).1, he.cache b hbi] at hab
      exact absurd hab.symm (hfree b hbi (hkeep b hbi hb))
    · subst hbi
      rw [(hi hb).1, he.cache a hai] at hab
      exact absurd hab (hfree a hai (hkeep a hai ha))
    · rw [he.cache a hai, he.cache b hbi] at hab
      exact h.inj a b (hkeep a hai ha) (hkeep b hbi hb) hab
  · intro a ha
    by_cases hai : a = i
    · subst hai
      rw [(hi ha).2, (hi ha).1]
    · have hv := hkeep a hai ha
      rw [he.cache a hai, he.data a hai, he.device _ (hfree a hai hv)]
      exact h.clean a hv

/-- What each store of a call leaves alone. -/
theorem Elsewhere.refl (s : Store) (i : Fin 64) (lba : Nat) : Elsewhere s s i lba :=
  ⟨fun _ _ => rfl, fun _ _ => rfl, fun _ _ => rfl⟩

section Stores

variable {s' : Store} (h : Elsewhere s s' i lba)

include h

theorem Elsewhere.touch : Elsewhere s (s'.touch i) i lba :=
  ⟨fun j hj => (update_of_ne hj _ _).trans (h.cache j hj), h.data, h.device⟩

theorem Elsewhere.drop : Elsewhere s (s'.drop i) i lba :=
  ⟨fun j hj => (update_of_ne hj _ _).trans (h.cache j hj), h.data, h.device⟩

theorem Elsewhere.setLba (b : Nat) : Elsewhere s (s'.setLba i b) i lba :=
  ⟨fun j hj => (update_of_ne hj _ _).trans (h.cache j hj), h.data, h.device⟩

theorem Elsewhere.setData (b : Block) : Elsewhere s (s'.setData i b) i lba :=
  ⟨h.cache, fun j hj => (update_of_ne hj _ _).trans (h.data j hj), h.device⟩

theorem Elsewhere.driverWrite (o : Outcome) : Elsewhere s (s'.driverWrite i lba o) i lba := by
  cases o with
  | none =>
    exact ⟨h.cache, h.data, fun b hb => (update_of_ne hb _ _).trans (h.device b hb)⟩
  | some x =>
    exact ⟨h.cache, h.data, fun b hb => (update_of_ne hb _ _).trans (h.device b hb)⟩

end Stores

/-- A dropped entry does not count. -/
theorem not_valid_drop (s : Store) (i : Fin 64) : ¬(s.drop i).Valid i := by
  simp [Store.Valid, Store.drop]

section

variable (h : Coherent s)
include h

/-- The entry that a lookup hits is the only valid one for its block. -/
theorem Coherent.hit (hl : cacheLookup s.cache lba = some i) :
    (s.cache i).lba = lba ∧ s.data i = s.device lba ∧
      ∀ j, j ≠ i → s.Valid j → (s.cache j).lba ≠ lba := by
  obtain ⟨hv, hlba⟩ := cacheLookup_some hl
  refine ⟨hlba, hlba ▸ h.clean i hv, fun j hj hvj he => ?_⟩
  exact hj (h.inj j i hvj hv (he.trans hlba.symm))

/-! ## The two calls -/

/-- Filling an entry for its block and reading it back. -/
theorem Coherent.readEntry {s' : Store} (he : Elsewhere s s' i lba)
    (hfree : ∀ j, j ≠ i → s.Valid j → (s.cache j).lba ≠ lba) (hlba : (s'.cache i).lba = lba)
    (hdata : s'.data i = s'.device lba) : Coherent (readEntry s' i).2 := by
  refine h.replace he.touch hfree fun _ => ⟨?_, hdata⟩
  show (update s'.cache i _ i).lba = lba
  rw [update_self]
  exact hlba

theorem Coherent.read (nblocks lba : Nat) (o : Outcome) :
    Coherent (blockRead nblocks s lba o).2 ∧ (blockRead nblocks s lba o).2.device = s.device ∧
      ((blockRead nblocks s lba o).1.rc = 0 →
        (blockRead nblocks s lba o).1.buf = some (s.device lba)) := by
  unfold blockRead
  split
  · exact ⟨h, rfl, fun hr => absurd hr (by decide : ¬-einval = 0)⟩
  · cases hl : cacheLookup s.cache lba with
    | some i =>
      obtain ⟨hlba, hdata, hfree⟩ := h.hit hl
      exact ⟨h.readEntry (Elsewhere.refl s i lba) hfree hlba hdata, rfl,
        fun _ => congrArg some hdata⟩
    | none =>
      have hfree : ∀ j, j ≠ cacheVictim s.cache → s.Valid j → (s.cache j).lba ≠ lba :=
        fun j _ hv => cacheLookup_none hl j hv
      simp only
      generalize cacheVictim s.cache = i at hfree
      have he := (Elsewhere.refl s i lba).setData
      cases o with
      | some x =>
        exact ⟨h.replace (he x.junk).drop hfree fun hv => absurd hv (not_valid_drop _ _), rfl,
          fun hr => absurd hr x.nonzero⟩
      | none =>
        have hlba : (((s.setData i (s.device lba)).setLba i lba).cache i).lba = lba := by
          simp [Store.setLba]
        have hdata : ((s.setData i (s.device lba)).setLba i lba).data i = s.device lba :=
          update_self _ _ _
        exact ⟨h.readEntry ((he _).setLba lba) hfree hlba hdata, rfl, fun _ => congrArg some hdata⟩

/-- The entry of a write is the only one that can be valid for the block. -/
theorem Coherent.writeEntry (lba : Nat) :
    Elsewhere s (writeEntry s lba).1 (writeEntry s lba).2 lba ∧
      ((writeEntry s lba).1.cache (writeEntry s lba).2).lba = lba ∧
      ∀ j, j ≠ (writeEntry s lba).2 → s.Valid j → (s.cache j).lba ≠ lba := by
  unfold Cache.writeEntry
  split
  · rename_i i hl
    obtain ⟨hlba, -, hfree⟩ := h.hit hl
    exact ⟨Elsewhere.refl s i lba, hlba, hfree⟩
  · rename_i hl
    generalize cacheVictim s.cache = i
    refine ⟨(Elsewhere.refl s i lba).setLba lba, ?_, fun j _ hv => cacheLookup_none hl j hv⟩
    simp [Store.setLba]

theorem Coherent.write (nblocks lba : Nat) (buf : Block) (o : Outcome) :
    Coherent (blockWrite nblocks s lba buf o).2 ∧
      (∀ b, b ≠ lba → (blockWrite nblocks s lba buf o).2.device b = s.device b) ∧
      ((blockWrite nblocks s lba buf o).1.rc = 0 →
        (blockWrite nblocks s lba buf o).2.device lba = buf) := by
  unfold blockWrite
  split
  · exact ⟨h, fun _ _ => rfl, fun hr => absurd hr (by decide : ¬-einval = 0)⟩
  · obtain ⟨he, hlba, hfree⟩ := h.writeEntry lba
    generalize Cache.writeEntry s lba = e at he hlba hfree
    obtain ⟨s₁, i⟩ := e
    have he' := ((he.setData buf).touch).driverWrite o
    cases o with
    | some x =>
      exact ⟨h.replace he'.drop hfree fun hv => absurd hv (not_valid_drop _ _), he'.drop.device,
        fun hr => absurd hr x.nonzero⟩
    | none =>
      have hdev : (((s₁.setData i buf).touch i).driverWrite i lba none).device lba = buf := by
        simp [Store.driverWrite, Store.touch, Store.setData]
      refine ⟨h.replace he' hfree fun _ => ⟨?_, ?_⟩, he'.device, fun _ => hdev⟩
      · simpa [Store.driverWrite, Store.touch, Store.setData] using hlba
      · rw [hdev]
        exact update_self _ _ _

end

/-! ## Runs -/

variable {ops : List Op} {memory : Fin 64 → Block} {device : Nat → Block}

theorem Coherent.run (hrun : Run (CacheStep nblocks) (Store.start memory device) ops s) :
    Coherent s := by
  refine hrun.invariant (P := fun _ s => Coherent s) ?_ fun {_ s op s'} h hs => ?_
  · exact ⟨fun _ _ hv => absurd rfl hv, fun _ hv => absurd rfl hv⟩
  · rw [hs]
    cases op with
    | read lba o => exact (h.read nblocks lba o).1
    | write lba buf o => exact (h.write nblocks lba buf o).1

/-- **The block cache is transparent.** After any reads and writes, with any failures of the driver:
no two valid entries are for one block, each holds what the device holds, and of the next call: a
read that returns 0 gives the device's contents and leaves the device alone; a write changes no
other block, and if it returns 0 the device holds what was written. -/
theorem cache_transparent (hrun : Run (CacheStep nblocks) (Store.start memory device) ops s) :
    (∀ i j, s.Valid i → s.Valid j → (s.cache i).lba = (s.cache j).lba → i = j) ∧
    (∀ i, s.Valid i → s.data i = s.device (s.cache i).lba) ∧
    (∀ lba o, (blockRead nblocks s lba o).2.device = s.device ∧
      ((blockRead nblocks s lba o).1.rc = 0 →
        (blockRead nblocks s lba o).1.buf = some (s.device lba))) ∧
    ∀ lba buf o, (∀ b, b ≠ lba → (blockWrite nblocks s lba buf o).2.device b = s.device b) ∧
      ((blockWrite nblocks s lba buf o).1.rc = 0 →
        (blockWrite nblocks s lba buf o).2.device lba = buf) := by
  have h := Coherent.run hrun
  exact ⟨h.inj, h.clean, fun lba o => (h.read nblocks lba o).2, fun lba buf o =>
    (h.write nblocks lba buf o).2⟩

/-- A block of one byte repeated. -/
def block (v : UInt8) : Block := ⟨List.replicate blockSize v, List.length_replicate⟩

/-- A driver operation that fails with `-EIO` and leaves `0x09` bytes behind. -/
def ioError : Outcome := some ⟨-5, by decide, block 9⟩

/-- Block 5 is written, a read of block 7 fails in the frame of another entry, and block 5 is read
back from the cache. -/
theorem cache_transparent_readback :
    let s₀ := Store.start (fun _ => block 0) fun _ => block 1
    let s₁ := (blockWrite 100 s₀ 5 (block 2) none).2
    let s₂ := (blockRead 100 s₁ 7 ioError).2
    (blockRead 100 s₂ 5 ioError).1.rc = 0 ∧
      (blockRead 100 s₂ 5 ioError).1.buf = some (s₂.device 5) := by
  intro s₀ s₁ s₂
  have h1 : CacheStep 100 s₀ (.write 5 (block 2) none) s₁ := rfl
  have h2 : CacheStep 100 s₁ (.read 7 ioError) s₂ := rfl
  have hrc : (blockRead 100 s₂ 5 ioError).1.rc = 0 := by decide +kernel
  exact ⟨hrc, ((cache_transparent ((Run.nil.snoc h1).snoc h2)).2.2.1 5 ioError).2 hrc⟩

end Hallucinate.Drivers.Cache
