import Hallucinate.Lib.Bytes
import Hallucinate.Lib.Links

/-!
# The kernel heap (`kernel/mm/heap_core.c`)

The slab allocator over a page provider. Slab headers, the free lists threaded through the objects and
the partial lists threaded through the headers are bytes of one memory, read and written at the offsets
of `struct slab_hdr`; pointers are addresses below `2 ^ 64`, and NULL is 0.

What the backend answers to `pages_alloc` is an argument (`got`). The spans of pages that it has handed
out and not got back are kept beside the heap (`held`), by address and number of pages.
-/

namespace Hallucinate.Mm

open Lib

/-- `struct heap`, the memory, and the spans held from the backend. -/
structure Heap where
  mem : Bytes
  partials : Nat → Nat
  liveObjects : Nat
  livePages : Nat
  held : List (Nat × Nat)

namespace Heap

def slabMagic : Nat := 0x48534C42
def largeMagic : Nat := 0x484C4741

/-! ## `struct slab_hdr` and `struct free_obj` in memory -/

def magic (m : Bytes) (s : Nat) : Nat := rd m s 4
def classIdx (m : Bytes) (s : Nat) : Nat := rd m (s + 4) 2
def inuse (m : Bytes) (s : Nat) : Nat := rd m (s + 6) 2
def freeList (m : Bytes) (s : Nat) : Nat := rd m (s + 8) 8
def nextSlab (m : Bytes) (s : Nat) : Nat := rd m (s + 16) 8
def prevSlab (m : Bytes) (s : Nat) : Nat := rd m (s + 24) 8
def npages (m : Bytes) (s : Nat) : Nat := rd m (s + 32) 8

/-- `obj->next`. -/
def objNext (m : Bytes) (obj : Nat) : Nat := rd m obj 8

/-- The field of `w` bytes at an address written. -/
def store (h : Heap) (addr w v : Nat) : Heap := { h with mem := wr h.mem addr w v }

/-! ## Size classes -/

/-- `class_size`. -/
def classSize (cls : Nat) : Nat := [16, 32, 64, 128, 256, 512, 1024].getD cls 0

/-- `class_for`; -1 is `none`. -/
def classFor (size : Nat) : Option Nat := (List.range 7).find? fun i => size ≤ classSize i

/-- `objects_per_slab`. -/
def objectsPerSlab (cls : Nat) : Nat := (4096 - 64) / classSize cls

/-! ## The partial lists -/

/-- `partial_insert`. -/
def partialInsert (cls s : Nat) (h : Heap) : Heap :=
  let h := h.store (s + 24) 8 0
  let h := h.store (s + 16) 8 (h.partials cls)
  let h := if nextSlab h.mem s ≠ 0 then h.store (nextSlab h.mem s + 24) 8 s else h
  { h with partials := Function.update h.partials cls s }

/-- `partial_remove`. -/
def partialRemove (cls s : Nat) (h : Heap) : Heap :=
  let h :=
    if prevSlab h.mem s ≠ 0 then h.store (prevSlab h.mem s + 16) 8 (nextSlab h.mem s)
    else { h with partials := Function.update h.partials cls (nextSlab h.mem s) }
  let h := if nextSlab h.mem s ≠ 0 then h.store (nextSlab h.mem s + 24) 8 (prevSlab h.mem s) else h
  let h := h.store (s + 16) 8 0
  h.store (s + 24) 8 0

/-! ## Pages -/

/-- `backend.pages_alloc`, where the backend answers `got`. -/
def pagesAlloc (got count : Nat) (h : Heap) : Nat × Heap :=
  if got = 0 then (0, h) else (got, { h with held := (got, count) :: h.held })

/-- `backend.pages_free`. -/
def pagesFree (s count : Nat) (h : Heap) : Heap := { h with held := h.held.erase (s, count) }

/-- The loop of `slab_create`, over the objects `i - 1`, …, 0. -/
def linkObjects (s size : Nat) : Nat → Bytes → Bytes
  | 0, m => m
  | i + 1, m =>
    let obj := s + 64 + i * size
    linkObjects s size i (wr (wr m obj 8 (freeList m s)) (s + 8) 8 obj)

/-- `slab_create`. -/
def slabCreate (cls got : Nat) (h : Heap) : Nat × Heap :=
  let (s, h) := pagesAlloc got 1 h
  if s = 0 then (0, h)
  else
    let h := { h with livePages := (h.livePages + 1) % 2 ^ 64, mem := fill h.mem s 64 0 }
    let h := h.store s 4 slabMagic
    let h := h.store (s + 4) 2 cls
    (s, { h with mem := linkObjects s (classSize cls) (objectsPerSlab cls) h.mem })

/-! ## Allocating and freeing -/

/-- `heap_core_init`. -/
def heapCoreInit (mem : Bytes) : Heap := ⟨mem, fun _ => 0, 0, 0, []⟩

/-- The number of pages of a large span, as `alloc_large` computes it. -/
def pagesFor (size : Nat) : Nat := (size + 64 + 4096 - 1) % 2 ^ 64 / 4096

/-- `alloc_large`. -/
def allocLarge (size got : Nat) (h : Heap) : Nat × Heap :=
  let (s, h) := pagesAlloc got (pagesFor size) h
  if s = 0 then (0, h)
  else
    let h := { h with livePages := (h.livePages + pagesFor size) % 2 ^ 64, mem := fill h.mem s 64 0 }
    let h := h.store s 4 largeMagic
    let h := h.store (s + 32) 8 (pagesFor size)
    (s + 64, h)

/-- The end of `heap_core_alloc`: the first free object of the slab. -/
def takeObject (cls s : Nat) (h : Heap) : Nat × Heap :=
  let obj := freeList h.mem s
  let h := h.store (s + 8) 8 (objNext h.mem obj)
  let h := h.store (s + 6) 2 (inuse h.mem s + 1)
  let h := { h with liveObjects := (h.liveObjects + 1) % 2 ^ 64 }
  (obj, if freeList h.mem s = 0 then partialRemove cls s h else h)

/-- `heap_core_alloc`. -/
def heapCoreAlloc (size got : Nat) (h : Heap) : Nat × Heap :=
  if size = 0 then (0, h)
  else if 1024 < size then allocLarge size got h
  else
    match classFor size with
    -- every small size has a class
    | none => (0, h)
    | some cls =>
      if h.partials cls ≠ 0 then takeObject cls (h.partials cls) h
      else
        let (s, h) := slabCreate cls got h
        if s = 0 then (0, h) else takeObject cls s (partialInsert cls s h)

/-- The end of `heap_core_free`: the object goes back to its slab. -/
def giveObject (ptr s : Nat) (h : Heap) : Heap :=
  let wasFull := freeList h.mem s = 0
  let h := h.store ptr 8 (freeList h.mem s)
  let h := h.store (s + 8) 8 ptr
  let h := h.store (s + 6) 2 (inuse h.mem s + 2 ^ 16 - 1)
  let h := { h with liveObjects := (h.liveObjects + 2 ^ 64 - 1) % 2 ^ 64 }
  if inuse h.mem s = 0 then
    let h := if wasFull then h else partialRemove (classIdx h.mem s) s h
    let h := h.store s 4 0
    let h := pagesFree s 1 h
    { h with livePages := (h.livePages + 2 ^ 64 - 1) % 2 ^ 64 }
  else if wasFull then partialInsert (classIdx h.mem s) s h
  else h

/-- `heap_core_free`. -/
def heapCoreFree (ptr : Nat) (h : Heap) : Int × Heap :=
  if ptr = 0 then (-1, h)
  else
    let s := ptr / 4096 * 4096
    if magic h.mem s = largeMagic then
      if ptr ≠ s + 64 then (-1, h)
      else
        let count := npages h.mem s
        let h := h.store s 4 0
        let h := pagesFree s count h
        (0, { h with livePages := (h.livePages + 2 ^ 64 - count) % 2 ^ 64 })
    else if magic h.mem s ≠ slabMagic ∨ 7 ≤ classIdx h.mem s then (-1, h)
    else
      let size := classSize (classIdx h.mem s)
      let offset := (ptr + 2 ^ 64 - (s + 64)) % 2 ^ 64
      if offset % size ≠ 0 ∨ objectsPerSlab (classIdx h.mem s) ≤ offset / size ∨ inuse h.mem s = 0 then
        (-1, h)
      else (0, giveObject ptr s h)

end Heap

end Hallucinate.Mm
