import Hallucinate.Mm.Pmm

/-!
# Page tables (`kernel/arch/x86_64/paging.c`)

Physical memory is a map from frames to pages of bytes, and a page table is a page read as 512
little-endian words. Addresses are `uint64_t`; the direct map makes the table at a physical address
the page of its frame. With the frame allocator this is a `Machine`.

The four nested loops of `paging_user_clone` and of `paging_user_destroy` are four uses of
`forPresent`, the loop over the present entries of one table. `paging_user_destroy` also returns the
frames that it gave to `pmm_free_frame`, in order; a panic there is `none`.
-/

namespace Hallucinate.Mm

open Lib

/-- Physical memory by frames, and the frame allocator. -/
structure Machine where
  mem : Nat → Bytes
  pmm : Pmm

/-- `pmm_alloc_frame`: a physical address, or 0. `pmm_core_alloc` always returns on the allocators
of `pmm_refines_set`. -/
def pmmAllocFrame (s : Machine) : Nat × Machine :=
  match pmmCoreAlloc s.pmm with
  | some (frame, p) => (if frame < 0 then 0 else frame.toNat * 4096 % 2 ^ 64, { s with pmm := p })
  | none => (0, s)

/-- `pmm_free_frame`; `none` is a panic. -/
def pmmFreeFrame (paddr : Nat) (s : Machine) : Option Machine :=
  if paddr % 4096 ≠ 0 then none
  else if (pmmCoreFree s.pmm (paddr / 4096)).1 ≠ 0 then none
  else some { s with pmm := (pmmCoreFree s.pmm (paddr / 4096)).2 }

/-! ## Entries -/

def pteP : Nat := 2 ^ 0
def pteW : Nat := 2 ^ 1
def pteUS : Nat := 2 ^ 2
def ptePS : Nat := 2 ^ 7
def pteNX : Nat := 2 ^ 63

def pteAddrMask : Nat := 0x000FFFFFFFFFF000

/-- `entry & bit` as a condition. -/
def has (entry bit : Nat) : Bool := entry &&& bit != 0

/-- `entry & PTE_ADDR_MASK`. -/
def pteAddr (entry : Nat) : Nat := entry &&& pteAddrMask

/-- `index_at`: level 4 is the PML4, 1 the page table. -/
def indexAt (virt level : Nat) : Nat := virt / 2 ^ (12 + 9 * (level - 1)) % 512

namespace Machine

variable (s : Machine)

/-- `table_virt(table)[index]`. -/
def entry (table index : Nat) : Nat := rd (s.mem (table / 4096)) (8 * index) 8

/-- `page` as the page at `paddr`. -/
def setPage (paddr : Nat) (page : Bytes) : Machine :=
  { s with mem := Function.update s.mem (paddr / 4096) page }

/-- `table_virt(table)[index] = entry`. -/
def setEntry (table index entry : Nat) : Machine :=
  s.setPage table (wr (s.mem (table / 4096)) (8 * index) 8 entry)

/-- `memset(table_virt(paddr), 0, SIZE_4K)`. -/
def zeroPage (paddr : Nat) : Machine := s.setPage paddr (fill (s.mem (paddr / 4096)) 0 4096 0)

/-- `memcpy(table_virt(dst), table_virt(src), SIZE_4K)`. -/
def copyPage (dst src : Nat) : Machine :=
  s.setPage dst (copyIn (s.mem (dst / 4096)) 0 (slice (s.mem (src / 4096)) 0 4096))

end Machine

/-! ## Mapping -/

/-- `PAGING_OK`, `PAGING_ENOMEM`, `PAGING_EEXIST` and `PAGING_EALIGN`. -/
inductive PagingRc
  | ok | enomem | eexist | ealign
  deriving DecidableEq, Repr

/-- `next_table`. -/
def nextTable (table index userFlag : Nat) (s : Machine) : Nat × Machine :=
  let entry := s.entry table index
  if has entry pteP then
    (pteAddr entry,
      if userFlag ≠ 0 ∧ has entry pteUS = false then s.setEntry table index (entry ||| pteUS) else s)
  else
    let (frame, s) := pmmAllocFrame s
    if frame = 0 then (0, s)
    else
      (frame, (s.zeroPage frame).setEntry table index (frame ||| (pteP ||| pteW) ||| userFlag))

/-- `paging_addrspace_create`: the PML4, or 0. -/
def pagingAddrspaceCreate (s : Machine) : PagingRc × Nat × Machine :=
  let (frame, s) := pmmAllocFrame s
  if frame = 0 then (.enomem, 0, s) else (.ok, frame, s.zeroPage frame)

/-- The loop of `map_common` through the levels: the last table, or 0. -/
def descend (virt userFlag : Nat) : List Nat → Nat → Machine → Nat × Machine
  | [], table, s => (table, s)
  | level :: levels, table, s =>
    let (table, s) := nextTable table (indexAt virt level) userFlag s
    if table = 0 then (0, s) else descend virt userFlag levels table s

/-- The end of `map_common`, at the last table. -/
def writeLeaf (table virt phys flags leafLevel : Nat) (s : Machine) : PagingRc × Machine :=
  if has (s.entry table (indexAt virt leafLevel)) pteP then (.eexist, s)
  else
    let ps := if leafLevel = 2 then ptePS else 0
    (.ok, s.setEntry table (indexAt virt leafLevel) (pteAddr phys ||| flags ||| ps ||| pteP))

/-- `map_common`. -/
def mapCommon (pml4 virt phys flags leafLevel pageSize : Nat) (s : Machine) : PagingRc × Machine :=
  if virt % pageSize ≠ 0 ∨ phys % pageSize ≠ 0 then (.ealign, s)
  else
    let (table, s) := descend virt (flags &&& pteUS) ((List.range (4 - leafLevel)).map (4 - ·)) pml4 s
    if table = 0 then (.enomem, s) else writeLeaf table virt phys flags leafLevel s

/-- `paging_map_4k`. -/
def pagingMap4k (pml4 virt phys flags : Nat) (s : Machine) : PagingRc × Machine :=
  mapCommon pml4 virt phys flags 1 0x1000 s

/-- `paging_map_2m`. -/
def pagingMap2m (pml4 virt phys flags : Nat) (s : Machine) : PagingRc × Machine :=
  mapCommon pml4 virt phys flags 2 0x200000 s

/-- The loop of `paging_lookup` from a level down. -/
def lookupFrom (s : Machine) (virt : Nat) : Nat → Nat → Nat × Option Nat
  | 0, _ => (0, none)
  | level + 1, table =>
    let entry := s.entry table (indexAt virt (level + 1))
    if has entry pteP = false then (0, none)
    else if level = 0 ∨ level = 1 ∧ has entry ptePS then
      let pageSize := if level = 1 then 0x200000 else 0x1000
      (entry, some (pteAddr entry / pageSize * pageSize ||| virt % pageSize))
    else lookupFrom s virt level (pteAddr entry)

/-- `paging_lookup`: the entry, and the physical address unless the entry is 0. -/
def pagingLookup (s : Machine) (pml4 virt : Nat) : Nat × Option Nat := lookupFrom s virt 4 pml4

/-! ## Whole address spaces -/

/-- The loop `for (i …) if (table[i] & PTE_P) body(i, table[i])` over the indices given, which a body
may end. -/
def forPresent {σ ε : Type} (mach : σ → Machine) (table : Nat)
    (body : Nat → Nat → σ → Except ε Unit × σ) : List Nat → σ → Except ε Unit × σ
  | [], s => (.ok (), s)
  | i :: is, s =>
    if has ((mach s).entry table i) pteP then
      match body i ((mach s).entry table i) s with
      | (.ok (), s) => forPresent mach table body is s
      | (.error e, s) => (.error e, s)
    else forPresent mach table body is s

/-- One after the other, unless the first fails. -/
def andThen {σ ε : Type} (f g : σ → Except ε Unit × σ) (s : σ) : Except ε Unit × σ :=
  match f s with
  | (.ok (), s) => g s
  | (.error e, s) => (.error e, s)

/-- The innermost body of `paging_user_clone`: one page. The source reads the entry again after the
copy; it is the same one, since the new frame is no table of the source. -/
def clonePage (dst virt pte : Nat) (s : Machine) : Except PagingRc Unit × Machine :=
  let (frame, s) := pmmAllocFrame s
  if frame = 0 then (.error .enomem, s)
  else
    let s := s.copyPage frame (pteAddr pte)
    match pagingMap4k dst virt frame (pte &&& (pteW ||| pteUS ||| pteNX)) s with
    | (.ok, s) => (.ok (), s)
    -- `pmm_free_frame` does not panic here: the frame has just been allocated
    | (rc, s) => (.error rc, (pmmFreeFrame frame s).getD s)

/-- `paging_user_clone`. -/
def pagingUserClone (dst src : Nat) : Machine → Except PagingRc Unit × Machine :=
  forPresent id src (fun i4 e4 =>
    forPresent id (pteAddr e4) (fun i3 e3 =>
      forPresent id (pteAddr e3) (fun i2 e2 s =>
        -- user mappings are 4 KiB only
        if has e2 ptePS then (.error .ealign, s)
        else
          forPresent id (pteAddr e2) (fun i1 e1 =>
            clonePage dst (i4 * 2 ^ 39 ||| i3 * 2 ^ 30 ||| i2 * 2 ^ 21 ||| i1 * 2 ^ 12) e1)
            (List.range 512) s)
        (List.range 512))
      (List.range 512))
    (List.range 256)

/-- `pmm_free_frame`, with the frames freed so far. -/
def freeFrame (paddr : Nat) (x : Machine × List Nat) : Except Unit Unit × (Machine × List Nat) :=
  match pmmFreeFrame paddr x.1 with
  | some s => (.ok (), (s, x.2 ++ [paddr / 4096]))
  | none => (.error (), x)

/-- The frames of a 2 MiB page, from the physical address on. -/
def freeRun (paddr : Nat) : Nat → Machine × List Nat → Except Unit Unit × (Machine × List Nat)
  | 0, x => (.ok (), x)
  | n + 1, x => andThen (freeFrame paddr) (freeRun (paddr + 0x1000) n) x

/-- `paging_user_destroy`, with the frames that it frees. -/
def pagingUserDestroy (pml4 : Nat) : Machine × List Nat → Except Unit Unit × (Machine × List Nat) :=
  andThen
    (forPresent Prod.fst pml4 (fun _ e4 =>
      andThen
        (forPresent Prod.fst (pteAddr e4) (fun _ e3 =>
          andThen
            (forPresent Prod.fst (pteAddr e3) (fun _ e2 =>
              if has e2 ptePS then freeRun (pteAddr e2 / 0x200000 * 0x200000) 512
              else
                andThen
                  (forPresent Prod.fst (pteAddr e2) (fun _ e1 => freeFrame (pteAddr e1))
                    (List.range 512))
                  (freeFrame (pteAddr e2)))
              (List.range 512))
            (freeFrame (pteAddr e3)))
          (List.range 512))
        (freeFrame (pteAddr e4)))
      (List.range 256))
    (freeFrame pml4)

/-- `vmm_addrspace_create_user`: the kernel half of the new PML4 is that of the kernel's. -/
def vmmAddrspaceCreateUser (kernel : Nat) (s : Machine) : PagingRc × Nat × Machine :=
  match pagingAddrspaceCreate s with
  | (.ok, pml4, s) =>
    (.ok, pml4, (List.range' 256 256).foldl (fun s i => s.setEntry pml4 i (s.entry kernel i)) s)
  | r => r

end Hallucinate.Mm
