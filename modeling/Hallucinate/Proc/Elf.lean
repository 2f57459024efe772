import Hallucinate.Mm.Paging

/-!
# ELF executables (`kernel/lib/elf64.c`, `kernel/proc/elf_load.c`)

`elf64_validate` over a byte buffer, and `elf64_load`, which maps a validated image into a user
address space. Fields are the little-endian scalars of the buffer, and arithmetic on them is that of
`uint64_t`.

The image has `size` bytes; the loader reads it with `fetch`, which fails with `outside` where a byte
at or beyond `size` would be read. A failed `KASSERT` is `kassert`. Left out: `elf64_strerror`.
-/

namespace Hallucinate.Proc

open Lib Mm

/-- `ELF64_OK` and the error codes. -/
inductive Elf64Rc
  | ok | etrunc | emagic | eclass | eendian | eversion | etype | emachine | ephentsize | ephnum | ephoff
  | esegfile | esegsize | esegva | esegalign | eoverlap | ewx | enoload | eentry | enomem
  deriving DecidableEq, Repr

/-- How a function ends that returns no code of its own. -/
inductive Elf64Stop
  /-- A code is returned. -/
  | rc (rc : Elf64Rc)
  /-- A byte outside of the image is read. -/
  | outside
  /-- A `KASSERT` fails. -/
  | kassert
  /-- A loop does not end. -/
  | hangs
  deriving DecidableEq, Repr

/-- The image: its bytes, and how many there are, a `uint64_t`. -/
structure Image where
  bytes : Bytes
  size : Nat
  fits : size < 2 ^ 64

/-- The `n` bytes from `off` on, for `memcpy`. -/
def Image.fetch (im : Image) (off n : Nat) : Except Elf64Stop (List UInt8) :=
  if off + n ≤ im.size then .ok (slice im.bytes off n) else .error .outside

/-- `struct elf64_ehdr`, the fields that are read. -/
structure Ehdr where
  magic : List UInt8
  cls : Nat
  data : Nat
  identVersion : Nat
  type : Nat
  machine : Nat
  version : Nat
  entry : Nat
  phoff : Nat
  phentsize : Nat
  phnum : Nat

/-- `struct elf64_phdr`, the fields that are read. -/
structure Phdr where
  type : Nat
  flags : Nat
  offset : Nat
  vaddr : Nat
  filesz : Nat
  memsz : Nat
  deriving DecidableEq, Repr

/-- The scalar of `w` bytes at `off`. -/
def scalar (bs : List UInt8) (off w : Nat) : Nat := leNat ((bs.drop off).take w)

/-- `ehdr_get`. -/
def ehdrGet (im : Image) : Except Elf64Stop Ehdr := do
  let bs ← im.fetch 0 64
  return { magic := bs.take 4, cls := scalar bs 4 1, data := scalar bs 5 1,
           identVersion := scalar bs 6 1, type := scalar bs 16 2, machine := scalar bs 18 2,
           version := scalar bs 20 4, entry := scalar bs 24 8, phoff := scalar bs 32 8,
           phentsize := scalar bs 54 2, phnum := scalar bs 56 2 }

/-- `elf64_phdr_get`. -/
def elf64PhdrGet (im : Image) (index : Nat) : Except Elf64Stop Phdr := do
  let eh ← ehdrGet im
  let bs ← im.fetch ((eh.phoff + index * 56) % 2 ^ 64) 56
  return { type := scalar bs 0 4, flags := scalar bs 4 4, offset := scalar bs 8 8,
           vaddr := scalar bs 16 8, filesz := scalar bs 32 8, memsz := scalar bs 40 8 }

def ptLoad : Nat := 1
def pfX : Nat := 1
def pfW : Nat := 2

/-- `page_down`. -/
def pageDown (addr : Nat) : Nat := addr / 4096 * 4096

/-- `page_up`. -/
def pageUp (addr : Nat) : Nat := (addr + 4095) % 2 ^ 64 / 4096 * 4096

/-- The page-rounded spans of the segments seen so far, and `entry_ok`. -/
structure Spans where
  loads : List (Nat × Nat)
  entryOk : Bool

/-- The body of the loop of `elf64_validate` for one program header. -/
def checkPhdr (size vaMin vaLimit entry : Nat) (ph : Phdr) (seen : Spans) : Except Elf64Stop Spans :=
  if ph.type ≠ ptLoad then .ok seen
  else if has ph.flags pfW ∧ has ph.flags pfX then .error (.rc .ewx)
  else if ph.memsz < ph.filesz then .error (.rc .esegsize)
  else if ph.memsz = 0 then .ok seen
  else if size < ph.offset ∨ size - ph.offset < ph.filesz then .error (.rc .esegfile)
  else if ph.vaddr < vaMin ∨ vaLimit ≤ ph.vaddr then .error (.rc .esegva)
  else if vaLimit - ph.vaddr < ph.memsz then .error (.rc .esegva)
  else if (ph.vaddr ^^^ ph.offset) % 4096 ≠ 0 then .error (.rc .esegalign)
  else
    let start := pageDown ph.vaddr
    let stop := pageUp ((ph.vaddr + ph.memsz) % 2 ^ 64)
    if seen.loads.any fun l => start < l.2 ∧ l.1 < stop then .error (.rc .eoverlap)
    else
      .ok { loads := seen.loads ++ [(start, stop)]
            entryOk := seen.entryOk ∨
              (has ph.flags pfX ∧ ph.vaddr ≤ entry ∧ entry < (ph.vaddr + ph.filesz) % 2 ^ 64) }

/-- The loop of `elf64_validate` over the program headers with the indices given. -/
def checkPhdrs (im : Image) (vaMin vaLimit entry : Nat) : List Nat → Spans → Except Elf64Stop Spans
  | [], seen => .ok seen
  | i :: is, seen => do
    let ph ← elf64PhdrGet im i
    let seen ← checkPhdr im.size vaMin vaLimit entry ph seen
    checkPhdrs im vaMin vaLimit entry is seen

/-- `struct elf64_info`. -/
structure Info where
  entry : Nat
  phnum : Nat
  deriving DecidableEq, Repr

/-- `if (c) return rc;`. -/
def reject (c : Prop) [Decidable c] (rc : Elf64Rc) : Except Elf64Stop Unit :=
  if c then .error (.rc rc) else .ok ()

/-- `elf64_validate`. -/
def elf64Validate (im : Image) (vaMin vaLimit : Nat) : Except Elf64Stop Info := do
  reject (im.size < 64) .etrunc
  let eh ← ehdrGet im
  reject (eh.magic ≠ [0x7F, 0x45, 0x4C, 0x46]) .emagic
  reject (eh.cls ≠ 2) .eclass
  reject (eh.data ≠ 1) .eendian
  reject (eh.identVersion ≠ 1 ∨ eh.version ≠ 1) .eversion
  reject (eh.type ≠ 2) .etype
  reject (eh.machine ≠ 62) .emachine
  reject (eh.phentsize ≠ 56) .ephentsize
  reject (eh.phnum = 0 ∨ 16 < eh.phnum) .ephnum
  reject (im.size < eh.phoff ∨ im.size - eh.phoff < eh.phnum * 56) .ephoff
  let seen ← checkPhdrs im vaMin vaLimit eh.entry (List.range eh.phnum) ⟨[], false⟩
  reject (seen.loads = []) .enoload
  reject (seen.entryOk = false) .eentry
  return ⟨eh.entry, eh.phnum⟩

/-! ## Loading -/

/-- `seg_pte_flags`. -/
def segPteFlags (flags : Nat) : Nat :=
  pteUS ||| (if has flags pfW then pteW else 0) ||| (if has flags pfX then 0 else pteNX)

/-- `fill_page`, on the contents of the page. -/
def fillPage (im : Image) (pageVa : Nat) (ph : Phdr) (page : Bytes) : Except Elf64Stop Bytes :=
  let lo := if ph.vaddr < pageVa then pageVa else ph.vaddr
  let fileEnd := (ph.vaddr + ph.filesz) % 2 ^ 64
  let hi := if (pageVa + 4096) % 2 ^ 64 < fileEnd then (pageVa + 4096) % 2 ^ 64 else fileEnd
  if lo < hi then do
    let bs ← im.fetch ((ph.offset + (lo - ph.vaddr)) % 2 ^ 64) (hi - lo)
    return copyIn page (lo - pageVa) bs
  else .ok page

/-- The body of the loop of `elf64_load` over the pages of a segment. -/
def loadPage (pml4 : Nat) (im : Image) (ph : Phdr) (pageVa : Nat) (s : Machine) :
    Except Elf64Stop Unit × Machine :=
  let (frame, s) := pmmAllocFrame s
  if frame = 0 then (.error (.rc .enomem), s)
  else
    match fillPage im pageVa ph (fill (s.mem (frame / 4096)) 0 4096 0) with
    | .error stop => (.error stop, s)
    | .ok page =>
      match pagingMap4k pml4 pageVa frame (segPteFlags ph.flags) (s.setPage frame page) with
      | (.ok, s) => (.ok (), s)
      -- `pmm_free_frame` does not panic here: the frame has just been allocated
      | (.enomem, s) => (.error (.rc .enomem), (pmmFreeFrame frame s).getD s)
      | (_, s) => (.error .kassert, s)

/-- The loop of `elf64_load` over the pages of a segment, from a page on. -/
def loadPages (pml4 : Nat) (im : Image) (ph : Phdr) : Nat → Nat → Machine →
    Except Elf64Stop Unit × Machine
  | 0, _, s => (.error .hangs, s)
  | fuel + 1, pageVa, s =>
    if pageVa < (ph.vaddr + ph.memsz) % 2 ^ 64 then
      andThen (loadPage pml4 im ph pageVa) (loadPages pml4 im ph fuel ((pageVa + 4096) % 2 ^ 64)) s
    else (.ok (), s)

/-- The loop of `elf64_load` over the program headers with the indices given. -/
def loadSegments (pml4 : Nat) (im : Image) : List Nat → Machine → Except Elf64Stop Unit × Machine
  | [], s => (.ok (), s)
  | i :: is, s =>
    match elf64PhdrGet im i with
    | .error stop => (.error stop, s)
    | .ok ph =>
      if ph.type ≠ ptLoad ∨ ph.memsz = 0 then loadSegments pml4 im is s
      else
        -- a loop over a 64-bit counter has come back to an earlier value after so many passes
        andThen (loadPages pml4 im ph (2 ^ 64) (pageDown ph.vaddr)) (loadSegments pml4 im is) s

/-- `USER_VA_LIMIT`. -/
def userVaLimit : Nat := 0x0000800000000000

/-- `elf64_load`: the entry point, or why there is none. -/
def elf64Load (pml4 : Nat) (im : Image) (s : Machine) : Except Elf64Stop Nat × Machine :=
  match elf64Validate im 4096 userVaLimit with
  | .error stop => (.error stop, s)
  | .ok info =>
    match loadSegments pml4 im (List.range info.phnum) s with
    | (.ok (), s) => (.ok info.entry, s)
    | (.error stop, s) => (.error stop, s)

/-- An executable of one segment, in the file and in memory from the header on. -/
def tinyImage : Image where
  bytes i := ([0x7F, 0x45, 0x4C, 0x46, 2, 1, 1, 0, 0, 0, 0, 0, 0, 0, 0, 0] ++ leBytes 2 2 ++
    leBytes 2 62 ++ leBytes 4 1 ++ leBytes 8 0x400078 ++ leBytes 8 64 ++ leBytes 8 0 ++ leBytes 4 0 ++
    leBytes 2 64 ++ leBytes 2 56 ++ leBytes 2 1 ++ leBytes 6 0 ++
    leBytes 4 1 ++ leBytes 4 5 ++ leBytes 8 0 ++ leBytes 8 0x400000 ++ leBytes 8 0x400000 ++
    leBytes 8 122 ++ leBytes 8 200 ++ leBytes 8 0x1000 ++ [0xEB, 0xFE]).getD i 0
  size := 122
  fits := by decide

end Hallucinate.Proc
