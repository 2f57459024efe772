import Hallucinate.Gfs.MountSpec
import Hallucinate.Lib.Walk

/-!
# Where the edge loops end (`edge_lookup`, `edge_remove_name`, `edge_chain_free`)

The three loops over an edge chain follow the next pointers of the device until one is null, out of
range or does not match its checksum. They keep no count of the blocks they have read. `gfs_fsck` and
the climb to the root in `gfs_rename` do.

* `Ends`: with enough rounds a loop returns, whatever device operations fail.
* **`edge_loops_end`**: `edge_lookup` and `edge_chain_free` end exactly if the chain visits no block
  twice. So does `edge_remove_name`, if the blocks of the chain are in use: it writes only blocks that
  the committed bitmap has free. On an image whose bitmap has a block of the chain free,
  `edge_remove_name` may overwrite what it has yet to read, and nothing is said about it.
* `loopDisk_never_ends`: an image that mounts, with a block that points to itself. CRC-32C is linear:
  with the register 0 after the header, the zeros behind it keep it 0, so that the checksum of the
  block does not depend on the pointer in it.
-/

namespace Hallucinate.Gfs

open Lib

/-! ## The chain on a device -/

/-- Where a loop goes from a pointer: nowhere if it is null, out of range or has another checksum. -/
def chainNext (total : Nat) (d : Nat → Option Bytes) (bp : Bp) : Option Bp :=
  if bp.phys = 0 ∨ total ≤ bp.phys then none
  else (d bp.phys).bind fun a => if blockCrc a = bp.crc then some (ebNext a) else none

/-- The chain from `head` visits no block twice: it does not go on from one block at two steps. -/
def NoReturn (total : Nat) (d : Nat → Option Bytes) (head : Bp) : Prop :=
  ∀ i j x y, Leaves (chainNext total d) head i x → Leaves (chainNext total d) head j y →
    x.phys = y.phys → i = j

/-- The blocks that the chain points to are marked in the committed bitmap, also the last one, whose
checksum may be another. -/
def InUse (c : Core) (d : Nat → Option Bytes) (head : Bp) : Prop :=
  ∀ i x, follow (chainNext c.totalBlocks d) i head = some x → x.phys ≠ 0 →
    x.phys < c.totalBlocks → bitTest c.committed x.phys = true

/-- With enough rounds the loop returns, whatever device operations fail. -/
def Ends {α : Type} (p : Nat → GfsM α) (s : St) : Prop :=
  ∃ fuel, ∀ o, ∃ r s', (p fuel).run gfsMachine o s = some (r, s')

/-- The loop of `edge_chain_free` from `head` ends. -/
def ChainFreeEnds (s : St) (head : Bp) : Prop := Ends (fun fuel => chainFreeWalk fuel head) s

/-- The loop of `edge_lookup` ends. -/
def LookupEnds (s : St) (head : Bp) (name : List UInt8) : Prop :=
  Ends (fun fuel => lookupWalk name fuel head) s

/-- The loop of `edge_remove_name` ends, from its start with an empty output block. -/
def RemoveEnds (s : St) (head : Bp) (name : List UInt8) : Prop :=
  Ends (fun fuel => setBuf .b ebFresh >>= fun _ =>
    removeWalk name fuel head ⟨⟨0, 0⟩, 0, 0, none⟩) s

variable {α : Type} {p : Nat → GfsM α}

theorem Ends.of_wp {Q : Except Err α → St → Prop} {s : St} (fuel : Nat) (h : Wp (p fuel) Q s) :
    Ends p s := by
  refine ⟨fuel, fun o => ?_⟩
  obtain ⟨r, s', hrun, -⟩ := Prog.run_of_wp h o
  exact ⟨r, s', hrun⟩

variable {total fuel n : Nat} {d : Nat → Option Bytes} {bp bp' head : Bp} {s : St} {c : Core}
  {name : List UInt8}

theorem chainNext_eq_some : chainNext total d bp = some bp' ↔
    bp.phys ≠ 0 ∧ bp.phys < total ∧ ∃ a, d bp.phys = some a ∧ blockCrc a = bp.crc ∧
      ebNext a = bp' := by
  unfold chainNext
  by_cases h : bp.phys = 0 ∨ total ≤ bp.phys
  · rw [if_pos h]
    exact iff_of_false nofun fun hs => by omega
  rw [if_neg h, Option.bind_eq_some_iff]
  constructor
  · rintro ⟨a, ha, hnext⟩
    split at hnext
    · rename_i hcrc
      exact ⟨by omega, by omega, a, ha, hcrc, Option.some.inj hnext⟩
    · cases hnext
  · rintro ⟨-, -, a, ha, hcrc, rfl⟩
    exact ⟨a, ha, if_pos hcrc⟩

/-- A block has one checksum, so that a chain ends exactly if it visits no block twice. -/
theorem noReturn_iff : (∃ n, follow (chainNext total d) n head = none) ↔ NoReturn total d head := by
  refine follow_ends_iff (N := total) (fun x hx => ?_) fun x y hx hy hxy => ?_
  · obtain ⟨x', hx'⟩ := Option.isSome_iff_exists.mp hx
    exact (chainNext_eq_some.mp hx').2.1
  · obtain ⟨x', hx'⟩ := Option.isSome_iff_exists.mp hx
    obtain ⟨y', hy'⟩ := Option.isSome_iff_exists.mp hy
    obtain ⟨-, -, a, ha, hcrc, -⟩ := chainNext_eq_some.mp hx'
    obtain ⟨-, -, b, hb, hcrc', -⟩ := chainNext_eq_some.mp hy'
    rw [hxy, hb] at ha
    obtain rfl := Option.some.inj ha
    cases x
    cases y
    rw [Bp.mk.injEq]
    exact ⟨hxy, hcrc.symm.trans hcrc'⟩

/-- A step along the chain leaves one step less. -/
theorem follow_chainNext (h : follow (chainNext total d) (n + 1) bp = none)
    (hnext : chainNext total d bp = some bp') : follow (chainNext total d) n bp' = none := by
  rw [follow, hnext] at h
  exact h

/-- `read_meta` of a pointer of the chain: it fails, or the chain goes on in the block. -/
theorem wp_readChain (hcore : s.core = c) (hne : bp.phys ≠ 0)
    (hd : bp.phys < c.totalBlocks → s.disk bp.phys = d bp.phys)
    (hfull : ∀ b < c.totalBlocks, (d b).isSome) :
    Wp (readMeta bp .a) (outcome (fun _ s' => ∃ a,
      chainNext c.totalBlocks d bp = some (ebNext a) ∧ s' = s.setBuf .a (some a))
      fun _ _ => True) s := by
  by_cases hlt : bp.phys < c.totalBlocks
  · obtain ⟨a, ha⟩ := Option.isSome_iff_exists.mp (hfull _ hlt)
    refine Prog.wp_seq (P := outcome (fun _ s' => s' = s.setBuf .a (some a)) fun _ _ => True)
      (wp_bread (by rwa [hcore]) ((hd hlt).trans ha) rfl trivial) (fun _ _ _ => trivial) ?_
    rintro _ s' rfl
    refine wp_getBuf (St.setBuf_same s .a _) ?_
    by_cases hcrc : blockCrc a = bp.crc
    · rw [if_neg (not_not.mpr hcrc)]
      exact ⟨a, chainNext_eq_some.mpr ⟨hne, hlt, a, ha, hcrc, rfl⟩, rfl⟩
    · rw [if_pos hcrc]
      exact trivial
  · refine Prog.wp_seq (P := outcome (fun _ _ => False) fun _ _ => True) (wp_getCore ?_)
      (fun _ _ _ => trivial) fun _ _ h => h.elim
    rw [hcore, if_pos (by omega)]
    exact trivial

/-! ## A chain that ends -/

/-- `edge_lookup` ends with its chain. -/
theorem wp_lookupWalk_ends (hcore : s.core = c) (hd : s.disk = d)
    (hfull : ∀ b < c.totalBlocks, (d b).isSome)
    (hend : follow (chainNext c.totalBlocks d) n bp = none) :
    Wp (lookupWalk name n bp) (outcome (fun _ _ => True) fun _ _ => True) s := by
  induction n generalizing bp s with
  | zero => cases hend
  | succ n ih =>
    rw [lookupWalk]
    by_cases h0 : bp.phys = 0
    · rw [if_pos h0]
      exact trivial
    rw [if_neg h0]
    refine Wp.bind (wp_readChain hcore h0 (fun _ => by rw [hd]) hfull) ?_
    rintro _ s' ⟨a, hnext, rfl⟩
    refine wp_getBuf (St.setBuf_same s .a _) ?_
    split
    · exact trivial
    · exact ih hcore hd (follow_chainNext hend hnext)

variable {blk : Nat}

theorem wp_freeBlock_any {w : Bytes} (hw : s.working = some w) :
    Wp (freeBlock blk) (outcome (fun _ s' => ∃ w, s' = s.setWorking w) fun _ _ => True) s := by
  unfold freeBlock
  by_cases h0 : blk = 0
  · rw [if_pos h0]
    refine wp_pure ⟨w, ?_⟩
    rw [St.setWorking, ← hw]
  · rw [if_neg h0]
    exact wp_getWorking hw (wp_last (wp_setWorking ⟨_, rfl⟩))

/-- `edge_chain_free` ends with its chain. -/
theorem wp_chainFreeWalk_ends (hcore : s.core = c) (hd : s.disk = d) (hw : s.working.isSome)
    (hfull : ∀ b < c.totalBlocks, (d b).isSome)
    (hend : follow (chainNext c.totalBlocks d) n bp = none) :
    Wp (chainFreeWalk n bp) (outcome (fun _ _ => True) fun _ _ => True) s := by
  induction n generalizing bp s with
  | zero => cases hend
  | succ n ih =>
    rw [chainFreeWalk]
    by_cases h0 : bp.phys = 0
    · rw [if_pos h0]
      exact trivial
    rw [if_neg h0]
    refine Wp.bind (wp_readChain hcore h0 (fun _ => by rw [hd]) hfull) ?_
    rintro _ s' ⟨a, hnext, rfl⟩
    refine wp_getBuf (St.setBuf_same s .a _) ?_
    obtain ⟨w, hw⟩ := Option.isSome_iff_exists.mp hw
    refine Wp.bind (wp_freeBlock_any (w := w) hw) ?_
    rintro _ s' ⟨w', rfl⟩
    exact ih hcore hd rfl (follow_chainNext hend hnext)

/-- What `edge_remove_name` keeps while it writes: the blocks in use, and its two buffers. -/
structure Copying (c : Core) (d : Nat → Option Bytes) (a : Bytes) (s : St) : Prop where
  core : s.core = c
  kept : ∀ b, bitTest c.committed b = true → s.disk b = d b
  work : s.working.isSome
  old : s.buf .a = some a
  out : (s.buf .b).isSome

namespace Copying

variable {a : Bytes} {st : RemoveSt}

section

variable (h : Copying c d a s)
include h

theorem setOut (data : Bytes) : Copying c d a (s.setBuf .b (some data)) :=
  ⟨h.core, h.kept, h.work, by rw [St.setBuf_of_ne (by decide)]; exact h.old, by rw [St.setBuf_same]; rfl⟩

/-- `alloc_block` takes a block that the committed bitmap has free. -/
theorem wp_alloc :
    Wp allocBlock (outcome (fun i s' => (bitTest c.committed i = false ∧ i < c.totalBlocks) ∧
      Copying c d a s' ∧ s'.buf = s.buf) fun _ _ => True) s := by
  obtain ⟨w, hw⟩ := Option.isSome_iff_exists.mp h.work
  refine wp_getCore (wp_getWorking hw ?_)
  rw [h.core]
  cases hfree : firstFree c w with
  | none => exact trivial
  | some i =>
    refine wp_setWorking (wp_pure ⟨?_, ⟨h.core, h.kept, rfl, h.old, h.out⟩, rfl⟩)
    have hmem := List.mem_range'_1.mp (List.mem_of_find?_eq_some hfree)
    have hbits := List.find?_some hfree
    simp only [Bool.and_eq_true, Bool.not_eq_true'] at hbits
    exact ⟨hbits.1, by omega⟩

/-- Writing an output block leaves the blocks in use alone. -/
theorem wp_flush :
    Wp (flushEdges st) (outcome (fun _ s' => Copying c d a s') fun _ _ => True) s := by
  obtain ⟨b, hb⟩ := Option.isSome_iff_exists.mp h.out
  refine wp_getBuf hb (wp_setBuf (Wp.bind (h.setOut _).wp_alloc ?_))
  rintro i s' ⟨⟨hfree, hlt⟩, h', hbuf⟩
  obtain ⟨b', hb'⟩ := Option.isSome_iff_exists.mp h'.out
  refine wp_writeMeta (by rwa [h'.core]) hb' ⟨h'.core, fun blk hblk => ?_, h'.work, h'.old, h'.out⟩
    trivial
  rw [St.put_of_ne]
  · exact h'.kept blk hblk
  · rintro rfl
    rw [hfree] at hblk
    cases hblk

/-- One record is dropped or copied. -/
theorem wp_record (k : Nat) :
    Wp (removeRecord name st k) (outcome (fun _ s' => Copying c d a s') fun _ _ => True) s := by
  refine wp_getBuf h.old ?_
  split
  · exact h
  have hroom : Wp (flushFull st) (outcome (fun _ s' => Copying c d a s') fun _ _ => True) s := by
    unfold flushFull
    split
    · exact Wp.bind h.wp_flush fun _ s' h' => wp_setBuf (wp_pure (h'.setOut _))
    · exact wp_pure h
  refine Wp.bind hroom fun st' s' h' => ?_
  obtain ⟨b, hb⟩ := Option.isSome_iff_exists.mp h'.out
  exact wp_getBuf hb (wp_setBuf (wp_pure (h'.setOut _)))

end

end Copying

/-- `edge_remove_name` ends with its chain, if the blocks of the chain are in use. -/
theorem wp_removeWalk_ends {st : RemoveSt} (hcore : s.core = c)
    (hkept : ∀ b, bitTest c.committed b = true → s.disk b = d b) (hw : s.working.isSome)
    (hout : (s.buf .b).isSome) (hfull : ∀ b < c.totalBlocks, (d b).isSome)
    (huse : InUse c d bp) (hend : follow (chainNext c.totalBlocks d) n bp = none) :
    Wp (removeWalk name n bp st) (outcome (fun _ _ => True) fun _ _ => True) s := by
  induction n generalizing bp s st with
  | zero => cases hend
  | succ n ih =>
    rw [removeWalk]
    by_cases h0 : bp.phys = 0
    · rw [if_pos h0]
      exact trivial
    rw [if_neg h0]
    refine Wp.bind (wp_readChain hcore h0 (fun hlt => hkept _ (huse 0 bp rfl h0 hlt)) hfull) ?_
    rintro _ s' ⟨a, hnext, rfl⟩
    refine wp_getBuf (St.setBuf_same s .a _) ?_
    have hcopy : Copying c d a (s.setBuf .a (some a)) :=
      ⟨hcore, hkept, hw, St.setBuf_same .., by rw [St.setBuf_of_ne (by decide)]; exact hout⟩
    refine Wp.bind (Wp.loop (I := fun _ _ s' => Copying c d a s') hcopy
      fun k st' s' _ h => h.wp_record k) fun st' s' h => ?_
    obtain ⟨w, hw'⟩ := Option.isSome_iff_exists.mp h.work
    refine Wp.bind (wp_freeBlock_any (w := w) hw') ?_
    rintro _ s'' ⟨w', rfl⟩
    refine ih h.core h.kept rfl h.out (fun i x hx => huse (i + 1) x ?_)
      (follow_chainNext hend hnext)
    rw [follow, hnext]
    exact hx

/-! ## A chain that does not end -/

variable {β : Type}

theorem run_getBuf_some {src : Buf} {blk : Bytes} {o : Nat → Bool} (f : Bytes → GfsM β)
    (hb : s.buf src = some blk) :
    (getBuf src >>= f).run gfsMachine o s = (f blk).run gfsMachine o s := by
  refine (Prog.run_exec (S := gfsSig) (.getBuf src) f o s).trans ?_
  simp only [gfsMachine, hb]
  rfl

/-- `read_meta` of a block with the right checksum, without failures. -/
theorem ran_readMeta {dst : Buf} {blk : Bytes} (hlt : bp.phys < s.core.totalBlocks)
    (hd : s.disk bp.phys = some blk) (hcrc : blockCrc blk = bp.crc) :
    Ran (readMeta bp dst) s () (s.setBuf dst (some blk)) := by
  have hread : Ran (bread bp.phys dst) s () (s.setBuf dst (some blk)) := by
    unfold Ran bread
    rw [run_getCore, if_neg (by omega)]
    refine (Prog.run_exec (S := gfsSig) (.read bp.phys dst) _ _ s).trans ?_
    simp only [gfsMachine, hd]
    rfl
  refine hread.bind ?_
  unfold Ran
  rw [run_getBuf_some _ (St.setBuf_same s dst _), if_neg (not_not.mpr hcrc)]
  rfl

/-- The start of a round, without failures. -/
theorem run_round (hnext : chainNext s.core.totalBlocks s.disk bp = some bp') (f : Bytes → GfsM β) :
    ∃ a, s.disk bp.phys = some a ∧ ebNext a = bp' ∧
      (readMeta bp .a >>= fun _ => getBuf .a >>= f).run gfsMachine (fun _ => false) s =
        (f a).run gfsMachine (fun _ => false) (s.setBuf .a (some a)) := by
  obtain ⟨-, hlt, a, ha, hcrc, hbp⟩ := chainNext_eq_some.mp hnext
  refine ⟨a, ha, hbp, ?_⟩
  rw [Prog.run_bind_quiet (ran_readMeta hlt ha hcrc), run_getBuf_some _ (St.setBuf_same s .a _)]

theorem run_freeBlock (f : Unit → GfsM β) (hne : blk ≠ 0) (hw : s.working.isSome) :
    ∃ w, (freeBlock blk >>= f).run gfsMachine (fun _ => false) s =
      (f ()).run gfsMachine (fun _ => false) (s.setWorking w) := by
  obtain ⟨w, hw⟩ := Option.isSome_iff_exists.mp hw
  refine ⟨bitClr w blk, Prog.run_bind_quiet ?_⟩
  unfold freeBlock
  rw [if_neg hne]
  refine (Prog.run_exec (S := gfsSig) .getWorking _ _ s).trans ?_
  simp only [gfsMachine, hw]
  rfl

/-- A chain without end goes on, and has no end from the next block either. -/
theorem endless_next {f : Bp → Option Bp} (h : ∀ n, follow f n bp ≠ none) :
    ∃ bp', f bp = some bp' ∧ ∀ n, follow f n bp' ≠ none := by
  cases hnext : f bp with
  | none =>
    refine absurd ?_ (h 1)
    rw [follow, hnext]
    rfl
  | some bp' =>
    refine ⟨bp', rfl, fun n hn => h (n + 1) ?_⟩
    rw [follow, hnext]
    exact hn

/-- **`edge_chain_free` runs forever on a chain without end.** -/
theorem chainFreeWalk_never (hw : s.working.isSome)
    (h : ∀ n, follow (chainNext s.core.totalBlocks s.disk) n bp ≠ none) (fuel : Nat) :
    (chainFreeWalk fuel bp).run gfsMachine (fun _ => false) s = none := by
  obtain ⟨bp', hnext, hrest⟩ := endless_next h
  have hne := (chainNext_eq_some.mp hnext).1
  induction fuel generalizing bp bp' s with
  | zero =>
    rw [chainFreeWalk, if_neg hne]
    rfl
  | succ fuel ih =>
    rw [chainFreeWalk, if_neg hne]
    obtain ⟨a, -, rfl, hround⟩ := run_round hnext
      fun a => freeBlock bp.phys >>= fun _ => chainFreeWalk fuel (ebNext a)
    refine hround.trans ?_
    have hw' : (s.setBuf .a (some a)).working.isSome := hw
    obtain ⟨w, hfree⟩ := run_freeBlock (fun _ => chainFreeWalk fuel (ebNext a)) hne hw'
    rw [hfree]
    obtain ⟨bp'', hnext', hrest'⟩ := endless_next hrest
    exact ih rfl hrest bp'' hnext' hrest' (chainNext_eq_some.mp hnext').1

theorem not_ends (h : ∀ fuel, (p fuel).run gfsMachine (fun _ => false) s = none) : ¬Ends p s := by
  rintro ⟨fuel, hends⟩
  obtain ⟨r, s', hrun⟩ := hends fun _ => false
  rw [h fuel] at hrun
  cases hrun

/-- **Where the loops end.** `edge_chain_free` and `edge_lookup` end for every name exactly if the
chain visits no block twice. With the blocks of the chain in use all three loops do. -/
theorem edge_loops_end (hw : s.working.isSome) (hfull : ∀ b < s.core.totalBlocks, (s.disk b).isSome)
    (head : Bp) :
    ((ChainFreeEnds s head ∧ ∀ name, LookupEnds s head name) ↔
      NoReturn s.core.totalBlocks s.disk head) ∧
    (InUse s.core s.disk head →
      ((ChainFreeEnds s head ∧ ∀ name, LookupEnds s head name ∧ RemoveEnds s head name) ↔
        NoReturn s.core.totalBlocks s.disk head)) := by
  have hback : ChainFreeEnds s head → NoReturn s.core.totalBlocks s.disk head := by
    intro hends
    refine noReturn_iff.mp ?_
    by_contra hnever
    exact not_ends (chainFreeWalk_never hw fun n hn => hnever ⟨n, hn⟩) hends
  refine ⟨⟨fun h => hback h.1, fun h => ?_⟩, fun huse => ⟨fun h => hback h.1, fun h => ?_⟩⟩
  · obtain ⟨n, hn⟩ := noReturn_iff.mpr h
    exact ⟨.of_wp n (wp_chainFreeWalk_ends rfl rfl hw hfull hn),
      fun name => .of_wp n (wp_lookupWalk_ends rfl rfl hfull hn)⟩
  · obtain ⟨n, hn⟩ := noReturn_iff.mpr h
    refine ⟨.of_wp n (wp_chainFreeWalk_ends rfl rfl hw hfull hn), fun name =>
      ⟨.of_wp n (wp_lookupWalk_ends rfl rfl hfull hn), .of_wp n (wp_setBuf
        (wp_removeWalk_ends rfl (fun _ _ => rfl) hw ?_ hfull huse hn))⟩⟩
    rw [St.setBuf_same]
    rfl

/-! ## A block that points to itself -/

/-- The header of an edge block without records, at block 6, whose next pointer is block 6 with the
checksum `0xFFFFFFFF`. The last four bytes are padding. -/
def loopHeader : List UInt8 :=
  [71, 68, 71, 69, 0, 0, 0, 0, 6, 0, 0, 0, 0, 0, 0, 0, 255, 255, 255, 255, 112, 146, 105, 118]

def loopBlock : Bytes := copyIn zeroBlock 0 loopHeader

def loopPtr : Bp := ⟨6, 0xFFFFFFFF⟩

theorem crc32cUpdate_zeros (n : Nat) : crc32cUpdate 0 (List.replicate n 0) = 0 := by
  induction n with
  | zero => rfl
  | succ n ih =>
    have hbyte : crcByte 0 0 = 0 := by decide
    rw [List.replicate_succ, crc32cUpdate, List.foldl_cons, hbyte]
    exact ih

theorem slice_loopBlock (n : Nat) : slice loopBlock 0 (24 + n) = loopHeader ++ List.replicate n 0 := by
  have hzeros : slice zeroBlock 24 n = List.replicate n 0 :=
    List.eq_replicate_iff.mpr ⟨slice_length .., fun b hb => by
      obtain ⟨_, -, rfl⟩ := List.mem_map.mp hb
      rfl⟩
  have hfront : slice loopBlock 0 24 = loopHeader := slice_copyIn zeroBlock 0 loopHeader
  have hback : slice loopBlock (0 + 24) n = slice zeroBlock 24 n :=
    slice_copyIn_of_disjoint (.inr (by simp [loopHeader]))
  rw [slice_add, hfront, hback, hzeros]

/-- The padding is chosen so that the register is 0 behind the header, and zeros keep it 0. -/
theorem blockCrc_loopBlock : blockCrc loopBlock = loopPtr.crc := by
  have hreg : crc32cUpdate 0xFFFFFFFF loopHeader = 0 := by decide +kernel
  unfold blockCrc crc32c
  rw [slice_loopBlock 4072, crc32cUpdate_append, hreg, crc32cUpdate_zeros]
  rfl

theorem ebNext_loopBlock : ebNext loopBlock = loopPtr := by decide +kernel

theorem ebCount_loopBlock : ebCount loopBlock = 0 := by decide +kernel

theorem chainNext_loopPtr (hlt : 6 < total) (hd : d 6 = some loopBlock) :
    chainNext total d loopPtr = some loopPtr :=
  chainNext_eq_some.mpr ⟨by decide, hlt, loopBlock, hd, blockCrc_loopBlock, ebNext_loopBlock⟩

theorem follow_loopPtr (hlt : 6 < total) (hd : d 6 = some loopBlock) (n : Nat) :
    follow (chainNext total d) n loopPtr = some loopPtr := by
  induction n with
  | zero => rfl
  | succ n ih =>
    rw [follow, chainNext_loopPtr hlt hd]
    exact ih

theorem run_loopRound (hlt : 6 < s.core.totalBlocks) (hd : s.disk 6 = some loopBlock)
    (f : Bytes → GfsM β) :
    (readMeta loopPtr .a >>= fun _ => getBuf .a >>= f).run gfsMachine (fun _ => false) s =
      (f loopBlock).run gfsMachine (fun _ => false) (s.setBuf .a (some loopBlock)) := by
  obtain ⟨a, ha, -, hround⟩ := run_round (chainNext_loopPtr hlt hd) f
  obtain rfl := Option.some.inj (hd.symm.trans ha)
  exact hround

/-- **No loop leaves the block**: it has no records, so that no name is found in it either. -/
theorem loopBlock_never (name : List UInt8) (hw : s.working.isSome) (hlt : 6 < s.core.totalBlocks)
    (hd : s.disk 6 = some loopBlock) :
    (∀ fuel, (chainFreeWalk fuel loopPtr).run gfsMachine (fun _ => false) s = none) ∧
      (∀ fuel, (lookupWalk name fuel loopPtr).run gfsMachine (fun _ => false) s = none) ∧
      ∀ fuel st, (removeWalk name fuel loopPtr st).run gfsMachine (fun _ => false) s = none := by
  have hne : loopPtr.phys ≠ 0 := by decide
  refine ⟨chainFreeWalk_never hw fun n => ?_, fun fuel => ?_, fun fuel st => ?_⟩
  · rw [follow_loopPtr hlt hd]
    nofun
  · induction fuel generalizing s with
    | zero =>
      rw [lookupWalk, if_neg hne]
      rfl
    | succ fuel ih =>
      rw [lookupWalk, if_neg hne]
      refine (run_loopRound hlt hd _).trans ?_
      rw [ebCount_loopBlock, ebNext_loopBlock]
      exact ih hw hlt hd
  · induction fuel generalizing s st with
    | zero =>
      rw [removeWalk, if_neg hne]
      rfl
    | succ fuel ih =>
      rw [removeWalk, if_neg hne]
      refine (run_loopRound hlt hd _).trans ?_
      rw [ebCount_loopBlock, ebNext_loopBlock]
      have hw' : (s.setBuf .a (some loopBlock)).working.isSome := hw
      obtain ⟨w, hfree⟩ := run_freeBlock (fun _ => removeWalk name fuel loopPtr st) hne hw'
      exact hfree.trans (ih (s := (s.setBuf .a (some loopBlock)).setWorking w) rfl hlt hd st)

/-- The root of the image, a directory whose chain is the block. -/
def loopRoot : DiskNode :=
  { zeroNode with type := nodeNamespace, nlink := 1, parent := 1, edgeHead := loopPtr }

def loopTable : Bytes := nodeEncode zeroBlock 256 loopRoot

def loopMap : Bytes := mapSet zeroBlock 0 ⟨5, blockCrc loopTable⟩

/-- The blocks 0 to 6 are in use. -/
def loopBits : Bytes := copyIn zeroBlock 0 [127]

/-- The handle of the image. -/
def loopCore : Core where
  writable := true
  generation := 0
  totalBlocks := 8
  nodeCount := 2
  rootNode := 1
  bitmapStart := 2
  bitmapBlocks := 1
  nodemap := ⟨4, blockCrc loopMap⟩
  freeBlocks := 1
  freeNodes := 0
  committed := loopBits
  bmBytes := 1

/-- The image: superblock, bitmap, node map, node table and the edge block. -/
def loopDisk : Nat → Option Bytes
  | 0 => some (sbEncode (liveSuper loopCore))
  | 2 => some loopBits
  | 4 => some loopMap
  | 5 => some loopTable
  | 6 => some loopBlock
  | _ => some zeroBlock

theorem loopDisk_onDisk : OnDisk loopDisk loopCore := by
  refine ⟨?_, rfl, fun j hj => ?_, fun i hi => ?_, ⟨loopMap, rfl, rfl⟩, ?_, ?_⟩
  · exact ⟨rfl, by decide, rfl, by decide, by decide, by decide, by decide, rfl, by decide,
      by decide⟩
  · obtain rfl : j = 0 := by
      have : j < 1 := hj
      omega
    exact ⟨loopBits, rfl, rfl⟩
  · have hi' : 0 + [(127 : UInt8)].length ≤ i := hi
    exact copyIn_of_not_mem (.inr hi')
  · exact ⟨by decide, by decide⟩
  · decide

/-- The image mounts, and a transaction on it finds the root with the block as its chain. -/
theorem exists_loopRoot : ∃ s t, Ran (gfsMount true (some (gfsMountWorkSize 8)))
    (mountInit loopDisk) () s ∧ Ran (txnBegin >>= fun _ => nodeRead 1) s loopRoot t ∧
    t.core = loopCore ∧ t.disk = loopDisk ∧ t.working.isSome := by
  obtain ⟨s, hmount, hcore, hdisk, -⟩ := OnDisk.mount (s := mountInit loopDisk) loopDisk_onDisk rfl
    rfl (fun hv => by rw [sbValid_zeroBlock] at hv; cases hv) ⟨_, rfl, le_rfl⟩
  have hfits : loopRoot.Fits := by
    refine ⟨?_, ?_, ?_, ?_, ?_, ?_, ?_, ?_, fun k => ?_⟩ <;>
      simp [loopRoot, loopPtr, zeroNode, nodeNamespace, Bp.Fits, Extent.Fits]
  have hmapped : mapGet loopMap 0 = ⟨5, blockCrc loopTable⟩ := by
    have hbp : (⟨5, blockCrc loopTable⟩ : Bp).Fits := ⟨by decide, crc32c_lt _⟩
    rw [loopMap, mapGet_mapSet _ _ _ hbp, if_pos rfl]
  -- the transaction starts
  have hread : Ran (readMeta loopCore.nodemap .map) (s.setWorking loopBits) ()
      ((s.setWorking loopBits).setBuf .map (some loopMap)) := by
    refine ran_readMeta ?_ ?_ rfl
    · rw [St.setWorking_core, hcore]
      decide
    · rw [St.setWorking_disk, hdisk]
      rfl
  have hbegin : Ran txnBegin s () ((s.setWorking loopBits).setBuf .map (some loopMap)) := by
    unfold Ran txnBegin
    rw [run_getCore, hcore, if_neg (by decide)]
    exact hread
  -- and reads the record of the root
  generalize hu : (s.setWorking loopBits).setBuf .map (some loopMap) = u at hbegin
  have hmapBuf : u.buf .map = some loopMap := by rw [← hu, St.setBuf_same]
  have hucore : u.core = loopCore := by rw [← hu]; exact hcore
  have hudisk : u.disk = loopDisk := by rw [← hu]; exact hdisk
  have htable : Ran (readMeta ⟨5, blockCrc loopTable⟩ .tbl) u () (u.setBuf .tbl (some loopTable)) := by
    refine ran_readMeta ?_ ?_ rfl
    · rw [hucore]
      decide
    · rw [hudisk]
      rfl
  have hroot : Ran (nodeRead 1) u loopRoot (u.setBuf .tbl (some loopTable)) := by
    unfold Ran nodeRead
    rw [run_getCore, hucore, if_neg (by decide), run_getBuf_some _ hmapBuf]
    show (if (mapGet loopMap 0).phys = 0 then _ else _ : GfsM DiskNode).run gfsMachine _ u = _
    rw [hmapped, if_neg (by decide), Prog.run_bind_quiet htable,
      run_getBuf_some _ (St.setBuf_same u .tbl _)]
    show some (Except.ok (nodeDecode loopTable 256), _) = _
    rw [loopTable, nodeDecode_nodeEncode _ _ hfits]
  refine ⟨s, _, hmount, hbegin.bind hroot, hucore, hudisk, ?_⟩
  rw [St.setBuf_working, ← hu]
  rfl

/-- **The loops never end on an image that mounts**: the root's chain is a block that points to
itself. -/
theorem loopDisk_never_ends : ∃ s t,
    Ran (gfsMount true (some (gfsMountWorkSize 8))) (mountInit loopDisk) () s ∧
    Ran (txnBegin >>= fun _ => nodeRead 1) s loopRoot t ∧ loopRoot.type = nodeNamespace ∧
    ¬ChainFreeEnds t loopRoot.edgeHead ∧
    ∀ name, ¬LookupEnds t loopRoot.edgeHead name ∧ ¬RemoveEnds t loopRoot.edgeHead name := by
  obtain ⟨s, t, hmount, hroot, hcore, hdisk, hw⟩ := exists_loopRoot
  have hlt : 6 < t.core.totalBlocks := by
    rw [hcore]
    decide
  have hd : t.disk 6 = some loopBlock := by
    rw [hdisk]
    rfl
  refine ⟨s, t, hmount, hroot, rfl, not_ends (loopBlock_never [] hw hlt hd).1,
    fun name => ⟨not_ends (loopBlock_never name hw hlt hd).2.1, not_ends fun fuel => ?_⟩⟩
  exact (loopBlock_never (s := t.setBuf .b (some ebFresh)) name hw hlt hd).2.2 fuel _

/-- The loops of the root of that image, whose chain is in use. -/
theorem edge_loops_end_loopDisk : ∃ s t,
    Ran (gfsMount true (some (gfsMountWorkSize 8))) (mountInit loopDisk) () s ∧
    Ran (txnBegin >>= fun _ => nodeRead 1) s loopRoot t ∧
    InUse t.core t.disk loopRoot.edgeHead ∧
    ((ChainFreeEnds t loopRoot.edgeHead ∧ ∀ name, LookupEnds t loopRoot.edgeHead name ∧
        RemoveEnds t loopRoot.edgeHead name) ↔
      NoReturn t.core.totalBlocks t.disk loopRoot.edgeHead) := by
  obtain ⟨s, t, hmount, hroot, hcore, hdisk, hw⟩ := exists_loopRoot
  have huse : InUse t.core t.disk loopRoot.edgeHead := by
    intro i x hx _ _
    rw [hcore, hdisk, show loopRoot.edgeHead = loopPtr from rfl,
      follow_loopPtr (by decide) rfl] at hx
    cases hx
    rw [hcore]
    decide +kernel
  have hfull : ∀ b < t.core.totalBlocks, (t.disk b).isSome := by
    intro b _
    rw [hdisk]
    unfold loopDisk
    split <;> rfl
  exact ⟨s, t, hmount, hroot, huse, (edge_loops_end hw hfull _).2 huse⟩

end Hallucinate.Gfs
