import Hallucinate.Gfs.MountSpec

/-!
# The bitmap geometry of an accepted superblock

`gfs_mount` sizes its bitmap buffers by `total_blocks` and copies `bitmap_blocks` blocks into them,
two independent fields of the superblock. `BitmapSafe fs` says what those copies need: each chunk
lies in the buffer, the chunks cover it, and the blocks of the two copies lie between the superblock
slots and the data region, whose start does not wrap around.

* `mount_accepts`: what a mount that succeeded has read and checked.
* `bitmapSafe_iff`: the copies are safe exactly if the superblock has as many bitmap blocks as its
  bitmap needs (`BlocksMatch`).
* **`mount_bitmapSafe_iff`**: so it is for every mount that succeeds.
* **`mount_accepts_long_bitmap`**: `sb_geometry_ok` has no such check. A superblock of 8 blocks with
  two bitmap blocks is accepted, and the copy of its second bitmap block starts 4095 bytes past the
  end of the one-byte bitmap.
-/

namespace Hallucinate.Gfs

open Lib

/-! ## Copies that stay in their buffers -/

structure BitmapSafe (fs : Core) : Prop where
  /-- Every chunk lies in the buffer. -/
  inside : ∀ j < fs.bitmapBlocks,
    bitmapOff j + bitmapChunk fs.bmBytes (bitmapOff j) ≤ fs.bmBytes
  /-- Every byte of the buffer is in a chunk. -/
  covered : ∀ i < fs.bmBytes, ∃ j < fs.bitmapBlocks,
    bitmapOff j ≤ i ∧ i < bitmapOff j + bitmapChunk fs.bmBytes (bitmapOff j)
  /-- The blocks of both copies are neither superblocks nor data blocks. -/
  apart : ∀ parity < 2, ∀ j < fs.bitmapBlocks,
    2 ≤ bitmapLba fs parity j ∧ bitmapLba fs parity j < dataFirst fs
  noWrap : dataFirst fs = fs.bitmapStart + 2 * fs.bitmapBlocks

/-- The superblock has the bitmap blocks that a bitmap of its device fills, the last one perhaps in
part or not at all. -/
def BlocksMatch (s : Super) : Prop :=
  (s.bitmapBlocks - 1) * 4096 ≤ bitmapBytes s.totalBlocks ∧
    bitmapBytes s.totalBlocks ≤ s.bitmapBlocks * 4096

variable {fs : Core} {j : Nat}

/-- A chunk that starts past the end of the buffer: `bm_bytes - off` wraps around. -/
theorem chunk_past_end (h : fs.bmBytes < bitmapOff j) :
    fs.bmBytes < bitmapOff j + bitmapChunk fs.bmBytes (bitmapOff j) :=
  h.trans_le (Nat.le_add_right _ _)

theorem BitmapSafe.blocks_le (h : BitmapSafe fs) (hbm : fs.bmBytes < 2 ^ 61) :
    (fs.bitmapBlocks - 1) * 4096 ≤ fs.bmBytes := by
  by_contra hgt
  -- the first block that starts past the end is one of the blocks, and its offset does not wrap
  have hj : fs.bmBytes / 4096 + 1 < fs.bitmapBlocks := by omega
  have hoff : bitmapOff (fs.bmBytes / 4096 + 1) = (fs.bmBytes / 4096 + 1) * 4096 :=
    Nat.mod_eq_of_lt (by omega)
  have hpast : fs.bmBytes < bitmapOff (fs.bmBytes / 4096 + 1) := by omega
  exact absurd (h.inside _ hj) (Nat.not_le.mpr (chunk_past_end hpast))

theorem BitmapSafe.le_blocks (h : BitmapSafe fs) : fs.bmBytes ≤ fs.bitmapBlocks * 4096 := by
  rcases Nat.eq_zero_or_pos fs.bmBytes with hz | hpos
  · omega
  · obtain ⟨j, hj, -, hlt⟩ := h.covered (fs.bmBytes - 1) (by omega)
    have hoff : bitmapOff j ≤ j * 4096 := Nat.mod_le _ _
    have hchunk : bitmapChunk fs.bmBytes (bitmapOff j) ≤ 4096 := Nat.min_le_right _ _
    omega

theorem bitmapSafe_of_match (hstart : fs.bitmapStart = 2) (hpos : fs.bitmapBlocks ≠ 0)
    (hbm : fs.bmBytes < 2 ^ 61) (hlow : (fs.bitmapBlocks - 1) * 4096 ≤ fs.bmBytes)
    (hhigh : fs.bmBytes ≤ fs.bitmapBlocks * 4096) : BitmapSafe fs := by
  have hle : ∀ j < fs.bitmapBlocks, j * 4096 ≤ fs.bmBytes :=
    fun j hj => (Nat.mul_le_mul_right 4096 (Nat.le_sub_one_of_lt hj)).trans hlow
  have hchunk : ∀ j < fs.bitmapBlocks, bitmapOff j = j * 4096 ∧
      bitmapChunk fs.bmBytes (bitmapOff j) = min (fs.bmBytes - j * 4096) 4096 :=
    fun j hj => bitmapChunk_eq (hbm.trans (by decide)) (hle j hj)
  have hfirst : dataFirst fs = fs.bitmapStart + 2 * fs.bitmapBlocks :=
    Nat.mod_eq_of_lt (by omega)
  refine ⟨fun j hj => ?_, fun i hi => ?_, fun parity hp j hj => ?_, hfirst⟩
  · obtain ⟨hoff, hlen⟩ := hchunk j hj
    rw [hlen, hoff]
    exact (Nat.add_le_add_left (Nat.min_le_left _ _) _).trans_eq (Nat.add_sub_cancel' (hle j hj))
  · have hj : i / 4096 < fs.bitmapBlocks := by omega
    obtain ⟨hoff, hlen⟩ := hchunk _ hj
    refine ⟨i / 4096, hj, ?_⟩
    rw [hlen, hoff]
    omega
  · have hmul := Nat.mul_le_mul_right fs.bitmapBlocks (show parity ≤ 1 by omega)
    have hlba : bitmapLba fs parity j = fs.bitmapStart + parity * fs.bitmapBlocks + j :=
      Nat.mod_eq_of_lt (by omega)
    rw [hlba, hfirst]
    omega

/-- **The copies are safe exactly if the block count matches.** -/
theorem bitmapSafe_iff (hstart : fs.bitmapStart = 2) (hpos : fs.bitmapBlocks ≠ 0)
    (hbm : fs.bmBytes < 2 ^ 61) :
    BitmapSafe fs ↔ (fs.bitmapBlocks - 1) * 4096 ≤ fs.bmBytes ∧
      fs.bmBytes ≤ fs.bitmapBlocks * 4096 :=
  ⟨fun h => ⟨h.blocks_le hbm, h.le_blocks⟩,
    fun h => bitmapSafe_of_match hstart hpos hbm h.1 h.2⟩

/-! ## What a mount has checked -/

/-- The handle of a writable mount that took the superblock `b`. -/
structure Accepts (b : Bytes) (fs : Core) : Prop where
  valid : sbValid b = true
  geometry : sbGeometryOk (sbDecode b) = true
  core : fs = { coreOf (sbDecode b) with
    writable := true, committed := fs.committed, bmBytes := bitmapBytes (sbDecode b).totalBlocks }

variable {o : Nat → Bool} {s s' : St} {disk : Nat → Option Bytes} {work : Option Nat}

theorem betterSuper_cases (chosen : Option Bytes) (b : Bytes) :
    betterSuper chosen b = chosen ∨ betterSuper chosen b = some b ∧ sbValid b = true := by
  cases chosen with
  | none =>
    rw [betterSuper_none]
    by_cases hv : sbValid b = true
    · exact .inr ⟨if_pos hv, hv⟩
    · exact .inl (if_neg hv)
  | some c =>
    rw [betterSuper_some]
    by_cases hv : sbValid b = true ∧ (sbDecode c).generation < (sbDecode b).generation
    · exact .inr ⟨if_pos hv, hv.1⟩
    · exact .inl (if_neg hv)

/-- The loop over the slots takes a valid superblock of one of them. -/
theorem pickSuper_takes {slots : List Nat} {chosen : Option Bytes} {r : Except Err (Option Bytes)}
    (h : (pickSuper slots chosen).run gfsMachine o s = some (r, s')) :
    ∃ chosen', r = .ok chosen' ∧ (chosen' = chosen ∨
      ∃ slot ∈ slots, ∃ b, s.disk slot = some b ∧ chosen' = some b ∧ sbValid b = true) := by
  induction slots generalizing chosen o s with
  | nil =>
    cases h
    exact ⟨chosen, rfl, .inl rfl⟩
  | cons slot slots ih =>
    rw [pickSuper] at h
    rcases run_devRead h with hskip | ⟨b, hb, htake⟩
    · obtain ⟨chosen', hr, hc⟩ := ih hskip
      exact ⟨chosen', hr, hc.imp_right fun ⟨slot', hmem, hrest⟩ =>
        ⟨slot', List.mem_cons_of_mem _ hmem, hrest⟩⟩
    · obtain ⟨b', hb', hrest⟩ := run_getBuf htake
      obtain rfl : b = b' := Option.some.inj ((St.setBuf_same s .sb (some b)).symm.trans hb')
      obtain ⟨chosen', hr, hc⟩ := ih hrest
      refine ⟨chosen', hr, ?_⟩
      rcases hc with rfl | ⟨slot', hmem, hslot⟩
      · rcases betterSuper_cases chosen b with hkeep | ⟨hnew, hv⟩
        · exact .inl hkeep
        · exact .inr ⟨slot, List.mem_cons_self, b, hb, hnew, hv⟩
      · exact .inr ⟨slot', List.mem_cons_of_mem _ hmem, hslot⟩

/-- A mount from a chosen superblock that succeeds. -/
theorem mountFrom_accepts {b : Bytes} (hv : sbValid b = true)
    (h : (mountFrom true work (some b)).run gfsMachine o s = some (.ok (), s')) :
    Accepts b s'.core := by
  unfold mountFrom at h
  rw [run_setCore] at h
  by_cases hg : sbGeometryOk (sbDecode b) = false
  · rw [if_pos hg] at h
    cases h
  rw [if_neg hg] at h
  obtain ⟨e, -, he⟩ | ⟨rc, s₁, o₁, -, h₁⟩ := Prog.run_bind h
  · cases he
  cases rc with
  | error e => cases e <;> cases h₁
  | ok u =>
    change ((setCore { coreOf (sbDecode b) with writable := true } >>= _).run gfsMachine o₁ s₁) = _
      at h₁
    rw [run_setCore, if_neg (by decide)] at h₁
    by_cases hw : work.getD 0 < gfsMountWorkSize (sbDecode b).totalBlocks ∨ work = none
    · rw [if_pos hw] at h₁
      cases h₁
    rw [if_neg hw] at h₁
    obtain ⟨e, -, he⟩ | ⟨bm, s₂, o₂, -, h₂⟩ := Prog.run_bind h₁
    · cases he
    rw [run_setCore] at h₂
    by_cases hcrc : crc32c (slice bm 0 (bitmapBytes (sbDecode b).totalBlocks)) ≠ (sbDecode b).bmCrc
    · rw [if_pos hcrc] at h₂
      cases h₂
    rw [if_neg hcrc] at h₂
    cases h₂
    exact ⟨hv, by simpa using hg, rfl⟩

/-- **What a mount has checked**: it took a valid superblock of one of the slots, with a geometry
that `sb_geometry_ok` accepts. -/
theorem mount_accepts (h : (gfsMount true work).run gfsMachine o s = some (.ok (), s')) :
    ∃ slot < 2, ∃ b, s.disk slot = some b ∧ Accepts b s'.core := by
  rw [gfsMount_eq] at h
  obtain ⟨e, -, he⟩ | ⟨chosen, s₁, o₁, hpick, hfrom⟩ := Prog.run_bind h
  · cases he
  obtain ⟨chosen', hc, hpicked⟩ := pickSuper_takes hpick
  cases hc
  rcases hpicked with rfl | ⟨slot, hslot, b, hb, rfl, hv⟩
  · cases hfrom
  · refine ⟨slot, ?_, b, hb, mountFrom_accepts hv hfrom⟩
    rcases List.mem_cons.mp hslot with rfl | hone
    · decide
    · rw [List.mem_singleton.mp hone]
      decide

/-- **The bitmap copies of a mount are safe exactly if the superblock it took has as many bitmap
blocks as its bitmap needs**, whatever reads failed on the way. -/
theorem mount_bitmapSafe_iff
    (h : (gfsMount true work).run gfsMachine o (mountInit disk) = some (.ok (), s')) :
    ∃ slot < 2, ∃ b, disk slot = some b ∧ Accepts b s'.core ∧
      (BitmapSafe s'.core ↔ BlocksMatch (sbDecode b)) := by
  obtain ⟨slot, hslot, b, hb, hacc⟩ := mount_accepts h
  refine ⟨slot, hslot, b, hb, hacc, ?_⟩
  have hgeo := hacc.geometry
  unfold sbGeometryOk at hgeo
  simp only [Bool.and_eq_true, decide_eq_true_eq, beq_iff_eq, bne_iff_ne] at hgeo
  obtain ⟨⟨⟨⟨⟨-, hstart⟩, hpos⟩, -⟩, -⟩, -⟩ := hgeo
  have hbm := bitmapBytes_lt (sbDecode b).totalBlocks
  rw [hacc.core]
  exact bitmapSafe_iff hstart hpos hbm

/-! ## A superblock with too many bitmap blocks -/

/-- Eight blocks, with two blocks for a bitmap of one byte. -/
def longBitmap : Super :=
  ⟨0, 8, 2, 1, 2, 2, crc32c [0], ⟨6, blockCrc zeroBlock⟩, 0, 0⟩

def longDisk : Nat → Option Bytes :=
  fun lba => some (if lba = 0 then sbEncode longBitmap else zeroBlock)

theorem longBitmap_fits : longBitmap.Fits := by
  have hcrc : crc32c [0] < 2 ^ 32 := crc32c_lt _
  have hmap : (⟨6, blockCrc zeroBlock⟩ : Bp).Fits := ⟨by decide, crc32c_lt _⟩
  exact ⟨by decide, by decide, by decide, by decide, by decide, by decide, hcrc, hmap, by decide,
    by decide⟩

theorem copyIn_zeroBlock (off n : Nat) : copyIn zeroBlock off (slice zeroBlock 0 n) = zeroBlock := by
  funext i
  by_cases hi : off ≤ i ∧ i < off + n
  · obtain ⟨k, rfl⟩ := Nat.exists_eq_add_of_le hi.1
    rw [copyIn_of_mem (by rw [slice_length]; omega), slice_getElem]
    rfl
  · rw [copyIn_of_not_mem (by rw [slice_length]; omega)]

/-- A mount reads the two bitmap blocks, both zero. -/
theorem wp_readLong {c : Core} (hd : s.disk = longDisk) (hc : s.core = c) (hb : c.bitmapBlocks = 2)
    (hs : c.bitmapStart = 2) (ht : c.totalBlocks = 8) :
    Wp (readBitmap 1 0) (outcome (fun bm _ => bm = zeroBlock) fun _ s' => s'.failed = true) s := by
  refine wp_getCore ?_
  rw [hc, hb]
  refine (Wp.loop (I := fun _ bm s' => bm = zeroBlock ∧ s'.disk = longDisk ∧ s'.core = c)
    ⟨rfl, hd, hc⟩ ?_).post fun _ _ h => h.1
  rintro j bm s₁ hj ⟨rfl, hd₁, hc₁⟩
  have hlba : bitmapLba c 0 j = 2 + j := by
    unfold bitmapLba
    rw [hs]
    omega
  refine Wp.bind (P := fun _ s' => s' = s₁.setBuf .b (some zeroBlock))
    (wp_bread ?_ ?_ rfl rfl) ?_
  · rw [hc₁, ht, hlba]
    omega
  · rw [hd₁, hlba]
    exact congrArg some (if_neg (by omega))
  · rintro _ s₂ rfl
    exact wp_getBuf (St.setBuf_same _ _ _) (wp_pure ⟨copyIn_zeroBlock _ _, hd₁, hc₁⟩)

theorem exists_longMount : ∃ s', Ran (gfsMount true (some (gfsMountWorkSize 8))) (mountInit longDisk)
    () s' ∧ s'.core.bitmapBlocks = 2 ∧ s'.core.bmBytes = 1 := by
  have hdec := sbDecode_sbEncode longBitmap_fits
  have h0 : (mountInit longDisk).disk 0 = some (sbEncode longBitmap) := rfl
  have h1 : (mountInit longDisk).disk 1 = some zeroBlock := rfl
  obtain ⟨chosen, s₁, hpick, ⟨hd, -, hch⟩, hs₁⟩ :=
    (wp_pickSuper h0 h1).ran rfl fun _ _ he => he.elim
  rw [betterSuper_none, if_pos (sbValid_sbEncode _), betterSuper_some, if_neg, hs₁] at hch
  swap
  · rw [sbValid_zeroBlock]
    exact fun h => nomatch h.1
  obtain rfl : chosen = some (sbEncode longBitmap) := by simpa using hch
  have hmount : Wp (mountFrom true (some (gfsMountWorkSize 8)) (some (sbEncode longBitmap)))
      (outcome (fun _ s' => s'.core.bitmapBlocks = 2 ∧ s'.core.bmBytes = 1)
        fun _ s' => s'.failed = true) s₁ := by
    unfold mountFrom
    dsimp only
    rw [hdec]
    refine wp_setCore ?_
    rw [if_neg (by decide)]
    have hlt : longBitmap.nodemap.phys < (coreOf longBitmap).totalBlocks := by decide
    refine Wp.bind (P := fun rc s' => rc = .ok () ∧
        s' = (s₁.setCore (coreOf longBitmap)).setBuf .map (some zeroBlock) ∨ rc = .error .eio ∧
        s'.failed = true) (Prog.wp_attempt (wp_readMeta hlt ?_ rfl (.inl ⟨rfl, rfl⟩)
          (.inr ⟨rfl, rfl⟩))) ?_
    · show s₁.disk 6 = _
      rw [hd]
      rfl
    rintro rc s₂ (⟨rfl, rfl⟩ | ⟨rfl, hfail⟩)
    swap
    · exact wp_fail hfail
    refine wp_setCore ?_
    rw [if_neg (by decide), if_neg (by decide)]
    refine Wp.bind (wp_readLong hd rfl rfl rfl rfl) ?_
    rintro bm s₃ rfl
    refine wp_setCore ?_
    have hcrc : ¬crc32c (slice zeroBlock 0 (bitmapBytes longBitmap.totalBlocks)) ≠
        longBitmap.bmCrc := not_not.mpr rfl
    rw [if_neg hcrc]
    exact wp_last (wp_setWorking (wp_pure ⟨rfl, rfl⟩))
  obtain ⟨_, s₂, hfrom, ⟨hblocks, hbytes⟩, -⟩ := hmount.ran hs₁ fun _ _ he => he
  exact ⟨s₂, Ran.bind hpick hfrom, hblocks, hbytes⟩

/-- The mount of the device with two bitmap blocks. -/
theorem mount_bitmapSafe_iff_longDisk : ∃ s',
    Ran (gfsMount true (some (gfsMountWorkSize 8))) (mountInit longDisk) () s' ∧
    ∃ slot < 2, ∃ b, longDisk slot = some b ∧ Accepts b s'.core ∧
      (BitmapSafe s'.core ↔ BlocksMatch (sbDecode b)) := by
  obtain ⟨s', hran, -, -⟩ := exists_longMount
  exact ⟨s', hran, mount_bitmapSafe_iff hran⟩

/-- **A mount accepts a superblock with too many bitmap blocks**: the copy of the second one goes
from byte 4096 to byte 8192 of a buffer of one byte. -/
theorem mount_accepts_long_bitmap : ∃ s',
    Ran (gfsMount true (some (gfsMountWorkSize 8))) (mountInit longDisk) () s' ∧
    s'.core.bmBytes = 1 ∧ 1 < s'.core.bitmapBlocks ∧ bitmapOff 1 = 4096 ∧
    bitmapOff 1 + bitmapChunk s'.core.bmBytes (bitmapOff 1) = 8192 ∧ ¬BitmapSafe s'.core := by
  obtain ⟨s', hran, hblocks, hbytes⟩ := exists_longMount
  refine ⟨s', hran, hbytes, by omega, rfl, by rw [hbytes]; decide, fun hsafe => ?_⟩
  have hle := hsafe.blocks_le (by rw [hbytes]; decide)
  omega

end Hallucinate.Gfs
