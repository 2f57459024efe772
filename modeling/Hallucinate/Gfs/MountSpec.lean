import Hallucinate.Gfs.ReadSpec

/-!
# Mounting a file system

`OnDisk disk c`: the device holds the superblock, the bitmap copy and the node map of the handle `c`.
A committed state is on its disk (`Live.onDisk`), and a mount that takes the superblock of `c` gives
the handle `c` again (`wp_mountFrom`). It takes that superblock if the other slot is not valid or of
a lower generation (`OnDisk.mount`).
-/

namespace Hallucinate.Gfs

open Lib

/-! ## What a mount reads -/

structure OnDisk (disk : Nat → Option Bytes) (c : Core) : Prop where
  geom : Shape c
  super : disk (c.generation % 2) = some (sbEncode (liveSuper c))
  bitmap : ∀ j < c.bitmapBlocks,
    ∃ blk, disk (c.bitmapStart + c.generation % 2 * c.bitmapBlocks + j) = some blk ∧
      slice blk 0 (min (c.bmBytes - j * 4096) 4096) =
        slice c.committed (j * 4096) (min (c.bmBytes - j * 4096) 4096)
  canon : ∀ i, c.bmBytes ≤ i → c.committed i = 0
  map : ∃ m, disk c.nodemap.phys = some m ∧ blockCrc m = c.nodemap.crc
  range : dataFirst c ≤ c.nodemap.phys ∧ c.nodemap.phys < c.totalBlocks
  freeBlocks : c.freeBlocks ≤ c.totalBlocks

variable {s s' : St} {tbl : Nat → Bp} {recs : Nat → DiskNode} {rest : Multiset Nat} {c : Core}
  {disk disk' : Nat → Option Bytes}

theorem countClear_le (hi : Nat) (bm : Bytes) : countClear hi bm ≤ hi :=
  (List.countP_le_length).trans_eq List.length_range

/-- The bytes of a bitmap block. -/
theorem slice_bitmapBlock (h : Shape c) (bm : Bytes) {j : Nat} (hj : j < c.bitmapBlocks) :
    slice (bitmapBlock c.bmBytes bm j) 0 (min (c.bmBytes - j * 4096) 4096) =
      slice bm (j * 4096) (min (c.bmBytes - j * 4096) 4096) := by
  have hcopy := slice_copyIn zeroBlock 0 (slice bm (j * 4096) (min (c.bmBytes - j * 4096) 4096))
  unfold bitmapBlock
  obtain ⟨hoff, hchunk⟩ := h.chunk_eq hj
  rw [hchunk, hoff]
  rwa [slice_length] at hcopy

/-- **A committed state is on its disk.** -/
theorem Live.onDisk (h : Live s tbl recs rest) : OnDisk s.disk s.core := by
  obtain ⟨m, hm, hcrc, -⟩ := h.map
  refine ⟨h.geom.toShape, h.super, fun j hj => ⟨_, h.bitmap j hj, ?_⟩, h.canon, ⟨m, hm, hcrc⟩,
    ?_, ?_⟩
  · exact slice_bitmapBlock h.geom.toShape _ hj
  · exact h.marks.range _ (Multiset.mem_add.mpr (Or.inr (Multiset.mem_cons_self _ _)))
  · rw [h.freeBlocks]
    exact countClear_le _ _

theorem OnDisk.super_fits (h : OnDisk disk c) : (liveSuper c).Fits := by
  obtain ⟨m, -, hcrc⟩ := h.map
  have hg := h.geom
  have ht := hg.fits
  have hn := hg.nodes.2
  have hfirst := hg.first
  have hmap : c.nodemap.Fits := by
    refine ⟨by have := h.range.2; omega, ?_⟩
    rw [← hcrc]
    exact crc32c_lt _
  refine ⟨hg.gen, ?_, ?_, ?_, ?_, ?_, crc32c_lt _, hmap, ?_, hg.freeNodes⟩
  · show c.totalBlocks < 2 ^ 64
    omega
  · show c.nodeCount < 2 ^ 64
    omega
  · show c.rootNode < 2 ^ 64
    rw [hg.root]
    decide
  · show c.bitmapStart < 2 ^ 64
    rw [hg.start]
    decide
  · show c.bitmapBlocks < 2 ^ 64
    rw [hg.dataFirst_eq] at hfirst
    omega
  · show c.freeBlocks < 2 ^ 64
    have := h.freeBlocks
    omega

theorem OnDisk.decode (h : OnDisk disk c) : sbDecode (sbEncode (liveSuper c)) = liveSuper c :=
  sbDecode_sbEncode h.super_fits

theorem OnDisk.geometryOk (h : OnDisk disk c) : sbGeometryOk (liveSuper c) = true := by
  have hg := h.geom
  have hpos := hg.blocks_pos
  have hfirst := hg.first
  have hr := h.range
  have hn := hg.nodes
  have hdata : dataFirst (coreOf (liveSuper c)) = dataFirst c := rfl
  unfold sbGeometryOk
  rw [hdata]
  unfold liveSuper superOf
  simp only [Bool.and_eq_true, decide_eq_true_eq, beq_iff_eq, bne_iff_ne]
  exact ⟨⟨⟨⟨⟨⟨⟨hn.1, hn.2⟩, hg.root⟩, hg.start⟩, by omega⟩, by omega⟩, hr.1⟩, hr.2⟩

/-! ## Mounting from a superblock -/

/-- `gfs_mount` once it has chosen a superblock. -/
def mountFrom (writable : Bool) (work : Option Nat) : Option Bytes → GfsM Unit
  | none => fail .ebadfs
  | some c => do
    let s := sbDecode c
    setCore (coreOf s)
    if sbGeometryOk s = false then fail .ebadfs
    else do
      let rc ← (readMeta s.nodemap .map).attempt
      match rc with
      | .error .ebadcrc => fail .ebadcrc
      | .error _ => fail .ebadfs
      | .ok () => do
        setCore { coreOf s with writable := writable }
        if writable = false then pure ()
        else if work.getD 0 < gfsMountWorkSize s.totalBlocks ∨ work = none then fail .enomem
        else do
          let bmBytes := bitmapBytes s.totalBlocks
          let bm ← readBitmap bmBytes (s.generation % 2)
          setCore { coreOf s with writable := writable, committed := bm, bmBytes := bmBytes }
          if crc32c (slice bm 0 bmBytes) ≠ s.bmCrc then fail .ebadcrc
          else setWorking bm

theorem gfsMount_eq (writable : Bool) (work : Option Nat) :
    gfsMount writable work = pickSuper [0, 1] none >>= mountFrom writable work := rfl

/-- The work buffer is large enough. -/
def Roomy (work : Option Nat) (total : Nat) : Prop :=
  ∃ n, work = some n ∧ gfsMountWorkSize total ≤ n

variable {work : Option Nat}

theorem roomy_iff {total : Nat} :
    Roomy work total ↔ ¬(work.getD 0 < gfsMountWorkSize total ∨ work = none) := by
  unfold Roomy
  cases work with
  | none => simp
  | some n => simp

/-- The first `n` blocks of a bitmap copy. -/
def bitmapUpTo (bmBytes : Nat) (bm : Bytes) (n : Nat) : Bytes :=
  fun i => if i < n * 4096 ∧ i < bmBytes then bm i else 0

theorem bitmapUpTo_succ (bmBytes : Nat) (bm : Bytes) (n : Nat) :
    copyIn (bitmapUpTo bmBytes bm n) (n * 4096)
      (slice bm (n * 4096) (min (bmBytes - n * 4096) 4096)) = bitmapUpTo bmBytes bm (n + 1) := by
  funext i
  by_cases hin : n * 4096 ≤ i ∧ i < n * 4096 + min (bmBytes - n * 4096) 4096
  · obtain ⟨k, rfl⟩ := Nat.exists_eq_add_of_le hin.1
    have hk : k < min (bmBytes - n * 4096) 4096 := by omega
    rw [copyIn_of_mem (by rw [slice_length]; exact hk), slice_getElem]
    unfold bitmapUpTo
    rw [if_pos (by omega)]
  · rw [copyIn_of_not_mem (by rw [slice_length]; omega)]
    unfold bitmapUpTo
    rw [Nat.add_one_mul]
    by_cases hlt : i < n * 4096 ∧ i < bmBytes
    · rw [if_pos hlt, if_pos ⟨by omega, hlt.2⟩]
    · rw [if_neg hlt, if_neg]
      rintro ⟨h1, h2⟩
      omega

theorem wp_readBitmap {c' : Core} (h : OnDisk disk c) (hd : s.disk = disk) (hc : s.core = c')
    (ht : c'.totalBlocks = c.totalBlocks) (hs : c'.bitmapStart = c.bitmapStart)
    (hb : c'.bitmapBlocks = c.bitmapBlocks) :
    Wp (readBitmap c.bmBytes (c.generation % 2)) (outcome (fun bm s' => bm = c.committed ∧
      s'.disk = s.disk ∧ s'.core = c' ∧ s'.log = s.log) (fun _ s' => s'.failed = true)) s := by
  have hg := h.geom
  have hfirst := hg.first
  have hstart := hg.start
  have hmul := Nat.mul_le_mul_right c.bitmapBlocks (show c.generation % 2 ≤ 1 by omega)
  refine wp_getCore ?_
  rw [hc, hb]
  refine (Wp.loop (I := fun n bm s' => bm = bitmapUpTo c.bmBytes c.committed n ∧
      s'.disk = s.disk ∧ s'.core = s.core ∧ s'.log = s.log) ⟨?_, rfl, rfl, rfl⟩ ?_).post ?_
  · funext i
    unfold bitmapUpTo
    rw [if_neg (by omega)]
    rfl
  · rintro j bm s₁ hj ⟨rfl, hd₁, hc₁, hl₁⟩
    obtain ⟨blk, hblk, hbytes⟩ := h.bitmap j hj
    obtain ⟨hoff, hchunk⟩ := hg.chunk_eq hj
    have hlba : bitmapLba c' (c.generation % 2) j =
        c.bitmapStart + c.generation % 2 * c.bitmapBlocks + j := by
      rw [← hg.bitmapLba_eq _ hj, bitmapLba, bitmapLba, hs, hb]
    rw [hlba, hchunk, hoff]
    refine Wp.bind (P := fun _ s' => s' = s₁.setBuf .b (some blk))
      (wp_bread ?_ (by rw [hd₁, hd]; exact hblk) rfl rfl) ?_
    · rw [hc₁, hc, ht]
      rw [hg.dataFirst_eq] at hfirst
      omega
    rintro _ s₂ rfl
    refine wp_getBuf (St.setBuf_same _ _ _) (wp_pure ⟨?_, hd₁, hc₁, hl₁⟩)
    rw [hbytes]
    exact bitmapUpTo_succ _ _ _
  · rintro bm s₁ ⟨rfl, hrest⟩
    refine ⟨?_, hrest.1, hrest.2.1.trans hc, hrest.2.2⟩
    funext i
    unfold bitmapUpTo
    have hsize : c.bmBytes ≤ c.bitmapBlocks * 4096 := by
      rw [hg.blocks, hg.bytes]
      unfold bitmapBlocksFor
      omega
    by_cases hi : i < c.bmBytes
    · rw [if_pos (by omega)]
    · rw [if_neg (by omega), h.canon i (by omega)]

/-- The handle that a superblock of `c` leads to. -/
theorem OnDisk.core_eq (h : OnDisk disk c) :
    { coreOf (liveSuper c) with writable := true, committed := c.committed, bmBytes := c.bmBytes } =
      c := by
  have hw := h.geom.writable
  obtain ⟨w, g, t, n, r, bs, bb, nm, fb, fn, cm, bm⟩ := c
  cases hw
  rfl

/-- **A mount gives the handle back.** -/
theorem wp_mountFrom (h : OnDisk disk c) (hd : s.disk = disk) :
    Wp (mountFrom true work (some (sbEncode (liveSuper c)))) (outcome (fun _ s' => s'.core = c ∧
      s'.disk = disk ∧ s'.log = s.log) fun _ s' => s'.failed = true ∨ ¬Roomy work c.totalBlocks) s := by
  have htotal : (liveSuper c).totalBlocks = c.totalBlocks := rfl
  unfold mountFrom
  dsimp only
  rw [h.decode, htotal]
  refine wp_setCore ?_
  rw [if_neg (by rw [h.geometryOk]; decide)]
  obtain ⟨m, hm, hcrc⟩ := h.map
  refine Wp.bind (P := fun rc s' => rc = .ok () ∧
      s' = (s.setCore (coreOf (liveSuper c))).setBuf .map (some m) ∨ rc = .error .eio ∧
      s'.failed = true) (Prog.wp_attempt (wp_readMeta h.range.2 (by rw [← hd] at hm; exact hm) hcrc
        (Or.inl ⟨rfl, rfl⟩) (Or.inr ⟨rfl, rfl⟩))) ?_
  rintro rc s₁ (⟨rfl, rfl⟩ | ⟨rfl, hfail⟩)
  swap
  · exact wp_fail (Or.inl hfail)
  refine wp_setCore ?_
  rw [if_neg (by decide)]
  by_cases hw : Roomy work c.totalBlocks
  swap
  · rw [if_pos (not_not.mp fun hn => hw (roomy_iff.mpr hn))]
    exact wp_fail (Or.inr hw)
  rw [if_neg (roomy_iff.mp hw)]
  rw [← h.geom.bytes]
  refine Wp.bind (P := fun bm s' => bm = c.committed ∧ s'.disk = s.disk ∧ s'.log = s.log)
    (Wp.mono (wp_readBitmap h hd rfl rfl rfl rfl) (fun _ _ hp => ⟨hp.1, hp.2.1, hp.2.2.2⟩)
      fun _ _ he => Or.inl he) ?_
  rintro bm s₂ ⟨rfl, hd₂, hl₂⟩
  refine wp_setCore ?_
  have hcrc' : ¬crc32c (slice c.committed 0 c.bmBytes) ≠ (liveSuper c).bmCrc := not_not.mpr rfl
  rw [if_neg hcrc']
  refine wp_last (wp_setWorking (wp_pure ⟨h.core_eq, ?_, ?_⟩))
  · exact hd₂.trans hd
  · exact hl₂

/-! ## The choice of a superblock -/

theorem sbValid_zeroBlock : sbValid zeroBlock = false := by
  have hmagic : (0 == sbMagicValue) = false := by decide
  unfold sbValid
  rw [rd_zeroBlock, hmagic, Bool.false_and, Bool.false_and, Bool.false_and]

theorem betterSuper_none (b : Bytes) : betterSuper none b = if sbValid b then some b else none := rfl

theorem betterSuper_some (b b' : Bytes) : betterSuper (some b) b' =
    if sbValid b' ∧ (sbDecode b).generation < (sbDecode b').generation then some b' else some b := rfl

variable {b₀ b₁ : Bytes}

/-- The choice between two slots: a block that is not valid, or of a lower generation, loses. -/
theorem betterSuper_live (h : OnDisk disk c)
    (hlive : (if c.generation % 2 = 0 then b₀ else b₁) = sbEncode (liveSuper c))
    (hother : sbValid (if c.generation % 2 = 0 then b₁ else b₀) = true →
      (sbDecode (if c.generation % 2 = 0 then b₁ else b₀)).generation < c.generation) :
    betterSuper (betterSuper none b₀) b₁ = some (sbEncode (liveSuper c)) := by
  have hgen : (sbDecode (sbEncode (liveSuper c))).generation = c.generation := by
    rw [h.decode]
    rfl
  have hvalid := sbValid_sbEncode (liveSuper c)
  by_cases hpar : c.generation % 2 = 0
  · rw [if_pos hpar] at hlive hother
    subst hlive
    rw [betterSuper_none, if_pos hvalid, betterSuper_some, if_neg]
    rintro ⟨hv, hlt⟩
    have := hother hv
    omega
  · rw [if_neg hpar] at hlive hother
    subst hlive
    rw [betterSuper_none]
    by_cases hv : sbValid b₀ = true
    · rw [if_pos hv, betterSuper_some, if_pos ⟨hvalid, by rw [hgen]; exact hother hv⟩]
    · rw [if_neg hv, betterSuper_none, if_pos hvalid]

/-- The loop over the slots: without a failed read it makes the choice of `betterSuper`. -/
theorem wp_pickSuper (h0 : s.disk 0 = some b₀) (h1 : s.disk 1 = some b₁) :
    Wp (pickSuper [0, 1] none) (outcome (fun chosen s' => s'.disk = s.disk ∧ s'.log = s.log ∧
      (chosen = betterSuper (betterSuper none b₀) b₁ ∨ s'.failed = true ∧
        (chosen = none ∨ chosen = some b₀ ∨ chosen = some b₁))) fun _ _ => False) s := by
  have hone : ∀ b : Bytes, betterSuper none b = none ∨ betterSuper none b = some b := by
    intro b
    rw [betterSuper_none]
    split <;> simp
  intro f₀ _
  cases f₀ with
  | false =>
    refine ⟨true, s.setBuf .sb (some b₀), by simp only [gfsMachine, h0]; rfl, ?_⟩
    refine wp_getBuf (St.setBuf_same _ _ _) ?_
    intro f₁ _
    cases f₁ with
    | false =>
      refine ⟨true, (s.setBuf .sb (some b₀)).setBuf .sb (some b₁), ?_, ?_⟩
      · simp only [gfsMachine, St.setBuf_disk, h1]
        rfl
      · exact wp_getBuf (St.setBuf_same _ _ _) (wp_pure ⟨rfl, rfl, Or.inl rfl⟩)
    | true =>
      refine ⟨false, _, rfl, wp_pure ⟨rfl, rfl, Or.inr ⟨rfl, ?_⟩⟩⟩
      rcases hone b₀ with h | h
      · exact Or.inl h
      · exact Or.inr (Or.inl h)
  | true =>
    refine ⟨false, _, rfl, ?_⟩
    intro f₁ _
    cases f₁ with
    | false =>
      refine ⟨true, ((s.setBuf .sb none).fault).setBuf .sb (some b₁), ?_, ?_⟩
      · show ((s.disk 1).map fun blk => _) = _
        rw [h1]
        rfl
      · refine wp_getBuf (St.setBuf_same _ _ _) (wp_pure ⟨rfl, rfl, Or.inr ⟨rfl, ?_⟩⟩)
        rcases hone b₁ with h | h
        · exact Or.inl h
        · exact Or.inr (Or.inr h)
    | true => exact ⟨false, _, rfl, wp_pure ⟨rfl, rfl, Or.inr ⟨rfl, Or.inl rfl⟩⟩⟩

/-- **A mount takes the generation of `c`** and gives its handle back, if the other slot is not valid
or of a lower generation. -/
theorem OnDisk.mount {other : Bytes} (h : OnDisk s.disk c) (hs : s.failed = false)
    (hother : s.disk ((c.generation + 1) % 2) = some other)
    (hlow : sbValid other = true → (sbDecode other).generation < c.generation)
    (hroom : Roomy work c.totalBlocks) :
    ∃ s', Ran (gfsMount true work) s () s' ∧ s'.core = c ∧ s'.disk = s.disk ∧ s'.log = s.log := by
  have hsuper := h.super
  obtain ⟨b₀, b₁, h0, h1, hlive, hoth⟩ : ∃ b₀ b₁, s.disk 0 = some b₀ ∧ s.disk 1 = some b₁ ∧
      (if c.generation % 2 = 0 then b₀ else b₁) = sbEncode (liveSuper c) ∧
      (if c.generation % 2 = 0 then b₁ else b₀) = other := by
    by_cases hpar : c.generation % 2 = 0
    · rw [show (c.generation + 1) % 2 = 1 by omega] at hother
      rw [hpar] at hsuper
      exact ⟨_, _, hsuper, hother, if_pos hpar, if_pos hpar⟩
    · rw [show (c.generation + 1) % 2 = 0 by omega] at hother
      rw [show c.generation % 2 = 1 by omega] at hsuper
      exact ⟨_, _, hother, hsuper, if_neg hpar, if_neg hpar⟩
  have hbest := betterSuper_live h hlive (by rw [hoth]; exact hlow)
  obtain ⟨chosen, s₁, hpick, ⟨hd, hl, hch⟩, hs₁⟩ :=
    (wp_pickSuper h0 h1).ran hs fun _ _ he => he.elim
  rw [hs₁, hbest] at hch
  obtain rfl : chosen = some (sbEncode (liveSuper c)) := by simpa using hch
  obtain ⟨_, s₂, hfrom, ⟨hc, hd₂, hl₂⟩, -⟩ := (wp_mountFrom h hd).ran hs₁ fun _ _ he =>
    he.resolve_right (not_not.mpr hroom)
  exact ⟨s₂, Ran.bind hpick hfrom, hc, hd₂, hl₂.trans hl⟩

end Hallucinate.Gfs
