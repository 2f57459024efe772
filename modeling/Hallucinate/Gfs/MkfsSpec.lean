import Hallucinate.Gfs.MountSpec

/-!
# Making a file system

`gfs_mkfs` writes a node table with the root, a node map, two copies of the bitmap and two
superblocks (`wp_gfsMkfs`). On the device it leaves, generation 0 and generation 1 are committed
states with the same tree: an empty root (`Formatted.committed`). A writable mount gives one of the
two (`wp_mountFormatted`), generation 1 unless a device read fails.
-/

namespace Hallucinate.Gfs

open Lib Multiset

/-! ## The first tree -/

/-- The first block of the data area: the node map of a new file system. -/
def firstMapPhys (total : Nat) : Nat := 2 + 2 * bitmapBlocksFor total

/-- The blocks in use on a new file system. -/
def firstUsed (total : Nat) : Nat := firstMapPhys total + 2

def firstTable : Bytes := nodeEncode zeroBlock 256 rootRecord

def firstTbl (total : Nat) : Nat → Bp := fun slot =>
  if slot = 0 then ⟨firstMapPhys total + 1, blockCrc firstTable⟩ else ⟨0, 0⟩

def firstMap (total : Nat) : Bytes :=
  writeFields zeroBlock 0 [⟨0, 8, firstMapPhys total + 1⟩, ⟨8, 4, blockCrc firstTable⟩]

/-- The bitmap that the blocks of either copy hold. -/
def firstBitmap (total : Nat) : Bytes := fun i =>
  if i < bitmapBytes total then mkfsBitmapBlock total (firstUsed total) (i / 4096) (i % 4096) else 0

/-- The number of node ids, clamped. -/
def clampNodes (nodes : Nat) : Nat := min (max nodes 2) 4096

/-- The handle of generation `gen` on a new file system. -/
def firstCore (total nodes gen : Nat) : Core where
  writable := true
  generation := gen
  totalBlocks := total
  nodeCount := clampNodes nodes
  rootNode := 1
  bitmapStart := 2
  bitmapBlocks := bitmapBlocksFor total
  nodemap := ⟨firstMapPhys total, blockCrc (firstMap total)⟩
  freeBlocks := total - firstUsed total
  freeNodes := clampNodes nodes - 2
  committed := firstBitmap total
  bmBytes := bitmapBytes total

/-- An empty root and nothing else. -/
def firstView : View where
  recs := fun id => if id = 1 then rootRecord else zeroNode
  chain := fun _ => []

/-- What `gfs_mkfs` leaves on the device. -/
structure Formatted (total nodes : Nat) (disk : Nat → Option Bytes) : Prop where
  size : firstUsed total ≤ total
  table : disk (firstMapPhys total + 1) = some firstTable
  map : disk (firstMapPhys total) = some (firstMap total)
  bitmap : ∀ copy < 2, ∀ j < bitmapBlocksFor total, disk (2 + copy * bitmapBlocksFor total + j) =
    some (mkfsBitmapBlock total (firstUsed total) j)
  super : ∀ gen < 2, disk gen = some (sbEncode (liveSuper (firstCore total nodes gen)))

/-! ## The bitmap -/

section Bitmap

variable {total used : Nat}

/-- Setting the entries of a list that meet a condition. -/
theorem bitTest_foldl_bitSet (p : Nat → Prop) [DecidablePred p] (l : List Nat) (bm : Bytes) (b : Nat) :
    bitTest (l.foldl (fun bm i => if p i then bitSet bm i else bm) bm) b =
      (decide (b ∈ l ∧ p b) || bitTest bm b) := by
  induction l generalizing bm with
  | nil => simp
  | cons i l ih =>
    rw [List.foldl_cons, ih]
    by_cases hp : p i
    · rw [if_pos hp, bitTest_bitSet]
      by_cases hb : b = i
      · subst hb
        simp [hp]
      · simp [hb]
    · rw [if_neg hp]
      by_cases hb : b = i
      · subst hb
        simp [hp]
      · simp [hb]

/-- A byte with no such entry keeps its value. -/
theorem foldl_bitSet_of_forall (p : Nat → Prop) [DecidablePred p] {l : List Nat} {k : Nat}
    (h : ∀ i ∈ l, p i → i / 8 ≠ k) (bm : Bytes) :
    l.foldl (fun bm i => if p i then bitSet bm i else bm) bm k = bm k := by
  induction l generalizing bm with
  | nil => rfl
  | cons i l ih =>
    rw [List.foldl_cons, ih fun j hj => h j (List.mem_cons_of_mem _ hj)]
    split
    · rename_i hp
      exact bitSet_of_ne (h i List.mem_cons_self hp).symm
    · rfl

theorem bitTest_mkfsBitmapBlock {j bit : Nat} (hb : bit < 32768) :
    bitTest (mkfsBitmapBlock total used j) bit =
      decide (j * 32768 + bit < total ∧ j * 32768 + bit < used) := by
  unfold mkfsBitmapBlock
  rw [bitTest_foldl_bitSet fun bit => j * 32768 + bit < total ∧ j * 32768 + bit < used]
  have hz : bitTest zeroBlock bit = false := by
    unfold bitTest zeroBlock
    simp
  rw [hz, Bool.or_false]
  exact decide_eq_decide.mpr ⟨fun h => h.2, fun h => ⟨List.mem_range.mpr hb, h⟩⟩

theorem mkfsBitmapBlock_zero {j i : Nat} (ht : total + 7 < 2 ^ 64)
    (hi : 4096 ≤ i ∨ bitmapBytes total ≤ j * 4096 + i) : mkfsBitmapBlock total used j i = 0 := by
  unfold mkfsBitmapBlock
  rw [foldl_bitSet_of_forall fun bit => j * 32768 + bit < total ∧ j * 32768 + bit < used]
  · rfl
  · intro bit hbit hp
    have := List.mem_range.mp hbit
    unfold bitmapBytes at hi
    rw [Nat.mod_eq_of_lt ht] at hi
    omega

/-- The blocks of the first bitmap are those of its copies on the device. -/
theorem bitmapBlock_firstBitmap (ht : total + 7 < 2 ^ 64) {j : Nat}
    (hj : j < bitmapBlocksFor total) : bitmapBlock (bitmapBytes total) (firstBitmap total) j =
      mkfsBitmapBlock total (firstUsed total) j := by
  have hlt := bitmapBytes_lt total
  obtain ⟨hoff, hchunk⟩ := bitmapChunk_eq (hlt.trans (by decide)) (le_bitmapBytes hj)
  funext i
  unfold bitmapBlock
  rw [hchunk, hoff]
  by_cases hi : i < min (bitmapBytes total - j * 4096) 4096
  · rw [show i = 0 + i by omega, copyIn_of_mem (by rw [slice_length]; exact hi), slice_getElem,
      Nat.zero_add]
    unfold firstBitmap
    rw [if_pos (by omega), show (j * 4096 + i) / 4096 = j by omega,
      show (j * 4096 + i) % 4096 = i by omega]
  · rw [copyIn_of_not_mem (by rw [slice_length]; omega), mkfsBitmapBlock_zero ht (by omega)]
    rfl

theorem bitTest_firstBitmap (ht : total + 7 < 2 ^ 64) {b : Nat} (hb : b < total) :
    bitTest (firstBitmap total) b = decide (b < firstUsed total) := by
  have hbyte : b / 8 < bitmapBytes total := by
    unfold bitmapBytes
    rw [Nat.mod_eq_of_lt ht]
    omega
  have hbit : bitTest (mkfsBitmapBlock total (firstUsed total) (b / 8 / 4096)) (b % 32768) = _ :=
    bitTest_mkfsBitmapBlock (by omega)
  unfold bitTest at hbit ⊢
  unfold firstBitmap
  rw [if_pos hbyte]
  rw [show b % 32768 / 8 = b / 8 % 4096 by omega, show b % 32768 % 8 = b % 8 by omega,
    show b / 8 / 4096 * 32768 + b % 32768 = b by omega] at hbit
  rw [hbit]
  exact decide_eq_decide.mpr ⟨fun h => h.2, fun h => ⟨hb, h⟩⟩

/-- The running checksum of the blocks is that of the bitmap so far. -/
theorem crc_firstBitmap (total : Nat) (running : UInt32) (j : Nat) :
    crc32cUpdate (crc32cUpdate running (slice (firstBitmap total) 0 (min (j * 4096) (bitmapBytes total))))
      (slice (mkfsBitmapBlock total (firstUsed total) j) 0 (min (bitmapBytes total - j * 4096) 4096)) =
    crc32cUpdate running (slice (firstBitmap total) 0 (min ((j + 1) * 4096) (bitmapBytes total))) := by
  rw [← crc32cUpdate_append]
  congr 1
  by_cases hj : j * 4096 ≤ bitmapBytes total
  · have hsum : min ((j + 1) * 4096) (bitmapBytes total) =
        min (j * 4096) (bitmapBytes total) + min (bitmapBytes total - j * 4096) 4096 := by omega
    rw [hsum, slice_add, List.append_right_inj]
    apply List.ext_getElem
    · rw [slice_length, slice_length]
    · intro i h1 h2
      rw [slice_length] at h1
      rw [slice_getElem, slice_getElem]
      unfold firstBitmap
      have hpos : 0 + min (j * 4096) (bitmapBytes total) + i = j * 4096 + i := by omega
      rw [hpos, if_pos (by omega), show (j * 4096 + i) / 4096 = j by omega,
        show (j * 4096 + i) % 4096 = i by omega, Nat.zero_add]
  · rw [show min (bitmapBytes total - j * 4096) 4096 = 0 by omega, slice_zero, List.append_nil,
      show min (j * 4096) (bitmapBytes total) = bitmapBytes total by omega,
      show min ((j + 1) * 4096) (bitmapBytes total) = bitmapBytes total by omega]

end Bitmap

/-! ## `gfs_mkfs` -/

variable {s : St} {total nodes : Nat}

theorem wp_writeOrEio {lba : Nat} {data : Bytes} {Q : Except Err Unit → St → Prop}
    (hok : Q (.ok ()) (s.put lba data)) (herr : Q (.error .eio) s.fault) :
    Wp (writeOrEio lba data) Q s := by
  intro f _
  cases f with
  | false => exact ⟨true, _, rfl, hok⟩
  | true => exact ⟨false, _, rfl, herr⟩

/-- One copy of the bitmap. -/
theorem wp_mkfsBitmap {copy : Nat} :
    Wp (mkfsBitmap total (firstUsed total) copy) (outcome (fun crc s' =>
      crc = crc32c (slice (firstBitmap total) 0 (bitmapBytes total)) ∧
      (∀ j < bitmapBlocksFor total, s'.disk (2 + copy * bitmapBlocksFor total + j) =
        some (mkfsBitmapBlock total (firstUsed total) j)) ∧
      ∀ b, (b < 2 + copy * bitmapBlocksFor total ∨
        2 + copy * bitmapBlocksFor total + bitmapBlocksFor total ≤ b) → s'.disk b = s.disk b)
      fun _ s' => s'.failed = true) s := by
  have hsize : bitmapBytes total ≤ bitmapBlocksFor total * 4096 := by
    unfold bitmapBlocksFor
    omega
  unfold mkfsBitmap
  refine Wp.bind (Wp.loop (I := fun n running s' =>
      running = crc32cUpdate 0xFFFFFFFF (slice (firstBitmap total) 0 (min (n * 4096) (bitmapBytes total)))
      ∧ (∀ j < n, s'.disk (2 + copy * bitmapBlocksFor total + j) =
        some (mkfsBitmapBlock total (firstUsed total) j)) ∧
      ∀ b, (b < 2 + copy * bitmapBlocksFor total ∨
        2 + copy * bitmapBlocksFor total + n ≤ b) → s'.disk b = s.disk b)
    ⟨by simp [crc32cUpdate], by simp, fun _ _ => rfl⟩ ?_) ?_
  · rintro j running s₁ hj ⟨rfl, hdone, hframe⟩
    refine Wp.bind (P := fun _ s' => s' = s₁.put (2 + copy * bitmapBlocksFor total + j)
      (mkfsBitmapBlock total (firstUsed total) j)) (wp_writeOrEio rfl rfl) ?_
    rintro _ s₂ rfl
    refine wp_pure ⟨crc_firstBitmap total _ j, fun i hi => ?_, fun b hb => ?_⟩
    · by_cases hij : i = j
      · rw [hij, St.put_same]
      · rw [St.put_of_ne (by omega)]
        exact hdone i (by omega)
    · rw [St.put_of_ne (by omega)]
      exact hframe b (by omega)
  · rintro running s₁ ⟨rfl, hdone, hframe⟩
    refine wp_pure ⟨?_, hdone, hframe⟩
    rw [Nat.min_eq_right hsize]
    unfold crc32c
    rfl

/-- **`gfs_mkfs`** fails only for a device that is too small, or with the device. -/
theorem wp_gfsMkfs :
    Wp (gfsMkfs total nodes) (outcome (fun _ s' => Formatted total nodes s'.disk)
      fun _ s' => s'.failed = true ∨ total < firstUsed total) s := by
  unfold gfsMkfs
  dsimp only
  change Wp (if total < firstUsed total then fail .einval else
    writeOrEio (firstMapPhys total + 1) firstTable >>= fun _ =>
    writeOrEio (firstMapPhys total) (firstMap total) >>= fun _ =>
    mkfsBitmap total (firstUsed total) 0 >>= fun _ =>
    mkfsBitmap total (firstUsed total) 1 >>= fun bmCrc =>
    writeOrEio 0 (sbEncode ⟨0, total, clampNodes nodes, 1, 2, bitmapBlocksFor total, bmCrc,
      ⟨firstMapPhys total, blockCrc (firstMap total)⟩, total - firstUsed total,
      clampNodes nodes - 2⟩) >>= fun _ =>
    writeOrEio 1 (sbEncode ⟨1, total, clampNodes nodes, 1, 2, bitmapBlocksFor total, bmCrc,
      ⟨firstMapPhys total, blockCrc (firstMap total)⟩, total - firstUsed total,
      clampNodes nodes - 2⟩)) _ s
  by_cases hsmall : total < firstUsed total
  · rw [if_pos hsmall]
    exact wp_fail (Or.inr hsmall)
  rw [if_neg hsmall]
  refine Wp.bind (P := fun _ s' => s' = _) (wp_writeOrEio rfl (Or.inl rfl)) ?_
  rintro _ s₁ rfl
  refine Wp.bind (P := fun _ s' => s' = _) (wp_writeOrEio rfl (Or.inl rfl)) ?_
  rintro _ s₂ rfl
  refine Wp.bind (wp_mkfsBitmap.mono (fun _ _ hp => hp) fun _ _ he => Or.inl he) ?_
  rintro crc₀ s₃ ⟨-, hbm₀, hframe₀⟩
  refine Wp.bind (wp_mkfsBitmap.mono (fun _ _ hp => hp) fun _ _ he => Or.inl he) ?_
  rintro crc₁ s₄ ⟨rfl, hbm₁, hframe₁⟩
  refine Wp.bind (P := fun _ s' => s' = _) (wp_writeOrEio rfl (Or.inl rfl)) ?_
  rintro _ s₅ rfl
  refine wp_writeOrEio ?_ (Or.inl rfl)
  have hkeep : ∀ b, firstMapPhys total ≤ b → s₄.disk b =
      ((s.put (firstMapPhys total + 1) firstTable).put (firstMapPhys total) (firstMap total)).disk b := by
    intro b hb
    unfold firstMapPhys at hb
    rw [hframe₁ b (by omega), hframe₀ b (by omega)]
  have hmap : 2 ≤ firstMapPhys total := by unfold firstMapPhys; omega
  refine ⟨by omega, ?_, ?_, fun copy hcopy j hj => ?_, fun gen hgen => ?_⟩
  · rw [St.put_of_ne (by omega), St.put_of_ne (by omega), hkeep _ (by omega),
      St.put_of_ne (by omega), St.put_same]
  · rw [St.put_of_ne (by omega), St.put_of_ne (by omega), hkeep _ (by omega), St.put_same]
  · rw [St.put_of_ne (by omega), St.put_of_ne (by omega)]
    obtain rfl | rfl : copy = 0 ∨ copy = 1 := by omega
    · rw [hframe₁ _ (by omega), hbm₀ j hj]
    · rw [hbm₁ j hj]
  · obtain rfl | rfl : gen = 0 ∨ gen = 1 := by omega
    · rw [St.put_of_ne (by omega), St.put_same]
      rfl
    · rw [St.put_same]
      rfl

/-! ## The first committed state -/

theorem rootRecord_fits : rootRecord.Fits := by
  have hz := zeroNode_fits
  exact ⟨by decide, hz.mode, hz.size, hz.nlink, hz.nExtents, hz.edgeCount, by decide, hz.edgeHead,
    hz.ext⟩

theorem firstView_at (disk : Nat → Option Bytes) {count : Nat} (hc : 2 ≤ count) :
    ViewAt disk count firstView := by
  refine ⟨fun id => ?_, fun id hid => ⟨if_neg (by omega), rfl⟩⟩
  show NodeAt disk (if id = 1 then rootRecord else zeroNode) []
  split
  · exact ⟨rootRecord_fits, rfl, trivial, rfl, FileAt.of_nExtents rfl (Nat.zero_le _)⟩
  · exact zeroNode_at disk

theorem firstView_held (count : Nat) : firstView.held count = 0 := by
  refine Finset.sum_eq_zero fun id _ => ?_
  show nodeHeld (if id = 1 then rootRecord else zeroNode) [] = 0
  unfold nodeHeld
  split
  · rw [extBlocks_of_nExtents rfl]
    rfl
  · rw [extBlocks_of_nExtents rfl]
    rfl

theorem tblBlocks_firstTbl (total : Nat) : tblBlocks (firstTbl total) = {firstMapPhys total + 1} := by
  unfold tblBlocks
  rw [Finset.sum_eq_single 0]
  · rfl
  · intro slot _ h0
    unfold firstTbl
    rw [if_neg h0]
    rfl
  · intro h
    exact absurd (Finset.mem_range.mpr (by decide)) h

theorem mapGet_firstMap (h : firstMapPhys total + 1 < 2 ^ 64) (slot : Nat) :
    mapGet (firstMap total) slot = firstTbl total slot := by
  unfold firstTbl
  by_cases h0 : slot = 0
  · subst h0
    have hdisj : ([⟨0, 8, firstMapPhys total + 1⟩, ⟨8, 4, blockCrc firstTable⟩] :
        List Field).Pairwise Field.Disjoint := by
      simp [Field.Disjoint]
    have hcrc : blockCrc firstTable < 256 ^ 4 := crc32c_lt _
    have h1 : rd (firstMap total) (0 + 0) 8 = firstMapPhys total + 1 :=
      rd_writeFields hdisj (by simp) h
    have h2 : rd (firstMap total) (0 + 8) 4 = blockCrc firstTable :=
      rd_writeFields hdisj (by simp) hcrc
    rw [if_pos rfl]
    unfold mapGet
    rw [Nat.zero_mul, h1, h2]
  · rw [if_neg h0, ← mapGet_zeroBlock slot]
    unfold mapGet firstMap
    rw [rd_writeFields_of_disjoint, rd_writeFields_of_disjoint]
    all_goals
      intro f hf
      simp only [List.mem_cons, List.not_mem_nil, or_false] at hf
      rcases hf with rfl | rfl <;> simp only <;> omega

theorem firstTable_decode (k : Nat) :
    nodeDecode firstTable (k * 256) = if k = 1 then rootRecord else zeroNode := by
  unfold firstTable
  by_cases hk : k = 1
  · subst hk
    rw [if_pos rfl, Nat.one_mul, nodeDecode_nodeEncode _ _ rootRecord_fits]
  · rw [if_neg hk, ← nodeDecode_zeroBlock (k * 256)]
    exact nodeDecode_congr fun i h1 h2 => nodeEncode_of_not_mem (by omega)

/-- The node tables of a new file system. -/
theorem Formatted.tables {disk : Nat → Option Bytes} (h : Formatted total nodes disk) :
    TableAt disk (firstTbl total) firstView.recs := by
  intro slot hslot
  by_cases h0 : slot = 0
  · subst h0
    have hphys : (firstTbl total 0).phys ≠ 0 := Nat.succ_ne_zero _
    rw [if_neg hphys]
    refine ⟨firstTable, h.table, rfl, fun k _ => ?_⟩
    rw [firstTable_decode, Nat.zero_mul, Nat.zero_add]
    rfl
  · have hbp : firstTbl total slot = ⟨0, 0⟩ := if_neg h0
    rw [hbp, if_pos rfl]
    intro k hk
    exact if_neg (by omega)

/-- **Either generation of a new file system is a committed state** with an empty root. -/
theorem Formatted.committed {gen : Nat} (ht : total + 7 < 2 ^ 64)
    (h : Formatted total nodes s.disk) (hg : gen < 2) (hc : s.core = firstCore total nodes gen) :
    Committed s (firstTbl total) firstView 0 := by
  have hsize := h.size
  have hfirst : dataFirst (firstCore total nodes gen) = firstMapPhys total := by
    unfold firstUsed at hsize
    exact Nat.mod_eq_of_lt (by show firstMapPhys total < 2 ^ 64; omega)
  have hused : firstUsed total = firstMapPhys total + 2 := rfl
  have hmarks : Marks (firstMapPhys total) total (tblBlocks (firstTbl total) +
      (firstMapPhys total ::ₘ (0 + firstView.held (clampNodes nodes)))) (firstBitmap total) := by
    rw [firstView_held, tblBlocks_firstTbl]
    refine ⟨by simp, fun b hb => ?_, fun b hb => ?_⟩
    · simp only [add_zero, cons_zero, mem_add, mem_singleton] at hb
      omega
    · rw [bitTest_firstBitmap ht hb]
      simp only [add_zero, cons_zero, mem_add, mem_singleton,
        decide_eq_true_eq]
      omega
  have hclear := hmarks.countClear (by omega)
  rw [firstView_held, tblBlocks_firstTbl] at hclear
  simp only [add_zero, cons_zero, card_add, card_singleton] at hclear
  have hnodes : 2 ≤ clampNodes nodes ∧ clampNodes nodes ≤ 4096 := by
    unfold clampNodes
    omega
  refine ⟨⟨?_, ?_, h.tables, ?_, ?_, ?_, ?_, ?_⟩, ?_⟩
  · rw [hc]
    refine ⟨⟨rfl, Nat.lt_of_le_of_lt (Nat.le_add_right _ 7) ht, rfl, rfl, rfl, ?_, hnodes, rfl, ?_,
      ?_⟩, ht⟩
    · rw [hfirst]
      show firstMapPhys total + 2 ≤ total
      omega
    · show gen < 2 ^ 64
      omega
    · show clampNodes nodes - 2 < 2 ^ 64
      omega
  · rw [hc]
    exact ⟨firstMap total, h.map, rfl, fun slot _ => mapGet_firstMap (by omega) slot⟩
  · rw [hc, hfirst]
    exact hmarks
  · rw [hc]
    intro i hi
    exact if_neg (Nat.not_lt.mpr hi)
  · rw [hc]
    intro j hj
    show s.disk (2 + gen % 2 * bitmapBlocksFor total + j) =
      some (bitmapBlock (bitmapBytes total) (firstBitmap total) j)
    rw [bitmapBlock_firstBitmap ht hj, Nat.mod_eq_of_lt hg]
    exact h.bitmap gen hg j hj
  · rw [hc]
    show s.disk (gen % 2) = _
    rw [Nat.mod_eq_of_lt hg]
    exact h.super gen hg
  · rw [St.clear, hc]
    show total - firstUsed total = countClear total (firstBitmap total)
    omega
  · rw [hc]
    exact firstView_at _ hnodes.1

/-- **A writable mount of a new file system** gives one of its two generations. -/
theorem wp_mountFormatted {work : Option Nat} (ht : total + 7 < 2 ^ 64)
    (h : Formatted total nodes s.disk) :
    Wp (gfsMount true work) (outcome (fun _ s' => (∃ gen < 2, s'.core = firstCore total nodes gen) ∧
      s'.disk = s.disk ∧ s'.log = s.log) fun _ s' => s'.failed = true ∨ ¬Roomy work total) s := by
  have hon : ∀ gen < 2, OnDisk s.disk (firstCore total nodes gen) := fun gen hg =>
    (h.committed (s := { s with core := firstCore total nodes gen }) ht hg rfl).toLive.onDisk
  rw [gfsMount_eq]
  refine Prog.wp_seq (wp_pickSuper (h.super 0 (by decide)) (h.super 1 (by decide)))
    (fun _ _ he => he.elim) ?_
  rintro chosen s₁ ⟨hd, hl, hch⟩
  have hbest : betterSuper (betterSuper none (sbEncode (liveSuper (firstCore total nodes 0))))
      (sbEncode (liveSuper (firstCore total nodes 1))) =
        some (sbEncode (liveSuper (firstCore total nodes 1))) := by
    have h1 : ¬(firstCore total nodes 1).generation % 2 = 0 := Nat.one_ne_zero
    refine betterSuper_live (hon 1 (by decide)) (if_neg h1) fun _ => ?_
    rw [if_neg h1, (hon 0 (by decide)).decode]
    exact Nat.zero_lt_one
  -- whichever superblock was taken, its generation is mounted
  have hfrom : ∀ gen < 2, Wp (mountFrom true work (some (sbEncode
      (liveSuper (firstCore total nodes gen))))) (outcome (fun _ s' =>
        (∃ gen < 2, s'.core = firstCore total nodes gen) ∧ s'.disk = s.disk ∧ s'.log = s.log)
        fun _ s' => s'.failed = true ∨ ¬Roomy work total) s₁ := fun gen hg =>
    (wp_mountFrom (hon gen hg) hd).post fun _ s' hp => ⟨⟨gen, hg, hp.1⟩, hp.2.1, hp.2.2.trans hl⟩
  rcases hch with hch | ⟨hfail, hch | hch | hch⟩
  · rw [hch, hbest]
    exact hfrom 1 (by decide)
  · rw [hch]
    exact wp_fail (Or.inl hfail)
  · rw [hch]
    exact hfrom 0 (by decide)
  · rw [hch]
    exact hfrom 1 (by decide)

end Hallucinate.Gfs
