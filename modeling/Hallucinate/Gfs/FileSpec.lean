import Hallucinate.Gfs.File
import Hallucinate.Gfs.OpSpec

/-!
# What the calls on files do

`gfs_write` and `gfs_truncate` work on the blocks of one file; everything else that the transaction
holds is `R` and is left alone. `Refiled` is the outcome of the part before the record is written: the
record `n'` has the given size and bytes, and its blocks have taken the place of the old ones.

The specs are stated for a live state (`wp_writeLive`, `wp_truncateLive`): of the rest of the tree they
only use that its blocks are marked. For a committed state they give the tree with the new record
(`wp_gfsWrite`, `wp_gfsTruncate`), and `gfs_read` returns a slice of the contents (`wp_gfsRead`).
-/

namespace Hallucinate.Gfs

open Lib Function List

variable {s s₀ : St} {tbl : Nat → Bp} {recs : Nat → DiskNode} {R : Multiset Nat} {k : Nat}
  {Why : Err → Prop} {P : Nat → Nat} {C : Nat → UInt8} {disk : Nat → Option Bytes}

/-! ## The blocks of a changed map -/

variable {lbn np : Nat}

variable {N : Nat}

/-- Changing one entry of a map. -/
theorem mapBlocks_update (hl : lbn < N) (hnp : np ≠ 0) (P : Nat → Nat) :
    (mapBlocks (update P lbn np) 0 N : Multiset Nat) +
      (if P lbn = 0 then 0 else {P lbn}) = np ::ₘ (mapBlocks P 0 N : Multiset Nat) := by
  have hone : ∀ Q : Nat → Nat, (mapBlocks Q lbn 1 : Multiset Nat) =
      if Q lbn = 0 then 0 else {Q lbn} := by
    intro Q
    unfold mapBlocks
    by_cases h : Q lbn = 0
    · simp [h]
    · simp [h]
  have hsplit : ∀ Q : Nat → Nat, (mapBlocks Q 0 N : Multiset Nat) = mapBlocks Q 0 lbn +
      (mapBlocks Q lbn 1 + mapBlocks Q (lbn + 1) (N - lbn - 1)) := by
    intro Q
    conv => lhs; rw [show N = lbn + (1 + (N - lbn - 1)) by omega]
    rw [mapBlocks_add, mapBlocks_add, Nat.zero_add, Multiset.coe_add, Multiset.coe_add]
  have hleft : mapBlocks (update P lbn np) 0 lbn = mapBlocks P 0 lbn :=
    mapBlocks_congr fun i _ hi => update_of_ne (by omega) _ _
  have hright : mapBlocks (update P lbn np) (lbn + 1) (N - lbn - 1) =
      mapBlocks P (lbn + 1) (N - lbn - 1) :=
    mapBlocks_congr fun i hi _ => update_of_ne (by omega) _ _
  rw [hsplit, hsplit P, hleft, hright, hone, hone, update_self, if_neg hnp,
    ← Multiset.singleton_add]
  abel

/-! ## Writing -/

variable {off : Nat} {src : List UInt8}

/-- The bytes that block `lbn` gets in `gfs_write`. -/
theorem writtenBlock {blk : Bytes}
    (hblk : min (off + src.length) (lbn * 4096 + 4096) - max off (lbn * 4096) < 4096 →
      ∀ i < 4096, blk i = C (lbn * 4096 + i)) :
    ∀ i < 4096, copyIn blk (max off (lbn * 4096) - lbn * 4096)
      ((src.drop (max off (lbn * 4096) - off)).take
        (min (off + src.length) (lbn * 4096 + 4096) - max off (lbn * 4096))) i =
      copyIn C off src (lbn * 4096 + i) := by
  intro i hi
  generalize hws : max off (lbn * 4096) = ws at *
  generalize hwe : min (off + src.length) (lbn * 4096 + 4096) = we at *
  have hlen : ((src.drop (ws - off)).take (we - ws)).length = we - ws := by
    rw [length_take, length_drop]
    omega
  by_cases hin : ws ≤ lbn * 4096 + i ∧ lbn * 4096 + i < we
  · -- a byte of the caller
    obtain ⟨j, hj⟩ : ∃ j, i = ws - lbn * 4096 + j := ⟨i - (ws - lbn * 4096), by omega⟩
    have hjlt : j < ((src.drop (ws - off)).take (we - ws)).length := by rw [hlen]; omega
    have hsrc : lbn * 4096 + i - off < src.length := by omega
    rw [hj, copyIn_of_mem hjlt, getElem_take, getElem_drop]
    have hpos : lbn * 4096 + (ws - lbn * 4096 + j) = off + (ws - off + j) := by omega
    rw [hpos, copyIn_of_mem (show ws - off + j < src.length by omega)]
  · rw [copyIn_of_not_mem (by rw [hlen]; omega), copyIn_of_not_mem (by omega)]
    exact hblk (by omega) i hi

/-- A transaction on a file with the map `P`, whose blocks hold the bytes `C`. -/
structure Mapped (s₀ : St) (tbl : Nat → Bp) (recs : Nat → DiskNode) (R : Multiset Nat) (k : Nat)
    (disk : Nat → Option Bytes) (P : Nat → Nat) (C : Nat → UInt8) (s : St) : Prop where
  txn : Txn s₀ tbl recs (mapBlocks P 0 512 + R) k s
  holds : Holds s.disk P C
  frame : ∀ b ∈ R, s.disk b = disk b

/-- The loop of `gfs_write`: the array in memory has the map. -/
structure Writing (s₀ : St) (tbl : Nat → Bp) (recs : Nat → DiskNode) (R : Multiset Nat) (k : Nat)
    (disk : Nat → Option Bytes) (P : Nat → Nat) (C : Nat → UInt8) (s : St) : Prop extends
    Mapped s₀ tbl recs R k disk P C s where
  map : ∃ pm, s.buf .a = some pm ∧ ∀ lbn < 512, pmapGet pm lbn = P lbn

/-- A block of the file is on the device. -/
theorem Mapped.block (h : Mapped s₀ tbl recs R k disk P C s) (hl : lbn < 512) (h0 : P lbn ≠ 0) :
    P lbn < s.core.totalBlocks ∧ ∃ blk, s.disk (P lbn) = some blk ∧
      ∀ i < 4096, blk i = C (lbn * 4096 + i) := by
  have hb := h.holds lbn hl
  rw [if_neg h0] at hb
  have hmem : P lbn ∈ (mapBlocks P 0 512 + R : Multiset Nat) := Multiset.mem_add.mpr (Or.inl
    (Multiset.mem_coe.mpr (mem_mapBlocks.mpr ⟨lbn, Nat.zero_le _, by omega, rfl, h0⟩)))
  refine ⟨?_, hb⟩
  rw [h.txn.safe.core]
  exact (h.txn.range_rest hmem).2

variable {s' : St}

theorem Writing.scratch (h : Writing s₀ tbl recs R k disk P C s) (hs : Scratch s s')
    (ha : s'.buf .a = s.buf .a) : Writing s₀ tbl recs R k disk P C s' :=
  ⟨⟨h.txn.scratch hs, by rw [hs.disk]; exact h.holds, by rw [hs.disk]; exact h.frame⟩,
    by rw [ha]; exact h.map⟩

/-- The contents of a block of the file before it is changed. -/
theorem wp_loadOld {wlen : Nat} (h : Writing s₀ tbl recs R k disk P C s) (hl : lbn < 512) :
    Wp (loadOld (P lbn) wlen) (outcome (fun _ s' => ∃ blk, s'.buf .b = some blk ∧
      (wlen < 4096 → ∀ i < 4096, blk i = C (lbn * 4096 + i)) ∧
      Writing s₀ tbl recs R k disk P C s') (Abort s₀ Why)) s := by
  have hscr : ∀ v, Writing s₀ tbl recs R k disk P C (s.setBuf .b v) := fun v =>
    h.scratch (Scratch.setBuf s (by decide)) (St.setBuf_of_ne (by decide))
  unfold loadOld
  by_cases hc : wlen < 4096 ∧ P lbn ≠ 0
  · rw [if_pos hc]
    obtain ⟨hlt, blk, hblk, hbytes⟩ := h.block hl hc.2
    refine wp_bread hlt hblk ?_ (h.txn.safe.setBuf.abort _)
    exact ⟨blk, St.setBuf_same _ _ _, fun _ => hbytes, hscr _⟩
  · rw [if_neg hc]
    refine wp_last (wp_setBuf (wp_pure ⟨zeroBlock, St.setBuf_same _ _ _, fun hw i hi => ?_, hscr _⟩))
    have h0 : P lbn = 0 := by
      by_contra hne
      exact hc ⟨hw, hne⟩
    have hb := h.holds lbn hl
    rw [if_pos h0] at hb
    exact (hb i hi).symm

/-- Freeing the block that an entry of the map had. -/
theorem wp_freeOld (hl : lbn < 512) (h : Txn s₀ tbl recs (np ::ₘ (mapBlocks P 0 512 + R)) k s) :
    Wp (freeBlock (P lbn)) (outcome (fun _ s' => ∃ w, s' = s.setWorking w ∧
      Txn s₀ tbl recs (mapBlocks (update P lbn np) 0 512 + R) k s') (Abort s₀ Why)) s := by
  have hnp : np ≠ 0 := by
    have := (h.range_rest (Multiset.mem_cons_self _ _)).1
    have := h.data_pos
    omega
  have hup := mapBlocks_update hl hnp P
  by_cases h0 : P lbn = 0
  · rw [if_pos h0, add_zero] at hup
    unfold freeBlock
    rw [if_pos h0]
    obtain ⟨w, hw, -⟩ := h.work
    refine wp_pure ⟨w, ?_, ?_⟩
    · rw [St.setWorking, ← hw]
    · rwa [hup, Multiset.cons_add]
  · rw [if_neg h0] at hup
    have heq : np ::ₘ (mapBlocks P 0 512 + R : Multiset Nat) =
        P lbn ::ₘ (mapBlocks (update P lbn np) 0 512 + R) := by
      rw [← Multiset.cons_add, ← hup, add_right_comm, ← Multiset.singleton_add, add_comm]
    rw [heq] at h
    have hmem := Multiset.mem_cons_self (P lbn)
      ((mapBlocks (update P lbn np) 0 512 : Multiset Nat) + R)
    refine wp_freeBlock h (h.range_rest hmem).1 (h.not_mem_tbl hmem) fun w h' => ?_
    rw [Multiset.erase_cons_head] at h'
    exact ⟨w, rfl, h'⟩

variable {w : Bytes}

/-- **A block of a file is replaced**: a fresh block `np` is written, and the old one is freed. -/
theorem Mapped.replace {d : Bytes} {C' : Nat → UInt8} (h : Mapped s₀ tbl recs R k disk P C s)
    (hl : lbn < 512) (hnew : np ∉ tblBlocks tbl + (mapBlocks P 0 512 + R)) (hnp : np ≠ 0)
    (ht : Txn s₀ tbl recs (mapBlocks (update P lbn np) 0 512 + R) (k + 1)
      ((s.put np d).setWorking w)) (hd : ∀ i < 4096, d i = C' (lbn * 4096 + i))
    (hC : ∀ pos, pos / 4096 ≠ lbn → C' pos = C pos) :
    Mapped s₀ tbl recs R (k + 1) disk (update P lbn np) C' ((s.put np d).setWorking w) := by
  -- the new block is none of those that the map or the rest holds
  have hother : ∀ b ∈ (mapBlocks P 0 512 + R : Multiset Nat), (s.put np d).disk b = s.disk b :=
    fun b hb => St.put_of_ne fun e => hnew (Multiset.mem_add.mpr (Or.inr (e ▸ hb)))
  refine ⟨ht, fun i hi => ?_, fun b hb => ?_⟩
  · have hdiv : ∀ j < 4096, (i * 4096 + j) / 4096 = i := by omega
    by_cases hil : i = lbn
    · subst hil
      rw [update_self, if_neg hnp]
      exact ⟨d, St.put_same _ _ _, hd⟩
    · rw [update_of_ne hil]
      have hold := h.holds i hi
      by_cases hz : P i = 0
      · rw [if_pos hz] at hold ⊢
        intro j hj
        rw [hC _ (by rw [hdiv j hj]; exact hil)]
        exact hold j hj
      · rw [if_neg hz] at hold ⊢
        obtain ⟨b, hb, hbC⟩ := hold
        refine ⟨b, ?_, fun j hj => ?_⟩
        · rw [← hb]
          exact hother _ (Multiset.mem_add.mpr (Or.inl (Multiset.mem_coe.mpr
            (mem_mapBlocks.mpr ⟨i, Nat.zero_le _, by omega, rfl, hz⟩))))
        · rw [hC _ (by rw [hdiv j hj]; exact hil)]
          exact hbC j hj
  · exact (hother b (Multiset.mem_add.mpr (Or.inr hb))).trans (h.frame b hb)

/-- A round of `gfs_write`: block `lbn` is new and holds its part of the new bytes. -/
theorem wp_writeRound {hint : Nat} {C₀ : Nat → UInt8} (h : Writing s₀ tbl recs R k disk P C s)
    (hl : lbn < 512) (hC : ∀ i < 4096, C (lbn * 4096 + i) = C₀ (lbn * 4096 + i))
    (hwhy : s₀.clear ≤ k → Why .enospc) :
    Wp (writeRound off src hint lbn) (outcome (fun _ s' => ∃ np, np ≠ 0 ∧
      bitTest s₀.core.committed np = false ∧
      Writing s₀ tbl recs R (k + 1) disk (update P lbn np)
        (fun pos => if pos / 4096 = lbn then copyIn C₀ off src pos else C pos) s')
      (Abort s₀ Why)) s := by
  obtain ⟨pm, hpm, hget⟩ := h.map
  refine wp_getBuf hpm ?_
  simp only [hget lbn hl]
  refine Wp.bind (wp_loadOld h hl) ?_
  rintro _ s₁ ⟨blk, hblk, hold, h₁⟩
  refine wp_getBuf hblk (wp_setBuf ?_)
  have hbytes := writtenBlock (C := C₀) fun hw i hi => (hold hw i hi).trans (hC i hi)
  generalize copyIn blk (max off (lbn * 4096) - lbn * 4096)
      ((src.drop (max off (lbn * 4096) - off)).take
        (min (off + src.length) (lbn * 4096 + 4096) - max off (lbn * 4096))) = d at hbytes ⊢
  have h₂ : Writing s₀ tbl recs R k disk P C (s₁.setBuf .b (some d)) :=
    h₁.scratch (Scratch.setBuf _ (by decide)) (St.setBuf_of_ne (by decide))
  refine Wp.bind (wp_allocNear h₂.txn hwhy hint) ?_
  rintro np s₃ ⟨h₃, hfresh, hnew, w, rfl⟩
  have hmem := Multiset.mem_cons_self np ((mapBlocks P 0 512 : Multiset Nat) + R)
  have hrange := h₃.range_rest hmem
  have hpos := h₃.data_pos
  have htot := h₃.geom.total
  refine Wp.bind (P := fun _ s' => s' = ((s₁.setBuf .b (some d)).setWorking w).put np d ∧
      Txn s₀ tbl recs (np ::ₘ (mapBlocks P 0 512 + R)) (k + 1) s')
    (wp_bwriteFresh h₃ hmem hfresh (show (s₁.setBuf .b (some d)).buf .b = some d from
      St.setBuf_same _ _ _) (fun h₄ => ⟨rfl, h₄⟩) (h₃.safe.abort _)) ?_
  rintro _ s₄ ⟨rfl, h₄⟩
  refine Wp.bind (wp_freeOld hl h₄) ?_
  rintro _ s₅ ⟨w', rfl, h₅⟩
  obtain ⟨pm', hpm', hget'⟩ := h₂.map
  refine wp_getBuf (show (((s₁.setBuf .b (some d)).setWorking w).put np d |>.setWorking w').buf .a =
    some pm' from hpm') (wp_setBuf (wp_pure ⟨np, by omega, hfresh, ?_⟩))
  have hC' : ∀ i < 4096, d i = if (lbn * 4096 + i) / 4096 = lbn then
      copyIn C₀ off src (lbn * 4096 + i) else C (lbn * 4096 + i) := fun i hi =>
    (hbytes i hi).trans (if_pos (by omega)).symm
  have hmap : Mapped s₀ tbl recs R (k + 1) disk (update P lbn np)
      (fun pos => if pos / 4096 = lbn then copyIn C₀ off src pos else C pos) _ :=
    h₂.toMapped.replace hl hnew (by omega) h₅ hC' fun pos hp => if_neg hp
  refine ⟨⟨hmap.txn.setBuf (by decide), hmap.holds, hmap.frame⟩, _, St.setBuf_same _ _ _,
    fun i hi => ?_⟩
  rw [pmapGet_pmapSet _ (by omega)]
  by_cases hil : i = lbn
  · rw [if_pos hil, hil, update_self]
  · rw [if_neg hil, update_of_ne hil, hget' i hi]

/-- The blocks that a write of `len` bytes at `off` touches. -/
def writeBlocks (off len : Nat) : Nat := (off + len - 1) / 4096 - off / 4096 + 1

/-- **The loop of `gfs_write`**: the bytes are overwritten, and the blocks it touches are new. -/
theorem wp_writeLoop (h : Writing s₀ tbl recs R k disk P C s) (h0 : 0 < src.length)
    (hsize : off + src.length ≤ maxFileSize)
    (hwhy : ∀ i < writeBlocks off src.length, s₀.clear ≤ k + i → Why .enospc) :
    Wp (Prog.foldP (writeRound off src) 0
        (List.range' (off / 4096) (writeBlocks off src.length)))
      (outcome (fun _ s' => ∃ P',
        Writing s₀ tbl recs R (k + writeBlocks off src.length) disk P' (copyIn C off src) s' ∧
        (∀ lbn, lbn < off / 4096 ∨ off / 4096 + writeBlocks off src.length ≤ lbn →
          P' lbn = P lbn) ∧
        ∀ lbn, off / 4096 ≤ lbn → lbn < off / 4096 + writeBlocks off src.length →
          P' lbn ≠ 0 ∧ bitTest s₀.core.committed (P' lbn) = false) (Abort s₀ Why)) s := by
  have hneed : off / 4096 + writeBlocks off src.length = (off + src.length - 1) / 4096 + 1 := by
    unfold writeBlocks
    omega
  refine (Wp.loopFrom (I := fun i _ s' => ∃ P', Writing s₀ tbl recs R (k + i) disk P'
      (fun pos => if off / 4096 ≤ pos / 4096 ∧ pos / 4096 < off / 4096 + i then
        copyIn C off src pos else C pos) s' ∧
      (∀ lbn, lbn < off / 4096 ∨ off / 4096 + i ≤ lbn → P' lbn = P lbn) ∧
      ∀ lbn, off / 4096 ≤ lbn → lbn < off / 4096 + i →
        P' lbn ≠ 0 ∧ bitTest s₀.core.committed (P' lbn) = false) ?_ ?_).post ?_
  · refine ⟨P, ?_, fun _ _ => rfl, fun lbn h1 h2 => absurd h1 (by omega)⟩
    have hC : (fun pos => if off / 4096 ≤ pos / 4096 ∧ pos / 4096 < off / 4096 + 0 then
        copyIn C off src pos else C pos) = C := by
      funext pos
      exact if_neg (by omega)
    rwa [hC]
  · rintro i hint s₁ hi ⟨P₁, h₁, hsame, hfresh⟩
    have hl : off / 4096 + i < 512 := by
      unfold maxFileSize at hsize
      omega
    have hold : ∀ j < 4096, (if off / 4096 ≤ ((off / 4096 + i) * 4096 + j) / 4096 ∧
        ((off / 4096 + i) * 4096 + j) / 4096 < off / 4096 + i then
          copyIn C off src ((off / 4096 + i) * 4096 + j) else C ((off / 4096 + i) * 4096 + j)) =
        C ((off / 4096 + i) * 4096 + j) := fun j hj => if_neg (by omega)
    refine (wp_writeRound h₁ hl hold (hwhy i hi)).post ?_
    rintro hint' s₂ ⟨np, hnp, hnpf, h₂⟩
    refine ⟨update P₁ (off / 4096 + i) np, ?_, fun lbn hlbn => ?_, fun lbn h1 h2 => ?_⟩
    · have hC : (fun pos => if pos / 4096 = off / 4096 + i then copyIn C off src pos
          else if off / 4096 ≤ pos / 4096 ∧ pos / 4096 < off / 4096 + i then copyIn C off src pos
          else C pos) = fun pos => if off / 4096 ≤ pos / 4096 ∧
            pos / 4096 < off / 4096 + (i + 1) then copyIn C off src pos else C pos := by
        funext pos
        by_cases hp : pos / 4096 = off / 4096 + i
        · rw [if_pos hp, if_pos (by omega)]
        · rw [if_neg hp]
          by_cases hc : off / 4096 ≤ pos / 4096 ∧ pos / 4096 < off / 4096 + i
          · rw [if_pos hc, if_pos (by omega)]
          · rw [if_neg hc, if_neg (by omega)]
      rw [← hC]
      exact h₂
    · rw [update_of_ne (by omega)]
      exact hsame lbn (by omega)
    · by_cases hlbn : lbn = off / 4096 + i
      · rw [hlbn, update_self]
        exact ⟨hnp, hnpf⟩
      · rw [update_of_ne hlbn]
        exact hfresh lbn h1 (by omega)
  · rintro _ s' ⟨P', h', hrest⟩
    refine ⟨P', ?_, hrest⟩
    have hC : (fun pos => if off / 4096 ≤ pos / 4096 ∧
        pos / 4096 < off / 4096 + writeBlocks off src.length then copyIn C off src pos
        else C pos) = copyIn C off src := by
      funext pos
      by_cases hc : off / 4096 ≤ pos / 4096 ∧
          pos / 4096 < off / 4096 + writeBlocks off src.length
      · rw [if_pos hc]
      · rw [if_neg hc, copyIn_of_not_mem]
        omega
    rwa [hC] at h'

/-! ## A new file for a record -/

/-- The record `n'` of `n` with the given size and bytes; its blocks have taken the place of the old
ones. -/
structure Refiled (s₀ : St) (tbl : Nat → Bp) (recs : Nat → DiskNode) (R : Multiset Nat) (k : Nat)
    (disk : Nat → Option Bytes) (n : DiskNode) (size : Nat) (C : Nat → UInt8) (n' : DiskNode)
    (s : St) : Prop where
  txn : Txn s₀ tbl recs (extBlocks n' + R) k s
  same : SameNode { n with size := size } n'
  fits : n'.Fits
  file : FileAt s.disk n'
  bytes : ∀ pos < maxFileSize, fileByte s.disk n' pos = C pos
  frame : ∀ b ∈ R, s.disk b = disk b

variable {n n' : DiskNode}

/-- The fields of a record with new extents fit. -/
theorem SameNode.fits (h : SameNode n n') (hn : n.Fits) (h8 : n'.nExtents ≤ 8)
    (hrest : ∀ k : Fin 8, n'.nExtents ≤ k → n'.ext k = n.ext k) (he : ∀ e ∈ n'.exts, e.Fits) :
    n'.Fits := by
  refine ⟨h.type ▸ hn.type, h.mode ▸ hn.mode, h.size ▸ hn.size, h.nlink ▸ hn.nlink, by omega,
    h.edgeCount ▸ hn.edgeCount, h.parent ▸ hn.parent, h.edgeHead ▸ hn.edgeHead, fun k => ?_⟩
  by_cases hk : n'.nExtents ≤ k
  · rw [hrest k hk]
    exact hn.ext k
  · refine he _ (mem_map.mpr ⟨k, mem_range.mpr (by omega), ?_⟩)
    unfold DiskNode.extAt
    rw [dif_pos k.isLt]

/-- Extents whose blocks the transaction holds fit. -/
theorem ExtsOk.fits (h : ExtsOk n.exts N) (hN : N ≤ 512)
    (ht : Txn s₀ tbl recs (extBlocks n + R) k s) : ∀ e ∈ n.exts, e.Fits := by
  intro e he
  have hb := h.bound e he
  have hpos := h.pos e he
  have hmem : e.phys ∈ extBlocks n := mem_extBlocks.mpr ⟨e, he, le_rfl, by omega⟩
  have hlt := (ht.range_rest (Multiset.mem_add.mpr (Or.inl (Multiset.mem_coe.mpr hmem)))).2
  have htot := ht.geom.total
  exact ⟨by omega, by omega, by omega⟩

variable {size : Nat}

/-- **A record with the map of a file has that file.** -/
theorem Mapped.refiled (h : Mapped s₀ tbl recs R k disk P C s) (hn : n.Fits)
    (ht : n.type = nodeData) (hsize : size ≤ maxFileSize) (hsame : SameNode n n')
    (h8 : n'.nExtents ≤ 8) (hrest : ∀ k : Fin 8, n'.nExtents ≤ k → n'.ext k = n.ext k)
    (hok : ExtsOk n'.exts ((size + 4095) / 4096)) (hmap : bmap n' = P)
    (hz : ∀ pos, size ≤ pos → pos < maxFileSize → C pos = 0) :
    Refiled s₀ tbl recs R k disk n size C { n' with size := size } s := by
  have hN := blocksFor_le hsize
  have hbmap : bmap { n' with size := size } = P := hmap
  have hok' : ExtsOk ({ n' with size := size } : DiskNode).exts ((size + 4095) / 4096) := hok
  have hholds : Holds s.disk (bmap { n' with size := size }) C := by
    rw [hbmap]
    exact h.holds
  have htxn : Txn s₀ tbl recs (extBlocks { n' with size := size } + R) k s := by
    rw [(hok'.mono hN).extBlocks_eq, hbmap]
    exact h.txn
  have hsame' : SameNode { n with size := size } { n' with size := size } :=
    ⟨hsame.type, hsame.mode, rfl, hsame.nlink, hsame.edgeCount, hsame.parent, hsame.edgeHead⟩
  have hsize64 : size < 2 ^ 64 := by unfold maxFileSize at hsize; omega
  refine ⟨htxn, hsame', ?_, ?_, fun pos hp => hholds.fileByte hp, h.frame⟩
  · exact hsame'.fits ⟨hn.type, hn.mode, hsize64, hn.nlink, hn.nExtents, hn.edgeCount, hn.parent,
      hn.edgeHead, hn.ext⟩ h8 hrest (hok'.fits hN htxn)
  · exact FileAt.of_holds hok' h8 (hsame.type.trans ht) hsize hholds hz

/-- What a call on the file of node `id` has published: the state `s₁` before the commit has the
record `n'` with the given size and bytes, and the blocks `R` as they were. -/
structure Stored (s : St) (recs : Nat → DiskNode) (R : Multiset Nat) (id size : Nat)
    (C : Nat → UInt8) (n' : DiskNode) (tbl' : Nat → Bp) (s₁ s' : St) : Prop where
  published : Published s tbl' (extBlocks n' + R) 0 s₁ s'
  tables : TableAt s₁.disk tbl' (update recs id n')
  same : SameNode { recs id with size := size } n'
  fits : n'.Fits
  file : FileAt s₁.disk n'
  bytes : ∀ pos < maxFileSize, fileByte s₁.disk n' pos = C pos
  frame : ∀ b ∈ R, s₁.disk b = s.disk b

variable {id : Nat}

variable {β : Type} {Q : β → St → Prop}

/-- Writing the record and committing. -/
theorem wp_store {f : Unit → GfsM β} (hid : id < s₀.core.nodeCount)
    (h : Refiled s₀ tbl recs (s₀.core.nodemap.phys ::ₘ R) k s₀.disk (recs id) size C n' s)
    (hwhy : s₀.clear ≤ k + 1 → Why .enospc)
    (hf : ∀ tbl' s₁ s', Stored s₀ recs R id size C n' tbl' s₁ s' →
      Wp (f ()) (outcome Q (Abort s₀ Why)) s') :
    Wp (nodeWrite id n' >>= fun _ => txnCommit 0 >>= f) (outcome Q (Abort s₀ Why)) s := by
  refine Wp.bind (wp_nodeWrite h.txn hid h.fits fun hle => hwhy (by omega)) ?_
  rintro _ s₁ ⟨tbl', h₁, hframe, -⟩
  have hext : ∀ b ∈ extBlocks n', s₁.disk b = s.disk b := fun b hb =>
    hframe b (Multiset.mem_add.mpr (Or.inl (Multiset.mem_coe.mpr hb)))
  rw [Multiset.add_cons] at h₁
  refine Wp.bind (wp_txnCommit h₁ hwhy) ?_
  intro _ s' hp
  refine hf tbl' s₁ s' ⟨hp, h₁.tables, h.same, h.fits, h.file.congr hext, fun pos hpos => ?_,
    fun b hb => ?_⟩
  · rw [← h.bytes pos hpos]
    unfold fileByte
    split
    · rfl
    · rename_i h0
      rw [hext _ (bmap_mem h0)]
  · have hb' : b ∈ s₀.core.nodemap.phys ::ₘ R := Multiset.mem_cons_of_mem hb
    rw [hframe b (Multiset.mem_add.mpr (Or.inr hb'))]
    exact h.frame b hb'

/-- What `gfs_write` and `gfs_truncate` check. -/
structure FileOk (c : Core) (recs : Nat → DiskNode) (id size : Nat) : Prop where
  size : size ≤ maxFileSize
  idOk : ValidId c id
  data : (recs id).type = nodeData

variable {rest : Multiset Nat}

/-- A transaction that holds what the committed state holds has as many free blocks. -/
theorem Live.clear_eq (h : Live s tbl recs rest) (hm : Marks (dataFirst s.core) s.core.totalBlocks
      (tblBlocks tbl + (s.core.nodemap.phys ::ₘ rest)) w) :
    countClear s.core.totalBlocks w = s.clear := by
  have hfirst := h.geom.first
  have h1 := h.marks.countClear (by omega)
  have h2 := hm.countClear (by omega)
  unfold St.clear
  omega

/-- The part of `gfs_write` and `gfs_truncate` up to the record of the file. -/
theorem wp_openFile {f : DiskNode → GfsM β} (h : Live s tbl recs rest) (hlog : s.log = [])
    (hsize : size ≤ maxFileSize) (hwhy : ∀ e, ¬FileOk s.core recs id size → Why e)
    (hf : ∀ s₁, FileOk s.core recs id size →
      Txn s tbl recs (s.core.nodemap.phys ::ₘ rest) 0 s₁ → s₁.disk = s.disk → s₁.log = s.log →
      Wp (f (recs id)) (outcome Q (Abort s Why)) s₁) :
    Wp (txnBegin >>= fun _ => nodeRead id >>= fun n => if n.type = nodeFree then fail .enoent
      else if n.type ≠ nodeData then fail .eisdir else f n) (outcome Q (Abort s Why)) s := by
  refine Wp.bind (wp_txnBegin h hlog) ?_
  rintro _ s₁ ⟨h₁, hd₁, hl₁⟩
  refine Wp.bind (wp_nodeRead h₁.loaded fun hid => hwhy _ fun hc => hid hc.idOk) ?_
  rintro n s₂ ⟨rfl, hid, hsc⟩
  have h₂ := h₁.scratch hsc
  refine wp_guard (fun hfree => h₂.safe.abort_why (hwhy _ fun hc => ?_)) fun _ => ?_
  · rw [hc.data] at hfree
    cases hfree
  refine wp_guard (fun hdata => h₂.safe.abort_why (hwhy _ fun hc => hdata hc.data)) fun hdata => ?_
  exact hf s₂ ⟨hsize, hid, not_not.mp hdata⟩ h₂ (hsc.disk.trans hd₁) (hsc.log.trans hl₁)

/-- The file of a record. -/
theorem Mapped.load (h : Txn s₀ tbl recs (extBlocks n + R) k s) (hfile : FileAt s.disk n)
    (hframe : ∀ b ∈ R, s.disk b = disk b) :
    Mapped s₀ tbl recs R k disk (bmap n) (fileByte s.disk n) s ∧
      ExtsOk n.exts ((n.size + 4095) / 4096) ∧ ∀ e ∈ n.exts, e.phys + e.len ≤ 2 ^ 64 := by
  have hpos := h.data_pos
  have hmem : ∀ b ∈ extBlocks n, b ≠ 0 ∧ b < s₀.core.totalBlocks := fun b hb => by
    have := h.range_rest (Multiset.mem_add.mpr (Or.inl (Multiset.mem_coe.mpr hb)))
    omega
  have hok := hfile.extsOk fun b hb => (hmem b hb).1
  refine ⟨⟨?_, hfile.holds, hframe⟩, hok, fun e he => ?_⟩
  · rw [← (hok.mono (blocksFor_le hfile.size)).extBlocks_eq]
    exact h
  · have hlen := hok.pos e he
    have hlast := (hmem (e.phys + (e.len - 1)) (mem_extBlocks.mpr ⟨e, he, by omega, by omega⟩)).2
    have := h.geom.total
    omega

/-- The file of a record, unfolded into the array. -/
theorem Writing.load (h : Txn s₀ tbl recs (extBlocks n + R) k s) (hfile : FileAt s.disk n)
    (hframe : ∀ b ∈ R, s.disk b = disk b) :
    Writing s₀ tbl recs R k disk (bmap n) (fileByte s.disk n)
      (s.setBuf .a (some (pmapLoad n))) := by
  obtain ⟨hm, hok, h64⟩ := Mapped.load h hfile hframe
  exact ⟨⟨hm.txn.setBuf (by decide), hm.holds, hm.frame⟩, _, St.setBuf_same _ _ _,
    fun lbn _ => pmapGet_pmapLoad (hok.mono (blocksFor_le hfile.size)) h64 lbn⟩

/-- Past the end of a file there are no blocks. -/
theorem FileAt.bmap_zero (h : FileAt disk n) (hl : (n.size + 4095) / 4096 ≤ lbn) :
    bmap n lbn = 0 := by
  rcases bmap_cases n lbn with ⟨e, he, h1, h2, -⟩ | ⟨h0, -⟩
  · have := h.eof e he
    omega
  · exact h0

/-- The reasons for which `gfs_write` gives up although the device works: a failed check, too few
free blocks, or a file in too many pieces. -/
inductive WriteStops (s : St) (recs : Nat → DiskNode) (id off len : Nat) : Err → Prop
  | check {e : Err} (h : ¬FileOk s.core recs id (off + len)) : WriteStops s recs id off len e
  | space (h : s.clear < writeBlocks off len + 2) : WriteStops s recs id off len .enospc
  | pieces (h : writeBlocks off len + 2 ≤ s.clear)
      (h8 : 8 < (max (recs id).size (off + len) + 4095) / 4096) : WriteStops s recs id off len .efrag

/-- **`gfs_write`**: the file has the new bytes in place of the old ones, in new blocks. -/
theorem wp_writeLive (h : Live s tbl recs (extBlocks (recs id) + R)) (hlog : s.log = [])
    (hfits : (recs id).Fits) (hfile : FileAt s.disk (recs id)) (h0 : 0 < src.length)
    (hwhy : ∀ e, WriteStops s recs id off src.length e → Why e) :
    Wp (gfsWrite id off src) (outcome (fun r s' => r = src.length ∧
      FileOk s.core recs id (off + src.length) ∧ writeBlocks off src.length + 2 ≤ s.clear ∧
      ∃ n' tbl' s₁,
        Stored s recs R id (max (recs id).size (off + src.length))
          (copyIn (fileByte s.disk (recs id)) off src) n' tbl' s₁ s' ∧
        ∀ lbn, off / 4096 ≤ lbn → lbn < off / 4096 + writeBlocks off src.length →
          bmap n' lbn ≠ 0 ∧ bitTest s.core.committed (bmap n' lbn) = false) (Abort s Why)) s := by
  unfold gfsWrite
  rw [if_neg (by omega)]
  refine wp_guard (fun hbig => (Safe.start hlog).abort_why (hwhy _ (.check fun hc => ?_)))
    fun hbig => ?_
  · have := hc.size
    omega
  have hsize : off + src.length ≤ maxFileSize := by omega
  refine wp_openFile h hlog hsize (fun e hn => hwhy e (.check hn)) ?_
  intro s₁ hok h₁ hd₁ hl₁
  rw [← Multiset.add_cons] at h₁
  dsimp only
  refine wp_setBuf ?_
  have hW := Writing.load h₁ (by rw [hd₁]; exact hfile)
    fun b _ => show s₁.disk b = s.disk b by rw [hd₁]
  rw [hd₁] at hW
  obtain ⟨w, hw, hwok⟩ := hW.txn.work
  refine wp_getCore (wp_getWorking hw ?_)
  rw [hW.txn.safe.core]
  have hfree : countClear s.core.totalBlocks w = s.clear := by
    obtain ⟨w', hw', hwok'⟩ := h₁.work
    have hww : w' = w := Option.some.inj (hw'.symm.trans hw)
    subst hww
    rw [Multiset.add_cons] at hwok'
    exact h.clear_eq hwok'.marks
  rw [hfree]
  refine wp_guard (c := s.clear < writeBlocks off src.length + 2) (fun hspace =>
    hW.txn.safe.abort_why (hwhy _ (.space hspace))) fun hspace => ?_
  refine Wp.bind (wp_writeLoop hW h0 hsize fun i hi hle => absurd hle (by omega)) ?_
  rintro _ s₂ ⟨P', h₂, hsame, hnew⟩
  obtain ⟨pm, hpm, hget⟩ := h₂.map
  refine wp_getBuf hpm ?_
  generalize hN : max (recs id).size (off + src.length) = newSize at *
  have hns : newSize ≤ maxFileSize := by have := hfile.size; omega
  have hlast : off / 4096 + writeBlocks off src.length ≤ (newSize + 4095) / 4096 := by
    unfold writeBlocks
    omega
  have hP' : ∀ lbn, (newSize + 4095) / 4096 ≤ lbn → P' lbn = 0 := fun lbn hl => by
    rw [hsame lbn (.inr (by omega))]
    exact hfile.bmap_zero (by omega)
  have hN512 := blocksFor_le hns
  have hget' : ∀ lbn < (newSize + 4095) / 4096, pmapGet pm lbn = P' lbn := fun lbn hl =>
    hget lbn (by omega)
  rcases coalesce_spec (n := recs id) hget' with ⟨n', hn', hf, -⟩ | ⟨he, h8⟩
  · rw [hn']
    have hmap : bmap n' = P' := by
      funext lbn
      refine (hf.map lbn).trans ?_
      by_cases hl : lbn < (newSize + 4095) / 4096
      · exact if_pos hl
      · rw [if_neg hl, hP' lbn (by omega)]
    have hre := h₂.toMapped.refiled hfits hok.data hns hf.same hf.count hf.rest hf.ok hmap
      fun pos hp _ => by
        rw [copyIn_of_not_mem (.inr (by omega))]
        exact hfile.zero_past (by omega)
    refine wp_store hok.idOk.2 hre (fun hle => absurd hle (by omega)) ?_
    intro tbl' s₃ s' hst
    refine wp_pure ⟨rfl, hok, by omega, _, tbl', s₃, hst, fun lbn h1 h2 => ?_⟩
    rw [show bmap { n' with size := newSize } = P' from hmap]
    exact hnew lbn h1 h2
  · rw [he]
    refine wp_fail (h₂.txn.safe.abort_why (hwhy _ (.pieces (by omega) ?_)))
    rw [hN]
    exact h8.trans_le (runStarts_length_le _ _)

/-! ## Truncating -/

/-- The blocks of an optional extent. -/
def optBlocks (e : Option Extent) : List Nat := (e.map Extent.blocks).getD []

/-- The front of an extent and the rest of it. -/
theorem blocks_split (e : Extent) {m : Nat} (hm : m ≤ e.len) :
    e.blocks = ({ e with len := m } : Extent).blocks ++
      (List.range' m (e.len - m)).map (e.phys + ·) := by
  unfold Extent.blocks
  dsimp only
  conv => lhs; rw [show e.len = m + (e.len - m) by omega]
  rw [range_eq_range', ← range'_append_1, map_append, Nat.zero_add,
    range_eq_range']

variable {m : DiskNode}

variable {keep out : Nat} {E : Err → St → Prop}

/-- One extent of the trimming loop: what is past the new end is freed. -/
theorem wp_trimStep {i : Nat} {T D : Multiset Nat} (hT : Trimmed keep n i out m) (hi : i < 8)
    (h : Txn s₀ tbl recs (T + ((n.extAt i).blocks + D)) k s) :
    Wp (trimStep keep (out, m) i) (outcome (fun r s' => Trimmed keep n (i + 1) r.1 r.2 ∧
      (∃ w, s' = s.setWorking w) ∧
      Txn s₀ tbl recs (T + (optBlocks (trimExt keep (n.extAt i)) + D)) k s') E) s := by
  have hmem : ∀ b ∈ (n.extAt i).blocks, dataFirst s₀.core ≤ b ∧ b ∉ tblBlocks tbl := fun b hb => by
    have hb' : b ∈ T + ((n.extAt i).blocks + D) := Multiset.mem_add.mpr (Or.inr
      (Multiset.mem_add.mpr (Or.inl (Multiset.mem_coe.mpr hb))))
    exact ⟨(h.range_rest hb').1, h.not_mem_tbl hb'⟩
  unfold trimStep
  dsimp only
  rw [hT.extAt_eq hT.le]
  generalize he : n.extAt i = e at *
  by_cases h1 : keep ≤ e.logical
  · have hnone : trimExt keep e = none := if_pos h1
    rw [if_pos h1, hnone]
    refine Wp.bind (wp_freeRun h fun j hj => hmem _ (mem_map.mpr ⟨j, hj, rfl⟩)) ?_
    rintro _ s₁ ⟨h₁, w, rfl⟩
    refine wp_pure ⟨hT.skip (by rw [he]; exact hnone), ⟨w, rfl⟩, ?_⟩
    have heq : T + ((e.blocks : Multiset Nat) + D) - ((List.range e.len).map (e.phys + ·) : List Nat)
        = T + (((optBlocks none : List Nat) : Multiset Nat) + D) := by
      rw [add_left_comm]
      exact (add_tsub_cancel_left _ _).trans (by rw [optBlocks]; simp)
    rwa [← heq]
  rw [if_neg h1]
  have hsome : trimExt keep e = some { e with len := min e.len (keep - e.logical) } := if_neg h1
  rw [hsome]
  by_cases h2 : keep < e.logical + e.len
  · rw [if_pos h2]
    have hmin : min e.len (keep - e.logical) = keep - e.logical := by omega
    rw [hmin] at hsome ⊢
    have hsplit := blocks_split e (show keep - e.logical ≤ e.len by omega)
    refine Wp.bind (wp_freeRun h fun j hj => hmem _ ?_) ?_
    · rw [hsplit]
      exact mem_append_right _ (mem_map.mpr ⟨j, hj, rfl⟩)
    rintro _ s₁ ⟨h₁, w, rfl⟩
    refine wp_pure ⟨hT.keep hi (by rw [he]; exact hsome), ⟨w, rfl⟩, ?_⟩
    rw [hsplit, ← Multiset.coe_add, show ∀ A B C : Multiset Nat, T + (A + B + C) = B + (T + (A + C))
      from fun A B C => by abel, add_tsub_cancel_left] at h₁
    exact h₁
  · rw [if_neg h2]
    have hmin : min e.len (keep - e.logical) = e.len := by omega
    rw [hmin] at hsome ⊢
    obtain ⟨w, hw, -⟩ := h.work
    refine wp_pure ⟨hT.keep hi (by rw [he]; exact hsome), ⟨w, ?_⟩, h⟩
    rw [St.setWorking, ← hw]

/-- **The trimming loop.** -/
theorem wp_trimLoop (h8 : n.nExtents ≤ 8) (h : Txn s₀ tbl recs (extBlocks n + R) k s) :
    Wp (Prog.foldP (trimStep keep) (0, n) (List.range n.nExtents))
      (outcome (fun r s' => Trimmed keep n n.nExtents r.1 r.2 ∧ (∃ w, s' = s.setWorking w) ∧
        Txn s₀ tbl recs ((n.exts.filterMap (trimExt keep)).flatMap Extent.blocks + R) k s') E) s := by
  -- the extents before `i` are trimmed, and the others are still whole
  refine (Wp.loop (I := fun i r s' => Trimmed keep n i r.1 r.2 ∧ (∃ w, s' = s.setWorking w) ∧
      Txn s₀ tbl recs ((((List.range i).map n.extAt).filterMap (trimExt keep)).flatMap Extent.blocks +
        (((List.range' i (n.nExtents - i)).map n.extAt).flatMap Extent.blocks + R)) k s')
    ?_ ?_).post ?_
  · obtain ⟨w, hw, -⟩ := h.work
    refine ⟨⟨⟨rfl, rfl, rfl, rfl, rfl, rfl, rfl⟩, le_rfl, rfl, fun _ _ => rfl⟩, ⟨w, ?_⟩, ?_⟩
    · rw [St.setWorking, ← hw]
    · rw [range_zero, map_nil, filterMap_nil, flatMap_nil, Multiset.coe_nil,
        zero_add, Nat.sub_zero, ← range_eq_range']
      exact h
  · rintro i ⟨out, m⟩ s₁ hi ⟨hT, ⟨w, rfl⟩, h₁⟩
    have hcons : List.range' i (n.nExtents - i) = i :: List.range' (i + 1) (n.nExtents - (i + 1)) := by
      rw [show n.nExtents - i = n.nExtents - (i + 1) + 1 by omega, range'_succ]
    rw [hcons, map_cons, flatMap_cons, ← Multiset.coe_add, add_assoc] at h₁
    refine (wp_trimStep hT (by omega) h₁).post ?_
    rintro ⟨out', m'⟩ s₂ ⟨hT', ⟨w', rfl⟩, h₂⟩
    refine ⟨hT', ⟨w', rfl⟩, ?_⟩
    have hlast : (((List.range (i + 1)).map n.extAt).filterMap (trimExt keep)).flatMap Extent.blocks =
        (((List.range i).map n.extAt).filterMap (trimExt keep)).flatMap Extent.blocks ++
          optBlocks (trimExt keep (n.extAt i)) := by
      rw [range_succ, map_append, filterMap_append, flatMap_append,
        map_singleton]
      congr 1
      cases hx : trimExt keep (n.extAt i) with
      | none => rw [filterMap_cons_none hx]; rfl
      | some e =>
        rw [filterMap_cons_some hx, filterMap_nil, flatMap_singleton]
        rfl
    rw [hlast, ← Multiset.coe_add, add_assoc]
    exact h₂
  · rintro ⟨out, m⟩ s' ⟨hT, hw, h'⟩
    refine ⟨hT, hw, ?_⟩
    rw [Nat.sub_self] at h'
    rwa [show ((List.range' n.nExtents 0).map n.extAt).flatMap Extent.blocks = [] from rfl,
      Multiset.coe_nil, zero_add] at h'

/-- The bytes of a file that has been cut off or extended. -/
def cutAt (C : Nat → UInt8) (size : Nat) : Nat → UInt8 := fun pos => if pos < size then C pos else 0

/-- The file after the trimming loop. Its last block may still have bytes past the new end. -/
theorem Mapped.trimmed (h : Mapped s₀ tbl recs R k disk (bmap n) C s) (hok : ExtsOk n.exts 512)
    (hsize : size ≤ maxFileSize) (hT : Trimmed ((size + 4095) / 4096) n n.nExtents out m)
    (ht : Txn s₀ tbl recs ((n.exts.filterMap (trimExt ((size + 4095) / 4096))).flatMap Extent.blocks +
      R) k (s.setWorking w)) : ({ m with nExtents := out } : DiskNode).exts =
        n.exts.filterMap (trimExt ((size + 4095) / 4096)) ∧
      ExtsOk ({ m with nExtents := out } : DiskNode).exts ((size + 4095) / 4096) ∧
      Mapped s₀ tbl recs R k disk (bmap { m with nExtents := out })
        (cutAt C ((size + 4095) / 4096 * 4096)) (s.setWorking w) := by
  have hN := blocksFor_le hsize
  obtain ⟨hexts, hok', hbmap⟩ := hT.done hok
  refine ⟨hexts, hok', ?_, fun lbn hl => ?_, h.frame⟩
  · rw [← (hok'.mono hN).extBlocks_eq]
    unfold extBlocks
    rw [hexts]
    exact ht
  · have hold := h.holds lbn hl
    rw [hbmap lbn]
    unfold cutAt
    by_cases hk : lbn < (size + 4095) / 4096
    · rw [if_pos hk]
      have hpos : ∀ i < 4096, lbn * 4096 + i < (size + 4095) / 4096 * 4096 := by omega
      by_cases hz : bmap n lbn = 0
      · rw [if_pos hz] at hold ⊢
        intro i hi
        rw [if_pos (hpos i hi)]
        exact hold i hi
      · rw [if_neg hz] at hold ⊢
        obtain ⟨blk, hblk, hC⟩ := hold
        refine ⟨blk, hblk, fun i hi => ?_⟩
        rw [if_pos (hpos i hi)]
        exact hC i hi
    · rw [if_neg hk, if_pos rfl]
      intro i hi
      exact if_neg (by omega)

/-- A record `m'` in place of `m` whose file ends at `size`. -/
structure Resized (s₀ : St) (tbl : Nat → Bp) (recs : Nat → DiskNode) (R : Multiset Nat) (k : Nat)
    (disk : Nat → Option Bytes) (m : DiskNode) (size : Nat) (C : Nat → UInt8) (m' : DiskNode)
    (s : St) : Prop where
  same : SameNode m m'
  count : m'.nExtents ≤ 8
  rest : ∀ k : Fin 8, m'.nExtents ≤ k → m'.ext k = m.ext k
  ok : ExtsOk m'.exts ((size + 4095) / 4096)
  mapped : Mapped s₀ tbl recs R k disk (bmap m') (cutAt C size) s

/-- If the last block is whole or a hole, nothing is left to be done. -/
theorem Mapped.cut
    (h : Mapped s₀ tbl recs R k disk (bmap m) (cutAt C ((size + 4095) / 4096 * 4096)) s)
    (hc : size % 4096 = 0 ∨ bmap m (size / 4096) = 0) :
    Mapped s₀ tbl recs R k disk (bmap m) (cutAt C size) s := by
  -- only bytes of the last block are past the end and not cut off
  have hcut : ∀ pos, size % 4096 = 0 ∨ pos / 4096 ≠ size / 4096 →
      cutAt C size pos = cutAt C ((size + 4095) / 4096 * 4096) pos := by
    intro pos hpos
    unfold cutAt
    by_cases h1 : pos < size
    · rw [if_pos h1, if_pos (by omega)]
    · rw [if_neg h1, if_neg (by omega)]
  refine ⟨h.txn, fun lbn hl => ?_, h.frame⟩
  have hold := h.holds lbn hl
  by_cases hz : bmap m lbn = 0
  · rw [if_pos hz] at hold ⊢
    intro i hi
    have hi' := hold i hi
    unfold cutAt at hi' ⊢
    split
    · rename_i hlt
      rwa [if_pos (by omega)] at hi'
    · rfl
  · rw [if_neg hz] at hold ⊢
    obtain ⟨blk, hblk, hC⟩ := hold
    refine ⟨blk, hblk, fun i hi => (hC i hi).trans (hcut _ ?_).symm⟩
    rcases hc with hc | hc
    · exact .inl hc
    · refine .inr fun he => hz ?_
      rw [show lbn = size / 4096 by omega]
      exact hc

theorem wp_zeroTail (h8 : m.nExtents ≤ 8) (hsize : size ≤ maxFileSize)
    (hok : ExtsOk m.exts ((size + 4095) / 4096))
    (h : Mapped s₀ tbl recs R k disk (bmap m) (cutAt C ((size + 4095) / 4096 * 4096)) s)
    (hwhy : s₀.clear ≤ k → Why .enospc) (hfrag : m.nExtents = 8 → Why .efrag) :
    Wp (zeroTail m size) (outcome (fun m' s' => m.nExtents ≤ m'.nExtents ∧
      Resized s₀ tbl recs R (k + 1) disk m size C m' s') (Abort s₀ Why)) s := by
  unfold zeroTail
  dsimp only
  by_cases hc : size % 4096 = 0 ∨ bmap m (size / 4096) = 0
  · rw [if_pos hc]
    have hcut := h.cut hc
    exact wp_pure ⟨le_rfl, ⟨rfl, rfl, rfl, rfl, rfl, rfl, rfl⟩, h8, fun _ _ => rfl, hok,
      hcut.txn.mono (Nat.le_succ k), hcut.holds, hcut.frame⟩
  rw [if_neg hc]
  obtain ⟨htail, h0⟩ := not_or.mp hc
  have hN : (size + 4095) / 4096 = size / 4096 + 1 := by omega
  have hl : size / 4096 < 512 := by unfold maxFileSize at hsize; omega
  rw [hN] at hok h
  obtain ⟨hlt, blk, hblk, hbytes⟩ := h.block hl h0
  refine wp_fetch hlt hblk (h.txn.safe.setBuf.abort _) (wp_setBuf ?_)
  have hd : ∀ i < 4096, fill blk (size % 4096) (4096 - size % 4096) 0 i =
      cutAt C size (size / 4096 * 4096 + i) := by
    intro i hi
    unfold cutAt
    by_cases hin : size % 4096 ≤ i
    · rw [fill_of_mem hin (by omega), if_neg (by omega)]
    · rw [fill_of_not_mem (by omega), hbytes i hi, if_pos (by omega)]
      exact if_pos (by omega)
  generalize fill blk (size % 4096) (4096 - size % 4096) 0 = d at hd ⊢
  have h₁ : Mapped s₀ tbl recs R k disk (bmap m) (cutAt C ((size / 4096 + 1) * 4096))
      ((s.setBuf .b (some blk)).setBuf .b (some d)) :=
    ⟨(h.txn.setBuf (by decide)).setBuf (by decide), h.holds, h.frame⟩
  refine Wp.bind (wp_allocBlock h₁.txn hwhy) ?_
  rintro np s₂ ⟨h₂, hfresh, hnew, w, rfl⟩
  have hmem := Multiset.mem_cons_self np ((mapBlocks (bmap m) 0 512 : Multiset Nat) + R)
  have hnp : np ≠ 0 := by
    have := (h₂.range_rest hmem).1
    have := h₂.data_pos
    omega
  refine Wp.bind (P := fun _ s' => s' =
      (((s.setBuf .b (some blk)).setBuf .b (some d)).setWorking w).put np d ∧
      Txn s₀ tbl recs (np ::ₘ (mapBlocks (bmap m) 0 512 + R)) (k + 1) s')
    (wp_bwriteFresh h₂ hmem hfresh (show ((s.setBuf .b (some blk)).setBuf .b (some d)).buf .b = some d
      from St.setBuf_same _ _ _) (fun h₃ => ⟨rfl, h₃⟩) (h₂.safe.abort _)) ?_
  rintro _ s₃ ⟨rfl, h₃⟩
  refine Wp.bind (wp_freeOld hl h₃) ?_
  rintro _ s₄ ⟨w', rfl, h₄⟩
  have hmapped := h₁.replace hl hnew hnp h₄ hd fun pos hp => by
    unfold cutAt
    by_cases h1 : pos < size
    · rw [if_pos h1, if_pos (by omega)]
    · rw [if_neg h1, if_neg (by omega)]
  have hdone : ∀ m', Repointed m (size / 4096) np m' → m.nExtents ≤ m'.nExtents ∧
      Resized s₀ tbl recs R (k + 1) disk m size C m'
        ((((s.setBuf .b (some blk)).setBuf .b (some d)).setWorking w).put np d |>.setWorking w') := by
    intro m' hm'
    refine ⟨hm'.more, hm'.same, hm'.count, hm'.rest, by rw [hN]; exact hm'.ok, ?_⟩
    rw [hm'.map]
    exact hmapped
  split
  · rename_i h1
    exact wp_pure (hdone _ (Repointed.whole h8 hok h0 hnp h1))
  · rename_i h1
    exact wp_guard (fun hfull => h₄.safe.abort_why (hfrag hfull)) fun hfull =>
      wp_pure (hdone _ (Repointed.split (by omega) hok h0 hnp h1 rfl))

/-- A smaller size: the extents are trimmed, and the last block is rewritten. -/
theorem wp_shrink (h8 : n.nExtents ≤ 8) (hsize : size ≤ maxFileSize) (hok : ExtsOk n.exts 512)
    (h : Mapped s₀ tbl recs R k disk (bmap n) C s) (hwhy : s₀.clear ≤ k → Why .enospc)
    (hfrag : n.nExtents = 8 → Why .efrag) :
    Wp (Prog.foldP (trimStep ((size + 4095) / 4096)) (0, n) (List.range n.nExtents) >>= fun r =>
        zeroTail { r.2 with nExtents := r.1 } size)
      (outcome (fun m' s' => Resized s₀ tbl recs R (k + 1) disk n size C m' s') (Abort s₀ Why)) s := by
  have htxn := h.txn
  rw [← hok.extBlocks_eq] at htxn
  refine Wp.bind (wp_trimLoop h8 htxn) ?_
  rintro ⟨out, m⟩ s₁ ⟨hT, ⟨w, rfl⟩, h₁⟩
  obtain ⟨-, hok', hm⟩ := h.trimmed hok hsize hT h₁
  have hout : out ≤ n.nExtents := hT.le
  refine (wp_zeroTail (hout.trans h8) hsize hok' hm hwhy fun he => hfrag ?_).post ?_
  · have he' : out = 8 := he
    omega
  rintro m' s' ⟨hmore, hr⟩
  have hmore' : out ≤ m'.nExtents := hmore
  have hs := hT.same
  have hs' := hr.same
  refine ⟨⟨hs'.type.trans hs.type, hs'.mode.trans hs.mode, hs'.size.trans hs.size,
    hs'.nlink.trans hs.nlink, hs'.edgeCount.trans hs.edgeCount, hs'.parent.trans hs.parent,
    hs'.edgeHead.trans hs.edgeHead⟩, hr.count, fun k hk => ?_, hr.ok, hr.mapped⟩
  exact (hr.rest k hk).trans (hT.rest k (by omega))

/-- A larger size: no block changes. -/
theorem Resized.grow (h8 : n.nExtents ≤ 8) (hlt : n.size ≤ size)
    (hok : ExtsOk n.exts ((n.size + 4095) / 4096)) (h : Mapped s₀ tbl recs R k disk (bmap n) C s)
    (hz : ∀ pos, n.size ≤ pos → C pos = 0) : Resized s₀ tbl recs R (k + 1) disk n size C n s := by
  have hcut : cutAt C size = C := by
    funext pos
    unfold cutAt
    by_cases hp : pos < size
    · rw [if_pos hp]
    · rw [if_neg hp, hz pos (by omega)]
  refine ⟨⟨rfl, rfl, rfl, rfl, rfl, rfl, rfl⟩, h8, fun _ _ => rfl, hok.mono (by omega), ?_⟩
  rw [hcut]
  exact ⟨h.txn.mono (Nat.le_succ k), h.holds, h.frame⟩

/-- **`gfs_truncate`**: the file is cut off, or extended by zeros. -/
theorem wp_truncateLive (h : Live s tbl recs (extBlocks (recs id) + R)) (hlog : s.log = [])
    (hfits : (recs id).Fits) (hfile : FileAt s.disk (recs id))
    (hwhy : ∀ e, ¬(FileOk s.core recs id size ∧ 3 ≤ s.clear ∧ (recs id).nExtents < 8) → Why e) :
    Wp (gfsTruncate id size) (outcome (fun _ s' => FileOk s.core recs id size ∧
      (size = (recs id).size ∧ Idle s s' ∨ size ≠ (recs id).size ∧ ∃ n' tbl' s₁,
        Stored s recs R id size (cutAt (fileByte s.disk (recs id)) size) n' tbl' s₁ s'))
      (Abort s Why)) s := by
  unfold gfsTruncate
  refine wp_guard (fun hbig => (Safe.start hlog).abort_why (hwhy _ fun hc => ?_)) fun hbig => ?_
  · have := hc.1.size
    omega
  have hsize : size ≤ maxFileSize := by omega
  refine wp_openFile h hlog hsize (fun e hn => hwhy e fun hc => hn hc.1) ?_
  intro s₁ hok h₁ hd₁ hl₁
  by_cases hsame : size = (recs id).size
  · rw [if_pos hsame]
    exact wp_pure ⟨hok, .inl ⟨hsame, h₁.safe.core, hd₁, hl₁⟩⟩
  rw [if_neg hsame]
  rw [← Multiset.add_cons] at h₁
  have hspace : ∀ j, j < 3 → s.clear ≤ j → Why .enospc := fun j hj hle =>
    hwhy _ fun hc => by have := hc.2.1; omega
  obtain ⟨hM, hexts, -⟩ := Mapped.load h₁ (by rw [hd₁]; exact hfile)
    fun b _ => show s₁.disk b = s.disk b by rw [hd₁]
  rw [hd₁] at hM
  refine Wp.bind (P := fun m' s' => Resized s tbl recs (s.core.nodemap.phys ::ₘ R) 1 s.disk (recs id)
    size (fileByte s.disk (recs id)) m' s') ?_ ?_
  · by_cases hlt : size < (recs id).size
    · rw [if_pos hlt]
      exact wp_shrink hfile.count hsize (hexts.mono (blocksFor_le hfile.size)) hM
        (hspace 0 (by decide)) fun h8 => hwhy _ fun hc => by have := hc.2.2; omega
    · rw [if_neg hlt]
      exact wp_pure (Resized.grow hfile.count (by omega) hexts hM fun pos hp => hfile.zero_past hp)
  · intro m' s₂ hr
    have hre := hr.mapped.refiled hfits hok.data hsize hr.same hr.count hr.rest hr.ok rfl
      fun pos hp _ => if_neg (by omega)
    rw [← Prog.bind_pure (txnCommit 0)]
    refine wp_store hok.idOk.2 hre (hspace 2 (by decide)) ?_
    intro tbl' s₃ s' hst
    exact wp_pure ⟨hok, .inr ⟨hsame, _, tbl', s₃, hst⟩⟩

/-! ## Files of a tree -/

variable {V : View} {leak : Multiset Nat}

/-- What a committed state holds, the file of node `id` apart. -/
def View.beside (V : View) (count : Nat) (leak : Multiset Nat) (id : Nat) : Multiset Nat :=
  chainBlocks (V.chain id) + (leak + V.others count id)

theorem View.held_split (V : View) (leak : Multiset Nat) {count : Nat} (hid : id < count) :
    leak + V.held count = extBlocks (V.recs id) + V.beside count leak id := by
  have hsum := Finset.add_sum_erase (Finset.range count)
    (fun i => nodeHeld (V.recs i) (V.chain i)) (Finset.mem_range.mpr hid)
  unfold View.beside View.held View.others
  rw [← hsum]
  unfold nodeHeld
  abel

theorem View.beside_set (V : View) (leak : Multiset Nat) (count id : Nat) (n : DiskNode) :
    (V.set id n (V.chain id)).beside count leak id = V.beside count leak id := by
  unfold View.beside
  rw [View.others_set, View.set_chain_self]

/-- **A stored file is one of the tree.** -/
theorem Stored.commits {tbl' : Nat → Bp} {s₁ : St} (hc : Committed s tbl V leak)
    (hid : ValidId s.core id)
    (h : Stored s V.recs (V.beside s.core.nodeCount leak id) id size C n' tbl' s₁ s') :
    Commits s (V.set id n' (V.chain id)) leak 0 s' ∧ SameNode { V.recs id with size := size } n' ∧
      ∀ pos < maxFileSize, fileByte s'.disk n' pos = C pos := by
  have hrest : extBlocks n' + V.beside s.core.nodeCount leak id =
      leak + (V.set id n' (V.chain id)).held s.core.nodeCount := by
    rw [View.held_split _ leak hid.2, View.beside_set, View.set_recs_self]
  have hpub := h.published
  rw [hrest] at hpub
  have hnode := hc.view.node id
  have hview : ViewAt s₁.disk s.core.nodeCount (V.set id n' (V.chain id)) := by
    refine hc.view.set hid (fun b hb => h.frame b (Multiset.mem_add.mpr (Or.inr
      (Multiset.mem_add.mpr (Or.inr hb))))) ⟨h.fits, ?_, hnode.packed, ?_, h.file⟩
    · rw [h.same.edgeHead]
      exact hnode.chain.congr fun b hb =>
        h.frame b (Multiset.mem_add.mpr (Or.inl (Multiset.mem_coe.mpr hb)))
    · rw [h.same.edgeCount]
      exact hnode.count
  refine ⟨⟨tbl', hpub.committed hc.geom h.tables hview, _, s₁, hpub⟩, h.same, fun pos hp => ?_⟩
  rw [← h.bytes pos hp]
  unfold fileByte
  split
  · rfl
  · rename_i h0
    rw [h.published.frame _ (Multiset.mem_add.mpr (Or.inr (Multiset.mem_add.mpr (Or.inl
      (Multiset.mem_coe.mpr (bmap_mem h0))))))]

section

variable (h : Committed s tbl V leak)
include h

/-- A committed state, with the file of a node apart. -/
theorem Committed.split (id : Nat) : ∃ R, Live s tbl V.recs (extBlocks (V.recs id) + R) ∧
      (ValidId s.core id → R = V.beside s.core.nodeCount leak id) := by
  by_cases hid : id < s.core.nodeCount
  · refine ⟨_, ?_, fun _ => rfl⟩
    rw [← View.held_split V leak hid]
    exact h.toLive
  · refine ⟨leak + V.held s.core.nodeCount, ?_, fun hv => absurd hv.2 hid⟩
    rw [(h.view.outside id (Or.inr (by omega))).1, extBlocks_of_nExtents rfl, Multiset.coe_nil, zero_add]
    exact h.toLive

/-- **`gfs_write`** in a tree. -/
theorem wp_gfsWrite (hlog : s.log = []) (hwhy : ∀ e, ¬(FileOk s.core V.recs id (off + src.length) ∧
      writeBlocks off src.length + 2 ≤ s.clear ∧
      (max (V.recs id).size (off + src.length) + 4095) / 4096 ≤ 8) → Why e) :
    Wp (gfsWrite id off src) (outcome (fun r s' => r = src.length ∧
      (src = [] ∧ Idle s s' ∨ src ≠ [] ∧ FileOk s.core V.recs id (off + src.length) ∧ ∃ n',
        Commits s (V.set id n' (V.chain id)) leak 0 s' ∧
        SameNode { V.recs id with size := max (V.recs id).size (off + src.length) } n' ∧
        ∀ pos < maxFileSize, fileByte s'.disk n' pos =
          copyIn (fileByte s.disk (V.recs id)) off src pos)) (Abort s Why)) s := by
  by_cases h0 : src = []
  · subst h0
    exact wp_pure ⟨rfl, .inl ⟨rfl, rfl, rfl, rfl⟩⟩
  obtain ⟨R, hlive, hR⟩ := h.split id
  refine (wp_writeLive hlive hlog (h.view.node id).fits (h.view.node id).file
    (length_pos_iff.mpr h0) fun e hstop => hwhy e ?_).post ?_
  · rintro ⟨hok, hspace, h8⟩
    cases hstop with
    | check hn => exact hn hok
    | space hlt => omega
    | pieces _ hgt => omega
  rintro r s' ⟨hr, hok, -, n', tbl', s₁, hst, -⟩
  rw [hR hok.idOk] at hst
  exact ⟨hr, .inr ⟨h0, hok, n', hst.commits h hok.idOk⟩⟩

/-- **`gfs_truncate`** in a tree. -/
theorem wp_gfsTruncate (hlog : s.log = [])
    (hwhy : ∀ e, ¬(FileOk s.core V.recs id size ∧ 3 ≤ s.clear ∧ (V.recs id).nExtents < 8) → Why e) :
    Wp (gfsTruncate id size) (outcome (fun _ s' => FileOk s.core V.recs id size ∧
      (size = (V.recs id).size ∧ Idle s s' ∨ size ≠ (V.recs id).size ∧ ∃ n',
        Commits s (V.set id n' (V.chain id)) leak 0 s' ∧ SameNode { V.recs id with size := size } n' ∧
        ∀ pos < maxFileSize, fileByte s'.disk n' pos =
          cutAt (fileByte s.disk (V.recs id)) size pos)) (Abort s Why)) s := by
  obtain ⟨R, hlive, hR⟩ := h.split id
  refine (wp_truncateLive hlive hlog (h.view.node id).fits (h.view.node id).file hwhy).post ?_
  rintro _ s' ⟨hok, ⟨hs, hidle⟩ | ⟨hs, n', tbl', s₁, hst⟩⟩
  · exact ⟨hok, .inl ⟨hs, hidle⟩⟩
  · rw [hR hok.idOk] at hst
    exact ⟨hok, .inr ⟨hs, n', hst.commits h hok.idOk⟩⟩

end

end Hallucinate.Gfs
