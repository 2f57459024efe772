import Hallucinate.Gfs.View

/-!
# Block maps and contents of files

A file is a map from logical to physical blocks, 0 for a hole, with a size. On disk the map is a list
of extents (`bmap`); `gfs_write` unfolds it into an array of 512 entries (`pmapLoad`), changes
entries and folds it up again (`coalesce`).

Results: on extents in order, unfolding gives `bmap` (`pmapGet_pmapLoad`) and the blocks of the map,
in order, are the blocks of the extents (`mapBlocks_extFind`); folding up a map gives extents in order
with that map, one for each maximal run (`coalesce_spec`), and fails just if there are more than eight.

`Holds disk P C` says that the blocks of the map `P` hold the bytes `C`; `content` are the bytes of a
file on the device.
-/

namespace Hallucinate.Gfs

open Lib Function List

/-! ## Lists of extents -/

/-- `bmap` on a list of extents. -/
def extFind (es : List Extent) (lbn : Nat) : Nat :=
  match es.find? fun e => e.logical ≤ lbn ∧ lbn < e.logical + e.len with
  | some e => e.phys + (lbn - e.logical)
  | none => 0

theorem bmap_eq (n : DiskNode) : bmap n = extFind n.exts := rfl

/-- Extents in order, none of them empty, that end by `N`. -/
structure ExtsOk (es : List Extent) (N : Nat) : Prop where
  pos : ∀ e ∈ es, 0 < e.len
  sorted : es.Pairwise fun e e' => e.logical + e.len ≤ e'.logical
  bound : ∀ e ∈ es, e.logical + e.len ≤ N
  phys : ∀ e ∈ es, e.phys ≠ 0

theorem extFind_cons (e : Extent) (es : List Extent) (lbn : Nat) :
    extFind (e :: es) lbn =
      if e.logical ≤ lbn ∧ lbn < e.logical + e.len then e.phys + (lbn - e.logical)
      else extFind es lbn := by
  unfold extFind
  by_cases h : e.logical ≤ lbn ∧ lbn < e.logical + e.len
  · rw [find?_cons_of_pos (by simpa using h), if_pos h]
  · rw [find?_cons_of_neg (by simpa using h), if_neg h]

/-- No extent covers the block. -/
theorem extFind_eq_zero {es : List Extent} {lbn : Nat}
    (h : ∀ e ∈ es, lbn < e.logical ∨ e.logical + e.len ≤ lbn) : extFind es lbn = 0 := by
  induction es with
  | nil => rfl
  | cons e es ih =>
    have he := h e mem_cons_self
    rw [extFind_cons, if_neg (by omega)]
    exact ih fun e' he' => h e' (mem_cons_of_mem _ he')

theorem extFind_snoc (es : List Extent) (e : Extent) (lbn : Nat)
    (h : ∀ e' ∈ es, e'.logical + e'.len ≤ e.logical) :
    extFind (es ++ [e]) lbn =
      if e.logical ≤ lbn ∧ lbn < e.logical + e.len then e.phys + (lbn - e.logical)
      else extFind es lbn := by
  induction es with
  | nil => exact extFind_cons e [] lbn
  | cons e' es ih =>
    have he' := h e' mem_cons_self
    rw [cons_append, extFind_cons, ih fun x hx => h x (mem_cons_of_mem _ hx), extFind_cons]
    by_cases h1 : e'.logical ≤ lbn ∧ lbn < e'.logical + e'.len
    · rw [if_pos h1, if_pos h1, if_neg (by omega)]
    · rw [if_neg h1, if_neg h1]

/-- The blocks of a map, over the `n` logical blocks from `a` on. -/
def mapBlocks (P : Nat → Nat) (a n : Nat) : List Nat := ((List.range' a n).map P).filter (· ≠ 0)

theorem mapBlocks_add (P : Nat → Nat) (a m n : Nat) :
    mapBlocks P a (m + n) = mapBlocks P a m ++ mapBlocks P (a + m) n := by
  unfold mapBlocks
  rw [← range'_append_1, map_append, filter_append]

variable {P : Nat → Nat} {a : Nat}

theorem mapBlocks_zero {n : Nat} (h : ∀ i, a ≤ i → i < a + n → P i = 0) : mapBlocks P a n = [] := by
  refine filter_eq_nil_iff.mpr fun x hx => ?_
  obtain ⟨i, hi, rfl⟩ := mem_map.mp hx
  obtain ⟨h1, h2⟩ := mem_range'_1.mp hi
  simp [h i h1 h2]

theorem mapBlocks_congr {P' : Nat → Nat} {n : Nat} (h : ∀ i, a ≤ i → i < a + n → P i = P' i) :
    mapBlocks P a n = mapBlocks P' a n := by
  unfold mapBlocks
  congr 1
  refine map_congr_left fun i hi => ?_
  obtain ⟨h1, h2⟩ := mem_range'_1.mp hi
  exact h i h1 h2

theorem mem_mapBlocks {n b : Nat} :
    b ∈ mapBlocks P a n ↔ ∃ i, a ≤ i ∧ i < a + n ∧ P i = b ∧ b ≠ 0 := by
  unfold mapBlocks
  simp only [mem_filter, mem_map, mem_range'_1, decide_eq_true_eq]
  constructor
  · rintro ⟨⟨i, ⟨h1, h2⟩, h3⟩, h4⟩
    exact ⟨i, h1, h2, h3, h4⟩
  · rintro ⟨i, h1, h2, h3, h4⟩
    exact ⟨⟨i, ⟨h1, h2⟩, h3⟩, h4⟩

variable {e : Extent}

/-- A map of one run of blocks. -/
theorem mapBlocks_run (h0 : e.phys ≠ 0) (h : ∀ j < e.len, P (e.logical + j) = e.phys + j) :
    mapBlocks P e.logical e.len = e.blocks := by
  have hmap : (List.range' e.logical e.len).map P = e.blocks := by
    unfold Extent.blocks
    rw [range'_eq_map_range, map_map]
    refine map_congr_left fun j hj => ?_
    exact h j (mem_range.mp hj)
  unfold mapBlocks
  rw [hmap]
  refine filter_eq_self.mpr fun b hb => ?_
  have := (mem_extentBlocks.mp hb).1
  simp
  omega

variable {N : Nat}

/-- **The blocks of a map are those of its extents**, in the same order. -/
theorem mapBlocks_extFind {es : List Extent} (h : ExtsOk es N) :
    mapBlocks (extFind es) 0 N = es.flatMap Extent.blocks := by
  -- the extents still to come start at `a` or later
  have hgen : ∀ (es : List Extent) (a : Nat), ExtsOk es N → a ≤ N → (∀ e ∈ es, a ≤ e.logical) →
      mapBlocks (extFind es) a (N - a) = es.flatMap Extent.blocks := by
    intro es
    induction es with
    | nil => exact fun a _ _ _ => mapBlocks_zero fun _ _ _ => rfl
    | cons e es ih =>
      intro a hok ha hge
      obtain ⟨hlater, hsorted⟩ := pairwise_cons.mp hok.sorted
      have hae := hge e mem_cons_self
      have hbound := hok.bound e mem_cons_self
      have hsplit : N - a = (e.logical - a) + (e.len + (N - (e.logical + e.len))) := by omega
      rw [hsplit, mapBlocks_add, mapBlocks_add, show a + (e.logical - a) = e.logical by omega,
        flatMap_cons]
      have hfront : mapBlocks (extFind (e :: es)) a (e.logical - a) = [] := by
        refine mapBlocks_zero fun i _ hi => extFind_eq_zero fun e' he' => ?_
        rcases mem_cons.mp he' with rfl | he'
        · exact .inl (by omega)
        · have := hlater e' he'
          exact .inl (by omega)
      have hrun : mapBlocks (extFind (e :: es)) e.logical e.len = e.blocks := by
        refine mapBlocks_run (hok.phys e mem_cons_self) fun j hj => ?_
        rw [extFind_cons, if_pos (by omega)]
        omega
      have hback : mapBlocks (extFind (e :: es)) (e.logical + e.len) (N - (e.logical + e.len)) =
          es.flatMap Extent.blocks := by
        rw [← ih (e.logical + e.len) ⟨fun x hx => hok.pos x (mem_cons_of_mem _ hx), hsorted,
          fun x hx => hok.bound x (mem_cons_of_mem _ hx),
          fun x hx => hok.phys x (mem_cons_of_mem _ hx)⟩ hbound hlater]
        refine mapBlocks_congr fun i hi _ => ?_
        rw [extFind_cons, if_neg (by omega)]
      rw [hfront, hrun, hback, nil_append]
  have := hgen es 0 h (Nat.zero_le _) fun _ _ => Nat.zero_le _
  rwa [Nat.sub_zero] at this

/-! ## The array of `gfs_write` -/

theorem pmapGet_pmapSet (pm : Bytes) {lbn lbn' phys : Nat} (h : phys < 2 ^ 64) :
    pmapGet (pmapSet pm lbn phys) lbn' = if lbn' = lbn then phys else pmapGet pm lbn' := by
  unfold pmapGet pmapSet
  split
  · rename_i heq
    rw [heq, rd_wr]
    exact Nat.mod_eq_of_lt h
  · exact rd_wr_of_disjoint (by omega)

/-- Entering the blocks of one extent. -/
theorem pmapGet_extent (pm : Bytes) (hN : e.logical + e.len ≤ 512) (h64 : e.phys + e.len ≤ 2 ^ 64)
    (lbn : Nat) : pmapGet ((List.range e.len).foldl (fun pm j =>
      if e.logical + j < 512 then pmapSet pm (e.logical + j) (e.phys + j) else pm) pm) lbn =
      if e.logical ≤ lbn ∧ lbn < e.logical + e.len then e.phys + (lbn - e.logical)
      else pmapGet pm lbn := by
  -- after `m` of the blocks
  have hgen : ∀ m ≤ e.len, pmapGet ((List.range m).foldl (fun pm j =>
      if e.logical + j < 512 then pmapSet pm (e.logical + j) (e.phys + j) else pm) pm) lbn =
      if e.logical ≤ lbn ∧ lbn < e.logical + m then e.phys + (lbn - e.logical)
      else pmapGet pm lbn := by
    intro m
    induction m with
    | zero => exact fun _ => (if_neg (by omega)).symm
    | succ m ih =>
      intro hm
      rw [range_succ, foldl_append, foldl_cons, foldl_nil, if_pos (by omega),
        pmapGet_pmapSet _ (by omega), ih (by omega)]
      by_cases hl : lbn = e.logical + m
      · rw [if_pos hl, if_pos (by omega)]
        omega
      · rw [if_neg hl]
        by_cases hc : e.logical ≤ lbn ∧ lbn < e.logical + m
        · rw [if_pos hc, if_pos (by omega)]
        · rw [if_neg hc, if_neg (by omega)]
  exact hgen e.len le_rfl

/-- **The array of a file has its block map.** -/
theorem pmapGet_pmapLoad {n : DiskNode} (h : ExtsOk n.exts 512)
    (h64 : ∀ e ∈ n.exts, e.phys + e.len ≤ 2 ^ 64) (lbn : Nat) :
    pmapGet (pmapLoad n) lbn = bmap n lbn := by
  have hgen : ∀ (es : List Extent) (pm : Bytes), ExtsOk es 512 →
      (∀ e ∈ es, e.phys + e.len ≤ 2 ^ 64) →
      pmapGet (es.foldl (fun pm e => (List.range e.len).foldl (fun pm j =>
        if e.logical + j < 512 then pmapSet pm (e.logical + j) (e.phys + j) else pm) pm) pm) lbn =
        if extFind es lbn = 0 then pmapGet pm lbn else extFind es lbn := by
    intro es
    induction es with
    | nil => exact fun _ _ _ => rfl
    | cons e es ih =>
      intro pm hok hlt
      obtain ⟨hlater, hsorted⟩ := pairwise_cons.mp hok.sorted
      rw [foldl_cons, ih _ ⟨fun x hx => hok.pos x (mem_cons_of_mem _ hx), hsorted,
          fun x hx => hok.bound x (mem_cons_of_mem _ hx),
          fun x hx => hok.phys x (mem_cons_of_mem _ hx)⟩
          fun x hx => hlt x (mem_cons_of_mem _ hx),
        pmapGet_extent _ (hok.bound e mem_cons_self) (hlt e mem_cons_self), extFind_cons]
      have h0 := hok.phys e mem_cons_self
      by_cases hc : e.logical ≤ lbn ∧ lbn < e.logical + e.len
      · -- the later extents do not cover the block
        have hz : extFind es lbn = 0 := extFind_eq_zero fun e' he' => by
          have := hlater e' he'
          exact .inl (by omega)
        rw [if_pos hc, if_pos hc, if_pos hz, if_neg (by omega)]
      · rw [if_neg hc, if_neg hc]
  have hload := hgen n.exts zeroBlock h h64
  rw [bmap_eq]
  unfold pmapLoad
  rw [hload]
  split
  · rename_i hz
    rw [hz]
    exact rd_zeroBlock _ _
  · rfl

/-! ## Folding a map up -/

variable {i : Nat}

variable {k : Nat}

theorem extAt_setExt {n : DiskNode} (hk : k < 8) :
    (n.setExt k e).extAt i = if i = k then e else n.extAt i := by
  unfold DiskNode.extAt DiskNode.setExt
  by_cases hi : i < 8
  · simp only [dif_pos hi]
  · simp only [dif_neg hi]
    rw [if_neg (by omega)]

/-- The extents of a record, the last one apart. -/
theorem exts_last {n : DiskNode} (h : 0 < n.nExtents) :
    n.exts = (List.range (n.nExtents - 1)).map n.extAt ++ [n.extAt (n.nExtents - 1)] := by
  unfold DiskNode.exts
  conv => lhs; rw [show n.nExtents = n.nExtents - 1 + 1 by omega]
  rw [range_succ, map_append, map_singleton]

/-- Replacing the last extent. -/
theorem exts_setLast {n : DiskNode} (h : 0 < n.nExtents) (h8 : n.nExtents ≤ 8) :
    (n.setExt (n.nExtents - 1) e).exts =
      (List.range (n.nExtents - 1)).map n.extAt ++ [e] := by
  have hlt : n.nExtents - 1 < 8 := by omega
  rw [exts_last (show 0 < (n.setExt (n.nExtents - 1) e).nExtents from h)]
  change (List.range (n.nExtents - 1)).map _ ++ [(n.setExt (n.nExtents - 1) e).extAt (n.nExtents - 1)]
    = _
  rw [extAt_setExt hlt, if_pos rfl]
  congr 1
  refine map_congr_left fun i hi => ?_
  have := mem_range.mp hi
  rw [extAt_setExt hlt, if_neg (by omega)]

/-- One more extent. -/
theorem exts_push {n : DiskNode} (h8 : n.nExtents < 8) :
    ({ n.setExt n.nExtents e with nExtents := n.nExtents + 1 } : DiskNode).exts = n.exts ++ [e] := by
  unfold DiskNode.exts
  rw [range_succ, map_append, map_singleton]
  congr 1
  · refine map_congr_left fun i hi => ?_
    have := mem_range.mp hi
    change (n.setExt n.nExtents e).extAt i = _
    rw [extAt_setExt h8, if_neg (by omega)]
  · change [(n.setExt n.nExtents e).extAt n.nExtents] = _
    rw [extAt_setExt h8, if_pos rfl]

/-- The record differs only in its extents. -/
structure SameNode (n n' : DiskNode) : Prop where
  type : n'.type = n.type
  mode : n'.mode = n.mode
  size : n'.size = n.size
  nlink : n'.nlink = n.nlink
  edgeCount : n'.edgeCount = n.edgeCount
  parent : n'.parent = n.parent
  edgeHead : n'.edgeHead = n.edgeHead

/-- What folding up has made of the blocks below `i` of a map. -/
structure Folded (n : DiskNode) (P : Nat → Nat) (i : Nat) (n' : DiskNode) : Prop where
  same : SameNode n n'
  count : n'.nExtents ≤ 8
  few : n'.nExtents ≤ i
  ok : ExtsOk n'.exts i
  map : ∀ lbn, bmap n' lbn = if lbn < i then P lbn else 0
  rest : ∀ k : Fin 8, n'.nExtents ≤ k → n'.ext k = n.ext k

theorem ExtsOk.mono {es : List Extent} {N' : Nat} (h : ExtsOk es N) (hN : N ≤ N') : ExtsOk es N' :=
  ⟨h.pos, h.sorted, fun e he => (h.bound e he).trans hN, h.phys⟩

theorem ExtsOk.sorted_snoc {es : List Extent} (h : ExtsOk es e.logical) :
    (es ++ [e]).Pairwise fun e e' => e.logical + e.len ≤ e'.logical := by
  refine pairwise_append.mpr ⟨h.sorted, pairwise_singleton _ _, fun x hx y hy => ?_⟩
  rw [mem_singleton.mp hy]
  exact h.bound x hx

theorem ExtsOk.snoc {es : List Extent} (h : ExtsOk es e.logical) (hpos : 0 < e.len)
    (hN : e.logical + e.len ≤ N) (h0 : e.phys ≠ 0) : ExtsOk (es ++ [e]) N := by
  refine ⟨fun x hx => ?_, h.sorted_snoc, fun x hx => ?_, fun x hx => ?_⟩
  · rcases mem_append.mp hx with hx | hx
    · exact h.pos x hx
    · rwa [mem_singleton.mp hx]
  · rcases mem_append.mp hx with hx | hx
    · have := h.bound x hx
      omega
    · rwa [mem_singleton.mp hx]
  · rcases mem_append.mp hx with hx | hx
    · exact h.phys x hx
    · rwa [mem_singleton.mp hx]

/-- The extents before the last one. -/
theorem ExtsOk.init {es : List Extent} (h : ExtsOk (es ++ [e]) N) :
    ExtsOk es e.logical ∧ 0 < e.len ∧ e.logical + e.len ≤ N ∧ e.phys ≠ 0 := by
  have hmem : e ∈ es ++ [e] := mem_append_right _ (mem_singleton.mpr rfl)
  obtain ⟨hs, -, hlast⟩ := pairwise_append.mp h.sorted
  exact ⟨⟨fun x hx => h.pos x (mem_append_left _ hx), hs,
    fun x hx => hlast x hx e (mem_singleton.mpr rfl),
    fun x hx => h.phys x (mem_append_left _ hx)⟩, h.pos e hmem, h.bound e hmem, h.phys e hmem⟩

variable {m : DiskNode}

/-- The last extent of a file whose last block is not a hole. -/
theorem ExtsOk.last_covers {lbn : Nat} (h : ExtsOk m.exts (lbn + 1)) (h0 : bmap m lbn ≠ 0) :
    0 < m.nExtents ∧
      ExtsOk ((List.range (m.nExtents - 1)).map m.extAt) (m.extAt (m.nExtents - 1)).logical ∧
      (m.extAt (m.nExtents - 1)).logical + (m.extAt (m.nExtents - 1)).len = lbn + 1 ∧
      0 < (m.extAt (m.nExtents - 1)).len ∧ (m.extAt (m.nExtents - 1)).phys ≠ 0 := by
  have hpos : 0 < m.nExtents := by
    by_contra hz
    rw [bmap_eq, exts_of_nExtents (by omega)] at h0
    exact h0 rfl
  have hexts := exts_last hpos
  rw [bmap_eq, hexts] at h0
  rw [hexts] at h
  obtain ⟨hinit, hlen, hbound, hphys⟩ := h.init
  refine ⟨hpos, hinit, ?_, hlen, hphys⟩
  by_contra hne
  rw [extFind_snoc _ _ _ hinit.bound, if_neg (by omega)] at h0
  refine h0 (extFind_eq_zero fun e he => .inr ?_)
  have := hinit.bound e he
  omega

variable {n' : DiskNode}

theorem SameNode.setExt {n : DiskNode} (h : SameNode n n') (k : Nat) (e : Extent) :
    SameNode n (n'.setExt k e) :=
  ⟨h.type, h.mode, h.size, h.nlink, h.edgeCount, h.parent, h.edgeHead⟩

theorem SameNode.setCount {n : DiskNode} (h : SameNode n n') (k : Nat) :
    SameNode n { n' with nExtents := k } :=
  ⟨h.type, h.mode, h.size, h.nlink, h.edgeCount, h.parent, h.edgeHead⟩

/-- A block that continues the last extent. -/
theorem Folded.merge {n : DiskNode} (h : Folded n P i n') (h0 : 0 < n'.nExtents)
    (hl : (n'.extAt (n'.nExtents - 1)).logical + (n'.extAt (n'.nExtents - 1)).len = i)
    (hp : (n'.extAt (n'.nExtents - 1)).phys + (n'.extAt (n'.nExtents - 1)).len = P i) :
    Folded n P (i + 1) (n'.setExt (n'.nExtents - 1)
      { n'.extAt (n'.nExtents - 1) with len := (n'.extAt (n'.nExtents - 1)).len + 1 }) := by
  have hexts := exts_last h0
  have hok := h.ok
  have hmap := h.map
  rw [bmap_eq] at hmap
  rw [hexts] at hok hmap
  obtain ⟨hinit, hpos, hbound, hphys⟩ := hok.init
  generalize n'.extAt (n'.nExtents - 1) = last at *
  have hexts' := exts_setLast (e := { last with len := last.len + 1 }) h0 h.count
  refine ⟨h.same.setExt _ _, h.count, h.few.trans (Nat.le_succ i), ?_, fun lbn => ?_, fun k hk => ?_⟩
  · rw [hexts']
    exact ExtsOk.snoc (e := { last with len := last.len + 1 }) hinit (Nat.succ_pos _)
      (by simp only; omega) hphys
  · have hold := hmap lbn
    rw [extFind_snoc _ _ _ hinit.bound] at hold
    rw [bmap_eq, hexts', extFind_snoc _ { last with len := last.len + 1 } _ hinit.bound]
    dsimp only
    by_cases hi : lbn = i
    · rw [if_pos (by omega), if_pos (by omega), hi, ← hp]
      omega
    · by_cases hc : last.logical ≤ lbn ∧ lbn < last.logical + last.len
      · rw [if_pos hc, if_pos (by omega)] at hold
        rw [if_pos (by omega), if_pos (by omega), hold]
      · rw [if_neg hc] at hold
        rw [if_neg (by omega), hold]
        by_cases hlt : lbn < i
        · rw [if_pos hlt, if_pos (by omega)]
        · rw [if_neg hlt, if_neg (by omega)]
  · have hk' : n'.nExtents ≤ k := hk
    exact (if_neg (by omega)).trans (h.rest k hk')

/-- A block that starts an extent. -/
theorem Folded.push {n : DiskNode} (h : Folded n P i n') (h8 : n'.nExtents < 8) (h0 : P i ≠ 0) :
    Folded n P (i + 1)
      { n'.setExt n'.nExtents ⟨i, P i, 1⟩ with nExtents := n'.nExtents + 1 } := by
  have hexts := exts_push (n := n') (e := ⟨i, P i, 1⟩) h8
  refine ⟨(h.same.setExt _ _).setCount _, h8, Nat.succ_le_succ h.few, ?_, fun lbn => ?_, fun k hk => ?_⟩
  · rw [hexts]
    exact ExtsOk.snoc (e := ⟨i, P i, 1⟩) h.ok Nat.one_pos le_rfl h0
  · have hold := h.map lbn
    rw [bmap_eq] at hold
    rw [bmap_eq, hexts, extFind_snoc _ _ _ h.ok.bound]
    dsimp only
    by_cases hi : lbn = i
    · rw [if_pos (by omega), if_pos (by omega), hi, Nat.sub_self]
      rfl
    · rw [if_neg (by omega), hold]
      by_cases hlt : lbn < i
      · rw [if_pos hlt, if_pos (by omega)]
      · rw [if_neg hlt, if_neg (by omega)]
  · have hk' : n'.nExtents + 1 ≤ k := hk
    exact (if_neg (by omega)).trans (h.rest k (by omega))

/-- A run of a map is a stretch of entries whose blocks follow one another; this one goes on at `i`. -/
def RunsOn (P : Nat → Nat) (i : Nat) : Prop := 0 < i ∧ P (i - 1) ≠ 0 ∧ P i = P (i - 1) + 1

instance (P : Nat → Nat) (i : Nat) : Decidable (RunsOn P i) := by unfold RunsOn; infer_instance

/-- Where the maximal runs of the first `N` entries of a map start. -/
def runStarts (P : Nat → Nat) (N : Nat) : List Nat :=
  (List.range N).filter fun i => P i ≠ 0 ∧ ¬RunsOn P i

theorem runStarts_succ (P : Nat → Nat) (N : Nat) :
    runStarts P (N + 1) = runStarts P N ++ if P N ≠ 0 ∧ ¬RunsOn P N then [N] else [] := by
  unfold runStarts
  rw [range_succ, filter_append, filter_singleton, Bool.cond_decide]

theorem runStarts_length_le (P : Nat → Nat) (N : Nat) : (runStarts P N).length ≤ N :=
  (length_filter_le _ _).trans length_range.le

/-- The test for going on with the last extent. -/
theorem Folded.runsOn_iff {n : DiskNode} (h : Folded n P i n') :
    (0 < n'.nExtents ∧ (n'.extAt (n'.nExtents - 1)).logical + (n'.extAt (n'.nExtents - 1)).len = i ∧
      (n'.extAt (n'.nExtents - 1)).phys + (n'.extAt (n'.nExtents - 1)).len = P i) ↔ RunsOn P i := by
  -- an extent that ends at `i` ends with the block of the entry before
  have hval : 0 < n'.nExtents →
      (n'.extAt (n'.nExtents - 1)).logical + (n'.extAt (n'.nExtents - 1)).len = i →
      0 < i ∧ P (i - 1) ≠ 0 ∧
        P (i - 1) + 1 = (n'.extAt (n'.nExtents - 1)).phys + (n'.extAt (n'.nExtents - 1)).len := by
    intro hpos hend
    have hexts := exts_last hpos
    have hok := h.ok
    have hmap := h.map (i - 1)
    rw [hexts] at hok
    obtain ⟨hinit, hlen, -, hphys⟩ := hok.init
    rw [bmap_eq, hexts, extFind_snoc _ _ _ hinit.bound, if_pos (by omega), if_pos (by omega)] at hmap
    omega
  constructor
  · rintro ⟨hpos, hend, hp⟩
    obtain ⟨h1, h2, h3⟩ := hval hpos hend
    exact ⟨h1, h2, by omega⟩
  · rintro ⟨hi, h0, hp⟩
    have hok := h.ok
    rw [show i = i - 1 + 1 by omega] at hok
    obtain ⟨hpos, -, hend, -⟩ := hok.last_covers (by rwa [h.map, if_pos (by omega)])
    obtain ⟨-, -, h3⟩ := hval hpos (by omega)
    exact ⟨hpos, by omega, by omega⟩

variable {pm : Bytes}

theorem coalesceStep_spec {n : DiskNode} (h : Folded n P i n')
    (hs : n'.exts.map Extent.logical = runStarts P i) (hP : pmapGet pm i = P i) :
    (∃ n'', coalesceStep pm n' i = .ok n'' ∧ Folded n P (i + 1) n'' ∧
      n''.exts.map Extent.logical = runStarts P (i + 1)) ∨
      (coalesceStep pm n' i = .error .efrag ∧ 8 < (runStarts P (i + 1)).length) := by
  unfold coalesceStep
  simp only [hP, h.runsOn_iff]
  rw [runStarts_succ, ← hs]
  by_cases h0 : P i = 0
  · rw [if_pos h0, if_neg fun hc => hc.1 h0, append_nil]
    refine .inl ⟨n', rfl, ⟨h.same, h.count, h.few.trans (Nat.le_succ i), h.ok.mono (Nat.le_succ i),
      fun lbn => ?_, h.rest⟩, rfl⟩
    rw [h.map lbn]
    by_cases hi : lbn = i
    · rw [if_neg (by omega), if_pos (by omega), hi, h0]
    · by_cases hlt : lbn < i
      · rw [if_pos hlt, if_pos (by omega)]
      · rw [if_neg hlt, if_neg (by omega)]
  rw [if_neg h0]
  by_cases hr : RunsOn P i
  · obtain ⟨hpos, hend, hp⟩ := h.runsOn_iff.mpr hr
    rw [if_pos hr, if_neg fun hc => hc.2 hr, append_nil]
    refine .inl ⟨_, rfl, h.merge hpos hend hp, ?_⟩
    rw [exts_setLast hpos h.count, exts_last hpos, map_append, map_append]
    rfl
  · rw [if_neg hr, if_pos (And.intro h0 hr)]
    split
    · rename_i h8
      refine .inr ⟨rfl, ?_⟩
      rw [length_append, length_map, DiskNode.exts, length_map, length_range, h8]
      exact Nat.lt_succ_self 8
    · rename_i h8
      have hlt : n'.nExtents < 8 := lt_of_le_of_ne h.count h8
      refine .inl ⟨_, rfl, h.push hlt h0, ?_⟩
      rw [exts_push hlt, map_append]
      rfl

/-- **Folding up a block map** gives extents with that map, one for each maximal run. It fails just
when there are more than eight. -/
theorem coalesce_spec {n : DiskNode} (hP : ∀ lbn < N, pmapGet pm lbn = P lbn) :
    (∃ n', coalesce pm n N = .ok n' ∧ Folded n P N n' ∧
      n'.exts.map Extent.logical = runStarts P N) ∨
      (coalesce pm n N = .error .efrag ∧ 8 < (runStarts P N).length) := by
  unfold coalesce
  induction N with
  | zero =>
    refine .inl ⟨_, rfl, ⟨⟨rfl, rfl, rfl, rfl, rfl, rfl, rfl⟩, Nat.zero_le _, le_rfl, ?_,
      fun lbn => ?_, fun _ _ => rfl⟩, rfl⟩
    · rw [exts_of_nExtents rfl]
      exact ⟨by simp, List.Pairwise.nil, by simp, by simp⟩
    · rw [bmap_eq, exts_of_nExtents rfl]
      rfl
  | succ N ih =>
    have hok : ∀ (x : DiskNode) (f : DiskNode → Except Err DiskNode),
        (Except.ok x : Except Err DiskNode) >>= f = f x := fun _ _ => rfl
    have herr : ∀ (e : Err) (f : DiskNode → Except Err DiskNode),
        (Except.error e : Except Err DiskNode) >>= f = .error e := fun _ _ => rfl
    rw [range_succ, foldlM_append]
    rcases ih fun lbn hl => hP lbn (by omega) with ⟨n', hn', hf, hs⟩ | ⟨he, h8⟩
    · rw [hn', hok, foldlM_cons]
      rcases coalesceStep_spec hf hs (hP N (Nat.lt_succ_self N)) with ⟨n'', hn'', hf'⟩ | ⟨he, h8⟩
      · rw [hn'', hok]
        exact .inl ⟨n'', rfl, hf'⟩
      · rw [he, herr]
        exact .inr ⟨rfl, h8⟩
    · rw [he, herr, runStarts_succ, length_append]
      exact .inr ⟨rfl, by omega⟩

/-! ## Cutting a map off -/

/-- What `gfs_truncate` keeps of an extent when the file keeps `keep` blocks. -/
def trimExt (keep : Nat) (e : Extent) : Option Extent :=
  if keep ≤ e.logical then none else some { e with len := min e.len (keep - e.logical) }

variable {e' : Extent}

theorem trimExt_some {keep : Nat} (h : trimExt keep e = some e') :
    e.logical < keep ∧ e' = { e with len := min e.len (keep - e.logical) } := by
  unfold trimExt at h
  split at h
  · cases h
  · exact ⟨by omega, (Option.some.inj h).symm⟩

theorem extFind_trim {es : List Extent} (h : ExtsOk es N) (keep lbn : Nat) :
    extFind (es.filterMap (trimExt keep)) lbn = if lbn < keep then extFind es lbn else 0 := by
  induction es with
  | nil => exact (ite_self _).symm
  | cons e es ih =>
    obtain ⟨hlater, hsorted⟩ := pairwise_cons.mp h.sorted
    have ih := ih ⟨fun x hx => h.pos x (mem_cons_of_mem _ hx), hsorted,
      fun x hx => h.bound x (mem_cons_of_mem _ hx),
      fun x hx => h.phys x (mem_cons_of_mem _ hx)⟩
    rw [extFind_cons]
    by_cases hk : keep ≤ e.logical
    · have hnone : trimExt keep e = none := if_pos hk
      rw [filterMap_cons_none hnone, ih]
      by_cases hl : lbn < keep
      · rw [if_pos hl, if_pos hl, if_neg (by omega)]
      · rw [if_neg hl, if_neg hl]
    · have hsome : trimExt keep e = some { e with len := min e.len (keep - e.logical) } := if_neg hk
      rw [filterMap_cons_some hsome, extFind_cons, ih]
      dsimp only
      by_cases hl : lbn < keep
      · rw [if_pos hl, if_pos hl]
        by_cases hc : e.logical ≤ lbn ∧ lbn < e.logical + e.len
        · rw [if_pos hc, if_pos (by omega)]
        · rw [if_neg hc, if_neg (by omega)]
      · rw [if_neg hl, if_neg hl, if_neg (by omega)]

theorem ExtsOk.trim {es : List Extent} (h : ExtsOk es N) (keep : Nat) :
    ExtsOk (es.filterMap (trimExt keep)) keep := by
  have hmem : ∀ e' ∈ es.filterMap (trimExt keep), ∃ e ∈ es, e.logical < keep ∧
      e' = { e with len := min e.len (keep - e.logical) } := by
    intro e' he'
    obtain ⟨e, he, hs⟩ := mem_filterMap.mp he'
    exact ⟨e, he, trimExt_some hs⟩
  refine ⟨fun e' he' => ?_, ?_, fun e' he' => ?_, fun e' he' => ?_⟩
  · obtain ⟨e, he, hlt, rfl⟩ := hmem e' he'
    have := h.pos e he
    dsimp only
    omega
  · refine h.sorted.filterMap (trimExt keep) ?_
    intro a a' hr b hb b' hb'
    obtain ⟨-, rfl⟩ := trimExt_some hb
    obtain ⟨-, rfl⟩ := trimExt_some hb'
    dsimp only
    omega
  · obtain ⟨e, -, hlt, rfl⟩ := hmem e' he'
    dsimp only
    omega
  · obtain ⟨e, he, -, rfl⟩ := hmem e' he'
    exact h.phys e he

/-- The trimming loop after `i` extents, of which it has kept `out` in `m`. -/
structure Trimmed (keep : Nat) (n : DiskNode) (i out : Nat) (m : DiskNode) : Prop where
  same : SameNode n m
  le : out ≤ i
  kept : (List.range out).map m.extAt = ((List.range i).map n.extAt).filterMap (trimExt keep)
  rest : ∀ k : Fin 8, out ≤ k → m.ext k = n.ext k

variable {out : Nat}

theorem Trimmed.extAt_eq {keep : Nat} {n : DiskNode} (h : Trimmed keep n i out m) (hk : out ≤ k) :
    m.extAt k = n.extAt k := by
  unfold DiskNode.extAt
  split
  · exact h.rest _ hk
  · rfl

/-- An extent is dropped. -/
theorem Trimmed.skip {keep : Nat} {n : DiskNode} (h : Trimmed keep n i out m)
    (he : trimExt keep (n.extAt i) = none) : Trimmed keep n (i + 1) out m := by
  refine ⟨h.same, h.le.trans (Nat.le_succ i), ?_, h.rest⟩
  rw [h.kept, range_succ, map_append, filterMap_append, map_singleton,
    filterMap_cons_none he, filterMap_nil, append_nil]

/-- An extent is kept, or its front is. -/
theorem Trimmed.keep {keep : Nat} {n : DiskNode} (h : Trimmed keep n i out m) (hi : i < 8)
    (he : trimExt keep (n.extAt i) = some e) :
    Trimmed keep n (i + 1) (out + 1) (m.setExt out e) := by
  have hout : out < 8 := by have := h.le; omega
  refine ⟨h.same.setExt out e, Nat.succ_le_succ h.le, ?_, fun k hk => ?_⟩
  · rw [range_succ, map_append, range_succ, map_append, filterMap_append,
      ← h.kept, map_singleton, map_singleton, filterMap_cons_some he,
      filterMap_nil, extAt_setExt hout, if_pos rfl]
    congr 1
    refine map_congr_left fun j hj => ?_
    have := mem_range.mp hj
    rw [extAt_setExt hout, if_neg (by omega)]
  · refine (if_neg (by omega)).trans (h.rest k (by omega))

/-- A record whose last block is repointed to `np`. -/
structure Repointed (m : DiskNode) (lbn np : Nat) (m' : DiskNode) : Prop where
  same : SameNode m m'
  count : m'.nExtents ≤ 8
  more : m.nExtents ≤ m'.nExtents
  rest : ∀ k : Fin 8, m'.nExtents ≤ k → m'.ext k = m.ext k
  ok : ExtsOk m'.exts (lbn + 1)
  map : bmap m' = update (bmap m) lbn np

section Repoint

variable {es : List Extent} {last : Extent} {lbn x : Nat} (np : Nat)

/-- Repointing an extent of one block. -/
theorem extFind_repoint (h : ExtsOk es last.logical) (hend : last.logical + last.len = lbn + 1)
    (h1 : last.len = 1) (hx : x ≠ lbn) :
    extFind (es ++ [{ last with phys := np }]) x = extFind (es ++ [last]) x := by
  rw [extFind_snoc _ { last with phys := np } _ h.bound, extFind_snoc _ _ _ h.bound]
  dsimp only
  rw [if_neg (by omega), if_neg (by omega)]

/-- Splitting the last block off an extent. -/
theorem extFind_split (h : ExtsOk es last.logical) (hend : last.logical + last.len = lbn + 1)
    (hmid : ExtsOk (es ++ [{ last with len := last.len - 1 }]) lbn) (hx : x ≠ lbn) :
    extFind (es ++ [{ last with len := last.len - 1 }] ++ [⟨lbn, np, 1⟩]) x =
      extFind (es ++ [last]) x := by
  rw [extFind_snoc _ ⟨lbn, np, 1⟩ _ hmid.bound,
    extFind_snoc _ { last with len := last.len - 1 } _ h.bound, extFind_snoc _ _ _ h.bound]
  dsimp only
  rw [if_neg (by omega)]
  by_cases hc : last.logical ≤ x ∧ x < last.logical + last.len
  · rw [if_pos hc, if_pos (by omega)]
  · rw [if_neg hc, if_neg (by omega)]

end Repoint

/-- The last extent is that one block. -/
theorem Repointed.whole {lbn np : Nat} (h8 : m.nExtents ≤ 8) (h : ExtsOk m.exts (lbn + 1))
    (h0 : bmap m lbn ≠ 0) (hnp : np ≠ 0) (h1 : (m.extAt (m.nExtents - 1)).len = 1) :
    Repointed m lbn np (m.setExt (m.nExtents - 1) { m.extAt (m.nExtents - 1) with phys := np }) := by
  obtain ⟨hpos, hinit, hend, hlen, hphys⟩ := h.last_covers h0
  have hexts := exts_last hpos
  have hexts' := exts_setLast (e := { m.extAt (m.nExtents - 1) with phys := np }) hpos h8
  generalize m.extAt (m.nExtents - 1) = last at *
  refine ⟨⟨rfl, rfl, rfl, rfl, rfl, rfl, rfl⟩, h8, le_rfl, fun k hk => ?_, ?_, ?_⟩
  · have hk' : m.nExtents ≤ k := hk
    exact if_neg (by omega)
  · rw [hexts']
    exact ExtsOk.snoc (e := { last with phys := np }) hinit hlen hend.le hnp
  · funext x
    rw [bmap_eq, bmap_eq, hexts', hexts]
    by_cases hx : x = lbn
    · rw [hx, update_self, extFind_snoc _ { last with phys := np } _ hinit.bound]
      dsimp only
      rw [if_pos (by omega)]
      omega
    · rw [update_of_ne hx, extFind_repoint np hinit hend h1 hx]

/-- The last extent is longer, and loses its last block. -/
theorem Repointed.split {n₁ : DiskNode} {lbn np : Nat} (h8 : m.nExtents < 8)
    (h : ExtsOk m.exts (lbn + 1)) (h0 : bmap m lbn ≠ 0) (hnp : np ≠ 0)
    (h1 : (m.extAt (m.nExtents - 1)).len ≠ 1)
    (hn₁ : n₁ = m.setExt (m.nExtents - 1) { m.extAt (m.nExtents - 1) with
      len := (m.extAt (m.nExtents - 1)).len - 1 }) : Repointed m lbn np
      { n₁.setExt n₁.nExtents ⟨lbn, np, 1⟩ with nExtents := n₁.nExtents + 1 } := by
  obtain ⟨hpos, hinit, hend, hlen, hphys⟩ := h.last_covers h0
  have hexts := exts_last hpos
  generalize m.extAt (m.nExtents - 1) = last at *
  have hcount : n₁.nExtents = m.nExtents := by rw [hn₁]; rfl
  have hsame : SameNode m n₁ := by rw [hn₁]; exact ⟨rfl, rfl, rfl, rfl, rfl, rfl, rfl⟩
  have hrest : ∀ k : Fin 8, m.nExtents ≤ k → n₁.ext k = m.ext k := fun k hk => by
    rw [hn₁]
    exact if_neg (by omega)
  have hexts₁ : n₁.exts = (List.range (m.nExtents - 1)).map m.extAt ++
      [{ last with len := last.len - 1 }] := by
    rw [hn₁]
    exact exts_setLast hpos h8.le
  have hexts' := exts_push (n := n₁) (e := ⟨lbn, np, 1⟩) (by omega)
  rw [hexts₁] at hexts'
  have hmid : ExtsOk ((List.range (m.nExtents - 1)).map m.extAt ++
      [{ last with len := last.len - 1 }]) lbn :=
    ExtsOk.snoc (e := { last with len := last.len - 1 }) hinit (by dsimp only; omega)
      (by dsimp only; omega) hphys
  refine ⟨(hsame.setExt _ _).setCount _, ?_, ?_, fun k hk => ?_, ?_, ?_⟩
  · show n₁.nExtents + 1 ≤ 8
    omega
  · show m.nExtents ≤ n₁.nExtents + 1
    omega
  · have hk' : n₁.nExtents + 1 ≤ k := hk
    exact (if_neg (by omega)).trans (hrest k (by omega))
  · rw [hexts']
    exact ExtsOk.snoc (e := ⟨lbn, np, 1⟩) hmid Nat.one_pos le_rfl hnp
  · funext x
    rw [bmap_eq, bmap_eq, hexts', hexts]
    by_cases hx : x = lbn
    · rw [hx, update_self, extFind_snoc _ ⟨lbn, np, 1⟩ _ hmid.bound]
      dsimp only
      rw [if_pos (by omega)]
      omega
    · rw [update_of_ne hx, extFind_split np hinit hend hmid hx]

/-- What a file of `keep` blocks keeps of the file `n`. -/
structure Cut (keep : Nat) (n m : DiskNode) : Prop where
  sorted : m.exts.Pairwise fun e e' => e.logical + e.len ≤ e'.logical
  below : ∀ lbn, lbn + 1 < keep → bmap m lbn = bmap n lbn
  past : ∀ lbn, keep ≤ lbn → bmap m lbn = 0

variable {size : Nat}

/-- Whatever block the rewritten one goes to, and whatever fails before that. -/
theorem zeroTail_returns (h8 : m.nExtents ≤ 8) (hok : ExtsOk m.exts ((size + 4095) / 4096)) :
    (zeroTail m size).Returns (Cut ((size + 4095) / 4096) m) := by
  have hpast : ∀ lbn, (size + 4095) / 4096 ≤ lbn → bmap m lbn = 0 := fun lbn hl =>
    extFind_eq_zero fun e he => .inr ((hok.bound e he).trans hl)
  unfold zeroTail
  dsimp only
  by_cases hc : size % 4096 = 0 ∨ bmap m (size / 4096) = 0
  · rw [if_pos hc]
    exact ⟨hok.sorted, fun _ _ => rfl, hpast⟩
  rw [if_neg hc]
  obtain ⟨htail, h0⟩ := not_or.mp hc
  have hN : (size + 4095) / 4096 = size / 4096 + 1 := by omega
  rw [hN] at hok hpast ⊢
  obtain ⟨hpos, hinit, hend, hlen, hphys⟩ := hok.last_covers h0
  have hexts := exts_last hpos
  -- the map changes at the last block only
  have hcut : ∀ m' : DiskNode, (m'.exts.Pairwise fun e e' => e.logical + e.len ≤ e'.logical) →
      (∀ x ≠ size / 4096, bmap m' x = bmap m x) → Cut (size / 4096 + 1) m m' :=
    fun m' hs hm => ⟨hs, fun lbn hl => hm lbn (by omega), fun lbn hl =>
      (hm lbn (by omega)).trans (hpast lbn hl)⟩
  refine Prog.Returns.after fun _ => Prog.Returns.after fun _ => Prog.Returns.after fun _ =>
    Prog.Returns.after fun np => Prog.Returns.after fun _ => Prog.Returns.after fun _ => ?_
  by_cases h1 : (m.extAt (m.nExtents - 1)).len = 1
  · rw [if_pos h1]
    have hexts' := exts_setLast (e := { m.extAt (m.nExtents - 1) with phys := np }) hpos h8
    refine hcut _ ?_ fun x hx => ?_
    · rw [hexts']
      exact ExtsOk.sorted_snoc (e := { m.extAt (m.nExtents - 1) with phys := np }) hinit
    · rw [bmap_eq, bmap_eq, hexts', hexts, extFind_repoint np hinit hend h1 hx]
  rw [if_neg h1]
  by_cases hfull : m.nExtents = 8
  · rw [if_pos hfull]
    trivial
  rw [if_neg hfull]
  have hexts₁ := exts_setLast (e := { m.extAt (m.nExtents - 1) with
    len := (m.extAt (m.nExtents - 1)).len - 1 }) hpos h8
  have hexts' := exts_push (n := m.setExt (m.nExtents - 1) { m.extAt (m.nExtents - 1) with
    len := (m.extAt (m.nExtents - 1)).len - 1 }) (e := ⟨size / 4096, np, 1⟩)
    (lt_of_le_of_ne h8 hfull)
  rw [hexts₁] at hexts'
  have hmid := ExtsOk.snoc (e := { m.extAt (m.nExtents - 1) with
    len := (m.extAt (m.nExtents - 1)).len - 1 }) (N := size / 4096) hinit (by dsimp only; omega)
    (by dsimp only; omega) hphys
  refine hcut _ ?_ fun x hx => ?_
  · rw [hexts']
    exact ExtsOk.sorted_snoc (e := ⟨size / 4096, np, 1⟩) hmid
  · rw [bmap_eq, bmap_eq, hexts', hexts, extFind_split np hinit hend hmid hx]

theorem trimStep_returns {keep : Nat} {n : DiskNode} (hT : Trimmed keep n i out m) (hi : i < 8) :
    (trimStep keep (out, m) i).Returns fun r => Trimmed keep n (i + 1) r.1 r.2 := by
  unfold trimStep
  dsimp only
  rw [hT.extAt_eq hT.le]
  by_cases h1 : keep ≤ (n.extAt i).logical
  · rw [if_pos h1]
    exact Prog.Returns.after fun _ => hT.skip (if_pos h1)
  rw [if_neg h1]
  have hsome := hT.keep hi (if_neg h1)
  by_cases h2 : keep < (n.extAt i).logical + (n.extAt i).len
  · rw [if_pos h2]
    rw [min_eq_right (by omega)] at hsome
    exact Prog.Returns.after fun _ => hsome
  · rw [if_neg h2]
    rw [min_eq_left (by omega)] at hsome
    exact hsome

/-- The file after the trimming loop. -/
theorem Trimmed.done {keep : Nat} {n : DiskNode} (hok : ExtsOk n.exts N)
    (hT : Trimmed keep n n.nExtents out m) :
    ({ m with nExtents := out } : DiskNode).exts = n.exts.filterMap (trimExt keep) ∧
      ExtsOk ({ m with nExtents := out } : DiskNode).exts keep ∧
      ∀ lbn, bmap { m with nExtents := out } lbn = if lbn < keep then bmap n lbn else 0 := by
  have hexts : ({ m with nExtents := out } : DiskNode).exts = n.exts.filterMap (trimExt keep) := hT.kept
  refine ⟨hexts, ?_, fun lbn => ?_⟩
  · rw [hexts]
    exact hok.trim keep
  · rw [bmap_eq, hexts, extFind_trim hok, bmap_eq]

/-- The shrink of `gfs_truncate`. -/
theorem shrink_returns {n : DiskNode} (h8 : n.nExtents ≤ 8) (hok : ExtsOk n.exts N) :
    (Prog.foldP (trimStep ((size + 4095) / 4096)) (0, n) (List.range n.nExtents) >>= fun r =>
      zeroTail { r.2 with nExtents := r.1 } size).Returns (Cut ((size + 4095) / 4096) n) := by
  have hloop : (Prog.foldP (trimStep ((size + 4095) / 4096)) (0, n)
      (List.range' 0 n.nExtents)).Returns fun r =>
        Trimmed ((size + 4095) / 4096) n (0 + n.nExtents) r.1 r.2 :=
    Prog.Returns.foldRange (I := fun i (r : Nat × DiskNode) =>
      Trimmed ((size + 4095) / 4096) n i r.1 r.2) ⟨⟨rfl, rfl, rfl, rfl, rfl, rfl, rfl⟩, le_rfl, rfl, fun _ _ => rfl⟩
      fun i r hi hr => trimStep_returns hr (by omega)
  rw [← range_eq_range', Nat.zero_add] at hloop
  refine hloop.bind fun r hr => ?_
  obtain ⟨-, hok', hmap⟩ := hr.done hok
  have hle := hr.le
  refine (zeroTail_returns (m := { r.2 with nExtents := r.1 }) (by dsimp only; omega) hok').mono
    fun m' hm' => ⟨hm'.sorted, fun lbn hl => ?_, hm'.past⟩
  rw [hm'.below lbn hl, hmap, if_pos (by omega)]

/-- The block of an extent of the list. -/
theorem ExtsOk.extFind_mem {es : List Extent} (h : ExtsOk es N) (he : e ∈ es) {j : Nat}
    (hj : j < e.len) : extFind es (e.logical + j) = e.phys + j := by
  induction es with
  | nil => cases he
  | cons e' es ih =>
    obtain ⟨hlater, hsorted⟩ := pairwise_cons.mp h.sorted
    rw [extFind_cons]
    rcases mem_cons.mp he with rfl | he
    · rw [if_pos (by omega), Nat.add_sub_cancel_left]
    · have := hlater e he
      rw [if_neg (by omega)]
      exact ih ⟨fun x hx => h.pos x (mem_cons_of_mem _ hx), hsorted,
        fun x hx => h.bound x (mem_cons_of_mem _ hx),
        fun x hx => h.phys x (mem_cons_of_mem _ hx)⟩ he

/-- No extent goes on in another. -/
theorem Folded.maximal {n : DiskNode} (h : Folded n P N n')
    (hs : n'.exts.map Extent.logical = runStarts P N) (he : e ∈ n'.exts) (he' : e' ∈ n'.exts) :
    ¬(e.logical + e.len = e'.logical ∧ e.phys + e.len = e'.phys) := by
  rintro ⟨hl, hp⟩
  have hstart : e'.logical ∈ runStarts P N := hs ▸ mem_map_of_mem he'
  have hpos := h.ok.pos e he
  have hpos' := h.ok.pos e' he'
  have h0 := h.ok.phys e he
  have hval : ∀ x ∈ n'.exts, ∀ j < x.len, P (x.logical + j) = x.phys + j := fun x hx j hj => by
    have := h.ok.bound x hx
    rw [← h.ok.extFind_mem hx hj, ← bmap_eq, h.map, if_pos (by omega)]
  have hlast := hval e he (e.len - 1) (by omega)
  have hfirst := hval e' he' 0 hpos'
  rw [show e.logical + (e.len - 1) = e'.logical - 1 by omega] at hlast
  rw [Nat.add_zero] at hfirst
  exact (of_decide_eq_true (mem_filter.mp hstart).2).2 ⟨by omega, by omega, by omega⟩

/-- **Extents lose nothing.** For every map of `N` blocks, `gfs_write` folds it up unless it has more
than eight maximal runs, and then it fails with `GFS_EFRAG`. The extents have that map, are in order
and disjoint, and are the maximal runs: one starts where each run does and none goes on in another.
Whatever the device does, a shrink of that file to `size` keeps the map below the last block it
keeps, cuts it off after that block and leaves the extents in order and disjoint. -/
theorem extents_lossless (pm : Bytes) (n : DiskNode) (N : Nat) :
    (coalesce pm n N = .error .efrag ↔ 8 < (runStarts (pmapGet pm) N).length) ∧
    ((runStarts (pmapGet pm) N).length ≤ 8 → ∃ n', coalesce pm n N = .ok n' ∧
      (∀ lbn, bmap n' lbn = if lbn < N then pmapGet pm lbn else 0) ∧
      (n'.exts.Pairwise fun e e' => e.logical + e.len ≤ e'.logical) ∧
      n'.exts.map Extent.logical = runStarts (pmapGet pm) N ∧
      (∀ e ∈ n'.exts, ∀ e' ∈ n'.exts,
        ¬(e.logical + e.len = e'.logical ∧ e.phys + e.len = e'.phys)) ∧
      ∀ (size : Nat) (o : Nat → Bool) (s s' : St) (m : DiskNode),
        (Prog.foldP (trimStep ((size + 4095) / 4096)) (0, n') (List.range n'.nExtents) >>= fun r =>
          zeroTail { r.2 with nExtents := r.1 } size).run gfsMachine o s = some (.ok m, s') →
        (∀ lbn, lbn + 1 < (size + 4095) / 4096 → bmap m lbn = bmap n' lbn) ∧
        (∀ lbn, (size + 4095) / 4096 ≤ lbn → bmap m lbn = 0) ∧
        m.exts.Pairwise fun e e' => e.logical + e.len ≤ e'.logical) := by
  rcases coalesce_spec (n := n) (P := pmapGet pm) (N := N) fun _ _ => rfl with
    ⟨n', hn', hf, hs⟩ | ⟨he, h8⟩
  · have hle : (runStarts (pmapGet pm) N).length ≤ 8 := by
      rw [← hs, length_map, DiskNode.exts, length_map, length_range]
      exact hf.count
    refine ⟨⟨fun h => (nomatch hn'.symm.trans h), fun h => absurd hle (by omega)⟩, fun _ =>
      ⟨n', hn', hf.map, hf.ok.sorted, hs, fun e he e' he' => hf.maximal hs he he', ?_⟩⟩
    intro size o s s' m hrun
    have hcut := (shrink_returns hf.count hf.ok).of_run hrun
    exact ⟨hcut.below, hcut.past, hcut.sorted⟩
  · exact ⟨⟨fun _ => h8, fun _ => he⟩, fun h => absurd h (by omega)⟩

/-- Blocks 5, 6 and 9 as a file of two runs. -/
theorem extents_lossless_two :
    ∃ n', coalesce (pmapSet (pmapSet (pmapSet zeroBlock 0 5) 1 6) 2 9) zeroNode 3 = .ok n' ∧
      n'.exts.map Extent.logical = [0, 2] := by
  obtain ⟨n', hn', -, -, hs, -⟩ := (extents_lossless
    (pmapSet (pmapSet (pmapSet zeroBlock 0 5) 1 6) 2 9) zeroNode 3).2 (by decide +kernel)
  exact ⟨n', hn', hs.trans (by decide +kernel)⟩

/-! ## Contents -/

/-- The blocks of the map `P` hold the bytes `C`; a hole holds zeros. -/
def Holds (disk : Nat → Option Bytes) (P : Nat → Nat) (C : Nat → UInt8) : Prop :=
  ∀ lbn < 512, if P lbn = 0 then ∀ i < 4096, C (lbn * 4096 + i) = 0
    else ∃ blk, disk (P lbn) = some blk ∧ ∀ i < 4096, blk i = C (lbn * 4096 + i)

/-- The byte at position `pos` of a file. -/
def fileByte (disk : Nat → Option Bytes) (n : DiskNode) (pos : Nat) : UInt8 :=
  if bmap n (pos / 4096) = 0 then 0 else ((disk (bmap n (pos / 4096))).getD zeroBlock) (pos % 4096)

/-- **The contents of a file.** -/
def content (disk : Nat → Option Bytes) (n : DiskNode) : List UInt8 :=
  (List.range n.size).map (fileByte disk n)

variable {pos : Nat}

theorem Holds.fileByte {disk : Nat → Option Bytes} {n : DiskNode} {C : Nat → UInt8}
    (h : Holds disk (bmap n) C) (hp : pos < maxFileSize) : fileByte disk n pos = C pos := by
  have hpos : pos / 4096 * 4096 + pos % 4096 = pos := by omega
  have hlt : pos / 4096 < 512 := by unfold maxFileSize at hp; omega
  have hb := h (pos / 4096) hlt
  unfold Gfs.fileByte
  by_cases h0 : bmap n (pos / 4096) = 0
  · rw [if_pos h0] at hb ⊢
    rw [← hb (pos % 4096) (by omega), hpos]
  · rw [if_neg h0] at hb ⊢
    obtain ⟨blk, hblk, hC⟩ := hb
    rw [hblk, Option.getD_some, hC _ (by omega), hpos]

section OnDevice

variable {disk : Nat → Option Bytes} {n : DiskNode} {C : Nat → UInt8}

theorem blocksFor_le (h : size ≤ maxFileSize) : (size + 4095) / 4096 ≤ 512 := by
  unfold maxFileSize at h
  omega

theorem FileAt.extsOk (h : FileAt disk n) (h0 : ∀ b ∈ extBlocks n, b ≠ 0) :
    ExtsOk n.exts ((n.size + 4095) / 4096) := by
  refine ⟨h.pos, h.sorted, h.eof, fun e he => h0 _ ?_⟩
  have := h.pos e he
  exact mem_extBlocks.mpr ⟨e, he, le_rfl, by omega⟩

/-- The blocks of a file, in the order of its map. -/
theorem ExtsOk.extBlocks_eq (h : ExtsOk n.exts N) : extBlocks n = mapBlocks (bmap n) 0 N :=
  (mapBlocks_extFind h).symm

theorem FileAt.holds (h : FileAt disk n) : Holds disk (bmap n) (fileByte disk n) := by
  intro lbn _
  have hdiv : ∀ i < 4096, (lbn * 4096 + i) / 4096 = lbn ∧ (lbn * 4096 + i) % 4096 = i := by omega
  by_cases h0 : bmap n lbn = 0
  · rw [if_pos h0]
    intro i hi
    unfold Gfs.fileByte
    rw [(hdiv i hi).1, if_pos h0]
  · rw [if_neg h0]
    obtain ⟨blk, hblk⟩ := Option.isSome_iff_exists.mp (h.blocks _ (bmap_mem h0))
    refine ⟨blk, hblk, fun i hi => ?_⟩
    unfold Gfs.fileByte
    rw [(hdiv i hi).1, (hdiv i hi).2, if_neg h0, hblk]
    rfl

/-- **Past the end of a file there are zeros.** -/
theorem FileAt.zero_past (h : FileAt disk n) (hp : n.size ≤ pos) : fileByte disk n pos = 0 := by
  unfold Gfs.fileByte
  by_cases h0 : bmap n (pos / 4096) = 0
  · rw [if_pos h0]
  · rw [if_neg h0]
    rcases bmap_cases n (pos / 4096) with ⟨e, he, h1, h2, -⟩ | ⟨hz, -⟩
    · have heof := h.eof e he
      have hlast : pos / 4096 = n.size / 4096 := by omega
      rw [hlast] at h0 ⊢
      obtain ⟨blk, hblk⟩ := Option.isSome_iff_exists.mp (h.blocks _ (bmap_mem h0))
      rw [hblk]
      exact h.tail blk h0 hblk _ (by omega) (by omega)
    · exact absurd hz h0

/-- A record whose extents are in order and hold bytes that end with the file. -/
theorem FileAt.of_holds (hok : ExtsOk n.exts ((n.size + 4095) / 4096)) (h8 : n.nExtents ≤ 8)
    (ht : n.type = nodeData) (hs : n.size ≤ maxFileSize) (hC : Holds disk (bmap n) C)
    (hz : ∀ pos, n.size ≤ pos → pos < maxFileSize → C pos = 0) : FileAt disk n := by
  have hN := blocksFor_le hs
  have hbmap : ∀ lbn, bmap n lbn ≠ 0 → lbn < (n.size + 4095) / 4096 := by
    intro lbn h0
    rcases bmap_cases n lbn with ⟨e, he, h1, h2, -⟩ | ⟨hz', -⟩
    · have := hok.bound e he
      omega
    · exact absurd hz' h0
  refine ⟨h8, fun hd => absurd ht hd, hs, hok.pos, hok.sorted, hok.bound, fun b hb => ?_,
    fun blk h0 hblk i hi hi' => ?_⟩
  · rw [hok.extBlocks_eq] at hb
    obtain ⟨lbn, -, hlt, rfl, h0⟩ := mem_mapBlocks.mp hb
    have hl := hC lbn (by omega)
    rw [if_neg h0] at hl
    obtain ⟨blk, hblk, -⟩ := hl
    rw [hblk]
    rfl
  · have hlt := hbmap _ h0
    have hl := hC (n.size / 4096) (by omega)
    rw [if_neg h0] at hl
    obtain ⟨blk', hblk', hbytes⟩ := hl
    rw [hblk] at hblk'
    cases hblk'
    rw [hbytes i hi']
    exact hz _ (by omega) (by unfold maxFileSize; omega)

theorem content_length (disk : Nat → Option Bytes) (n : DiskNode) :
    (content disk n).length = n.size := by
  rw [content, length_map, length_range]

theorem content_getElem (h : i < (content disk n).length) :
    (content disk n)[i] = fileByte disk n i := by
  simp [content]

/-- The contents depend only on the blocks of the file. -/
theorem content_congr {disk' : Nat → Option Bytes} (h : ∀ b ∈ extBlocks n, disk' b = disk b) :
    content disk' n = content disk n := by
  refine map_congr_left fun pos _ => ?_
  unfold Gfs.fileByte
  split
  · rfl
  · rename_i h0
    rw [h _ (bmap_mem h0)]

end OnDevice

end Hallucinate.Gfs
