import Hallucinate.Gfs.FileSpec
import Hallucinate.Gfs.Scan

/-!
# What the reading calls see

`View.answer c disk V q` is the answer of the reading call `q` in terms of the tree `V` and of the
contents of its files on the device. **`wp_query`**: from a committed state every reading call gives
that answer or the error of a failed device read, and leaves the handle and the device alone.
-/

namespace Hallucinate.Gfs

open Lib List Multiset

/-! ## Answers -/

/-- The record of a node, if `node_read` accepts its id. -/
def View.get (c : Core) (V : View) (id : Nat) : Except Err DiskNode :=
  if id = 0 ∨ c.nodeCount ≤ id then .error .einval else .ok (V.recs id)

/-- The record of an allocated node. -/
def View.live (c : Core) (V : View) (id : Nat) : Except Err DiskNode := do
  let n ← V.get c id
  if n.type = nodeFree then .error .enoent else .ok n

def View.lookup (c : Core) (V : View) (dir : Nat) (name : List UInt8) : Except Err Nat := do
  let d ← V.get c dir
  if d.type ≠ nodeNamespace then .error .enotdir
  else match lookupName name (V.edges dir) with
    | some target => .ok target
    | none => .error .enoent

def View.resolve (c : Core) (V : View) : List (List UInt8) → Nat → Except Err Nat
  | [], cur => .ok cur
  | comp :: comps, cur =>
    if 255 < comp.length then .error .enametoolong
    else do
      let cur ← V.lookup c cur comp
      V.resolve c comps cur

def View.edgeGet (c : Core) (V : View) (id index : Nat) : Except Err Edge := do
  let _ ← V.live c id
  match (V.edges id)[index]? with
  | some e => .ok e
  | none => .error .einval

def View.read (c : Core) (disk : Nat → Option Bytes) (V : View) (id off len : Nat) :
    Except Err (List UInt8) := do
  let n ← V.live c id
  if n.type ≠ nodeData then .error .eisdir
  else .ok (((content disk n).drop off).take len)

/-- What `struct gfs_node` shows of a record. -/
def DiskNode.shown (n : DiskNode) : Node := ⟨n.type, n.mode, n.size, n.nlink, n.edgeCount, n.parent⟩

/-- The answer of a reading call. -/
def View.answer (c : Core) (disk : Nat → Option Bytes) (V : View) : Query → Except Err Answer
  | .nodeGet id => (V.live c id).map fun n => .node n.shown
  | .lookup dir name => (nameLenOk name >>= V.lookup c dir).map .id
  | .resolve path =>
    if path.bytes.head? ≠ some 47 then .error .einval
    else (V.resolve c (components path.bytes) c.rootNode).map .id
  | .edgeGet id index => (V.edgeGet c id index).map .edge
  | .read id off len => (V.read c disk id off len).map .bytes

variable {s s' : St} {tbl : Nat → Bp} {V : View} {leak : Multiset Nat} {Why : Err → Prop}

/-! ## Reading a committed state -/

/-- A reading call under way in the state `s`, with the node map in memory. -/
structure Peek (s : St) (tbl : Nat → Bp) (V : View) (s' : St) : Prop where
  loaded : Loaded s tbl V.recs s'
  idle : Idle s s'

variable {s'' : St}

theorem Idle.scratch (h : Idle s s') (hs : Scratch s' s'') : Idle s s'' :=
  ⟨hs.core.trans h.core, hs.disk.trans h.disk, hs.log.trans h.log⟩

theorem Idle.safe (h : Idle s s') (hlog : s.log = []) : Safe s s' :=
  ⟨h.core, fun b _ => congrFun h.disk b, by simp [h.log, hlog]⟩

theorem Safe.of_idle (h : Safe s' s'') (hi : Idle s s') : Safe s s'' := by
  obtain ⟨hcore, hdisk, hlog⟩ := h
  rw [hi.core] at hcore hdisk hlog
  rw [hi.disk] at hdisk
  exact ⟨hcore, hdisk, hlog⟩

theorem Peek.scratch (h : Peek s tbl V s') (hs : Scratch s' s'') : Peek s tbl V s'' :=
  ⟨h.loaded.scratch hs, h.idle.scratch hs⟩

theorem Abort.mono {s₀ : St} {Why' : Err → Prop} {e : Err} (h : Abort s₀ Why e s)
    (hw : Why e → Why' e) : Abort s₀ Why' e s :=
  ⟨h.1, h.2.imp_right hw⟩

theorem wp_mapLoad (h : Committed s tbl V leak) (hlog : s.log = []) :
    Wp mapLoad (outcome (fun _ s' => Peek s tbl V s') (Abort s Why)) s := by
  obtain ⟨m, hm, hcrc, hget⟩ := h.map
  have hsafe := Safe.start hlog
  have hnm : s.core.nodemap.phys ∈
      tblBlocks tbl + (s.core.nodemap.phys ::ₘ (leak + V.held s.core.nodeCount)) :=
    mem_add.mpr (Or.inr (mem_cons_self _ _))
  refine wp_getCore (wp_readMeta (h.marks.range _ hnm).2 hm hcrc ?_ (hsafe.setBuf.abort _))
  exact ⟨⟨hsafe.setBuf, h.geom.nodes.2, ⟨m, St.setBuf_same _ _ _, hget⟩, h.tables,
    fun b hb => (h.marks.range b (mem_add.mpr (Or.inl hb))).2⟩, rfl, rfl, rfl⟩

variable {id : Nat}

/-- The blocks of a node are blocks of the device. -/
theorem Committed.lt_total (h : Committed s tbl V leak) {b : Nat}
    (hb : b ∈ nodeHeld (V.recs id) (V.chain id)) : b < s.core.totalBlocks :=
  (h.marks.range b (mem_add.mpr (Or.inr (h.view.mem_heldBlocks hb)))).2

theorem Committed.chainOk (h : Committed s tbl V leak) (hi : Idle s s') (id : Nat) :
    ChainOk s s' (V.recs id).edgeHead (V.chain id) := by
  have hmem : ∀ b ∈ chainBlocks (V.chain id), b ∈ nodeHeld (V.recs id) (V.chain id) := fun b hb =>
    mem_nodeHeld.mpr (Or.inl hb)
  refine ⟨?_, fun b hb => h.lt_total (hmem b hb), ?_⟩
  · rw [hi.disk]
    exact (h.view.node id).chain
  · by_cases hid : id < s.core.nodeCount
    · have hnodup := (nodup_add.mp h.marks.nodup).2.1
      have hle : (chainBlocks (V.chain id) : Multiset Nat) ≤
          s.core.nodemap.phys ::ₘ (leak + V.held s.core.nodeCount) := by
        refine le_trans ?_ (le_cons_self _ _)
        refine le_trans ?_ (le_add_left _ _)
        have hone := Finset.single_le_sum (f := fun i => nodeHeld (V.recs i) (V.chain i))
          (fun i _ => zero_le _) (Finset.mem_range.mpr hid)
        exact le_trans (le_add_right _ _) hone
      exact coe_nodup.mp (nodup_of_le hle hnodup)
    · rw [(h.view.outside id (Or.inr (by omega))).2]
      exact nodup_nil

/-- Reading a record, as `View.get` has it. -/
theorem wp_get (h : Peek s tbl V s') :
    Wp (nodeRead id) (outcome (fun n s'' => V.get s.core id = .ok n ∧ n = V.recs id ∧
      Peek s tbl V s'') (Abort s fun e => V.get s.core id = .error e)) s' := by
  refine Wp.post (wp_nodeRead h.loaded fun hid => if_pos ?_) ?_
  · unfold ValidId at hid
    omega
  rintro n s'' ⟨rfl, hid, hsc⟩
  exact ⟨if_neg (not_or.mpr ⟨hid.1, Nat.not_le.mpr hid.2⟩), rfl, h.scratch hsc⟩

/-- Reading the record of an allocated node, and going on. -/
theorem wp_live {β : Type} {f : DiskNode → GfsM β} {P : β → St → Prop} (h : Peek s tbl V s')
    (hwhy : ∀ e, V.live s.core id = .error e → Why e)
    (hf : ∀ s'', V.live s.core id = .ok (V.recs id) → Peek s tbl V s'' →
      Wp (f (V.recs id)) (outcome P (Abort s Why)) s'') :
    Wp (nodeRead id >>= fun n => if n.type = nodeFree then fail .enoent else f n)
      (outcome P (Abort s Why)) s' := by
  refine Wp.bind ((wp_get h).mono (fun _ _ hp => hp) fun e s'' he => he.mono fun hg => hwhy e ?_) ?_
  · unfold View.live
    rw [hg]
    rfl
  rintro n s'' ⟨hg, rfl, hp⟩
  have hlive : V.live s.core id =
      if (V.recs id).type = nodeFree then .error .enoent else .ok (V.recs id) := by
    unfold View.live
    rw [hg]
    rfl
  by_cases hfree : (V.recs id).type = nodeFree
  · rw [if_pos hfree] at hlive ⊢
    exact wp_fail (hp.loaded.safe.abort_why (hwhy _ hlive))
  · rw [if_neg hfree] at hlive ⊢
    exact hf s'' hlive hp

/-! ## Names -/

theorem wp_resolveStep {dir : Nat} {name : List UInt8} (hc : Committed s tbl V leak)
    (h : Peek s tbl V s') :
    Wp (resolveStep dir name) (outcome (fun t s'' => V.lookup s.core dir name = .ok t ∧
      Peek s tbl V s'') (Abort s fun e => V.lookup s.core dir name = .error e)) s' := by
  unfold resolveStep
  refine Wp.bind ((wp_get h).mono (fun _ _ hp => hp) fun e s'' he => he.mono fun hg => ?_) ?_
  · unfold View.lookup
    rw [hg]
    rfl
  rintro n s'' ⟨hg, rfl, hp⟩
  have hlook : V.lookup s.core dir name = if (V.recs dir).type ≠ nodeNamespace then .error .enotdir
      else match lookupName name (V.edges dir) with
        | some target => .ok target
        | none => .error .enoent := by
    unfold View.lookup
    rw [hg]
    rfl
  by_cases hdir : (V.recs dir).type ≠ nodeNamespace
  · rw [if_pos hdir] at hlook ⊢
    exact wp_fail ⟨hp.loaded.safe, .inr hlook⟩
  · rw [if_neg hdir] at hlook ⊢
    refine (wp_edgeLookup name hp.loaded.safe (hc.chainOk hp.idle dir)).mono ?_ ?_
    · rintro t s₁ ⟨hfound, hsc⟩
      change lookupName name (V.edges dir) = some t at hfound
      rw [hfound] at hlook
      exact ⟨hlook, hp.scratch hsc⟩
    · intro e s₁ he
      refine he.abort hp.loaded.safe fun hnone => ?_
      change lookupName name (V.edges dir) = none at hnone
      rw [hnone] at hlook
      exact hlook

theorem wp_resolveWalk {comps : List (List UInt8)} {cur : Nat} (hc : Committed s tbl V leak)
    (h : Peek s tbl V s') :
    Wp (resolveWalk comps cur) (outcome (fun t s'' => V.resolve s.core comps cur = .ok t ∧
      Idle s s'') (Abort s fun e => V.resolve s.core comps cur = .error e)) s' := by
  induction comps generalizing cur s' with
  | nil => exact wp_pure ⟨rfl, h.idle⟩
  | cons comp comps ih =>
    unfold resolveWalk View.resolve
    by_cases hlong : 255 < comp.length
    · rw [if_pos hlong, if_pos hlong]
      exact wp_fail ⟨h.loaded.safe, .inr rfl⟩
    · rw [if_neg hlong, if_neg hlong]
      refine Wp.bind ((wp_resolveStep hc h).mono (fun _ _ hp => hp) fun e s'' he =>
        he.mono fun hl => ?_) ?_
      · rw [hl]
        rfl
      rintro t s'' ⟨hl, hp⟩
      rw [hl]
      exact ih hp

/-! ## Edges by index -/

/-- The walk to the block that has the edge; `running` edges are in the blocks passed. -/
theorem wp_edgeGetWalk {index fuel running : Nat} {bp : Bp} {cs : List EBlk} {e : Edge}
    (hs : Safe s s') (hc : ChainAt s'.disk bp cs)
    (hr : ∀ b ∈ chainBlocks cs, b < s.core.totalBlocks) (hf : cs.length ≤ fuel)
    (hrun : running ≤ index) (hwrap : running + (chainEdges cs).length < 2 ^ 32)
    (he : (chainEdges cs)[index - running]? = some e) :
    Wp (edgeGetWalk index fuel bp running) (outcome (fun r s'' => r = e ∧ Scratch s' s'')
      (Abort s Why)) s' := by
  induction cs generalizing fuel bp running s' with
  | nil => cases he
  | cons c cs ih =>
    obtain ⟨h1, h2, blk, hblk, hcrc, hes, hnext⟩ := hc
    rw [← h1] at hblk h2
    obtain ⟨fuel, rfl⟩ : ∃ n, fuel = n + 1 := ⟨fuel - 1, by simp at hf; omega⟩
    have hlt : bp.phys < s'.core.totalBlocks := by
      rw [hs.core, h1]
      exact hr _ mem_cons_self
    have hsc : Scratch s' (s'.setBuf .a (some blk)) := Scratch.setBuf s' (by decide)
    rw [chainEdges_cons, length_append] at hwrap
    rw [chainEdges_cons] at he
    unfold edgeGetWalk
    rw [if_neg h2]
    refine wp_fetchMeta hlt hblk hcrc (hs.setBuf.abort _) ?_
    rw [hes.count, Nat.mod_eq_of_lt (by omega)]
    by_cases hin : index < running + c.edges.length
    · rw [if_pos hin]
      have hk : index - running < c.edges.length := by omega
      rw [getElem?_append_left hk, getElem?_eq_getElem hk, Option.some_inj] at he
      have hget := (hes.get _ hk).trans he
      have hname := (hes.fits _ (getElem_mem hk)).name
      rw [he] at hname
      simp only [hget]
      rw [if_neg (by omega)]
      exact wp_pure ⟨rfl, hsc⟩
    · rw [if_neg hin]
      rw [getElem?_append_right (by omega)] at he
      refine (ih (hs.scratch hsc) hnext (fun b hb => hr b (mem_cons_of_mem _ hb))
        (by simp at hf; omega) (by omega) (by omega) ?_).post
        fun r s'' hp => ⟨hp.1, hsc.trans hp.2⟩
      rw [← he]
      congr 1
      omega

/-! ## File contents -/

/-- What a round of `gfs_read` adds: the bytes of a part of one block. -/
theorem map_fileByte (disk : Nat → Option Bytes) (n : DiskNode) {pos chunk : Nat}
    (hc : pos % 4096 + chunk ≤ 4096) :
    (List.range' pos chunk).map (fileByte disk n) =
      if bmap n (pos / 4096) = 0 then List.replicate chunk 0
      else slice ((disk (bmap n (pos / 4096))).getD zeroBlock) (pos % 4096) chunk := by
  apply ext_getElem
  · split <;> simp [slice_length]
  · intro i h1 h2
    rw [length_map, length_range'] at h1
    have hdiv : (pos + i) / 4096 = pos / 4096 := by omega
    have hmod : (pos + i) % 4096 = pos % 4096 + i := by omega
    rw [getElem_map, getElem_range', Nat.one_mul]
    unfold fileByte
    rw [hdiv, hmod]
    split
    · simp
    · simp [slice_getElem]

theorem wp_readWalk {n : DiskNode} {stop fuel pos : Nat} {out : List UInt8} (hs : Safe s s')
    (hfile : FileAt s'.disk n) (hr : ∀ b ∈ extBlocks n, b < s.core.totalBlocks)
    (hfuel : stop - pos ≤ fuel) :
    Wp (readWalk n stop fuel pos out) (outcome (fun r s'' => r = out ++
      (List.range' pos (stop - pos)).map (fileByte s'.disk n) ∧ Scratch s' s'') (Abort s Why)) s' := by
  induction fuel generalizing pos out s' with
  | zero =>
    unfold readWalk
    rw [if_pos (by omega), show stop - pos = 0 by omega]
    exact wp_pure ⟨by simp, Scratch.refl s'⟩
  | succ fuel ih =>
    unfold readWalk
    by_cases hdone : stop ≤ pos
    · rw [if_pos hdone, show stop - pos = 0 by omega]
      exact wp_pure ⟨by simp, Scratch.refl s'⟩
    rw [if_neg hdone]
    dsimp only
    have hpart := map_fileByte s'.disk n
      (show pos % 4096 + min (4096 - pos % 4096) (stop - pos) ≤ 4096 by omega)
    -- the rest of the read starts where this block, or the read, ends
    have hsplit : List.range' pos (stop - pos) =
        List.range' pos (min (4096 - pos % 4096) (stop - pos)) ++
          List.range' (pos + min (4096 - pos % 4096) (stop - pos))
            (stop - (pos + min (4096 - pos % 4096) (stop - pos))) := by
      rw [range'_append_1]
      congr 1
      omega
    by_cases h0 : bmap n (pos / 4096) = 0
    · rw [if_pos h0] at hpart ⊢
      refine (ih hs hfile (by omega)).post fun r s'' hp => ⟨?_, hp.2⟩
      rw [hp.1, hsplit, map_append, hpart, append_assoc]
    · rw [if_neg h0] at hpart ⊢
      have hmem := bmap_mem h0
      obtain ⟨blk, hblk⟩ := Option.isSome_iff_exists.mp (hfile.blocks _ hmem)
      have hsc : Scratch s' (s'.setBuf .b (some blk)) := Scratch.setBuf s' (by decide)
      refine wp_fetch (by rw [hs.core]; exact hr _ hmem) hblk (hs.setBuf.abort _) ?_
      refine (ih (hs.scratch hsc) hfile (by omega)).post fun r s'' hp => ⟨?_, hsc.trans hp.2⟩
      rw [hblk, Option.getD_some] at hpart
      rw [hp.1, hsplit, map_append, hpart, append_assoc]
      rfl

theorem content_slice (disk : Nat → Option Bytes) (n : DiskNode) (off len : Nat) :
    ((content disk n).drop off).take len =
      (List.range' off (min len (n.size - off))).map (fileByte disk n) := by
  apply ext_getElem
  · simp [content_length]
  · intro i h1 h2
    rw [getElem_take, getElem_drop, content_getElem, getElem_map,
      getElem_range', Nat.one_mul]

/-! ## The reading calls -/

section

variable (h : Committed s tbl V leak) (hlog : s.log = [])
include h hlog

theorem wp_gfsNodeGet :
    Wp (gfsNodeGet id) (outcome (fun n s' => (V.live s.core id).map DiskNode.shown = .ok n ∧ Idle s s')
      (Abort s fun e => (V.live s.core id).map DiskNode.shown = .error e)) s := by
  refine Wp.bind (wp_mapLoad h hlog) fun _ s₁ hp => ?_
  refine wp_live hp (fun e he => ?_) fun s₂ hlive hp => wp_pure ⟨?_, hp.idle⟩
  · rw [he]
    rfl
  · rw [hlive]
    rfl

theorem wp_gfsEdgeGet {index : Nat} (hcount : V.Counted) :
    Wp (gfsEdgeGet id index) (outcome (fun e s' => V.edgeGet s.core id index = .ok e ∧ Idle s s')
      (Abort s fun e => V.edgeGet s.core id index = .error e)) s := by
  refine Wp.bind (wp_mapLoad h hlog) fun _ s₁ hp => ?_
  refine wp_live hp (fun e he => ?_) fun s₂ hlive hp => ?_
  · unfold View.edgeGet
    rw [he]
    rfl
  have hcnt := (h.view.node id).edgeCount_eq (hcount id)
  have hget : V.edgeGet s.core id index = match (V.edges id)[index]? with
      | some e => .ok e
      | none => .error .einval := by
    unfold View.edgeGet
    rw [hlive]
    rfl
  by_cases hidx : (V.recs id).edgeCount ≤ index
  · rw [if_pos hidx]
    rw [getElem?_eq_none (by rw [View.edges, ← hcnt]; exact hidx)] at hget
    exact wp_fail ⟨hp.loaded.safe, .inr hget⟩
  rw [if_neg hidx]
  have hlt : index < (V.edges id).length := by
    unfold View.edges
    omega
  rw [getElem?_eq_getElem hlt] at hget
  have hok := h.chainOk hp.idle id
  refine wp_getCore ?_
  rw [hp.idle.core]
  refine (wp_edgeGetWalk hp.loaded.safe hok.chain hok.range hok.length_le (Nat.zero_le _) ?_
    (getElem?_eq_getElem hlt)).post fun r s₃ hr => ⟨?_, hp.idle.scratch hr.2⟩
  · rw [Nat.zero_add]
    exact hcount id
  · rw [hr.1]
    exact hget

theorem wp_gfsRead {off len : Nat} :
    Wp (gfsRead id off len) (outcome (fun bs s' => V.read s.core s.disk id off len = .ok bs ∧
      Idle s s') (Abort s fun e => V.read s.core s.disk id off len = .error e)) s := by
  refine Wp.bind (wp_mapLoad h hlog) fun _ s₁ hp => ?_
  refine wp_live hp (fun e he => ?_) fun s₂ hlive hp => ?_
  · unfold View.read
    rw [he]
    rfl
  have hread : V.read s.core s.disk id off len = if (V.recs id).type ≠ nodeData then .error .eisdir
      else .ok (((content s.disk (V.recs id)).drop off).take len) := by
    unfold View.read
    rw [hlive]
    rfl
  by_cases hdata : (V.recs id).type ≠ nodeData
  · rw [if_pos hdata] at hread ⊢
    exact wp_fail ⟨hp.loaded.safe, .inr hread⟩
  rw [if_neg hdata, content_slice] at hread
  rw [if_neg hdata]
  by_cases hoff : (V.recs id).size ≤ off
  · rw [if_pos hoff]
    rw [show min len ((V.recs id).size - off) = 0 by omega] at hread
    exact wp_pure ⟨hread, hp.idle⟩
  rw [if_neg hoff]
  have hfile : FileAt s₂.disk (V.recs id) := by
    rw [hp.idle.disk]
    exact (h.view.node id).file
  refine (wp_readWalk hp.loaded.safe hfile (fun b hb => h.lt_total (mem_nodeHeld.mpr (Or.inr hb)))
    (by omega)).post fun r s₃ hr => ⟨?_, hp.idle.scratch hr.2⟩
  rw [hr.1, hread, hp.idle.disk, nil_append, Nat.add_sub_cancel_left]

end

/-- A call whose value is wrapped as an answer. -/
theorem wp_answer {α : Type} {p : GfsM α} {mk : α → Answer} {r : Except Err α}
    (hp : Wp p (outcome (fun a s' => r = .ok a ∧ Idle s s') (Abort s fun e => r = .error e)) s) :
    Wp (p >>= fun a => pure (mk a)) (outcome (fun a s' => r.map mk = .ok a ∧ Idle s s')
      (Abort s fun e => r.map mk = .error e)) s := by
  refine Wp.bind (hp.mono (fun _ _ h => h) fun e s' he => he.mono fun hr => by rw [hr]; rfl) ?_
  rintro a s' ⟨hr, hidle⟩
  exact wp_pure ⟨by rw [hr]; rfl, hidle⟩

theorem wp_gfsResolve {path : CStr} (h : Committed s tbl V leak) (hlog : s.log = []) :
    Wp (Query.resolve path).prog
      (outcome (fun a s' => V.answer s.core s.disk (.resolve path) = .ok a ∧ Idle s s')
        (Abort s fun e => V.answer s.core s.disk (.resolve path) = .error e)) s := by
  unfold View.answer Query.prog gfsResolve
  by_cases hroot : path.bytes.head? ≠ some 47
  · simp only [if_pos hroot]
    exact wp_fail ⟨Safe.start hlog, .inr rfl⟩
  · simp only [if_neg hroot]
    refine wp_answer ?_
    refine Wp.bind (wp_mapLoad h hlog) fun _ s₁ hp => wp_getCore ?_
    rw [hp.idle.core]
    rw [resolveLoop_eq]
    exact wp_resolveWalk h hp

/-- **A reading call answers from the tree.** -/
theorem wp_query {q : Query} (h : Committed s tbl V leak) (hlog : s.log = [])
    (hcount : V.Counted) :
    Wp q.prog (outcome (fun a s' => V.answer s.core s.disk q = .ok a ∧ Idle s s')
      (Abort s fun e => V.answer s.core s.disk q = .error e)) s := by
  cases q with
  | nodeGet id =>
    have hmap : V.answer s.core s.disk (.nodeGet id) =
        ((V.live s.core id).map DiskNode.shown).map .node := by
      show (V.live s.core id).map _ = _
      cases V.live s.core id <;> rfl
    rw [hmap]
    exact wp_answer (wp_gfsNodeGet h hlog)
  | lookup dir name =>
    refine wp_answer ?_
    show Wp (check (nameLenOk name) >>= fun name => mapLoad >>= fun _ => resolveStep dir name) _ s
    cases hname : nameLenOk name with
    | error e => exact wp_fail ⟨Safe.start hlog, .inr rfl⟩
    | ok bytes =>
      show Wp (mapLoad >>= fun _ => resolveStep dir bytes) _ s
      refine Wp.bind (wp_mapLoad h hlog) fun _ s₁ hp => ?_
      exact (wp_resolveStep h hp).post fun t s₂ ht => ⟨ht.1, ht.2.idle⟩
  | resolve path => exact wp_gfsResolve h hlog
  | edgeGet id index => exact wp_answer (wp_gfsEdgeGet h hlog hcount)
  | read id off len => exact wp_answer (wp_gfsRead h hlog)

end Hallucinate.Gfs
