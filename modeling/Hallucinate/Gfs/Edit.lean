import Hallucinate.Gfs.EdgeSpec

/-!
# A transaction that edits a tree

The calls work on copies of node records and write them back at the end, in an order of their own.
`Edit s₀ tbl recs V leak k s` keeps both sides: `recs` are the records written so far, and `V` is the
tree the transaction is heading for, whose blocks are the ones it holds. Edges are added and removed
in `V`; writing a record changes `recs`; and a commit needs the two to agree (`wp_commitEdit`).

`Edit.set` is the one rule behind all changes of the tree: a node gets a new record and a new edge
chain, and what the other nodes hold (`View.around`) is left alone.
-/

namespace Hallucinate.Gfs

open Lib Function List

/-! ## What the other nodes hold -/

/-- The blocks of all nodes but `id`. -/
def View.others (V : View) (count id : Nat) : Multiset Nat :=
  ∑ i ∈ (Finset.range count).erase id, nodeHeld (V.recs i) (V.chain i)

/-- All blocks outside the tables but those of node `id`. -/
def View.around (V : View) (c : Core) (leak : Multiset Nat) (id : Nat) : Multiset Nat :=
  c.nodemap.phys ::ₘ (leak + V.others c.nodeCount id)

section Around

variable {V : View} {c : Core} {leak : Multiset Nat} {id i : Nat} {n : DiskNode} {cs : List EBlk}
  {disk disk' : Nat → Option Bytes}

@[simp] theorem View.set_recs_self : (V.set id n cs).recs id = n := update_self ..
@[simp] theorem View.set_chain_self : (V.set id n cs).chain id = cs := update_self ..
theorem View.set_recs_ne (h : i ≠ id) : (V.set id n cs).recs i = V.recs i :=
  update_of_ne h ..
theorem View.set_chain_ne (h : i ≠ id) : (V.set id n cs).chain i = V.chain i :=
  update_of_ne h ..

theorem View.set_same (V : View) (id : Nat) : V.set id (V.recs id) (V.chain id) = V := by
  unfold View.set
  rw [update_eq_self, update_eq_self]

theorem View.others_set (V : View) (count id : Nat) (n : DiskNode) (cs : List EBlk) :
    (V.set id n cs).others count id = V.others count id := by
  refine Finset.sum_congr rfl fun i hi => ?_
  have hne := (Finset.mem_erase.mp hi).1
  rw [View.set_recs_ne hne, View.set_chain_ne hne]

/-- **The blocks of a view with node `id` replaced.** -/
theorem heldBlocks_set (V : View) (leak : Multiset Nat) (n : DiskNode) (cs : List EBlk)
    (hid : id < c.nodeCount) : heldBlocks c (V.set id n cs) leak = nodeHeld n cs + V.around c leak id := by
  have hsum := Finset.add_sum_erase (Finset.range c.nodeCount)
    (fun i => nodeHeld ((V.set id n cs).recs i) ((V.set id n cs).chain i)) (Finset.mem_range.mpr hid)
  have hoth := V.others_set c.nodeCount id n cs
  unfold heldBlocks View.around View.held
  rw [← hsum, View.set_recs_self, View.set_chain_self]
  unfold View.others at hoth ⊢
  rw [hoth, add_left_comm, Multiset.add_cons]

theorem heldBlocks_eq (hid : id < c.nodeCount) :
    heldBlocks c V leak = nodeHeld (V.recs id) (V.chain id) + V.around c leak id := by
  have h := heldBlocks_set V leak (V.recs id) (V.chain id) hid
  rwa [View.set_same] at h

theorem ViewAt.set (h : ViewAt disk c.nodeCount V) (hid : ValidId c id)
    (hframe : ∀ b ∈ V.others c.nodeCount id, disk' b = disk b) (hnode : NodeAt disk' n cs) :
    ViewAt disk' c.nodeCount (V.set id n cs) := by
  refine ⟨fun i => ?_, fun i hi => ?_⟩
  · by_cases hne : i = id
    · subst hne
      rwa [View.set_recs_self, View.set_chain_self]
    · rw [View.set_recs_ne hne, View.set_chain_ne hne]
      exact (h.node i).congr fun b hb => hframe b (Multiset.mem_sum.mpr
        ⟨i, Finset.mem_erase.mpr ⟨hne, Finset.mem_range.mpr (h.lt hb)⟩, hb⟩)
  · have hne : i ≠ id := by
      rintro rfl
      exact hi.elim hid.1 (Nat.not_le.mpr hid.2)
    rw [View.set_recs_ne hne, View.set_chain_ne hne]
    exact h.outside i hi

end Around

/-! ## Records with other fields changed -/

variable {bp : Bp} {count : Nat}

section Records

variable {disk disk' : Nat → Option Bytes} {n n' : DiskNode} {cs cs' : List EBlk}

theorem exts_congr (hx : n'.nExtents = n.nExtents) (he : n'.ext = n.ext) : n'.exts = n.exts := by
  unfold DiskNode.exts DiskNode.extAt
  rw [hx, he]

theorem extBlocks_congr (hx : n'.nExtents = n.nExtents) (he : n'.ext = n.ext) :
    extBlocks n' = extBlocks n := by
  unfold extBlocks
  rw [exts_congr hx he]

/-- The file of a node depends on four fields of its record. -/
theorem FileAt.record (h : FileAt disk n) (ht : n'.type = n.type) (hs : n'.size = n.size)
    (hx : n'.nExtents = n.nExtents) (he : n'.ext = n.ext) : FileAt disk n' := by
  have hexts := exts_congr hx he
  have hbmap : bmap n' = bmap n := by
    unfold bmap
    rw [hexts]
  have hblocks := extBlocks_congr hx he
  refine ⟨hx ▸ h.count, fun hd => hx ▸ h.data (ht ▸ hd), hs ▸ h.size, hexts ▸ h.pos, hexts ▸ h.sorted,
    ?_, hblocks ▸ h.blocks, ?_⟩
  · rw [hexts, hs]
    exact h.eof
  · rw [hbmap, hs]
    exact h.tail

/-- A node with another edge chain. -/
theorem NodeAt.rechain (h : NodeAt disk n cs) (hf : bp.Fits) (hc : ChainAt disk' bp cs')
    (hp : Packed cs') (hcount : count = (chainEdges cs').length % 2 ^ 32)
    (hd : ∀ b ∈ extBlocks n, disk' b = disk b) :
    NodeAt disk' { n with edgeHead := bp, edgeCount := count } cs' := by
  have hfits := h.fits
  refine ⟨⟨hfits.type, hfits.mode, hfits.size, hfits.nlink, hfits.nExtents, ?_, hfits.parent, hf,
    hfits.ext⟩, hc, hp, hcount, (h.file.congr hd).record rfl rfl rfl rfl⟩
  rw [hcount]
  exact Nat.mod_lt _ (by decide)

/-- A node with another link count and parent. -/
theorem NodeAt.relink (h : NodeAt disk n cs) {nlink parent : Nat} (hl : nlink < 2 ^ 32)
    (hp : parent < 2 ^ 64) : NodeAt disk { n with nlink := nlink, parent := parent } cs :=
  ⟨⟨h.fits.type, h.fits.mode, h.fits.size, hl, h.fits.nExtents, h.fits.edgeCount, hp,
    h.fits.edgeHead, h.fits.ext⟩, h.chain, h.packed, h.count, h.file.record rfl rfl rfl rfl⟩

end Records

/-! ## Edits -/

structure Edit (s₀ : St) (tbl : Nat → Bp) (recs : Nat → DiskNode) (V : View) (leak : Multiset Nat)
    (k : Nat) (s : St) : Prop where
  txn : Txn s₀ tbl recs (heldBlocks s₀.core V leak) k s
  view : ViewAt s.disk s₀.core.nodeCount V

variable {s₀ s s' : St} {tbl tbl' : Nat → Bp} {recs recs' : Nat → DiskNode} {V : View}
  {leak : Multiset Nat} {k k' id : Nat} {Why : Err → Prop} {n : DiskNode} {cs : List EBlk}

namespace Edit

section

variable (h : Edit s₀ tbl recs V leak k s)
include h

theorem scratch (hs : Scratch s s') : Edit s₀ tbl recs V leak k s' :=
  ⟨h.txn.scratch hs, by rw [hs.disk]; exact h.view⟩

/-- **A node gets a new record and a new edge chain.** -/
theorem set (hid : ValidId s₀.core id)
    (ht : Txn s₀ tbl' recs' (nodeHeld n cs + V.around s₀.core leak id) k' s')
    (hframe : ∀ b ∈ V.around s₀.core leak id, s'.disk b = s.disk b) (hnode : NodeAt s'.disk n cs) :
    Edit s₀ tbl' recs' (V.set id n cs) leak k' s' := by
  refine ⟨?_, h.view.set hid (fun b hb => hframe b ?_) hnode⟩
  swap
  · exact Multiset.mem_cons_of_mem (Multiset.mem_add.mpr (Or.inr hb))
  rw [heldBlocks_set V leak n cs hid.2]
  exact ht

/-- A new record with the same blocks. -/
theorem setRec (hid : ValidId s₀.core id) (hext : extBlocks n = extBlocks (V.recs id))
    (hnode : NodeAt s.disk n (V.chain id)) :
    Edit s₀ tbl recs (V.set id n (V.chain id)) leak k s := by
  refine h.set hid ?_ (fun _ _ => rfl) hnode
  have htxn := h.txn
  rw [heldBlocks_eq hid.2] at htxn
  unfold nodeHeld at htxn ⊢
  rwa [hext]

/-- The edge chain of a node, in a form that can be walked. -/
theorem chainOk (id : Nat) : ChainOk s₀ s (V.recs id).edgeHead (V.chain id) := by
  by_cases hid : id < s₀.core.nodeCount
  · have hsub : (chainBlocks (V.chain id) : Multiset Nat) ≤ heldBlocks s₀.core V leak := by
      rw [heldBlocks_eq hid]
      unfold nodeHeld
      rw [add_assoc]
      exact Multiset.le_add_right _ _
    refine ⟨(h.view.node id).chain, fun b hb => ?_, ?_⟩
    · exact (h.txn.range_rest (Multiset.mem_of_le hsub (Multiset.mem_coe.mpr hb))).2
    · exact Multiset.coe_nodup.mp (Multiset.nodup_of_le hsub (Multiset.nodup_add.mp h.txn.nodup).2.1)
  · have hout := (h.view.outside id (Or.inr (by omega))).2
    have hchain := (h.view.node id).chain
    rw [hout] at hchain ⊢
    exact ⟨hchain, by simp [chainBlocks], by simp [chainBlocks]⟩

end

end Edit

/-- Reading a record of the tree. -/
theorem wp_readEdit (h : Edit s₀ tbl V.recs V leak k s) (hwhy : ¬ValidId s₀.core id → Why .einval) :
    Wp (nodeRead id) (outcome (fun n s' => n = V.recs id ∧ ValidId s₀.core id ∧
      Edit s₀ tbl V.recs V leak k s') (Abort s₀ Why)) s :=
  (wp_nodeRead h.txn.loaded hwhy).post fun _ _ hp => ⟨hp.1, hp.2.1, h.scratch hp.2.2⟩

/-- A record that is set fits. -/
theorem Edit.fits (h : Edit s₀ tbl recs (V.set id n cs) leak k s) : n.Fits := by
  have hf := (h.view.node id).fits
  rwa [View.set_recs_self] at hf

/-- A transaction starts as an edit with nothing to do. -/
theorem wp_beginEdit (h : Committed s tbl V leak) (hlog : s.log = []) :
    Wp txnBegin (outcome (fun _ s' => Edit s tbl V.recs V leak 0 s') (Abort s Why)) s :=
  (wp_txnBegin h.toLive hlog).post fun _ s' hp => ⟨hp.1, by rw [hp.2.1]; exact h.view⟩

section

variable (h : Edit s₀ tbl recs V leak k s) (hid : ValidId s₀.core id)
include h hid

theorem wp_writeEdit (hn : n.Fits) (hwhy : s₀.clear ≤ k → Why .enospc) :
    Wp (nodeWrite id n) (outcome (fun _ s' => ∃ tbl', Edit s₀ tbl' (update recs id n) V leak
      (k + 1) s' ∧ Repoints tbl id tbl') (Abort s₀ Why)) s := by
  refine (wp_nodeWrite h.txn hid.2 hn hwhy).post ?_
  rintro _ s' ⟨tbl', h', hframe, hre⟩
  exact ⟨tbl', ⟨h', h.view.congr fun i b hb => hframe b (h.view.mem_heldBlocks hb)⟩, hre⟩

/-- The blocks of a node, its edge chain first. -/
theorem Edit.split :
    Txn s₀ tbl recs (chainBlocks (V.chain id) + (extBlocks (V.recs id) + V.around s₀.core leak id))
      k s := by
  have htxn := h.txn
  rw [heldBlocks_eq hid.2] at htxn
  unfold nodeHeld at htxn
  rwa [add_assoc] at htxn

/-- A rebuilt edge chain, back in the tree. -/
theorem Edit.rechain (hre : Rechained s₀ tbl recs (extBlocks (V.recs id) +
      V.around s₀.core leak id) k' s.disk bp cs s')
    (hcount : count = (chainEdges cs).length % 2 ^ 32) :
    Edit s₀ tbl recs (V.set id { V.recs id with edgeHead := bp, edgeCount := count } cs) leak k' s' := by
  refine h.set hid ?_ (fun b hb => hre.frame b (Multiset.mem_add.mpr (Or.inr hb))) ?_
  · have htxn := hre.txn
    rw [← add_assoc] at htxn
    exact htxn
  · exact (h.view.node id).rechain hre.fits hre.chain hre.packed hcount fun b hb =>
      hre.frame b (Multiset.mem_add.mpr (Or.inl (Multiset.mem_coe.mpr hb)))

/-- Node `n` of the tree with one more edge `e`. -/
def View.AddsEdge (V : View) (id : Nat) (e : Edge) (n : DiskNode) (cs : List EBlk) : Prop :=
  chainEdges cs = addEdge (chainEdges (V.chain id)) e ∧
    ∃ bp, n = { V.recs id with edgeHead := bp, edgeCount := ((V.recs id).edgeCount + 1) % 2 ^ 32 }

/-- **`edge_add` in an edit.** -/
theorem wp_addEdit {e : Edge} (he : e.Fits) (hwhy : s₀.clear ≤ k → Why .enospc) :
    Wp (edgeAdd (V.recs id) e) (outcome (fun n s' => ∃ cs, V.AddsEdge id e n cs ∧
      Edit s₀ tbl recs (V.set id n cs) leak (k + 1) s') (Abort s₀ Why)) s := by
  have hnode := h.view.node id
  refine (wp_edgeAdd (h.split hid) hnode.chain hnode.packed hnode.fits.edgeHead he hwhy).post ?_
  rintro n s' ⟨bp, cs, hre, hadd, rfl⟩
  refine ⟨cs, ⟨hadd, bp, rfl⟩, h.rechain hid hre ?_⟩
  rw [hadd, addEdge_length, hnode.count]
  omega

/-- Node `n` of the tree without the edge called `name`. -/
def View.DropsEdge (V : View) (id : Nat) (name : List UInt8) (n : DiskNode) (cs : List EBlk) : Prop :=
  chainEdges cs = recopy (dropName name (chainEdges (V.chain id))) ∧
    ∃ bp, n = { V.recs id with
      edgeHead := bp,
      edgeCount := (dropName name (chainEdges (V.chain id))).length % 2 ^ 32 }

/-- **`edge_remove_name` in an edit**: the new chain is in fresh blocks. -/
theorem wp_removeEdit {name : List UInt8}
    (hwhy : s₀.clear ≤ k + (chainEdges (V.chain id)).length / 14 → Why .enospc)
    (hno : lookupName name (chainEdges (V.chain id)) = none → Why .enoent) :
    Wp (edgeRemoveName (V.recs id) name) (outcome (fun r s' => ∃ cs, V.DropsEdge id name r.1 cs ∧
      lookupName name (chainEdges (V.chain id)) = some r.2 ∧
      (∀ b ∈ chainBlocks cs, bitTest s₀.core.committed b = false) ∧
      Edit s₀ tbl recs (V.set id r.1 cs) leak (k + cs.length) s') (Abort s₀ Why)) s := by
  refine (wp_edgeRemoveName (h.split hid) (h.chainOk id) hwhy hno).post ?_
  rintro ⟨n, target⟩ s' ⟨bp, cs, hre, hfresh, hcopy, hlook, hn⟩
  simp only at hn hlook
  subst hn
  refine ⟨cs, ⟨hcopy, bp, rfl⟩, hlook, hfresh, h.rechain hid hre ?_⟩
  rw [hcopy, recopy_length]

end

/-! ## Dropping a link -/

variable {rest : Multiset Nat} {E : Err → St → Prop}

/-- A loop that frees blocks outside the tables. -/
theorem wp_freeRun {phys : Nat} {js : List Nat} (h : Txn s₀ tbl recs rest k s)
    (hr : ∀ j ∈ js, dataFirst s₀.core ≤ phys + j ∧ phys + j ∉ tblBlocks tbl) :
    Wp (freeRun phys js) (outcome (fun _ s' => Txn s₀ tbl recs (rest - js.map (phys + ·)) k s' ∧
      ∃ w, s' = s.setWorking w) E) s := by
  induction js generalizing s rest with
  | nil =>
    obtain ⟨w, hw, -⟩ := h.work
    refine wp_pure ⟨?_, w, ?_⟩
    · rwa [map_nil, Multiset.coe_nil, Multiset.sub_zero]
    · rw [St.setWorking, ← hw]
  | cons j js ih =>
    obtain ⟨hfirst, htbl⟩ := hr j mem_cons_self
    refine Wp.bind (P := fun _ s' => Txn s₀ tbl recs (rest.erase (phys + j)) k s' ∧
      ∃ w, s' = s.setWorking w) (wp_freeBlock h hfirst htbl fun w h' => ⟨h', w, rfl⟩) ?_
    rintro _ s₁ ⟨h₁, w, rfl⟩
    refine (ih h₁ fun j hj => hr j (mem_cons_of_mem _ hj)).post ?_
    rintro _ s₂ ⟨h₂, w', rfl⟩
    rw [map_cons, ← Multiset.cons_coe, Multiset.sub_cons]
    exact ⟨h₂, w', rfl⟩

/-- The loop that frees the extents of a node. -/
theorem wp_freeExts (h : Txn s₀ tbl recs rest k s)
    (hr : ∀ b ∈ extBlocks n, dataFirst s₀.core ≤ b ∧ b ∉ tblBlocks tbl) :
    Wp (Prog.foldP (fun _ k => freeRun (n.extAt k).phys (List.range (n.extAt k).len)) ()
      (List.range n.nExtents)) (outcome (fun _ s' => Txn s₀ tbl recs (rest - extBlocks n) k s' ∧
      ∃ w, s' = s.setWorking w) E) s := by
  refine Wp.loop (I := fun i _ s' => Txn s₀ tbl recs
    (rest - ((List.range i).map n.extAt).flatMap Extent.blocks) k s' ∧ ∃ w, s' = s.setWorking w)
    ?_ ?_
  · obtain ⟨w, hw, -⟩ := h.work
    refine ⟨?_, w, ?_⟩
    · rwa [range_zero, map_nil, flatMap_nil, Multiset.coe_nil, Multiset.sub_zero]
    · rw [St.setWorking, ← hw]
  · rintro i _ s₁ hi ⟨h₁, w, rfl⟩
    refine (wp_freeRun h₁ fun j hj => hr _ ?_).post ?_
    · refine mem_flatMap.mpr ⟨n.extAt i, mem_map.mpr ⟨i, mem_range.mpr hi, rfl⟩, ?_⟩
      exact mem_map.mpr ⟨j, hj, rfl⟩
    · rintro _ s₂ ⟨h₂, w', rfl⟩
      refine ⟨?_, w', rfl⟩
      rw [range_succ, map_append, flatMap_append, ← Multiset.coe_add,
        tsub_add_eq_tsub_tsub, map_singleton, flatMap_singleton]
      exact h₂

/-- The record that `gfs_unlink` and `gfs_rename` leave of a node that loses a link. -/
def dropped (t : DiskNode) : DiskNode := if (unlinked t).nlink = 0 then zeroNode else unlinked t

/-- Its edge chain. -/
def droppedChain (t : DiskNode) (cs : List EBlk) : List EBlk :=
  if (unlinked t).nlink = 0 then [] else cs

/-- The change of the free-node count. -/
def droppedDelta (t : DiskNode) : Int := if (unlinked t).nlink = 0 then 1 else 0

theorem unlinked_at {disk : Nat → Option Bytes} (h : NodeAt disk n cs) :
    NodeAt disk (unlinked n) cs := by
  unfold unlinked
  have hlt : (n.nlink + (2 ^ 32 - 1)) % 2 ^ 32 < 2 ^ 32 := Nat.mod_lt _ (by decide)
  exact h.relink hlt h.fits.parent

theorem extBlocks_unlinked (n : DiskNode) : extBlocks (unlinked n) = extBlocks n :=
  extBlocks_congr (by unfold unlinked; rfl) (by unfold unlinked; rfl)

/-- Giving up what a node holds, seen from the rest. -/
theorem sub_nodeHeld (n : DiskNode) (cs : List EBlk) (A : Multiset Nat) :
    nodeHeld n cs + A - extBlocks n - chainBlocks cs = A := by
  unfold nodeHeld
  rw [← tsub_add_eq_tsub_tsub, add_comm (extBlocks n : Multiset Nat), add_tsub_cancel_left]

/-- **Dropping a link of a node of the tree.** -/
theorem wp_dropLink (h : Edit s₀ tbl recs V leak k s) (hid : ValidId s₀.core id)
    (hwhy : s₀.clear ≤ k → Why .enospc) :
    Wp (dropLink id (V.recs id)) (outcome (fun delta s' => delta = droppedDelta (V.recs id) ∧
      ∃ tbl', Edit s₀ tbl' (update recs id (dropped (V.recs id)))
        (V.set id (dropped (V.recs id)) (droppedChain (V.recs id) (V.chain id))) leak (k + 1) s' ∧
        Repoints tbl id tbl') (Abort s₀ Why)) s := by
  have hnode := h.view.node id
  unfold dropLink
  by_cases hz : (unlinked (V.recs id)).nlink = 0
  · have hrec : dropped (V.recs id) = zeroNode := if_pos hz
    have hchain : droppedChain (V.recs id) (V.chain id) = [] := if_pos hz
    have hdelta : droppedDelta (V.recs id) = 1 := if_pos hz
    rw [if_pos hz, hrec, hchain, hdelta]
    have htxn := h.txn
    rw [heldBlocks_eq hid.2] at htxn
    have hheld : ∀ b ∈ nodeHeld (V.recs id) (V.chain id),
        dataFirst s₀.core ≤ b ∧ b ∉ tblBlocks tbl := fun b hb =>
      ⟨(htxn.range_rest (Multiset.mem_add.mpr (Or.inl hb))).1,
        htxn.not_mem_tbl (Multiset.mem_add.mpr (Or.inl hb))⟩
    refine Wp.bind (wp_freeExts htxn fun b hb => hheld b (mem_nodeHeld.mpr (Or.inr hb))) ?_
    rintro _ s₁ ⟨h₁, w, rfl⟩
    have hok : ChainOk s₀ (s.setWorking w) (V.recs id).edgeHead (V.chain id) :=
      ⟨(h.chainOk id).chain, (h.chainOk id).range, (h.chainOk id).nodup⟩
    refine Wp.bind (wp_edgeChainFree h₁ hok fun b hb => hheld b (mem_nodeHeld.mpr (Or.inl hb))) ?_
    rintro _ s₂ ⟨h₂, hd⟩
    rw [sub_nodeHeld] at h₂
    have hd' : s₂.disk = s.disk := hd
    have h₃ : Edit s₀ tbl recs (V.set id zeroNode []) leak k s₂ :=
      h.set hid (by rwa [nodeHeld_zeroNode, zero_add]) (fun b _ => by rw [hd']) (zeroNode_at _)
    refine Wp.bind (wp_writeEdit h₃ hid zeroNode_fits hwhy) ?_
    rintro _ s₃ h₄
    exact wp_pure ⟨rfl, h₄⟩
  · have hrec : dropped (V.recs id) = unlinked (V.recs id) := if_neg hz
    have hchain : droppedChain (V.recs id) (V.chain id) = V.chain id := if_neg hz
    have hdelta : droppedDelta (V.recs id) = 0 := if_neg hz
    rw [if_neg hz, hrec, hchain, hdelta]
    have h₁ := h.setRec hid (extBlocks_unlinked _) (unlinked_at hnode)
    refine Wp.bind (wp_writeEdit h₁ hid (unlinked_at hnode).fits hwhy) ?_
    rintro _ s₂ h₂
    exact wp_pure ⟨rfl, h₂⟩

/-- **The commit of an edit**, once every record of the tree has been written. -/
theorem wp_commitEdit {delta : Int} (h : Edit s₀ tbl recs V leak k s) (hrecs : recs = V.recs)
    (hwhy : s₀.clear ≤ k → Why .enospc) :
    Wp (txnCommit delta) (outcome (fun _ s' => Committed s' tbl V leak ∧
      ∃ rest, Published s₀ tbl rest delta s s') (Abort s₀ Why)) s := by
  subst hrecs
  exact wp_commit h.txn h.view hwhy

end Hallucinate.Gfs
