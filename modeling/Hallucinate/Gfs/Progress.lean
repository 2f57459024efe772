import Hallucinate.Gfs.LinkCount

/-!
# Calls that succeed

The specifications of the calls say what follows when a call returns. Here are the other halves: a
call whose checks pass, with blocks enough, returns `GFS_OK` on a device that does not fail.

* `Committed.clear_add` counts the free blocks of a committed state, and `Committed.clear_ge` bounds
  them from below on a file system of directories, by the number of edges.
* `Stage l s tbl V`: a small file system whose nodes are those of the list `l`. **`Stage.createAt`**,
  `Stage.tag` and `Stage.unlink`: what a call does to the list.
* `exists_firstNode`: a run that makes one node on a new file system.
-/

namespace Hallucinate.Gfs

open Lib List Multiset

variable {s : St} {V : View} {tbl : Nat → Bp} {leak : Multiset Nat}

/-! ## Free blocks -/

/-- **Every block is free, reserved, or held once.** -/
theorem Committed.clear_add (h : Committed s tbl V leak) :
    s.clear + ((tblBlocks tbl).card + 1 + leak.card + (V.held s.core.nodeCount).card) +
      dataFirst s.core = s.core.totalBlocks := by
  have hfirst := h.geom.first
  have hsum := h.marks.countClear (by omega)
  rw [card_add, card_cons, card_add] at hsum
  unfold St.clear
  omega

theorem card_tblBlocks_le (tbl : Nat → Bp) : (tblBlocks tbl).card ≤ 256 := by
  have hle : ∀ slot ∈ Finset.range 256, ((tbl slot).blocks).card ≤ 1 := by
    intro slot _
    unfold Bp.blocks
    split
    · exact Nat.zero_le 1
    · exact le_rfl
  unfold tblBlocks
  rw [card_sum]
  exact (Finset.sum_le_card_nsmul _ _ 1 hle).trans (by rw [Finset.card_range]; exact le_rfl)

variable {n : DiskNode}

theorem card_nodeHeld (cs : List EBlk) (h : n.nExtents = 0) : (nodeHeld n cs).card = cs.length := by
  unfold nodeHeld chainBlocks
  rw [extBlocks_of_nExtents h, coe_nil, add_zero, coe_card, length_map]

/-- The free blocks of a file system of directories. -/
theorem Committed.clear_ge (h : Committed s tbl V leak)
    (hdirs : ∀ id, (V.graph id).type ≠ nodeData) :
    s.core.totalBlocks ≤ s.clear + dataFirst s.core + 257 + leak.card +
      ∑ id ∈ Finset.range s.core.nodeCount, ((V.graph id).edges.card / 14 + 1) := by
  have hsum := h.clear_add
  have htbl := card_tblBlocks_le tbl
  have hheld : (V.held s.core.nodeCount).card ≤
      ∑ id ∈ Finset.range s.core.nodeCount, ((V.graph id).edges.card / 14 + 1) := by
    unfold View.held
    rw [card_sum]
    refine Finset.sum_le_sum fun id _ => ?_
    have hnode := h.view.node id
    rw [card_nodeHeld _ (hnode.file.data (hdirs id))]
    exact hnode.packed.blocks_le
  omega

/-- On 1000 blocks a few directories with a few edges leave room. -/
theorem Committed.small_clear (h : Committed s tbl V 0) (hn : s.core.nodeCount ≤ 20)
    (ht : s.core.totalBlocks = 1000) (hdirs : ∀ id, (V.graph id).type ≠ nodeData)
    (hedges : ∀ id, (V.graph id).edges.card ≤ 2) : 4 ≤ s.clear := by
  have hge := h.clear_ge hdirs
  have hsum : ∑ id ∈ Finset.range s.core.nodeCount, ((V.graph id).edges.card / 14 + 1) ≤ 20 := by
    refine (Finset.sum_le_card_nsmul _ _ 1 fun id _ => ?_).trans ?_
    · have := hedges id
      omega
    · simpa using hn
  have hfirst : dataFirst s.core = 4 := by
    rw [h.geom.dataFirst_eq, h.geom.blocks, ht]
    rfl
  rw [ht, hfirst, card_zero] at hge
  omega

variable {s' : St}

theorem Published.generation {s₁ : St} {rest : Multiset Nat} {delta : Int}
    (h : Published s tbl rest delta s₁ s') :
    s'.core.generation = (s.core.generation + 1) % 2 ^ 64 := by
  obtain ⟨mp, m, w, hc, -⟩ := h.core
  rw [hc]
  rfl

/-! ## Nodes in a list -/

/-- What is known of a node. The edges are in the order of the device. -/
structure Spot where
  type : Nat
  nlink : Nat
  parent : Nat
  edges : List Edge
  deriving DecidableEq

def freeSpot : Spot := ⟨nodeFree, 0, 0, []⟩

def Spot.vertex (p : Spot) : Vertex := ⟨p.type, p.nlink, p.parent, p.edges⟩

def View.spot (V : View) (id : Nat) : Spot :=
  ⟨(V.recs id).type, (V.recs id).nlink, (V.recs id).parent, V.edges id⟩

def spotAt (l : List Spot) (id : Nat) : Spot := l.getD id freeSpot

/-- The list with other edges of one node. -/
def withEdges (l : List Spot) (id : Nat) (es : List Edge) : List Spot :=
  l.set id { spotAt l id with edges := es }

/-- The list with a new entry `v` of the directory `dir`. -/
def made (l : List Spot) (dir : Nat) (name : List UInt8) (type v : Nat) : List Spot :=
  withEdges (l.set v ⟨type, 1, if type = nodeNamespace then dir else 0, []⟩) dir
    (addEdge (spotAt l dir).edges ⟨edgeName, v, name⟩)

/-- The list without an entry and its target. -/
def unmade (l : List Spot) (dir : Nat) (name : List UInt8) (target : Nat) : List Spot :=
  (withEdges l dir (recopy (dropName name (spotAt l dir).edges))).set target freeSpot

theorem spotAt_set {l : List Spot} {i : Nat} (p : Spot) (hi : i < l.length) (id : Nat) :
    spotAt (l.set i p) id = if id = i then p else spotAt l id := by
  unfold spotAt
  rw [getD_eq_getElem?_getD, getD_eq_getElem?_getD, getElem?_set]
  by_cases h : id = i
  · rw [if_pos h.symm, if_pos h, if_pos (h ▸ hi), Option.getD_some]
  · rw [if_neg (Ne.symm h), if_neg h]

theorem spotAt_mem (l : List Spot) (id : Nat) : spotAt l id ∈ l ∨ spotAt l id = freeSpot := by
  unfold spotAt
  rw [getD_eq_getElem?_getD]
  cases h : l[id]? with
  | none => exact .inr rfl
  | some p => exact .inl (mem_of_getElem? h)

/-- The list of the nodes of a view. -/
def Spots (l : List Spot) (V : View) : Prop := ∀ id, V.spot id = spotAt l id

theorem Spots.set {l : List Spot} {id : Nat} {cs : List EBlk} {p : Spot} (h : Spots l V)
    (hid : id < l.length) (hp : (⟨n.type, n.nlink, n.parent, chainEdges cs⟩ : Spot) = p) :
    Spots (l.set id p) (V.set id n cs) := by
  intro i
  rw [spotAt_set p hid]
  unfold View.spot View.edges
  by_cases hi : i = id
  · rw [hi, View.set_recs_self, View.set_chain_self, if_pos rfl, hp]
  · rw [View.set_recs_ne hi, View.set_chain_ne hi, if_neg hi]
    exact h i

/-- A file system of 1000 blocks whose nodes are those of the list. -/
structure Stage (l : List Spot) (s : St) (tbl : Nat → Bp) (V : View) : Prop where
  committed : Committed s tbl V 0
  nodes : s.core.nodeCount = l.length
  total : s.core.totalBlocks = 1000
  spots : Spots l V

/-- A few directories with a few edges. -/
def Light (l : List Spot) : Prop :=
  l.length ≤ 20 ∧ ∀ p ∈ l, p.type ≠ nodeData ∧ p.edges.length ≤ 2

instance (l : List Spot) : Decidable (Light l) := inferInstanceAs (Decidable (_ ∧ _))

section

variable {l : List Spot} {name : CStr}

section

variable (h : Stage l s tbl V)
include h

theorem Stage.shows : Shows s V := ⟨tbl, 0, h.committed⟩

theorem Stage.same (hc : Committed s' tbl V 0) (hcore : s'.core = s.core) : Stage l s' tbl V :=
  ⟨hc, hcore.symm ▸ h.nodes, hcore.symm ▸ h.total, h.spots⟩

theorem Stage.validId {v : Nat} (h0 : v ≠ 0) (hv : v < l.length) : ValidId s.core v :=
  ⟨h0, h.nodes ▸ hv⟩

theorem Stage.type (id : Nat) : (V.recs id).type = (spotAt l id).type :=
  congrArg Spot.type (h.spots id)

theorem Stage.edges (id : Nat) : V.edges id = (spotAt l id).edges :=
  congrArg Spot.edges (h.spots id)

theorem Stage.light (hl : Light l) (id : Nat) :
    (V.recs id).type ≠ nodeData ∧ (V.edges id).length ≤ 2 := by
  rw [h.type, h.edges]
  rcases spotAt_mem l id with hm | hm
  · exact hl.2 _ hm
  · rw [hm]
    exact ⟨by decide, by decide⟩

theorem Stage.counted (hl : Light l) : V.Counted := fun id =>
  (h.light hl id).2.trans_lt (by decide)

theorem Stage.clear (hl : Light l) : 4 ≤ s.clear :=
  h.committed.small_clear (h.nodes.trans_le hl.1) h.total (fun id => (h.light hl id).1) fun id =>
    (h.light hl id).2

/-- An entry for `v`, the first free node, can be made in `dir`. -/
def CanMake (l : List Spot) (dir : Nat) (name : List UInt8) (v : Nat) : Prop :=
  (dir ≠ 0 ∧ dir < l.length ∧ (spotAt l dir).type = nodeNamespace ∧
    lookupName name (spotAt l dir).edges = none) ∧
  (v ≠ 0 ∧ v < l.length ∧ spotAt l v = freeSpot) ∧ ∀ j < v, j ≠ 0 → (spotAt l j).type ≠ nodeFree

instance (l : List Spot) (dir : Nat) (name : List UInt8) (v : Nat) :
    Decidable (CanMake l dir name v) := inferInstanceAs (Decidable (_ ∧ _ ∧ _))

/-- **`gfs_create_at` succeeds.** -/
theorem Stage.createAt {type : Nat} (dir v : Nat) (hl : Light l) (ht : CreateType type)
    (hname : NameOk name) (hcan : CanMake l dir name.bytes v) :
    ∃ s' tbl₁ tbl' V', call (gfsCreateAt dir name type 0) (fun _ => false) s = some (.ok v, s') ∧
      s'.core.generation = (s.core.generation + 1) % 2 ^ 64 ∧
      Stage (made l dir name.bytes type v) s' tbl' V' ∧ Repoints tbl v tbl₁ ∧
      Repoints tbl₁ dir tbl' := by
  obtain ⟨⟨hd0, hd, hns, hnew⟩, ⟨hv0, hv, hfree⟩, hleast⟩ := hcan
  have hvalid := h.validId hv0 hv
  have hvfree : (V.recs v).type = nodeFree := by rw [h.type, hfree]; rfl
  have hok : CreateOk s.core V dir name type :=
    ⟨ht, hname, h.validId hd0 hd, (h.type dir).trans hns, by rw [h.edges]; exact hnew⟩
  have hwp : Wp (gfsCreateAt dir name type 0) (outcome _ (Abort s.fresh fun _ => False)) s.fresh :=
    wp_createAtTables h.committed.fresh rfl fun e hn => hn ⟨hok, ⟨v, hvalid, hvfree⟩, h.clear hl⟩
  obtain ⟨v', s', hrun, ⟨-, hv', n, cs, tbl₁, tbl', hadd, hc, ⟨rest, t, hp⟩, hre₁, hre₂⟩, -⟩ :=
    hwp.ran rfl fun _ _ he => he.2.resolve_right id
  obtain rfl : v' = v := by
    have hge : ¬v' < v := fun hlt => hleast v' hlt hv'.valid.1 ((h.type v').symm.trans hv'.free)
    have hle : ¬v < v' := fun hlt => hv'.least v hvalid (Nat.zero_le v) hlt hvfree
    omega
  have hchain : V.chain v' = [] :=
    (h.committed.view.node v').packed.eq_nil (by rw [← View.edges, h.edges, hfree]; rfl)
  rw [hchain] at hc
  obtain ⟨mp, m, w, hcore, -⟩ := hp.core
  obtain ⟨hedges, bp, rfl⟩ := hadd
  have hne : dir ≠ v' := by
    rintro rfl
    rw [hfree] at hns
    cases hns
  refine ⟨s', tbl₁, tbl', _, hrun, hp.generation, ⟨hc, ?_, ?_, ?_⟩, hre₁, hre₂⟩
  · rw [hcore, made, withEdges, length_set, length_set]
    exact h.nodes
  · rw [hcore]
    exact h.total
  · refine Spots.set (h.spots.set hv rfl) (by rwa [length_set]) ?_
    rw [spotAt_set _ hv, if_neg hne, ← h.spots dir, hedges]
    rfl

/-- **`gfs_link` succeeds** for a TAG edge. -/
theorem Stage.tag (dir target : Nat) (hl : Light l) (hname : NameOk name)
    (hd : dir ≠ 0 ∧ dir < l.length) (ht : target ≠ 0 ∧ target < l.length)
    (hlive : (spotAt l target).type ≠ nodeFree) :
    ∃ s' tbl' V', Calls s (.link dir name target edgeTag, .ok 0) s' ∧
      Stage (withEdges l dir (addEdge (spotAt l dir).edges ⟨edgeTag, target, name.bytes⟩)) s' tbl'
        V' := by
  have hok : LinkOk s.core V dir name target edgeTag :=
    ⟨.inr (.inl rfl), hname, h.validId hd.1 hd.2, h.validId ht.1 ht.2, by rwa [h.type], nofun⟩
  obtain ⟨s', hrun, -, n, cs, ⟨hedges, bp, rfl⟩, tbl', hc, rest, t, hp⟩ :=
    Wp.calls_unit (c := .link dir name target edgeTag) rfl
      (wp_gfsLink h.committed.fresh rfl fun _ hn => hn ⟨hok, h.clear hl⟩)
  obtain ⟨mp, m, w, hcore, -⟩ := hp.core
  refine ⟨s', tbl', _, hrun, hc, ?_, ?_, ?_⟩
  · rw [hcore, withEdges, length_set]
    exact h.nodes
  · rw [hcore]
    exact h.total
  · refine h.spots.set hd.2 ?_
    rw [← h.spots dir, hedges]
    rfl

/-- The entry leads to a node without edges that has no other. -/
def CanDrop (l : List Spot) (dir : Nat) (name : List UInt8) (target : Nat) : Prop :=
  (dir ≠ 0 ∧ dir < l.length ∧ (spotAt l dir).type = nodeNamespace ∧
    lookupName name (spotAt l dir).edges = some target) ∧
  target ≠ 0 ∧ target < l.length ∧ target ≠ dir ∧ (spotAt l target).nlink = 1 ∧
    (spotAt l target).edges = []

instance (l : List Spot) (dir : Nat) (name : List UInt8) (target : Nat) :
    Decidable (CanDrop l dir name target) := inferInstanceAs (Decidable (_ ∧ _))

theorem Stage.unlinkSeen (dir target : Nat) (hname : NameOk name)
    (hd : dir ≠ 0 ∧ dir < l.length ∧ (spotAt l dir).type = nodeNamespace ∧
      lookupName name.bytes (spotAt l dir).edges = some target)
    (ht : target ≠ 0 ∧ target < l.length) : UnlinkSeen s.core V dir name target :=
  ⟨hname, h.validId hd.1 hd.2.1, (h.type dir).trans hd.2.2.1, by rw [h.edges]; exact hd.2.2.2,
    h.validId ht.1 ht.2⟩

/-- **`gfs_unlink` succeeds.** -/
theorem Stage.unlink (dir target : Nat) (hl : Light l) (hname : NameOk name)
    (hcan : CanDrop l dir name.bytes target) :
    ∃ s' tbl' V', call (gfsUnlink dir name) (fun _ => false) s = some (.ok (), s') ∧
      Calls s (.unlink dir name, .ok 0) s' ∧ Stage (unmade l dir name.bytes target) s' tbl' V' := by
  obtain ⟨hdir, ht0, ht, hne, hone, hempty⟩ := hcan
  have hseen := h.unlinkSeen dir target hname hdir ⟨ht0, ht⟩
  have hnone : ¬0 < (V.recs target).edgeCount := by
    rw [(h.committed.view.node target).count, ← View.edges, h.edges, hempty]
    decide
  have hgo : ∀ e, UnlinkStops s.fresh V dir name e → False := by
    intro e hstop
    cases hstop with
    | check hn => exact hn ⟨target, hseen⟩
    | full hseen' _ hfull =>
      obtain rfl := Option.some.inj (hseen'.found.symm.trans hseen.found)
      exact hnone hfull
    | space _ hlt =>
      have hclear : 4 ≤ s.fresh.clear := h.clear hl
      have hfew := (h.light hl dir).2
      omega
  have hwp : Wp (gfsUnlink dir name) (outcome _ (Abort s.fresh fun _ => False)) s.fresh :=
    wp_gfsUnlink h.committed.fresh rfl (h.counted hl) hgo
  obtain ⟨⟨⟩, s', hrun, ⟨t, hok, -, n, cs, ⟨hedges, bp, rfl⟩, tbl', hc, rest, t₁, hp⟩, -⟩ :=
    hwp.ran rfl fun _ _ he => he.2.resolve_right id
  obtain rfl := Option.some.inj (hok.found.symm.trans hseen.found)
  have hcalls : Calls s (.unlink dir name, .ok 0) s' := ⟨_, hrun.bind rfl⟩
  -- its only link is gone, and so is the node
  have hzero : (Gfs.unlinked (V.recs t)).nlink = 0 := by
    have hlink : (V.recs t).nlink = 1 := (congrArg Spot.nlink (h.spots t)).trans hone
    unfold Gfs.unlinked
    show ((V.recs t).nlink + (2 ^ 32 - 1)) % 2 ^ 32 = 0
    rw [hlink]
    decide
  obtain ⟨mp, m, w, hcore, -⟩ := hp.core
  refine ⟨s', tbl', _, hrun, hcalls, hc, ?_, ?_, ?_⟩
  · rw [hcore, unmade, withEdges, length_set, length_set]
    exact h.nodes
  · rw [hcore]
    exact h.total
  · refine Spots.set (h.spots.set hdir.2.1 ?_) (by rwa [withEdges, length_set]) ?_
    · rw [← h.spots dir, hedges]
      rfl
    · rw [dropped, droppedChain, if_pos hzero, if_pos hzero]
      rfl

end

end

/-- The nodes of a new file system. -/
def firstSpots (count : Nat) : List Spot :=
  freeSpot :: ⟨nodeNamespace, 0, 1, []⟩ :: List.replicate (count - 2) freeSpot

theorem stage_first {count : Nat} (h : Committed s tbl firstView 0) (hn : s.core.nodeCount = count)
    (ht : s.core.totalBlocks = 1000) : Stage (firstSpots count) s tbl firstView := by
  refine ⟨h, ?_, ht, fun id => ?_⟩
  · have := h.geom.nodes.1
    rw [firstSpots, length_cons, length_cons, length_replicate]
    omega
  · match id with
    | 0 | 1 => rfl
    | id + 2 =>
      show freeSpot = (List.replicate (count - 2) freeSpot).getD id freeSpot
      rw [getD_eq_getElem?_getD, getElem?_replicate]
      split <;> rfl

theorem exists_stage (count : Nat) (h2 : 2 ≤ count) (hc : count ≤ 4096) :
    ∃ s, Booted 1000 count s ∧ Stage (firstSpots count) s (firstTbl 1000) firstView := by
  obtain ⟨s, hboot⟩ := exists_booted 1000 count (by decide) (by decide)
  obtain ⟨hcom, gen, -, hcore⟩ := hboot.committed (by decide)
  refine ⟨s, hboot, stage_first hcom ?_ (by rw [hcore]; rfl)⟩
  rw [hcore]
  show min (max count 2) 4096 = count
  omega

/-! ## A first directory -/

/-- The name of one letter. -/
def letter (b : UInt8) (h : b ≠ 0) : CStr := ⟨[b], by simpa using h.symm⟩

theorem letter_ok {b : UInt8} (h : b ≠ 0) (hslash : b ≠ 47) : NameOk (letter b h) := by
  unfold NameOk nameLenOk letter
  simp [hslash.symm]

/-- A file system of three nodes with one directory in its root. -/
structure OneDir (g : Graph) (name : List UInt8) : Prop where
  root : g 1 = ⟨nodeNamespace, 0, 1, {⟨edgeName, 2, name⟩}⟩
  child : g 2 = ⟨nodeNamespace, 1, 1, 0⟩
  other : ∀ i, i ≠ 1 → i ≠ 2 → g i = freeVertex

/-- The nodes after one was made in the root. -/
def oneSpot (type : Nat) (name : List UInt8) : List Spot := made (firstSpots 3) 1 name type 2

theorem Stage.oneDir {name : List UInt8} (h : Stage (oneSpot nodeNamespace name) s tbl V) :
    OneDir V.graph name := by
  have hv : ∀ id, V.graph id = (spotAt (oneSpot nodeNamespace name) id).vertex := fun id =>
    congrArg Spot.vertex (h.spots id)
  refine ⟨hv 1, hv 2, fun i h1 h2 => (hv i).trans ?_⟩
  match i, h1, h2 with
  | 0, _, _ => rfl
  | i + 3, _, _ => rfl

/-- A first node is made in the root of an empty file system. -/
theorem Stage.first {name : CStr} {type : Nat} (h : Stage (firstSpots 3) s tbl V)
    (ht : CreateType type) (hname : NameOk name) :
    ∃ s₁ tbl' V', call (gfsCreateAt 1 name type 0) (fun _ => false) s = some (.ok 2, s₁) ∧
      s₁.core.generation = (s.core.generation + 1) % 2 ^ 64 ∧
      Stage (oneSpot type name.bytes) s₁ tbl' V' := by
  obtain ⟨s₁, -, tbl', V', hrun, hgen, hst, -⟩ := h.createAt 1 2 (by decide) ht hname
    ⟨⟨by decide, by decide, rfl, rfl⟩, ⟨by decide, by decide, rfl⟩, by decide⟩
  exact ⟨s₁, tbl', V', hrun, hgen, hst⟩

/-- The state after one node was made in the root of a new file system. -/
theorem exists_firstNode {name : CStr} {type : Nat} (ht : CreateType type) (hname : NameOk name) :
    ∃ s₀ s₁ tbl V, Booted 1000 3 s₀ ∧ Calls s₀ (.createAt 1 name type 0, .ok 2) s₁ ∧
      s₁.core.generation = (s₀.core.generation + 1) % 2 ^ 64 ∧
      Stage (oneSpot type name.bytes) s₁ tbl V := by
  obtain ⟨s₀, hboot, hst⟩ := exists_stage 3 (by decide) (by decide)
  obtain ⟨s₁, tbl, V, hrun, hfirst⟩ := hst.first ht hname
  exact ⟨s₀, s₁, tbl, V, hboot, ⟨_, hrun⟩, hfirst⟩

end Hallucinate.Gfs
