import Hallucinate.Gfs.Runs

/-!
# The graph of nodes and edges

What is left of a tree when its blocks are forgotten: `View.graph V` gives each id its type, link
count and parent, and the multiset of its edges. `Graph.Step` are the calls in these terms.

* **`Effect.graph`**: on a tree without two NAME edges of one name in one node (`Graph.Unique`), the
  effect of a call is a step of its graph.
* `Step.unique` and `Step.counted`: a step keeps names unique, and a step that leaves room in the
  32-bit edge counts (`Graph.HasRoom`) keeps them from wrapping around.
* **`Shows.graph_step`**: a step of a run fails, or is a step of the graph.
-/

namespace Hallucinate.Gfs

open Lib Function List

/-! ## Lists of edges -/

section EdgeLists

variable {name : List UInt8} {es es' : List Edge} {e : Edge} {target : Nat}

theorem eq_of_isName (h : isName name e = true) : e = ⟨edgeName, e.target, name⟩ := by
  obtain ⟨ht, hn⟩ := isName_iff.mp h
  obtain ⟨t, target, n⟩ := e
  cases ht
  cases hn
  rfl

section

variable (h : lookupName name es = some target)
include h

theorem find?_of_lookupName : es.find? (isName name) = some ⟨edgeName, target, name⟩ := by
  unfold lookupName at h
  obtain ⟨e, hf, rfl⟩ := Option.map_eq_some_iff.mp h
  rw [hf, ← eq_of_isName (find?_some hf)]

theorem mem_of_lookupName : (⟨edgeName, target, name⟩ : Edge) ∈ es :=
  mem_of_find?_eq_some (find?_of_lookupName h)

/-- The edge that is dropped is the one that was found. -/
theorem dropName_of_lookupName : dropName name es = es.erase ⟨edgeName, target, name⟩ := by
  have hf := find?_of_lookupName h
  unfold dropName
  induction es with
  | nil => cases hf
  | cons x es ih =>
    by_cases hx : isName name x = true
    · rw [find?_cons_of_pos hx, Option.some_inj] at hf
      rw [eraseP_cons_of_pos hx, hf, erase_cons_head]
    · rw [find?_cons_of_neg hx] at hf
      have hne : x ≠ ⟨edgeName, target, name⟩ := by
        rintro rfl
        exact hx (isName_iff.mpr ⟨rfl, rfl⟩)
      rw [eraseP_cons_of_neg hx, erase_cons_tail (by simpa using hne)]
      congr 1
      refine ih ?_ hf
      unfold lookupName
      rw [hf]
      rfl

end

/-- If a name is there once, it is the one that is found. -/
theorem lookupName_of_mem (hu : es.countP (isName name) ≤ 1)
    (he : (⟨edgeName, target, name⟩ : Edge) ∈ es) : lookupName name es = some target := by
  have hp : isName name ⟨edgeName, target, name⟩ = true := isName_iff.mpr ⟨rfl, rfl⟩
  induction es with
  | nil => cases he
  | cons x es ih =>
    by_cases hx : isName name x = true
    · rw [countP_cons_of_pos hx] at hu
      have hnone : es.countP (isName name) = 0 := by omega
      rcases mem_cons.mp he with rfl | he
      · unfold lookupName
        rw [find?_cons_of_pos hx]
        rfl
      · exact absurd hp (countP_eq_zero.mp hnone _ he)
    · rw [countP_cons_of_neg hx] at hu
      rcases mem_cons.mp he with rfl | he
      · exact absurd hp hx
      · unfold lookupName
        rw [find?_cons_of_neg hx]
        exact ih hu he

end EdgeLists

/-! ## Graphs -/

/-- A node as the graph has it. -/
structure Vertex where
  type : Nat
  nlink : Nat
  parent : Nat
  edges : Multiset Edge

abbrev Graph := Nat → Vertex

def freeVertex : Vertex := ⟨nodeFree, 0, 0, 0⟩

def View.graph (V : View) : Graph := fun id =>
  ⟨(V.recs id).type, (V.recs id).nlink, (V.recs id).parent, (V.edges id : Multiset Edge)⟩

namespace Graph

/-- A node of `1..count-1`. -/
def Valid (count id : Nat) : Prop := id ≠ 0 ∧ id < count

def addEdge (g : Graph) (dir : Nat) (e : Edge) : Graph :=
  update g dir { g dir with edges := e ::ₘ (g dir).edges }

def delEdge (g : Graph) (dir : Nat) (e : Edge) : Graph :=
  update g dir { g dir with edges := (g dir).edges.erase e }

/-- A node gets a record, and no edges. -/
def create (g : Graph) (id type nlink parent : Nat) : Graph :=
  update g id ⟨type, nlink, parent, 0⟩

/-- A node counts a new link from `dir`, which becomes the parent of a namespace. -/
def countLink (g : Graph) (id dir : Nat) : Graph :=
  update g id { g id with
    nlink := ((g id).nlink + 1) % 2 ^ 32,
    parent := if (g id).type = nodeNamespace then dir else (g id).parent }

/-- A node without one of its links. -/
@[irreducible] def Vertex.less (v : Vertex) : Vertex :=
  if (v.nlink + (2 ^ 32 - 1)) % 2 ^ 32 = 0 then freeVertex
  else ⟨v.type, (v.nlink + (2 ^ 32 - 1)) % 2 ^ 32, v.parent, v.edges⟩

/-- A node loses a link, and is freed with the last one. -/
def dropLink (g : Graph) (id : Nat) : Graph := update g id (Vertex.less (g id))

def setParent (g : Graph) (id dir : Nat) : Graph :=
  update g id { g id with parent := dir }

/-- The graph after a link. -/
def link (g : Graph) (type dir target : Nat) (name : List UInt8) : Graph :=
  if type = edgeName ∧ target ≠ dir then (g.addEdge dir ⟨type, target, name⟩).countLink target dir
  else g.addEdge dir ⟨type, target, name⟩

/-- The graph after an unlink. -/
def unlink (g : Graph) (dir : Nat) (name : List UInt8) (target : Nat) : Graph :=
  (g.delEdge dir ⟨edgeName, target, name⟩).dropLink target

/-- The graph with the new name free. -/
def replace (g : Graph) (newdir : Nat) (newname : List UInt8) : Option Nat → Graph
  | none => g
  | some d => g.unlink newdir newname d

/-- The graph with the new parent of a namespace that has moved. -/
def reparent (g : Graph) (olddir newdir src : Nat) : Graph :=
  if (g src).type = nodeNamespace ∧ src ≠ olddir ∧ src ≠ newdir then g.setParent src newdir else g

/-- The graph after a rename. -/
def rename (g : Graph) (olddir : Nat) (oldname : List UInt8) (newdir : Nat) (newname : List UInt8)
    (src : Nat) (dst : Option Nat) : Graph :=
  (((g.delEdge olddir ⟨edgeName, src, oldname⟩).replace newdir newname dst).addEdge newdir
    ⟨edgeName, src, newname⟩).reparent olddir newdir src

variable {type : Nat}

section Vertices

variable (g : Graph) (dir id i : Nat) (e : Edge)

theorem addEdge_type : ((g.addEdge dir e) i).type = (g i).type := by
  unfold addEdge
  by_cases h : i = dir
  · rw [h, update_self]
  · rw [update_of_ne h]

theorem delEdge_type : ((g.delEdge dir e) i).type = (g i).type := by
  unfold delEdge
  by_cases h : i = dir
  · rw [h, update_self]
  · rw [update_of_ne h]

theorem addEdge_self : ((g.addEdge dir e) dir).edges = e ::ₘ (g dir).edges := by
  unfold addEdge
  rw [update_self]

theorem delEdge_self : ((g.delEdge dir e) dir).edges = (g dir).edges.erase e := by
  unfold delEdge
  rw [update_self]

variable {g dir id i e}

theorem addEdge_of_ne (h : i ≠ dir) : (g.addEdge dir e) i = g i := update_of_ne h _ _

theorem delEdge_of_ne (h : i ≠ dir) : (g.delEdge dir e) i = g i := update_of_ne h _ _

theorem create_of_ne {nlink parent : Nat} (h : i ≠ id) : (g.create id type nlink parent) i = g i :=
  update_of_ne h _ _

theorem dropLink_of_ne (h : i ≠ id) : (g.dropLink id) i = g i := update_of_ne h _ _

end Vertices

/-- No node has two NAME edges of one name. -/
def Unique (g : Graph) : Prop := ∀ id name, (g id).edges.countP (fun e => isName name e = true) ≤ 1

/-- No NAME edge of the node has the name. -/
def Unused (g : Graph) (dir : Nat) (name : List UInt8) : Prop :=
  ∀ e ∈ (g dir).edges, ¬isName name e = true

/-- A node that may take the place of `src`'s target under a name. -/
def Replaceable (g : Graph) (src d : Nat) : Prop :=
  if (g src).type = nodeNamespace then (g d).type = nodeNamespace ∧ (g d).edges = 0
  else (g d).type ≠ nodeNamespace

/-- The parents of a node lead to the root, and `src` is not on the way. -/
inductive Climbs (g : Graph) (src : Nat) : Nat → Prop
  | root : Climbs g src 1
  | step {cur : Nat} (hroot : cur ≠ 1) (hsrc : cur ≠ src) (h : Climbs g src (g cur).parent) :
      Climbs g src cur

/-- **The calls as steps of a graph** of `count` ids. -/
inductive Step (count : Nat) (g : Graph) : Call → Nat → Graph → Prop
  | nodeCreate {type : Nat} {mode : UInt32} {id : Nat} (ht : CreateType type)
      (hid : Valid count id) (hfree : (g id).type = nodeFree) :
      Step count g (.nodeCreate type mode) id (g.create id type 0 0)
  | createAt {dir type id : Nat} {name : CStr} {mode : UInt32} (ht : CreateType type)
      (hd : Valid count dir) (hdir : (g dir).type = nodeNamespace) (hname : g.Unused dir name.bytes)
      (hid : Valid count id) (hfree : (g id).type = nodeFree) :
      Step count g (.createAt dir name type mode) id
        ((g.create id type 1 (if type = nodeNamespace then dir else 0)).addEdge dir
          ⟨edgeName, id, name.bytes⟩)
  | link {dir target type : Nat} {name : CStr}
      (htype : type = edgeName ∨ type = edgeTag ∨ type = edgeRef) (hd : Valid count dir)
      (ht : Valid count target) (hlive : (g target).type ≠ nodeFree)
      (hnamed : type = edgeName → (g dir).type = nodeNamespace ∧ g.Unused dir name.bytes ∧
        ¬((g target).type = nodeNamespace ∧ 1 ≤ (g target).nlink)) :
      Step count g (.link dir name target type) 0 (g.link type dir target name.bytes)
  | unlink {dir target : Nat} {name : CStr} (hd : Valid count dir)
      (hdir : (g dir).type = nodeNamespace)
      (hfound : (⟨edgeName, target, name.bytes⟩ : Edge) ∈ (g dir).edges) (ht : Valid count target)
      (hne : target ≠ dir) (hempty : (g target).type = nodeNamespace → (g target).edges = 0) :
      Step count g (.unlink dir name) 0 (g.unlink dir name.bytes target)
  | rename {olddir newdir src : Nat} {oldname newname : CStr} {dst : Option Nat}
      (ho : Valid count olddir) (hn : Valid count newdir)
      (hodir : (g olddir).type = nodeNamespace) (hndir : (g newdir).type = nodeNamespace)
      (hfound : (⟨edgeName, src, oldname.bytes⟩ : Edge) ∈ (g olddir).edges)
      (hsrc : Valid count src)
      (hwalk : (g src).type = nodeNamespace → olddir ≠ newdir → g.Climbs src newdir)
      (hnone : dst = none → g.Unused newdir newname.bytes)
      (hsome : ∀ d, dst = some d → (⟨edgeName, d, newname.bytes⟩ : Edge) ∈ (g newdir).edges ∧
        d ≠ src ∧ Valid count d ∧ g.Replaceable src d ∧ d ≠ olddir ∧ d ≠ newdir) :
      Step count g (.rename olddir oldname newdir newname) 0
        (g.rename olddir oldname.bytes newdir newname.bytes src dst)
  | renameSame {olddir newdir : Nat} {oldname newname : CStr} :
      Step count g (.rename olddir oldname newdir newname) 0 g
  | write {id off : Nat} {src : List UInt8} : Step count g (.write id off src) src.length g
  | truncate {id size : Nat} : Step count g (.truncate id size) 0 g

end Graph

/-! ## From effects to steps -/

variable {disk : Nat → Option Bytes} {newdir : Nat} {dst : Option Nat}

section Refine

variable {V V' : View} {id dir target : Nat} {n : DiskNode} {cs : List EBlk} {e : Edge}
  {name : List UInt8}

theorem graph_set (V : View) (id : Nat) (n : DiskNode) (cs : List EBlk) : (V.set id n cs).graph =
    update V.graph id ⟨n.type, n.nlink, n.parent, (chainEdges cs : Multiset Edge)⟩ := by
  funext i
  unfold View.graph View.edges
  by_cases hi : i = id
  · subst hi
    rw [View.set_recs_self, View.set_chain_self, update_self]
  · rw [View.set_recs_ne hi, View.set_chain_ne hi, update_of_ne hi]

theorem graph_addEdge (h : V.AddsEdge dir e n cs) :
    (V.set dir n cs).graph = V.graph.addEdge dir e := by
  obtain ⟨hadd, bp, rfl⟩ := h
  rw [graph_set, hadd, Multiset.coe_eq_coe.mpr (addEdge_perm _ _)]
  rfl

theorem graph_delEdge (h : V.DropsEdge dir name n cs)
    (hl : lookupName name (V.edges dir) = some target) :
    (V.set dir n cs).graph = V.graph.delEdge dir ⟨edgeName, target, name⟩ := by
  obtain ⟨hcopy, bp, rfl⟩ := h
  change lookupName name (chainEdges (V.chain dir)) = some target at hl
  rw [graph_set, hcopy, Multiset.coe_eq_coe.mpr (recopy_perm _), dropName_of_lookupName hl,
    ← Multiset.coe_erase]
  rfl

theorem graph_dropped (V : View) (id : Nat) :
    (V.set id (dropped (V.recs id)) (droppedChain (V.recs id) (V.chain id))).graph =
      V.graph.dropLink id := by
  have hn : (unlinked (V.recs id)).nlink = ((V.recs id).nlink + (2 ^ 32 - 1)) % 2 ^ 32 := by
    unfold unlinked
    rfl
  rw [graph_set]
  unfold Graph.dropLink Graph.Vertex.less dropped droppedChain
  rw [hn]
  by_cases h0 : ((V.recs id).nlink + (2 ^ 32 - 1)) % 2 ^ 32 = 0
  · have h0' : ((V.graph id).nlink + (2 ^ 32 - 1)) % 2 ^ 32 = 0 := h0
    rw [if_pos h0, if_pos h0, if_pos h0']
    rfl
  · have h0' : ¬((V.graph id).nlink + (2 ^ 32 - 1)) % 2 ^ 32 = 0 := h0
    rw [if_neg h0, if_neg h0, if_neg h0']
    unfold unlinked
    rfl

theorem graph_unlinked (hne : target ≠ dir) (h : V.DropsEdge dir name n cs)
    (hl : lookupName name (V.edges dir) = some target) :
    (V.unlinked dir target n cs).graph = V.graph.unlink dir name target := by
  have hdrop := graph_dropped (V.set dir n cs) target
  rw [View.set_recs_ne hne, View.set_chain_ne hne] at hdrop
  unfold View.unlinked
  rw [hdrop, graph_delEdge h hl]
  rfl

theorem graph_linked (h : V.AddsEdge dir ⟨type, target, name⟩ n cs) :
    (V.linked type dir target n cs).graph = V.graph.link type dir target name := by
  unfold View.linked Graph.link
  by_cases hc : type = edgeName ∧ target ≠ dir
  · rw [if_pos hc, if_pos hc, graph_set, graph_addEdge h]
    unfold Graph.countLink
    have hsame : V.graph.addEdge dir ⟨type, target, name⟩ target = V.graph target :=
      update_of_ne hc.2 _ _
    rw [hsame]
    rfl
  · rw [if_neg hc, if_neg hc, graph_addEdge h]

theorem graph_reparented (V : View) (olddir newdir src : Nat) :
    (V.reparented olddir newdir src).graph = V.graph.reparent olddir newdir src := by
  unfold View.reparented Graph.reparent
  by_cases hc : (V.recs src).type = nodeNamespace ∧ src ≠ olddir ∧ src ≠ newdir
  · have hc' : (V.graph src).type = nodeNamespace ∧ src ≠ olddir ∧ src ≠ newdir := hc
    rw [if_pos hc, if_pos hc', graph_set]
    rfl
  · have hc' : ¬((V.graph src).type = nodeNamespace ∧ src ≠ olddir ∧ src ≠ newdir) := hc
    rw [if_neg hc, if_neg hc']

theorem unused_of_lookupName (h : lookupName name (V.edges dir) = none) : V.graph.Unused dir name :=
  fun e he => lookupName_eq_none.mp h e (Multiset.mem_coe.mp he)

theorem UpTo.climbs {src cur : Nat} (h : UpTo V.recs 1 src cur) : V.graph.Climbs src cur := by
  induction h with
  | root => exact .root
  | step hroot hsrc _ ih => exact .step hroot hsrc ih

theorem edges_eq_zero {count : Nat} (hview : ViewAt disk count V) (hcount : V.Counted)
    (h : (V.recs id).edgeCount = 0) : (V.graph id).edges = 0 := by
  have hlen := (hview.node id).edgeCount_eq (hcount id)
  have hnil : V.edges id = [] := by
    rw [← length_eq_zero_iff, View.edges, ← hlen, h]
  show (V.edges id : Multiset Edge) = 0
  rw [hnil]
  rfl

theorem countP_of_unique (hu : V.graph.Unique) (dir : Nat) (name : List UInt8) :
    (V.edges dir).countP (isName name) ≤ 1 := by
  have hone : (V.edges dir : Multiset Edge).countP (fun e => isName name e = true) ≤ 1 := hu dir name
  rw [Multiset.coe_countP] at hone
  simpa using hone

theorem lookupName_of_unique {dir target : Nat} (hu : V.graph.Unique)
    (he : (⟨edgeName, target, name⟩ : Edge) ∈ V.edges dir) :
    lookupName name (V.edges dir) = some target :=
  lookupName_of_mem (countP_of_unique hu dir name) he

/-- The new name is freed from the node it referred to. -/
theorem graph_replaces (hu : V.graph.Unique) (h : V.Replaces newdir name dst V')
    (hedge : ∀ d, dst = some d → (⟨edgeName, d, name⟩ : Edge) ∈ V.edges newdir ∧ d ≠ newdir) :
    V'.graph = V.graph.replace newdir name dst := by
  cases dst with
  | none =>
    cases h
    rfl
  | some d =>
    obtain ⟨n, cs, hdrop, rfl⟩ := h
    obtain ⟨hmem, hne⟩ := hedge d rfl
    exact graph_unlinked hne hdrop (lookupName_of_unique hu hmem)

/-- A step that changes a vertex and keeps all its edges. -/
theorem graph_sameNode {size : Nat} (h : SameNode { V.recs id with size := size } n) :
    (V.set id n (V.chain id)).graph = V.graph := by
  rw [graph_set, h.type, h.nlink, h.parent]
  exact update_eq_self id V.graph

end Refine

namespace Graph

variable {count : Nat} {g g' : Graph} {c : Call} {v : Nat}

/-! ## Unique names -/

variable {w : Vertex}

theorem Unique.set (hu : g.Unique) {id : Nat}
    (hw : ∀ name, w.edges.countP (fun e => isName name e = true) ≤ 1) : Unique (update g id w) := by
  intro i name
  by_cases hi : i = id
  · subst hi
    rw [update_self]
    exact hw name
  · rw [update_of_ne hi]
    exact hu i name

theorem Unique.delEdge (hu : g.Unique) (dir : Nat) (e : Edge) : (g.delEdge dir e).Unique :=
  hu.set fun name => (Multiset.countP_le_of_le _ (Multiset.erase_le _ _)).trans (hu dir name)

theorem Unique.addEdge (hu : g.Unique) {dir : Nat} {e : Edge}
    (he : e.type = edgeName → g.Unused dir e.name) : (g.addEdge dir e).Unique := by
  refine hu.set fun name => ?_
  rw [Multiset.countP_cons]
  by_cases hn : isName name e = true
  · obtain ⟨ht, hname⟩ := isName_iff.mp hn
    subst hname
    have hzero : (g dir).edges.countP (fun e' => isName e.name e' = true) = 0 :=
      Multiset.countP_eq_zero.mpr (he ht)
    rw [hzero, if_pos hn]
  · rw [if_neg hn]
    exact hu dir name

/-- A vertex with fewer edges, or the same. -/
theorem Unique.update_le (hu : g.Unique) {id : Nat} (hw : w.edges ≤ (g id).edges) :
    Unique (update g id w) :=
  hu.set fun name => (Multiset.countP_le_of_le _ hw).trans (hu id name)

theorem Vertex.less_of_one (h : w.nlink = 1) : Vertex.less w = freeVertex := by
  unfold Vertex.less
  rw [h]
  rfl

theorem Vertex.less_of_ne (h : w.nlink ≠ 1) (hlt : w.nlink < 2 ^ 32) :
    Vertex.less w = { w with nlink := (w.nlink + (2 ^ 32 - 1)) % 2 ^ 32 } := by
  unfold Vertex.less
  rw [if_neg (by omega)]

theorem Vertex.less_le (w : Vertex) : (Vertex.less w).edges ≤ w.edges := by
  unfold Vertex.less
  generalize (w.nlink + (2 ^ 32 - 1)) % 2 ^ 32 = k
  split
  · exact Multiset.zero_le _
  · exact le_rfl

theorem Unique.unlink (hu : g.Unique) (dir : Nat) (name : List UInt8) (target : Nat) :
    (g.unlink dir name target).Unique :=
  (hu.delEdge dir _).update_le (Vertex.less_le _)

theorem Unique.replace (hu : g.Unique) (newdir : Nat) (newname : List UInt8) (dst : Option Nat) :
    (g.replace newdir newname dst).Unique := by
  cases dst with
  | none => exact hu
  | some d => exact hu.unlink newdir newname d

theorem Unique.reparent (hu : g.Unique) (olddir newdir src : Nat) :
    (g.reparent olddir newdir src).Unique := by
  unfold Graph.reparent
  split
  · exact hu.update_le le_rfl
  · exact hu

/-- A name is unused once its edge is gone. -/
theorem Unique.unused_delEdge (hu : g.Unique) {dir target : Nat} {name : List UInt8}
    (he : (⟨edgeName, target, name⟩ : Edge) ∈ (g dir).edges) :
    (g.delEdge dir ⟨edgeName, target, name⟩).Unused dir name := by
  intro e hmem hn
  rw [delEdge_self] at hmem
  have hone := hu dir name
  have hself : isName name ⟨edgeName, target, name⟩ = true := isName_iff.mpr ⟨rfl, rfl⟩
  rw [← Multiset.cons_erase he, Multiset.countP_cons, if_pos hself] at hone
  have hzero : ((g dir).edges.erase ⟨edgeName, target, name⟩).countP
      (fun e => isName name e = true) = 0 := by omega
  exact Multiset.countP_eq_zero.mp hzero e hmem hn

theorem Unused.mono {dir : Nat} {name : List UInt8} (h : g.Unused dir name)
    (hle : (g' dir).edges ≤ (g dir).edges) : g'.Unused dir name :=
  fun e he => h e (Multiset.mem_of_le hle he)

theorem delEdge_le (g : Graph) (dir : Nat) (e : Edge) (i : Nat) :
    ((g.delEdge dir e) i).edges ≤ (g i).edges := by
  by_cases hi : i = dir
  · subst hi
    rw [delEdge_self]
    exact Multiset.erase_le _ _
  · rw [delEdge_of_ne hi]

theorem dropLink_le (g : Graph) (id i : Nat) : ((g.dropLink id) i).edges ≤ (g i).edges := by
  by_cases hi : i = id
  · subst hi
    unfold Graph.dropLink
    rw [update_self]
    exact Vertex.less_le _
  · rw [dropLink_of_ne hi]

/-- The new name is unused when the edge is added under it. -/
theorem Unique.unused_replace (hu : g.Unique) {newname : List UInt8}
    (hnone : dst = none → g.Unused newdir newname)
    (hsome : ∀ d, dst = some d → (⟨edgeName, d, newname⟩ : Edge) ∈ (g newdir).edges) :
    (g.replace newdir newname dst).Unused newdir newname := by
  cases dst with
  | none => exact hnone rfl
  | some d => exact (hu.unused_delEdge (hsome d rfl)).mono (dropLink_le _ d newdir)

/-- An edge to another node survives the removal of one. -/
theorem mem_delEdge {dir target target' i : Nat} {name name' : List UInt8}
    (he : (⟨edgeName, target', name'⟩ : Edge) ∈ (g i).edges) (hne : target' ≠ target) :
    (⟨edgeName, target', name'⟩ : Edge) ∈ ((g.delEdge dir ⟨edgeName, target, name⟩) i).edges := by
  by_cases hi : i = dir
  · subst hi
    rw [delEdge_self]
    refine (Multiset.mem_erase_of_ne fun e => hne ?_).mpr he
    exact congrArg Edge.target e
  · rw [delEdge_of_ne hi]
    exact he

/-- **A step keeps names unique.** -/
theorem Step.unique (h : Step count g c v g') (hu : g.Unique) : g'.Unique := by
  cases h with
  | nodeCreate => exact hu.update_le (Multiset.zero_le _)
  | @createAt dir type id name mode ht hd hdir hname hid hfree =>
    refine Unique.addEdge (hu.update_le (Multiset.zero_le _)) fun _ => ?_
    have hne : dir ≠ v := by
      rintro rfl
      rw [hdir] at hfree
      cases hfree
    intro e he
    rw [update_of_ne hne] at he
    exact hname e he
  | @link dir target type name htype hd ht hlive hnamed =>
    have hadd : (g.addEdge dir ⟨type, target, name.bytes⟩).Unique :=
      hu.addEdge fun ht => (hnamed ht).2.1
    unfold Graph.link
    split
    · exact hadd.update_le le_rfl
    · exact hadd
  | unlink => exact hu.unlink _ _ _
  | @rename olddir newdir src oldname newname dst ho hn hodir hndir hfound hsrc hwalk hnone hsome =>
    have hu₁ := hu.delEdge olddir ⟨edgeName, src, oldname.bytes⟩
    refine Unique.reparent (Unique.addEdge (hu₁.replace _ _ _) fun _ => ?_) _ _ _
    refine hu₁.unused_replace (fun hd => (hnone hd).mono (delEdge_le _ _ _ _)) fun d hd => ?_
    obtain ⟨hmem, hne, -⟩ := hsome d hd
    exact mem_delEdge hmem hne
  | renameSame => exact hu
  | write => exact hu
  | truncate => exact hu

/-- A name refers to one node. -/
theorem Unique.target_eq (hu : g.Unique) {dir t t' : Nat} {name : List UInt8}
    (h : (⟨edgeName, t, name⟩ : Edge) ∈ (g dir).edges)
    (h' : (⟨edgeName, t', name⟩ : Edge) ∈ (g dir).edges) : t = t' := by
  by_contra hne
  exact hu.unused_delEdge h' _ (mem_delEdge h hne) (isName_iff.mpr ⟨rfl, rfl⟩)

/-! ## Edge counts -/

/-- The 32-bit edge counts have not wrapped around. -/
def Counted (g : Graph) : Prop := ∀ id, (g id).edges.card < 2 ^ 32

/-- A call that leaves room in the edge count of the node it adds an edge to. -/
def HasRoom (g : Graph) : Call → Prop
  | .link dir _ _ _ => (g dir).edges.card + 1 < 2 ^ 32
  | .createAt dir _ _ _ => (g dir).edges.card + 1 < 2 ^ 32
  | .rename olddir _ newdir _ => olddir ≠ newdir → (g newdir).edges.card + 1 < 2 ^ 32
  | _ => True

/-- A vertex without more edges. -/
theorem Counted.of_le (hc : g.Counted) (hle : ∀ i, (g' i).edges ≤ (g i).edges) : g'.Counted :=
  fun i => (Multiset.card_le_card (hle i)).trans_lt (hc i)

theorem Counted.addEdge (hc : g.Counted) {dir : Nat} {e : Edge}
    (hroom : (g dir).edges.card + 1 < 2 ^ 32) : (g.addEdge dir e).Counted := by
  intro i
  by_cases hi : i = dir
  · subst hi
    rw [addEdge_self, Multiset.card_cons]
    exact hroom
  · rw [addEdge_of_ne hi]
    exact hc i

section

variable (g : Graph)

theorem setParent_edges (id dir i : Nat) : ((g.setParent id dir) i).edges = (g i).edges := by
  unfold Graph.setParent
  by_cases hi : i = id
  · rw [hi, update_self]
  · rw [update_of_ne hi]

theorem reparent_edges (olddir newdir src i : Nat) :
    ((g.reparent olddir newdir src) i).edges = (g i).edges := by
  unfold Graph.reparent
  split
  · exact setParent_edges ..
  · rfl

theorem countLink_edges (id dir i : Nat) : ((g.countLink id dir) i).edges = (g i).edges := by
  unfold Graph.countLink
  by_cases hi : i = id
  · rw [hi, update_self]
  · rw [update_of_ne hi]

theorem create_le (id type nlink parent i : Nat) :
    ((g.create id type nlink parent) i).edges ≤ (g i).edges := by
  unfold Graph.create
  by_cases hi : i = id
  · rw [hi, update_self]
    exact Multiset.zero_le _
  · rw [update_of_ne hi]

theorem unlink_le (dir : Nat) (name : List UInt8) (target i : Nat) :
    ((g.unlink dir name target) i).edges ≤ (g i).edges :=
  (dropLink_le _ target i).trans (delEdge_le g dir _ i)

theorem replace_le (newdir : Nat) (newname : List UInt8) (dst : Option Nat) (i : Nat) :
    ((g.replace newdir newname dst) i).edges ≤ (g i).edges := by
  cases dst with
  | none => exact le_rfl
  | some d => exact unlink_le ..

end

/-- **A step with room keeps the edge counts right.** -/
theorem Step.counted (h : Step count g c v g') (hc : g.Counted) (hroom : g.HasRoom c) :
    g'.Counted := by
  cases h with
  | nodeCreate => exact hc.of_le (create_le g _ _ _ _)
  | @createAt dir =>
    refine (hc.of_le (create_le g _ _ _ _)).addEdge ?_
    exact lt_of_le_of_lt (Nat.add_le_add_right (Multiset.card_le_card (create_le ..)) 1) hroom
  | @link dir =>
    have hadd := fun e => hc.addEdge (e := e) hroom
    unfold Graph.link
    split
    · exact (hadd _).of_le fun i => (countLink_edges ..).le
    · exact hadd _
  | unlink => exact hc.of_le (unlink_le g _ _ _)
  | @rename olddir newdir src oldname newname dst ho hn hodir hndir hfound =>
    have hle : ∀ i, (((g.delEdge olddir ⟨edgeName, src, oldname.bytes⟩).replace newdir
        newname.bytes dst) i).edges ≤ ((g.delEdge olddir ⟨edgeName, src, oldname.bytes⟩) i).edges :=
      replace_le _ _ _ _
    have hdel := hc.of_le (delEdge_le g olddir ⟨edgeName, src, oldname.bytes⟩)
    refine Counted.of_le (Counted.addEdge (hdel.of_le hle) ?_) fun i => (reparent_edges ..).le
    have hcard := Multiset.card_le_card (hle newdir)
    by_cases hd : olddir = newdir
    · subst hd
      have hpos := Multiset.card_erase_add_one hfound
      have hlt := hc olddir
      rw [delEdge_self] at hcard
      omega
    · have hlt := hroom hd
      rw [delEdge_of_ne (Ne.symm hd)] at hcard
      omega
  | renameSame => exact hc
  | write => exact hc
  | truncate => exact hc

end Graph

theorem View.Counted.graph {V : View} (h : V.Counted) : V.graph.Counted := h

theorem Graph.Counted.view {V : View} (h : V.graph.Counted) : V.Counted := h

/-- **The effect of a call is a step of the graph.** -/
theorem Effect.graph {c : Core} {disk' : Nat → Option Bytes} {V V' : View} {cl : Call} {v : Nat}
    (h : Effect c disk disk' V cl v V') (hu : V.graph.Unique) (hview : ViewAt disk c.nodeCount V)
    (hcount : V.Counted) (hroot : c.rootNode = 1) :
    Graph.Step c.nodeCount V.graph cl v V'.graph := by
  cases h with
  | nodeCreate ht hid hfree =>
    rw [graph_set]
    exact .nodeCreate ht hid hfree
  | link hok hadd =>
    rw [graph_linked hadd]
    refine .link hok.typeOk hok.dirOk hok.targetOk hok.live fun ht => ?_
    obtain ⟨hd, hl, hp⟩ := hok.named ht
    exact ⟨hd, unused_of_lookupName hl, hp⟩
  | unlink hok hne hdrop =>
    rw [graph_unlinked hne hdrop hok.found]
    refine .unlink hok.dirOk hok.isDir (Multiset.mem_coe.mpr (mem_of_lookupName hok.found))
      hok.targetOk hne fun ht => edges_eq_zero hview hcount ?_
    by_contra h0
    exact hok.empty ⟨ht, by omega⟩
  | @createAt dir type id name mode n cs hok hid hfree hadd =>
    have hne : dir ≠ v := by
      rintro rfl
      rw [hok.isDir] at hfree
      cases hfree
    have hadd' : (V.set v (entryNode type mode dir) []).AddsEdge dir
        ⟨edgeName, v, name.bytes⟩ n cs := by
      unfold View.AddsEdge
      rw [View.set_recs_ne hne, View.set_chain_ne hne]
      exact hadd
    rw [graph_addEdge hadd', graph_set]
    exact .createAt hok.typeOk hok.dirOk hok.isDir (unused_of_lookupName hok.unused) hid hfree
  | @rename olddir newdir src oldname newname dst V' hold hnew hok hdst hren =>
    obtain ⟨n₁, cs₁, V₂, n₃, cs₃, hdrop, hrep, hadd, rfl⟩ := hren
    have hg₁ := graph_delEdge hdrop hok.found
    have hsome : ∀ d, dst = some d → (⟨edgeName, d, newname.bytes⟩ : Edge) ∈ (V.graph newdir).edges ∧
        d ≠ src ∧ Graph.Valid c.nodeCount d ∧ V.graph.Replaceable src d ∧ d ≠ olddir ∧ d ≠ newdir := by
      rintro d rfl
      have hds : d ≠ src := fun e => hdst (by rw [e])
      obtain ⟨hd, hr⟩ := hok.replace d rfl hds
      refine ⟨Multiset.mem_coe.mpr (mem_of_lookupName hok.target), hds, hd, ?_,
        hok.dst_ne hds hview hcount⟩
      unfold ReplaceOk at hr
      unfold Graph.Replaceable
      by_cases ht : (V.recs src).type = nodeNamespace
      · rw [if_pos ht] at hr
        rw [if_pos (show (V.graph src).type = nodeNamespace from ht)]
        exact ⟨hr.1, edges_eq_zero hview hcount hr.2⟩
      · rw [if_neg ht] at hr
        rw [if_neg (show ¬(V.graph src).type = nodeNamespace from ht)]
        exact hr
    have hg₂ : V₂.graph = (V.graph.delEdge olddir ⟨edgeName, src, oldname.bytes⟩).replace newdir
        newname.bytes dst := by
      rw [← hg₁]
      refine graph_replaces (by rw [hg₁]; exact hu.delEdge _ _) hrep fun d hd => ?_
      obtain ⟨hmem, hds, -, -, -, hdn⟩ := hsome d hd
      have hmem' : _ ∈ ((V.graph.delEdge olddir ⟨edgeName, src, oldname.bytes⟩) newdir).edges :=
        Graph.mem_delEdge hmem hds
      rw [← hg₁] at hmem'
      exact ⟨Multiset.mem_coe.mp hmem', hdn⟩
    rw [graph_reparented, graph_addEdge hadd, hg₂]
    refine .rename hok.oldOk hok.newOk hok.oldDir hok.newDir
      (Multiset.mem_coe.mpr (mem_of_lookupName hok.found)) hok.srcOk (fun ht hne => ?_)
      (fun hd => ?_) hsome
    · have hup := hok.walk ht hne
      rw [hroot] at hup
      exact hup.climbs
    · subst hd
      exact unused_of_lookupName hok.target
  | write _ _ hsame _ =>
    rw [graph_sameNode hsame]
    exact .write
  | truncate _ _ hsame _ =>
    rw [graph_sameNode hsame]
    exact .truncate
  | renameSame => exact .renameSame
  | writeNone => exact .write
  | truncateSame => exact .truncate

/-- **One step of a run, in terms of the graph.** -/
theorem Shows.graph_step {s s' : St} {V : View} {c : Call} {r : Except Err Nat} (h : Shows s V)
    (hcount : V.Counted) (hu : V.graph.Unique) (hrun : Calls s (c, r) s') :
    (∃ e, r = .error e) ∧ Shows s' V ∨
      ∃ v V', r = .ok v ∧ Graph.Step s.core.nodeCount V.graph c v V'.graph ∧ Shows s' V' := by
  rcases h.step hcount hrun with ⟨he, hs, -⟩ | ⟨v, V', hr, heff, hs⟩
  · exact .inl ⟨he, hs⟩
  · obtain ⟨tbl, leak, hc⟩ := h
    exact .inr ⟨v, V', hr, heff.graph hu hc.view hcount hc.geom.root, hs⟩

/-! ## Runs that leave room -/

theorem firstView_other {i : Nat} (hi : i ≠ 1) : firstView.graph i = freeVertex := by
  unfold View.graph firstView
  dsimp only
  rw [if_neg hi]
  rfl

theorem firstView_edges (i : Nat) : (firstView.graph i).edges = 0 := rfl

theorem firstView_unique : firstView.graph.Unique := fun i name => by
  rw [firstView_edges]
  exact Nat.zero_le 1

theorem firstView_counted : firstView.Counted := fun _ => Nat.two_pow_pos 32

/-- A committed state in which names are unique and no edge count has wrapped around. -/
structure Tidy (s : St) (V : View) : Prop where
  shown : Shows s V
  counted : V.Counted
  unique : V.graph.Unique

variable {s : St} {total nodes : Nat}

theorem Booted.tidy (h : Booted total nodes s) (ht : total + 7 < 2 ^ 64) : Tidy s firstView :=
  ⟨⟨_, _, (h.committed ht).1⟩, firstView_counted, firstView_unique⟩

end Hallucinate.Gfs
