import Hallucinate.Gfs.Edit

/-!
# What the calls on nodes and edges do to the tree

One spec for each of `gfs_node_create`, `gfs_link`, `gfs_unlink` and `gfs_create_at`, from a
committed state with the tree `V`. A call that returns `GFS_OK` has met its checks (`LinkOk` and so
on) and has published one more generation, whose tree is given in terms of `V` (`Commits`). A call
that fails is an `Abort`: it has touched nothing of the committed state, and it failed because a
device operation did or because its checks did or the free blocks ran out (`hwhy`).

Edge counts are 32 bits wide. The specs of `gfs_unlink` and `gfs_rename` ask that no count of the
tree has wrapped around (`View.Counted`): their tests for an empty directory read the count.
-/

namespace Hallucinate.Gfs

open Lib

/-- The state `s'` has published the tree `V` on top of `s`. -/
def Commits (s : St) (V : View) (leak : Multiset Nat) (delta : Int) (s' : St) : Prop :=
  ∃ tbl, Committed s' tbl V leak ∧ ∃ rest s₁, Published s tbl rest delta s₁ s'

/-- A call that had nothing to do: only scratch memory and the working bitmap have changed. -/
structure Idle (s s' : St) : Prop where
  core : s'.core = s.core
  disk : s'.disk = s.disk
  log : s'.log = s.log

/-- The edges of a node. -/
def View.edges (V : View) (id : Nat) : List Edge := chainEdges (V.chain id)

/-- No edge count has wrapped around. -/
def View.Counted (V : View) : Prop := ∀ id, (V.edges id).length < 2 ^ 32

/-- A name that `name_len_ok` accepts. -/
def NameOk (name : CStr) : Prop := nameLenOk name = .ok name.bytes

variable {s s₀ : St} {tbl : Nat → Bp} {recs : Nat → DiskNode} {V : View} {leak : Multiset Nat}
  {k : Nat} {Why : Err → Prop}

/-! ## Checks -/

theorem nameLenOk_cases (name : CStr) :
    nameLenOk name = .ok name.bytes ∧ name.bytes.length ≤ 255 ∨ ∃ e, nameLenOk name = .error e := by
  unfold nameLenOk
  split
  · exact .inr ⟨_, rfl⟩
  · split
    · exact .inr ⟨_, rfl⟩
    · split
      · exact .inr ⟨_, rfl⟩
      · exact .inl ⟨rfl, by omega⟩

variable {name : CStr}

theorem NameOk.length_le (h : NameOk name) : name.bytes.length ≤ 255 := by
  rcases nameLenOk_cases name with ⟨-, hl⟩ | ⟨e, he⟩
  · exact hl
  · rw [NameOk, he] at h
    cases h

variable {β : Type} {P : β → St → Prop}

variable {E : Err → St → Prop}

/-- A check of a name in front of a call. -/
theorem wp_checkName {f : List UInt8 → GfsM β}
    (hok : NameOk name → Wp (f name.bytes) (outcome P E) s) (hbad : ∀ e, ¬NameOk name → E e s) :
    Wp (check (nameLenOk name) >>= f) (outcome P E) s := by
  rcases nameLenOk_cases name with ⟨h, -⟩ | ⟨e, he⟩
  · rw [h]
    exact hok h
  · rw [he]
    exact hbad e fun h => by rw [NameOk, he] at h; cases h

/-- A state in which nothing has happened yet is safe. -/
theorem Safe.start (hlog : s.log = []) : Safe s s := ⟨rfl, fun _ _ => rfl, by simp [hlog]⟩

variable {disk : Nat → Option Bytes} {n : DiskNode} {cs : List EBlk}

theorem NodeAt.edgeCount_eq (h : NodeAt disk n cs) (hc : (chainEdges cs).length < 2 ^ 32) :
    n.edgeCount = (chainEdges cs).length := by
  rw [h.count, Nat.mod_eq_of_lt hc]

/-! ## Finding a free id -/

/-- The least free id from `start` on, if any. -/
structure LeastFree (c : Core) (recs : Nat → DiskNode) (start id : Nat) : Prop where
  valid : ValidId c id
  free : (recs id).type = nodeFree
  least : ∀ j, ValidId c j → start ≤ j → j < id → (recs j).type ≠ nodeFree

/-- The scan of the table blocks from `lo` on. -/
theorem wp_findFreeIn {lo n : Nat} (h : Loaded s₀ tbl recs s)
    (hb : ∀ bi < lo + n, bi * 16 < s₀.core.nodeCount) (h2 : 2 ≤ s₀.core.nodeCount) :
    Wp (findFreeIn (List.range' lo n)) (outcome (fun r s' => Scratch s s' ∧ match r with
      | some id => LeastFree s₀.core recs (lo * 16) id
      | none => ∀ j, ValidId s₀.core j → lo * 16 ≤ j → j < (lo + n) * 16 →
          (recs j).type ≠ nodeFree) (Abort s₀ Why)) s := by
  induction n generalizing lo s with
  | zero => exact wp_pure ⟨Scratch.refl s, fun j _ h1 h2 => by omega⟩
  | succ n ih =>
    rw [List.range'_succ]
    have hbi := hb lo (by omega)
    have hslot : lo < 256 := by have := h.nodes; omega
    obtain ⟨m, hm, hget⟩ := h.map
    refine wp_getCore (wp_getBuf hm ?_)
    simp only [hget lo hslot, h.safe.core]
    by_cases h0 : (tbl lo).phys = 0
    · have ht := h.tables lo hslot
      rw [if_pos h0] at ht
      rw [if_pos h0]
      refine wp_pure ⟨Scratch.refl s, ?_⟩
      by_cases hz : lo * 16 = 0
      · obtain rfl : lo = 0 := by omega
        have h1 := ht 1 (by decide)
        refine ⟨⟨by decide, h2⟩, by rw [if_pos rfl]; exact congrArg DiskNode.type h1, ?_⟩
        intro j hj _ hlt
        rw [if_pos rfl] at hlt
        exact absurd hj.1 (by omega)
      · have h1 := ht 0 (by decide)
        simp only [if_neg hz]
        exact ⟨⟨hz, hbi⟩, congrArg DiskNode.type h1, fun j _ hge hlt => by omega⟩
    · rw [if_neg h0]
      obtain ⟨hrange, blk, hblk, hcrc, hrecs⟩ := h.table hslot h0
      refine wp_fetchMeta hrange hblk hcrc (h.safe.setBuf.abort _) ?_
      have hsc : Scratch s (s.setBuf .tbl (some blk)) := Scratch.setBuf s (by decide)
      have htype : ∀ k < 16, rd blk (k * 256 + ndType) 4 = (recs (lo * 16 + k)).type := fun k hk =>
        congrArg DiskNode.type (hrecs k hk)
      cases hf : (List.range 16).find? fun k => lo * 16 + k ≠ 0 ∧ lo * 16 + k < s₀.core.nodeCount ∧
          rd blk (k * 256 + ndType) 4 = nodeFree with
      | some k =>
        obtain ⟨hp, hk, hbefore⟩ := List.find?_range_eq_some.mp hf
        simp only [decide_eq_true_eq] at hp
        rw [List.mem_range] at hk
        refine wp_pure ⟨hsc, ⟨hp.1, hp.2.1⟩, ?_, fun j hj hge hlt => ?_⟩
        · rw [← htype k hk]
          exact hp.2.2
        · obtain ⟨i, rfl⟩ := Nat.exists_eq_add_of_le hge
          have hi := hbefore i (by omega)
          simp only [Bool.not_eq_true', decide_eq_false_iff_not, not_and] at hi
          rw [← htype i (by omega)]
          exact hi hj.1 hj.2
      | none =>
        have hall := List.find?_eq_none.mp hf
        have hslotFull : ∀ j, ValidId s₀.core j → lo * 16 ≤ j → j < (lo + 1) * 16 →
            (recs j).type ≠ nodeFree := by
          intro j hj hge hlt
          obtain ⟨i, rfl⟩ := Nat.exists_eq_add_of_le hge
          have hi := hall i (List.mem_range.mpr (by omega))
          simp only [decide_eq_true_eq, not_and] at hi
          rw [← htype i (by omega)]
          exact hi hj.1 hj.2
        refine (ih (h.scratch hsc) fun b hbm => hb b (by omega)).post ?_
        rintro r s' ⟨hs', hr⟩
        refine ⟨hsc.trans hs', ?_⟩
        cases r with
        | some id =>
          refine ⟨hr.valid, hr.free, fun j hj hge hlt => ?_⟩
          by_cases hj16 : j < (lo + 1) * 16
          · exact hslotFull j hj hge hj16
          · exact hr.least j hj (by omega) hlt
        | none =>
          intro j hj hge hlt
          by_cases hj16 : j < (lo + 1) * 16
          · exact hslotFull j hj hge hj16
          · exact hr j hj (by omega) (by omega)

/-- **The least free id is found, if there is one.** -/
theorem wp_nodeFindFree (h : Loaded s₀ tbl recs s) (h2 : 2 ≤ s₀.core.nodeCount)
    (hwhy : (∀ id, ValidId s₀.core id → (recs id).type ≠ nodeFree) → Why .enospc) :
    Wp nodeFindFree (outcome (fun id s' => LeastFree s₀.core recs 0 id ∧ Scratch s s')
      (Abort s₀ Why)) s := by
  refine wp_getCore ?_
  rw [h.safe.core, List.range_eq_range']
  refine Wp.bind (wp_findFreeIn h (fun bi hbi => by omega) h2) ?_
  · rintro (_ | id) s' ⟨hsc, hr⟩
    · refine wp_fail ((h.safe.scratch hsc).abort_why (hwhy fun id hid => ?_))
      have := hid.2
      exact hr id hid (by omega) (by omega)
    · have hv := hr.valid
      simp only
      rw [if_neg (by have := hv.1; have := hv.2; omega)]
      rw [Nat.zero_mul] at hr
      exact wp_pure ⟨hr, hsc⟩

/-! ## New nodes -/

/-- The types of node that can be created. -/
def CreateType (type : Nat) : Prop := type = nodeNamespace ∨ type = nodeData

variable {type : Nat}

theorem createType_iff : CreateType type ↔ ¬(type ≠ nodeNamespace ∧ type ≠ nodeData) := by
  unfold CreateType
  tauto

/-- The record of a new node. -/
def newNode (type : Nat) (mode : UInt32) (nlink parent : Nat) : DiskNode :=
  { zeroNode with type := type, mode := mode.toNat, nlink := nlink, parent := parent }

theorem newNode_at (mode : UInt32) {nlink parent : Nat} (ht : CreateType type) (hl : nlink < 2 ^ 32)
    (hp : parent < 2 ^ 64) : NodeAt disk (newNode type mode nlink parent) [] := by
  have hz := zeroNode_fits
  have htype : type < 2 ^ 32 := by
    rcases ht with rfl | rfl <;> decide
  exact ⟨⟨htype, mode.toNat_lt, hz.size, hl, hz.nExtents, hz.edgeCount, hp, hz.edgeHead, hz.ext⟩,
    rfl, trivial, rfl, FileAt.of_nExtents rfl (Nat.zero_le _)⟩

theorem FileAt.extBlocks_nil (h : FileAt disk n) (ht : n.type ≠ nodeData) : extBlocks n = [] :=
  extBlocks_of_nExtents (h.data ht)

variable {id : Nat}

/-- **A free node gets a record of its own.** Edges that its old record had are lost from the tree,
and their blocks stay marked. -/
theorem Edit.recycle (h : Edit s₀ tbl recs V leak k s) (hid : ValidId s₀.core id)
    (hfree : (V.recs id).type = nodeFree) (hn : NodeAt s.disk n []) (hx : n.nExtents = 0) :
    Edit s₀ tbl recs (V.set id n []) (leak + chainBlocks (V.chain id)) k s := by
  refine ⟨?_, h.view.set hid (fun _ _ => rfl) hn⟩
  have htxn := h.txn
  have hold : extBlocks (V.recs id) = [] :=
    (h.view.node id).file.extBlocks_nil (by rw [hfree]; decide)
  have hnew : nodeHeld n [] = 0 := by
    unfold nodeHeld
    rw [extBlocks_of_nExtents hx]
    rfl
  rw [heldBlocks_eq hid.2] at htxn
  rw [heldBlocks_set V _ n [] hid.2, hnew, zero_add]
  unfold nodeHeld View.around at htxn
  unfold View.around
  rw [hold, Multiset.coe_nil, add_zero, Multiset.add_cons] at htxn
  rwa [add_comm leak, add_assoc]

variable {mode : UInt32}

/-- **`gfs_node_create`**: a free id gets a record without links. -/
theorem wp_gfsNodeCreate (h : Committed s tbl V leak) (hlog : s.log = []) (hwhy : ∀ e, Why e) :
    Wp (gfsNodeCreate type mode) (outcome (fun id s' => CreateType type ∧ ValidId s.core id ∧
      (V.recs id).type = nodeFree ∧ Commits s (V.set id (newNode type mode 0 0) [])
        (leak + chainBlocks (V.chain id)) (-1) s') (Abort s Why)) s := by
  unfold gfsNodeCreate
  refine wp_guard (fun _ => (Safe.start hlog).abort_why (hwhy _)) fun ht => ?_
  have ht := createType_iff.mpr ht
  refine Wp.bind (wp_beginEdit h hlog) fun _ s₁ h₁ => ?_
  refine Wp.bind (wp_nodeFindFree h₁.txn.loaded h.geom.nodes.1 fun _ => hwhy _) ?_
  rintro id s₂ ⟨⟨hid, hfree, -⟩, hsc⟩
  have h₂ := (h₁.scratch hsc).recycle hid hfree
    (newNode_at mode ht (show 0 < 2 ^ 32 by decide) (show 0 < 2 ^ 64 by decide)) rfl
  refine Wp.bind (wp_writeEdit h₂ hid h₂.fits fun _ => hwhy _) ?_
  rintro _ s₃ ⟨tbl', h₃, -⟩
  refine Wp.bind (wp_commitEdit h₃ rfl fun _ => hwhy _) ?_
  rintro _ s₄ ⟨hc, rest, hp⟩
  exact wp_pure ⟨ht, hid, hfree, tbl', hc, rest, s₃, hp⟩

/-! ## Links -/

variable {f : Unit → GfsM β}

theorem wp_when {c : Prop} [Decidable c] {p : GfsM Unit} {I : St → Prop}
    (hyes : c → Wp p (outcome (fun _ => I) E) s) (hno : ¬c → I s)
    (hf : ∀ s', I s' → Wp (f ()) (outcome P E) s') : Wp (Prog.when c p >>= f) (outcome P E) s := by
  refine Wp.bind (P := fun _ => I) ?_ fun _ s' h => hf s' h
  unfold Prog.when
  split
  · exact hyes ‹_›
  · exact wp_pure (hno ‹_›)

/-- The check that a directory does not have a name yet. -/
theorem wp_expectNew {name : List UInt8} (hs : Safe s₀ s) (hc : ChainOk s₀ s n.edgeHead cs)
    (hwhy : lookupName name (chainEdges cs) ≠ none → Why .eexist)
    (hf : ∀ s', lookupName name (chainEdges cs) = none → Scratch s s' →
      Wp (f ()) (outcome P (Abort s₀ Why)) s') :
    Wp ((edgeLookup n name).attempt >>= fun rc => expectNoEntry .eexist rc >>= f)
      (outcome P (Abort s₀ Why)) s := by
  refine Wp.bind (P := fun rc s' => outcome
      (fun t s' => lookupName name (chainEdges cs) = some t ∧ Scratch s s')
      (LookupFails s₀ s (lookupName name (chainEdges cs))) rc s')
    (Prog.wp_attempt (Prog.wp_mono (wp_edgeLookup name hs hc) fun _ _ h => h)) ?_
  rintro (e | target) s' hr
  · rcases hr with ⟨rfl, hnone, hsc⟩ | ⟨rfl, hsafe, hfail⟩
    · exact hf s' hnone hsc
    · exact wp_fail ⟨hsafe, .inl hfail⟩
  · obtain ⟨hsome, hsc⟩ := hr
    exact wp_fail ((hs.scratch hsc).abort_why (hwhy (by rw [hsome]; simp)))

/-- What `gfs_link` checks. -/
structure LinkOk (c : Core) (V : View) (dir : Nat) (name : CStr) (target type : Nat) : Prop where
  typeOk : type = edgeName ∨ type = edgeTag ∨ type = edgeRef
  nameOk : NameOk name
  dirOk : ValidId c dir
  targetOk : ValidId c target
  live : (V.recs target).type ≠ nodeFree
  named : type = edgeName → (V.recs dir).type = nodeNamespace ∧
    lookupName name.bytes (V.edges dir) = none ∧
    ¬((V.recs target).type = nodeNamespace ∧ 1 ≤ (V.recs target).nlink)

/-- The tree after a link: `n` and `cs` are the directory with its new edge. A link of a node to
itself is written to the record that the directory's then replaces. -/
def View.linked (V : View) (type dir target : Nat) (n : DiskNode) (cs : List EBlk) : View :=
  if type = edgeName ∧ target ≠ dir then
    (V.set dir n cs).set target (linkTarget (V.recs target) dir) (V.chain target)
  else V.set dir n cs

variable {t : DiskNode} {dir : Nat}

theorem linkTarget_fits (h : t.Fits) (hd : dir < 2 ^ 64) : (linkTarget t dir).Fits := by
  refine ⟨h.type, h.mode, h.size, Nat.mod_lt _ (by decide), h.nExtents, h.edgeCount, ?_, h.edgeHead,
    h.ext⟩
  unfold linkTarget
  dsimp only
  split
  · exact hd
  · exact h.parent

theorem linkTarget_at (h : NodeAt disk t cs) (hd : dir < 2 ^ 64) :
    NodeAt disk (linkTarget t dir) cs :=
  ⟨linkTarget_fits h.fits hd, h.chain, h.packed, h.count, h.file.record rfl rfl rfl rfl⟩

theorem extBlocks_linkTarget (t : DiskNode) (dir : Nat) :
    extBlocks (linkTarget t dir) = extBlocks t :=
  extBlocks_congr rfl rfl

theorem View.linked_self : V.linked type dir dir n cs = V.set dir n cs :=
  if_neg fun hc => hc.2 rfl

variable {target : Nat}

theorem View.linked_name (h : target ≠ dir) : V.linked edgeName dir target n cs =
      (V.set dir n cs).set target (linkTarget (V.recs target) dir) (V.chain target) :=
  if_pos ⟨rfl, h⟩

theorem View.linked_of_ne (h : type ≠ edgeName) : V.linked type dir target n cs = V.set dir n cs :=
  if_neg fun hc => h hc.1

/-- Writing the target's record, if the edge is counted there: only the directory's record is left
to be written. -/
theorem wp_linkTarget (h : Edit s₀ tbl V.recs (V.set dir n cs) leak k s) (hd : ValidId s₀.core dir)
    (ht : ValidId s₀.core target) (hfit : (V.recs target).Fits) (hwhy : s₀.clear ≤ k → Why .enospc) :
    
    Wp (Prog.when (type = edgeName) (nodeWrite target (linkTarget (V.recs target) dir)))
      (outcome (fun _ s' => ∃ tbl' recs', Function.update recs' dir n =
          (V.linked type dir target n cs).recs ∧
        Edit s₀ tbl' recs' (V.linked type dir target n cs) leak (k + 1) s') (Abort s₀ Why)) s := by
  have hd64 : dir < 2 ^ 64 := by have := h.txn.geom.nodes.2; have := hd.2; omega
  have hlt := linkTarget_fits hfit hd64
  unfold Prog.when
  split
  · rename_i hname
    subst hname
    by_cases hself : target = dir
    · subst hself
      rw [View.linked_self]
      refine (wp_writeEdit h ht hlt hwhy).post ?_
      rintro _ s' ⟨tbl', h', -⟩
      exact ⟨tbl', _, Function.update_idem .., h'⟩
    · rw [View.linked_name hself]
      have hnode := h.view.node target
      rw [View.set_recs_ne hself, View.set_chain_ne hself] at hnode
      have h₁ := h.setRec ht (n := linkTarget (V.recs target) dir)
        (by rw [View.set_recs_ne hself, extBlocks_linkTarget])
        (by rw [View.set_chain_ne hself]; exact linkTarget_at hnode hd64)
      rw [View.set_chain_ne hself] at h₁
      refine (wp_writeEdit h₁ ht hlt hwhy).post ?_
      rintro _ s' ⟨tbl', h', -⟩
      exact ⟨tbl', _, Function.update_comm hself .., h'⟩
  · rename_i hname
    rw [View.linked_of_ne hname]
    exact wp_pure ⟨tbl, V.recs, rfl, ⟨h.txn.mono (Nat.le_succ k), h.view⟩⟩

theorem wp_linkChecks {name : List UInt8} (h : Edit s₀ tbl recs V leak k s)
    (hwhy : ∀ e, ¬((V.recs dir).type = nodeNamespace ∧ lookupName name (V.edges dir) = none ∧
      ¬(t.type = nodeNamespace ∧ 1 ≤ t.nlink)) → Why e) :
    Wp (linkChecks (V.recs dir) t name) (outcome (fun _ s' => ((V.recs dir).type = nodeNamespace ∧
      lookupName name (V.edges dir) = none ∧ ¬(t.type = nodeNamespace ∧ 1 ≤ t.nlink)) ∧
      Scratch s s') (Abort s₀ Why)) s := by
  unfold linkChecks
  refine wp_guard (fun hd => h.txn.safe.abort_why (hwhy _ fun hc => hd hc.1)) fun hd => ?_
  refine wp_expectNew h.txn.safe (h.chainOk dir) (fun hne => hwhy _ fun hc => hne hc.2.1) ?_
  intro s' hnew hsc
  exact wp_guard (fun hm => (h.txn.safe.scratch hsc).abort_why (hwhy _ fun hc => hc.2.2 hm))
    fun hm => wp_pure ⟨⟨not_not.mp hd, hnew, hm⟩, hsc⟩

/-- **`gfs_link`**: the directory gets the edge, and the target of a NAME edge counts it. -/
theorem wp_gfsLink (h : Committed s tbl V leak) (hlog : s.log = [])
    (hwhy : ∀ e, ¬(LinkOk s.core V dir name target type ∧ 4 ≤ s.clear) → Why e) :
    Wp (gfsLink dir name target type) (outcome (fun _ s' => LinkOk s.core V dir name target type ∧
      ∃ n cs, V.AddsEdge dir ⟨type, target, name.bytes⟩ n cs ∧
        Commits s (V.linked type dir target n cs) leak 0 s') (Abort s Why)) s := by
  have hsafe := Safe.start hlog
  unfold gfsLink
  refine wp_guard (fun htype => hsafe.abort_why (hwhy _ fun hc => ?_)) fun htype => ?_
  · have := hc.1.typeOk
    tauto
  refine wp_checkName (fun hname => ?_) fun e hn => hsafe.abort_why (hwhy _ fun hc => hn hc.1.nameOk)
  refine Wp.bind (wp_beginEdit h hlog) fun _ s₁ h₁ => ?_
  refine Wp.bind (wp_readEdit h₁ fun hid => hwhy _ fun hc => hid hc.1.dirOk) ?_
  rintro d s₂ ⟨rfl, hd, h₂⟩
  refine Wp.bind (wp_readEdit h₂ fun hid => hwhy _ fun hc => hid hc.1.targetOk) ?_
  rintro t s₃ ⟨rfl, ht, h₃⟩
  refine wp_guard (fun hlive => h₃.txn.safe.abort_why (hwhy _ fun hc => hc.1.live hlive))
    fun hlive => ?_
  refine wp_when (I := fun s' => (type = edgeName → (V.recs dir).type = nodeNamespace ∧
      lookupName name.bytes (V.edges dir) = none ∧
      ¬((V.recs target).type = nodeNamespace ∧ 1 ≤ (V.recs target).nlink)) ∧ Scratch s₃ s')
    (fun hn => (wp_linkChecks h₃ fun e he => hwhy e fun hc => he (hc.1.named hn)).post
      fun _ s' hp => ⟨fun _ => hp.1, hp.2⟩)
    (fun hn => ⟨fun hn' => absurd hn' hn, Scratch.refl _⟩) ?_
  rintro s₄ ⟨hnamed, hsc₃⟩
  have hok : LinkOk s.core V dir name target type :=
    ⟨by tauto, hname, hd, ht, hlive, hnamed⟩
  have hspace : ∀ j, j < 4 → s.clear ≤ j → Why .enospc := fun j hj hle =>
    hwhy _ fun hc => by have := hc.2; omega
  have hN := h.geom.nodes.2
  have hefits : (⟨type, target, name.bytes⟩ : Edge).Fits := by
    have ht32 : type < 2 ^ 32 := by rcases hok.typeOk with rfl | rfl | rfl <;> decide
    exact ⟨ht32, by show target < _; have := ht.2; omega, hname.length_le⟩
  refine Wp.bind (wp_addEdit (h₃.scratch hsc₃) hd hefits (hspace 0 (by decide))) ?_
  rintro n s₅ ⟨cs, hadd, h₅⟩
  refine Wp.bind (wp_linkTarget h₅ hd ht (h.view.node target).fits (hspace 1 (by decide))) ?_
  rintro _ s₆ ⟨tbl₆, recs₆, hrecs, h₆⟩
  refine Wp.bind (wp_writeEdit h₆ hd h₅.fits (hspace 2 (by decide))) ?_
  rintro _ s₇ ⟨tbl₇, h₇, -⟩
  refine (wp_commitEdit h₇ hrecs (hspace 3 (by decide))).post ?_
  rintro _ s₈ ⟨hc, rest, hp⟩
  exact ⟨hok, n, cs, hadd, tbl₇, hc, rest, s₇, hp⟩

/-! ## New entries -/

/-- What `gfs_create_at` checks. -/
structure CreateOk (c : Core) (V : View) (dir : Nat) (name : CStr) (type : Nat) : Prop where
  typeOk : CreateType type
  nameOk : NameOk name
  dirOk : ValidId c dir
  isDir : (V.recs dir).type = nodeNamespace
  unused : lookupName name.bytes (V.edges dir) = none

/-- The record of a node created in a directory. -/
def entryNode (type : Nat) (mode : UInt32) (dir : Nat) : DiskNode :=
  newNode type mode 1 (if type = nodeNamespace then dir else 0)

theorem AddsEdge.of_ne {n' : DiskNode} {cs' : List EBlk} {e : Edge} (hne : dir ≠ id)
    (h : (V.set id n' cs').AddsEdge dir e n cs) : V.AddsEdge dir e n cs := by
  unfold View.AddsEdge at h ⊢
  rwa [View.set_recs_ne hne, View.set_chain_ne hne] at h

/-- `gfs_create_at`, with the id it takes and the table blocks it leaves. -/
theorem wp_createAtTables (h : Committed s tbl V leak) (hlog : s.log = [])
    (hwhy : ∀ e, ¬(CreateOk s.core V dir name type ∧
      (∃ id, ValidId s.core id ∧ (V.recs id).type = nodeFree) ∧ 4 ≤ s.clear) → Why e) :
    Wp (gfsCreateAt dir name type mode) (outcome (fun id s' => CreateOk s.core V dir name type ∧
      LeastFree s.core V.recs 0 id ∧ ∃ n cs tbl₁ tbl₂, V.AddsEdge dir ⟨edgeName, id, name.bytes⟩ n cs ∧
        Committed s' tbl₂ ((V.set id (entryNode type mode dir) []).set dir n cs)
          (leak + chainBlocks (V.chain id)) ∧
        (∃ rest s₁, Published s tbl₂ rest (-1) s₁ s') ∧ Repoints tbl id tbl₁ ∧
        Repoints tbl₁ dir tbl₂) (Abort s Why)) s := by
  have hsafe := Safe.start hlog
  unfold gfsCreateAt
  refine wp_guard (fun hn => hsafe.abort_why (hwhy _ fun hc => createType_iff.mp hc.1.typeOk hn))
    fun htype => ?_
  have htype := createType_iff.mpr htype
  refine wp_checkName (fun hname => ?_) fun e hn => hsafe.abort_why (hwhy _ fun hc => hn hc.1.nameOk)
  refine Wp.bind (wp_beginEdit h hlog) fun _ s₁ h₁ => ?_
  refine Wp.bind (wp_readEdit h₁ fun hid => hwhy _ fun hc => hid hc.1.dirOk) ?_
  rintro d s₂ ⟨rfl, hd, h₂⟩
  refine wp_guard (fun hdir => h₂.txn.safe.abort_why (hwhy _ fun hc => hdir hc.1.isDir))
    fun hdir => ?_
  have hdir := not_not.mp hdir
  refine wp_expectNew h₂.txn.safe (h₂.chainOk dir) (fun hne => hwhy _ fun hc => hne hc.1.unused) ?_
  intro s₃ hnew hsc₂
  have hok : CreateOk s.core V dir name type := ⟨htype, hname, hd, hdir, hnew⟩
  have h₃ := h₂.scratch hsc₂
  have hspace : ∀ j, j < 4 → s.clear ≤ j → Why .enospc := fun j hj hle =>
    hwhy _ fun hc => by have := hc.2.2; omega
  have hN := h.geom.nodes.2
  refine Wp.bind (wp_nodeFindFree h₃.txn.loaded h.geom.nodes.1 fun hall => hwhy _ fun hc => ?_) ?_
  · obtain ⟨id, hid, hfree⟩ := hc.2.1
    exact hall id hid hfree
  rintro id s₄ ⟨hleast, hsc₃⟩
  have hid := hleast.valid
  have hfree := hleast.free
  have hne : dir ≠ id := fun e => by
    rw [e, hfree] at hdir
    cases hdir
  have hparent : (if type = nodeNamespace then dir else 0) < 2 ^ 64 := by
    have := hd.2
    split <;> omega
  have h₄ := (h₃.scratch hsc₃).recycle hid hfree
    (newNode_at mode htype (show 1 < 2 ^ 32 by decide) hparent) rfl
  change Edit s tbl V.recs (V.set id (entryNode type mode dir) []) _ 0 s₄ at h₄
  refine Wp.bind (wp_writeEdit h₄ hid h₄.fits (hspace 0 (by decide))) ?_
  rintro _ s₅ ⟨tbl₅, h₅, hre₅⟩
  have hd' : (V.set id (entryNode type mode dir) []).recs dir = V.recs dir := View.set_recs_ne hne
  have hadd := wp_addEdit h₅ hd (e := ⟨edgeName, id, name.bytes⟩)
    ⟨by show edgeName < _; decide, by show id < _; have := hid.2; omega, hname.length_le⟩
    (hspace 1 (by decide))
  rw [hd'] at hadd
  refine Wp.bind hadd ?_
  rintro n s₆ ⟨cs, hadd, h₆⟩
  refine Wp.bind (wp_writeEdit h₆ hd h₆.fits (hspace 2 (by decide))) ?_
  rintro _ s₇ ⟨tbl₇, h₇, hre₇⟩
  refine Wp.bind (wp_commitEdit h₇ rfl (hspace 3 (by decide))) ?_
  rintro _ s₈ ⟨hc, rest, hp⟩
  exact wp_pure ⟨hok, hleast, n, cs, tbl₅, tbl₇, AddsEdge.of_ne hne hadd, hc, ⟨rest, s₇, hp⟩,
    hre₅, hre₇⟩

/-- **`gfs_create_at`**: a free id gets a record with one link, and the directory the edge. -/
theorem wp_gfsCreateAt (h : Committed s tbl V leak) (hlog : s.log = [])
    (hwhy : ∀ e, ¬(CreateOk s.core V dir name type ∧
      (∃ id, ValidId s.core id ∧ (V.recs id).type = nodeFree) ∧ 4 ≤ s.clear) → Why e) :
    Wp (gfsCreateAt dir name type mode) (outcome (fun id s' => CreateOk s.core V dir name type ∧
      ValidId s.core id ∧ (V.recs id).type = nodeFree ∧
      ∃ n cs, V.AddsEdge dir ⟨edgeName, id, name.bytes⟩ n cs ∧
        Commits s ((V.set id (entryNode type mode dir) []).set dir n cs)
          (leak + chainBlocks (V.chain id)) (-1) s') (Abort s Why)) s := by
  refine (wp_createAtTables h hlog hwhy).post ?_
  rintro id s' ⟨hok, hleast, n, cs, -, tbl', hadd, hc, hp, -⟩
  exact ⟨hok, hleast.valid, hleast.free, n, cs, hadd, tbl', hc, hp⟩

/-! ## Unlinking -/

/-- What `gfs_unlink` checks; `target` is the node that the name refers to. -/
structure UnlinkOk (c : Core) (V : View) (dir : Nat) (name : CStr) (target : Nat) : Prop where
  nameOk : NameOk name
  dirOk : ValidId c dir
  isDir : (V.recs dir).type = nodeNamespace
  found : lookupName name.bytes (V.edges dir) = some target
  targetOk : ValidId c target
  empty : ¬((V.recs target).type = nodeNamespace ∧ 0 < (V.recs target).edgeCount)

theorem Packed.blocks_le (h : Packed cs) : cs.length ≤ (chainEdges cs).length / 14 + 1 := by
  cases cs with
  | nil => simp
  | cons c cs =>
    have hlen := h.length
    have hpos := h.1
    rw [List.length_cons]
    omega

theorem lookupName_pos {name : List UInt8} {es : List Edge} (h : lookupName name es = some target) :
    0 < es.length := by
  cases es with
  | nil => cases h
  | cons e es => simp

/-- The tree with one link less: `n` and `cs` are the directory without the edge. -/
def View.unlinked (V : View) (dir target : Nat) (n : DiskNode) (cs : List EBlk) : View :=
  (V.set dir n cs).set target (dropped (V.recs target))
    (droppedChain (V.recs target) (V.chain target))

/-- What `gfs_unlink` has checked before it asks whether a directory is empty. -/
structure UnlinkSeen (c : Core) (V : View) (dir : Nat) (name : CStr) (target : Nat) : Prop where
  nameOk : NameOk name
  dirOk : ValidId c dir
  isDir : (V.recs dir).type = nodeNamespace
  found : lookupName name.bytes (V.edges dir) = some target
  targetOk : ValidId c target

/-- The reasons for which `gfs_unlink` gives up although the device works. -/
inductive UnlinkStops (s : St) (V : View) (dir : Nat) (name : CStr) : Err → Prop
  | check {e : Err} (h : ¬∃ target, UnlinkSeen s.core V dir name target) : UnlinkStops s V dir name e
  | full {target : Nat} (h : UnlinkSeen s.core V dir name target)
      (hns : (V.recs target).type = nodeNamespace) (hfull : 0 < (V.recs target).edgeCount) :
      UnlinkStops s V dir name .enotempty
  | space {target : Nat} (hok : UnlinkOk s.core V dir name target)
      (h : s.clear < (V.edges dir).length / 14 + 4) : UnlinkStops s V dir name .enospc

/-- `gfs_unlink`, with the table blocks it leaves. A directory that is its own target has to be seen
not to be empty. -/
theorem wp_unlinkTables (h : Committed s tbl V leak) (hlog : s.log = [])
    (hself : lookupName name.bytes (V.edges dir) = some dir → 0 < (V.recs dir).edgeCount)
    (hwhy : ∀ e, UnlinkStops s V dir name e → Why e) :
    Wp (gfsUnlink dir name) (outcome (fun _ s' => ∃ target, UnlinkOk s.core V dir name target ∧
      target ≠ dir ∧ ∃ n cs tbl₁ tbl₂, V.DropsEdge dir name.bytes n cs ∧
        Committed s' tbl₂ (V.unlinked dir target n cs) leak ∧
        (∃ rest s₁, Published s tbl₂ rest (droppedDelta (V.recs target)) s₁ s') ∧
        Repoints tbl dir tbl₁ ∧ Repoints tbl₁ target tbl₂) (Abort s Why)) s := by
  have hsafe := Safe.start hlog
  -- a check has failed that every target would have to pass
  have hcheck : ∀ e, (∀ t, ¬UnlinkSeen s.core V dir name t) → Why e := fun e hn =>
    hwhy e (.check fun ⟨t, ht⟩ => hn t ht)
  unfold gfsUnlink
  refine wp_checkName (fun hname => ?_) fun e hn =>
    hsafe.abort_why (hcheck _ fun t ht => hn ht.nameOk)
  refine Wp.bind (wp_beginEdit h hlog) fun _ s₁ h₁ => ?_
  refine Wp.bind (wp_readEdit h₁ fun hid => hcheck _ fun t ht => hid ht.dirOk) ?_
  rintro d s₂ ⟨rfl, hd, h₂⟩
  refine wp_guard (fun hdir => h₂.txn.safe.abort_why (hcheck _ fun t ht => hdir ht.isDir))
    fun hdir => ?_
  have hlook := wp_edgeLookup name.bytes h₂.txn.safe (h₂.chainOk dir)
  refine Wp.bind (hlook.mono (fun _ _ hp => hp) fun e s' he => he.abort h₂.txn.safe fun hnone =>
    hcheck _ fun t ht => ?_) ?_
  · have := ht.found
    unfold View.edges at this
    rw [hnone] at this
    cases this
  rintro target s₃ ⟨hfound, hsc₂⟩
  change lookupName name.bytes (V.edges dir) = some target at hfound
  have h₃ := h₂.scratch hsc₂
  refine Wp.bind (wp_readEdit h₃ fun hid => hcheck _ fun t ht => hid ?_) ?_
  · obtain rfl : t = target := Option.some.inj (ht.found.symm.trans hfound)
    exact ht.targetOk
  rintro t s₄ ⟨rfl, ht, h₄⟩
  have hseen : UnlinkSeen s.core V dir name target := ⟨hname, hd, not_not.mp hdir, hfound, ht⟩
  refine wp_guard (fun hfull => h₄.txn.safe.abort_why (hwhy _ (.full hseen hfull.1 hfull.2)))
    fun hfull => ?_
  have hok : UnlinkOk s.core V dir name target := ⟨hname, hd, hseen.isDir, hfound, ht, hfull⟩
  -- the directory is not empty, so it is not the target
  have hne : target ≠ dir := by
    rintro rfl
    exact hfull ⟨hok.isDir, hself hfound⟩
  have hspace : ∀ j, j < (V.edges dir).length / 14 + 4 → s.clear ≤ j → Why .enospc :=
    fun j hj hle => hwhy _ (.space hok (by omega))
  refine Wp.bind (wp_removeEdit h₄ hd (hspace _ (by
    show 0 + (chainEdges (V.chain dir)).length / 14 < _; unfold View.edges; omega)) ?_) ?_
  · intro hnone
    change lookupName name.bytes (V.edges dir) = none at hnone
    rw [hnone] at hfound
    cases hfound
  rintro ⟨n, target'⟩ s₅ ⟨cs, hdrop, -, -, h₅⟩
  have hcs : cs.length ≤ (V.edges dir).length / 14 + 1 := by
    have hp := (h₅.view.node dir).packed
    rw [View.set_chain_self] at hp
    have hle := hp.blocks_le
    have hlen := congrArg List.length hdrop.1
    rw [recopy_length] at hlen
    have hdl := dropName_length_le name.bytes (chainEdges (V.chain dir))
    unfold View.edges
    omega
  refine Wp.bind (wp_writeEdit h₅ hd h₅.fits (hspace _ (by omega))) ?_
  rintro _ s₆ ⟨tbl₆, h₆, hre₆⟩
  have hrec : (V.set dir n cs).recs target = V.recs target := View.set_recs_ne hne
  have hdl := wp_dropLink h₆ ht (hspace _ (by omega))
  rw [hrec, View.set_chain_ne hne] at hdl
  refine Wp.bind hdl ?_
  rintro delta s₇ ⟨rfl, tbl₇, h₇, hre₇⟩
  refine (wp_commitEdit h₇ rfl (hspace _ (by omega))).post ?_
  rintro _ s₈ ⟨hc, rest, hp⟩
  exact ⟨target, hok, hne, n, cs, tbl₆, tbl₇, hdrop, hc, ⟨rest, s₇, hp⟩, hre₆, hre₇⟩

/-- **`gfs_unlink`**: the directory loses the edge, and the target a link; a node without links is
freed. -/
theorem wp_gfsUnlink (h : Committed s tbl V leak) (hlog : s.log = []) (hcount : V.Counted)
    (hwhy : ∀ e, UnlinkStops s V dir name e → Why e) :
    Wp (gfsUnlink dir name) (outcome (fun _ s' => ∃ target, UnlinkOk s.core V dir name target ∧
      target ≠ dir ∧ ∃ n cs, V.DropsEdge dir name.bytes n cs ∧
        Commits s (V.unlinked dir target n cs) leak (droppedDelta (V.recs target)) s')
      (Abort s Why)) s := by
  have hself : lookupName name.bytes (V.edges dir) = some dir → 0 < (V.recs dir).edgeCount := by
    intro hfound
    rw [(h.view.node dir).edgeCount_eq (hcount dir)]
    exact lookupName_pos hfound
  refine (wp_unlinkTables h hlog hself hwhy).post ?_
  rintro _ s' ⟨target, hok, hne, n, cs, -, tbl', hdrop, hc, hp, -⟩
  exact ⟨target, hok, hne, n, cs, hdrop, tbl', hc, hp⟩

end Hallucinate.Gfs
