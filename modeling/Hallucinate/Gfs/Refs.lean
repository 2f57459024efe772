import Hallucinate.Gfs.Progress

/-!
# Where edges lead

Every edge of an allocated node leads to an allocated node (`Graph.Sound`). For NAME edges that is
what link counts are for. Nothing counts TAG and REF edges: a node can be freed under them, and its
id can be given to another node.

* **`Step.sound`**: a step keeps edges sound, if its links can be counted and it frees no node that a
  TAG or REF edge of another node leads to (`Graph.Careful`).
* `HasEdge` and `Allocated` are what `gfs_edge_get` and `gfs_node_get` show of a state. A run counts
  how often each id was given to a new node (`TracedStep`).
* **`edges_keep_their_nodes`**: in a run of careful calls a stored edge leads to an allocated
  node, and to the same one as long as it is stored. `tag_outlives_node` is a run that is not careful.
-/

namespace Hallucinate.Gfs

open Lib Function

namespace Graph

variable {count : Nat} {g g' : Graph} {c : Call} {v : Nat}

/-! ## Sound graphs -/

/-- A TAG or REF edge of another allocated node leads to `id`. -/
def Held (g : Graph) (id : Nat) : Prop :=
  ∃ i, i ≠ id ∧ (g i).type ≠ nodeFree ∧ ∃ e ∈ (g i).edges, e.type ≠ edgeName ∧ e.target = id

/-- TAG and REF edges of allocated nodes lead to allocated nodes. -/
def Tagged (g : Graph) : Prop :=
  ∀ i, (g i).type ≠ nodeFree → ∀ e ∈ (g i).edges, e.type ≠ edgeName → (g e.target).type ≠ nodeFree

structure Sound (count : Nat) (g : Graph) : Prop where
  linked : Linked count g
  unique : g.Unique
  tagged : g.Tagged

/-- A call that does not lose count of the links, and frees no node that is held. -/
def Careful (g : Graph) : Call → Prop
  | .link dir name target type => g.Countable (.link dir name target type)
  | .unlink dir name => ∀ t, (⟨edgeName, t, name.bytes⟩ : Edge) ∈ (g dir).edges →
      (g t).nlink = 1 → ¬g.Held t
  | .rename olddir oldname newdir newname => ∀ t,
      (⟨edgeName, t, newname.bytes⟩ : Edge) ∈ (g newdir).edges →
      (⟨edgeName, t, oldname.bytes⟩ : Edge) ∉ (g olddir).edges → (g t).nlink = 1 → ¬g.Held t
  | _ => True

theorem Careful.countable (h : g.Careful c) : g.Countable c := by
  cases c with
  | link => exact h
  | _ => trivial

variable {i : Nat}

/-- **Every edge of an allocated node leads to an allocated node.** -/
theorem Sound.target (h : Sound count g) (hi : (g i).type ≠ nodeFree) {e : Edge}
    (he : e ∈ (g i).edges) : (g e.target).type ≠ nodeFree := by
  by_cases ht : e.type = edgeName
  · exact h.linked.target_live hi he ht
  · exact h.tagged i hi e he ht

/-- What a step has to show: its edges are old ones or lead to allocated nodes, and what it frees is
not held. -/
theorem Tagged.of_step (h : g.Tagged)
    (hold : ∀ i, (g' i).type ≠ nodeFree → ∀ e ∈ (g' i).edges, e.type ≠ edgeName →
      (g i).type ≠ nodeFree ∧ e ∈ (g i).edges ∨ (g' e.target).type ≠ nodeFree)
    (hfreed : ∀ t, (g t).type ≠ nodeFree → (g' t).type = nodeFree → ¬g.Held t) : g'.Tagged := by
  intro i hi e he ht hfree
  rcases hold i hi e he ht with ⟨hi', he'⟩ | hlive
  · refine hfreed e.target (h i hi' e he' ht) hfree ⟨i, ?_, hi', e, he', ht, rfl⟩
    rintro rfl
    exact hi hfree
  · exact hlive hfree

variable {dir : Nat}

/-- Adding NAME edges does not matter here. -/
theorem mem_addEdge_of_ne {e e' : Edge} (he : e ∈ ((g.addEdge dir e') i).edges) (hne : e ≠ e') :
    e ∈ (g i).edges := by
  by_cases hi : i = dir
  · subst hi
    rw [addEdge_self] at he
    exact (Multiset.mem_cons.mp he).resolve_left hne
  · rwa [addEdge_of_ne hi] at he

theorem ne_of_type {e : Edge} (h : e.type ≠ edgeName) (target : Nat) (name : List UInt8) :
    e ≠ ⟨edgeName, target, name⟩ := by
  rintro rfl
  exact h rfl

section

variable (g : Graph)

/-- What dropping a link frees. -/
theorem dropLink_type (id i : Nat) (hb : (g id).nlink < 2 ^ 32) :
    ((g.dropLink id) i).type = (g i).type ∨
      i = id ∧ (g id).nlink = 1 ∧ (g.dropLink id) id = freeVertex := by
  by_cases hi : i = id
  · subst hi
    unfold Graph.dropLink
    rw [update_self]
    by_cases hone : (g i).nlink = 1
    · exact .inr ⟨rfl, hone, Vertex.less_of_one hone⟩
    · rw [Vertex.less_of_ne hone hb]
      exact .inl rfl
  · rw [dropLink_of_ne hi]
    exact .inl rfl

theorem setParent_type (id dir i : Nat) : ((g.setParent id dir) i).type = (g i).type := by
  unfold Graph.setParent
  by_cases hi : i = id
  · rw [hi, update_self]
  · rw [update_of_ne hi]

theorem reparent_type (olddir newdir src i : Nat) :
    ((g.reparent olddir newdir src) i).type = (g i).type := by
  unfold Graph.reparent
  split
  · exact setParent_type ..
  · rfl

theorem countLink_type (id dir i : Nat) : ((g.countLink id dir) i).type = (g i).type := by
  unfold Graph.countLink
  by_cases hi : i = id
  · rw [hi, update_self]
  · rw [update_of_ne hi]

theorem link_type (type dir target : Nat) (name : List UInt8) (i : Nat) :
    ((g.link type dir target name) i).type = (g i).type := by
  unfold Graph.link
  split
  · rw [countLink_type, addEdge_type]
  · exact addEdge_type ..

end

theorem mem_link {type target : Nat} {name : List UInt8} {e : Edge}
    (he : e ∈ ((g.link type dir target name) i).edges) (hne : e ≠ ⟨type, target, name⟩) :
    e ∈ (g i).edges := by
  unfold Graph.link at he
  split at he
  · rw [countLink_edges] at he
    exact mem_addEdge_of_ne he hne
  · exact mem_addEdge_of_ne he hne

/-- An unlink frees at most its target, and adds no edge. -/
theorem unlink_spec {target : Nat} (name : List UInt8) (hne : target ≠ dir)
    (hb : (g target).nlink < 2 ^ 32) (i : Nat) :
    ((g.unlink dir name target) i).edges ≤ (g i).edges ∧
      (((g.unlink dir name target) i).type = (g i).type ∨ i = target ∧ (g target).nlink = 1 ∧
        ((g.unlink dir name target) target).type = nodeFree) := by
  have hsame : (g.delEdge dir ⟨edgeName, target, name⟩) target = g target := delEdge_of_ne hne
  refine ⟨(dropLink_le _ target i).trans (delEdge_le g dir _ i), ?_⟩
  rcases dropLink_type (g.delEdge dir ⟨edgeName, target, name⟩) target i (by rw [hsame]; exact hb)
    with ht | ⟨hi, hone, hfree⟩
  · exact .inl (ht.trans (delEdge_type ..))
  · rw [hsame] at hone
    exact .inr ⟨hi, hone, congrArg Vertex.type hfree⟩

/-- **A careful step keeps edges sound.** -/
theorem Step.sound (h : Step count g c v g') (hs : Sound count g) (hc : g.Careful c) :
    Sound count g' := by
  refine ⟨h.linked hs.linked hc.countable, h.unique hs.unique, ?_⟩
  cases h with
  | nodeCreate ht hid hfree =>
    refine hs.tagged.of_step (fun i hi e he _ => ?_) fun t hlive hfreed => ?_
    · by_cases hiv : i = v
      · subst hiv
        unfold Graph.create at he
        rw [update_self] at he
        exact absurd he (Multiset.notMem_zero e)
      · rw [create_of_ne hiv] at hi he
        exact .inl ⟨hi, he⟩
    · by_cases htv : t = v
      · subst htv
        exact absurd hfree hlive
      · rw [create_of_ne htv] at hfreed
        exact absurd hfreed hlive
  | @createAt dir type _ name mode ht hd hdir hname hid hfree =>
    refine hs.tagged.of_step (fun i hi e he hne => ?_) fun t hlive hfreed => ?_
    · have he' := mem_addEdge_of_ne he (ne_of_type hne _ _)
      rw [addEdge_type] at hi
      by_cases hiv : i = v
      · subst hiv
        unfold Graph.create at he'
        rw [update_self] at he'
        exact absurd he' (Multiset.notMem_zero e)
      · rw [create_of_ne hiv] at hi he'
        exact .inl ⟨hi, he'⟩
    · rw [addEdge_type] at hfreed
      by_cases htv : t = v
      · subst htv
        exact absurd hfree hlive
      · rw [create_of_ne htv] at hfreed
        exact absurd hfreed hlive
  | @link dir target type name htype hd ht hlive hnamed =>
    refine hs.tagged.of_step (fun i hi e he _ => ?_) fun t ht hfreed => ?_
    · by_cases he' : e = ⟨type, target, name.bytes⟩
      · subst he'
        exact .inr (by rw [link_type]; exact hlive)
      · rw [link_type] at hi
        exact .inl ⟨hi, mem_link he he'⟩
    · rw [link_type] at hfreed
      exact absurd hfreed ht
  | @unlink dir target name hd hdir hfound ht hne hempty =>
    have hspec := unlink_spec name.bytes hne (hs.linked.bound target)
    refine hs.tagged.of_step (fun i hi e he _ => ?_) fun t hlive hfreed => ?_
    · refine .inl ⟨?_, Multiset.mem_of_le (hspec i).1 he⟩
      rcases (hspec i).2 with ht' | ⟨rfl, -, hfree⟩
      · rwa [ht'] at hi
      · exact absurd hfree hi
    · rcases (hspec t).2 with ht' | ⟨rfl, hone, -⟩
      · rw [ht'] at hfreed
        exact absurd hfreed hlive
      · exact hc t hfound hone
  | @rename olddir newdir src oldname newname dst ho hn hodir hndir hfound hsrc hwalk hnone hsome =>
    -- what the edges and types are once the new name is free
    have hrep : ∀ i, ((g.delEdge olddir ⟨edgeName, src, oldname.bytes⟩).replace newdir
          newname.bytes dst i).edges ≤ (g i).edges ∧
        (((g.delEdge olddir ⟨edgeName, src, oldname.bytes⟩).replace newdir newname.bytes dst i).type =
          (g i).type ∨ dst = some i ∧ (g i).nlink = 1 ∧
          ((g.delEdge olddir ⟨edgeName, src, oldname.bytes⟩).replace newdir newname.bytes dst i).type =
            nodeFree) := by
      intro i
      cases dst with
      | none => exact ⟨delEdge_le .., .inl (delEdge_type ..)⟩
      | some d =>
        obtain ⟨-, -, -, -, hdo, hdn⟩ := hsome d rfl
        have hsame : (g.delEdge olddir ⟨edgeName, src, oldname.bytes⟩) d = g d := delEdge_of_ne hdo
        obtain ⟨hle, htype⟩ := unlink_spec (g := g.delEdge olddir ⟨edgeName, src, oldname.bytes⟩)
          newname.bytes hdn (by rw [hsame]; exact hs.linked.bound d) i
        refine ⟨hle.trans (delEdge_le ..), ?_⟩
        rcases htype with ht | ⟨rfl, hone, hfree⟩
        · exact .inl (ht.trans (delEdge_type ..))
        · rw [hsame] at hone
          exact .inr ⟨rfl, hone, hfree⟩
    refine hs.tagged.of_step (fun i hi e he hne => ?_) fun t hlive hfreed => ?_
    · unfold Graph.rename at hi he
      rw [reparent_type, addEdge_type] at hi
      rw [reparent_edges] at he
      have he' := mem_addEdge_of_ne he (ne_of_type hne _ _)
      refine .inl ⟨?_, Multiset.mem_of_le (hrep i).1 he'⟩
      rcases (hrep i).2 with ht | ⟨-, -, hfree⟩
      · rwa [ht] at hi
      · exact absurd hfree hi
    · unfold Graph.rename at hfreed
      rw [reparent_type, addEdge_type] at hfreed
      rcases (hrep t).2 with ht | ⟨hd, hone, -⟩
      · rw [ht] at hfreed
        exact absurd hfreed hlive
      · obtain ⟨hmem, hds, -⟩ := hsome t hd
        exact hc t hmem (fun hold => hds (hs.unique.target_eq hold hfound)) hone
  | renameSame => exact hs.tagged
  | write => exact hs.tagged
  | truncate => exact hs.tagged

end Graph

/-! ## Runs -/

variable {s s' : St} {V : View} {tbl : Nat → Bp} {leak : Multiset Nat} {n id : Nat} {e : Edge}

/-- An edge that `gfs_edge_get` shows. -/
def HasEdge (s : St) (n : Nat) (e : Edge) : Prop :=
  ∃ index, Sees s (.edgeGet n index) (.ok (.edge e))

/-- A node that `gfs_node_get` shows. -/
def Allocated (s : St) (id : Nat) : Prop := ∃ node, Sees s (.nodeGet id) (.ok (.node node))

/-- The record of an allocated node, in terms of the graph. -/
theorem View.live_ok {c : Core} {r : DiskNode} :
    V.live c id = .ok r ↔ (Graph.Valid c.nodeCount id ∧ (V.graph id).type ≠ nodeFree) ∧
      r = V.recs id := by
  unfold View.live View.get
  by_cases hv : id = 0 ∨ c.nodeCount ≤ id
  · rw [if_pos hv]
    constructor
    · intro h
      cases h
    · rintro ⟨⟨⟨h0, hlt⟩, -⟩, -⟩
      omega
  · rw [if_neg hv]
    have hvalid : Graph.Valid c.nodeCount id := ⟨by omega, by omega⟩
    show (if (V.recs id).type = nodeFree then Except.error Err.enoent else .ok (V.recs id)) = _ ↔ _
    by_cases ht : (V.recs id).type = nodeFree
    · rw [if_pos ht]
      constructor
      · intro h
        cases h
      · rintro ⟨⟨-, hne⟩, -⟩
        exact absurd ht hne
    · rw [if_neg ht, Except.ok.injEq]
      exact ⟨fun h => ⟨⟨hvalid, ht⟩, h.symm⟩, fun h => h.2.symm⟩

theorem except_map_eq_ok {ε α β : Type} {f : α → β} {x : Except ε α} {b : β} :
    x.map f = .ok b ↔ ∃ a, x = .ok a ∧ f a = b := by
  cases x with
  | error e => simp [Except.map]
  | ok a => simp [Except.map]

theorem Committed.allocated_iff (h : Committed s tbl V leak) (hcount : V.Counted) :
    Allocated s id ↔ Graph.Valid s.core.nodeCount id ∧ (V.graph id).type ≠ nodeFree := by
  unfold Allocated
  simp only [h.sees_iff hcount]
  constructor
  · rintro ⟨node, hn⟩
    obtain ⟨r, hr, -⟩ := except_map_eq_ok.mp hn.symm
    exact (View.live_ok.mp hr).1
  · intro hid
    refine ⟨(V.recs id).shown, Eq.symm (except_map_eq_ok.mpr ?_)⟩
    exact ⟨V.recs id, View.live_ok.mpr ⟨hid, rfl⟩, rfl⟩

theorem Committed.hasEdge_iff (h : Committed s tbl V leak) (hcount : V.Counted) :
    HasEdge s n e ↔ (Graph.Valid s.core.nodeCount n ∧ (V.graph n).type ≠ nodeFree) ∧
      e ∈ (V.graph n).edges := by
  have hget : ∀ index, V.edgeGet s.core n index = .ok e ↔
      (Graph.Valid s.core.nodeCount n ∧ (V.graph n).type ≠ nodeFree) ∧
        (V.edges n)[index]? = some e := by
    intro index
    unfold View.edgeGet
    cases hl : V.live s.core n with
    | error err =>
      constructor
      · intro he
        cases he
      · rintro ⟨hn, -⟩
        rw [View.live_ok.mpr ⟨hn, rfl⟩] at hl
        cases hl
    | ok r =>
      have hn := (View.live_ok.mp hl).1
      cases hx : (V.edges n)[index]? with
      | none => simp [bind, Except.bind]
      | some e' => simp [bind, Except.bind, hn]
  unfold HasEdge
  simp only [h.sees_iff hcount]
  constructor
  · rintro ⟨index, hi⟩
    obtain ⟨e', he', hee⟩ := except_map_eq_ok.mp hi.symm
    cases hee
    obtain ⟨hn, hmem⟩ := (hget index).mp he'
    exact ⟨hn, Multiset.mem_coe.mpr (List.mem_of_getElem? hmem)⟩
  · rintro ⟨hn, hmem⟩
    obtain ⟨index, hi⟩ := List.getElem?_of_mem (Multiset.mem_coe.mp hmem)
    exact ⟨index, (except_map_eq_ok.mpr ⟨e, (hget index).mpr ⟨hn, hi⟩, rfl⟩).symm⟩

/-- The id that a call gave to a new node. -/
def born : Call × Except Err Nat → Option Nat
  | (.nodeCreate _ _, .ok id) => some id
  | (.createAt _ _ _ _, .ok id) => some id
  | _ => none

/-- How often each id was given to a new node, after a call. -/
def births (l : Call × Except Err Nat) (b : Nat → Nat) : Nat → Nat :=
  match born l with
  | some id => update b id (b id + 1)
  | none => b

/-- A step of a run that counts births. -/
def TracedStep (x : St × (Nat → Nat)) (l : Call × Except Err Nat) (y : St × (Nat → Nat)) : Prop :=
  Calls x.1 l y.1 ∧ y.2 = births l x.2

variable {l : Call × Except Err Nat}

theorem Calls.traced (h : Calls s l s') (b : Nat → Nat) :
    TracedStep (s, b) l (s', births l b) := ⟨h, rfl⟩

/-- A call that loses no count and frees no node that a TAG or REF edge leads to. -/
def CarefulCall (x : St × (Nat → Nat)) (l : Call × Except Err Nat) : Prop :=
  ∃ V, Shows x.1 V ∧ V.graph.Careful l.1 ∧ V.graph.HasRoom l.1

/-- What careful runs keep. -/
def Intact (s : St) : Prop :=
  ∃ V, Shows s V ∧ V.Counted ∧ Graph.Sound s.core.nodeCount V.graph

theorem firstView_sound {count : Nat} (h : 2 ≤ count) : Graph.Sound count firstView.graph := by
  have hnone : ∀ i (e : Edge), e ∉ (firstView.graph i).edges := fun i e => by
    rw [firstView_edges]
    exact Multiset.notMem_zero e
  have hrec : ∀ i, i ≠ 1 → firstView.graph i = freeVertex := fun i hi => firstView_other hi
  have hlink : ∀ i, (firstView.graph i).nlink = 0 := by
    intro i
    by_cases hi : i = 1
    · subst hi
      rfl
    · rw [hrec i hi]
      rfl
  refine ⟨⟨fun i e he => absurd he (hnone i e), fun i => ?_, fun i _ => hlink i, fun i => ?_,
    fun i hi => hrec i ?_⟩, firstView_unique, fun i _ e he => absurd he (hnone i e)⟩
  · have hdeg : firstView.graph.indeg count i = 0 :=
      Finset.sum_eq_zero fun j _ => Graph.names_eq_zero (fun e he => absurd he (hnone j e)) i
    rw [hlink, hdeg]
    rfl
  · rw [hlink]
    exact Nat.two_pow_pos 32
  · rintro rfl
    exact hi ⟨Nat.one_ne_zero, h⟩

theorem Booted.intact {total nodes : Nat} (h : Booted total nodes s) (ht : total + 7 < 2 ^ 64) :
    Intact s := by
  obtain ⟨hc, -⟩ := h.committed ht
  exact ⟨firstView, ⟨_, _, hc⟩, firstView_counted, firstView_sound hc.geom.nodes.1⟩

theorem Intact.step (h : Intact s) (hc : ∃ V, Shows s V ∧ V.graph.Careful l.1 ∧ V.graph.HasRoom l.1)
    (hrun : Calls s l s') : Intact s' := by
  obtain ⟨V, hs, hcount, hsound⟩ := h
  obtain ⟨c, r⟩ := l
  obtain ⟨V₀, hs₀, hcare, hroom⟩ := hc
  obtain rfl := hs.unique hs₀
  obtain ⟨hn, -⟩ := Calls.geometry hs hcount hrun
  unfold Intact
  rw [hn]
  rcases hs.graph_step hcount hsound.unique hrun with ⟨-, hs'⟩ | ⟨v, V', -, hstep, hs'⟩
  · exact ⟨V, hs', hcount, hsound⟩
  · exact ⟨V', hs', (hstep.counted hcount.graph hroom).view, hstep.sound hsound hcare⟩

/-- In an intact state every edge leads to an allocated node. -/
theorem Intact.target (h : Intact s) (he : HasEdge s n e) : Allocated s e.target := by
  obtain ⟨V, ⟨tbl, leak, hc⟩, hcount, hsound⟩ := h
  obtain ⟨⟨-, hlive⟩, hmem⟩ := (hc.hasEdge_iff hcount).mp he
  have htarget := hsound.target hlive hmem
  refine (hc.allocated_iff hcount).mpr ⟨?_, htarget⟩
  by_contra hn
  rw [hsound.linked.outside _ hn] at htarget
  exact htarget rfl

/-- A call gives no allocated id to a new node. -/
theorem Intact.born_ne (h : Intact s) (hrun : Calls s l s') (ha : Allocated s id) :
    born l ≠ some id := by
  obtain ⟨V, hs, hcount, hsound⟩ := h
  obtain ⟨c, r⟩ := l
  intro hb
  rcases hs.graph_step hcount hsound.unique hrun with ⟨⟨err, rfl⟩, -⟩ | ⟨v, V', rfl, hstep, -⟩
  · cases c <;> cases hb
  · obtain ⟨tbl, leak, hc⟩ := hs
    have hlive := ((hc.allocated_iff hcount).mp ha).2
    generalize V'.graph = g' at hstep
    cases hstep with
    | nodeCreate _ _ hfree =>
      cases hb
      exact hlive hfree
    | createAt _ _ _ _ _ hfree =>
      cases hb
      exact hlive hfree
    | _ => cases hb

theorem births_of_ne {b : Nat → Nat} (h : born l ≠ some id) : births l b id = b id := by
  unfold births
  cases hb : born l with
  | none => rfl
  | some i =>
    have hne : id ≠ i := by
      rintro rfl
      exact h hb
    exact update_of_ne hne _ _

/-- **A stored edge leads to an allocated node, and to the same node as long as it is stored**: in a
run of careful calls on a new file system. -/
theorem edges_keep_their_nodes {total nodes : Nat} {s₀ : St} (hboot : Booted total nodes s₀)
    (ht : total + 7 < 2 ^ 64) {x : St × (Nat → Nat)}
    (hx : ReachVia TracedStep CarefulCall (s₀, 0) x) {n : Nat} {e : Edge} (he : HasEdge x.1 n e) :
    Allocated x.1 e.target ∧
      ∀ y, ReachVia TracedStep (fun z l => CarefulCall z l ∧ HasEdge z.1 n e) x y →
        y.2 e.target = x.2 e.target := by
  have hintact : Intact x.1 :=
    ReachVia.invariant (P := fun x : St × (Nat → Nat) => Intact x.1) (hboot.intact ht)
      (fun hi hok hst => Intact.step hi hok hst.1) hx
  refine ⟨hintact.target he, fun y hy => ?_⟩
  -- the births of the target do not change from a state in which the edge is stored
  have hinv : Intact y.1 ∧ y.2 e.target = x.2 e.target := by
    refine hy.invariant (P := fun y => Intact y.1 ∧ y.2 e.target = x.2 e.target) ⟨hintact, rfl⟩ ?_
    rintro z l z' ⟨hi, hb⟩ ⟨hok, hz⟩ ⟨hrun, hbirths⟩
    refine ⟨hi.step hok hrun, ?_⟩
    rw [hbirths, births_of_ne (hi.born_ne hrun (hi.target hz)), hb]
  exact hinv.2

/-! ## A run that is not careful -/

theorem Stage.hasEdge {l : List Spot} (h : Stage l s tbl V) (hl : Light l) (h0 : n ≠ 0)
    (hn : n < l.length) (hlive : (spotAt l n).type ≠ nodeFree) (he : e ∈ (spotAt l n).edges) :
    HasEdge s n e :=
  (h.committed.hasEdge_iff (h.counted hl)).mpr ⟨⟨h.validId h0 hn, (h.type n).trans_ne hlive⟩,
    Multiset.mem_coe.mpr ((h.edges n).symm ▸ he)⟩

/-- The statement of `edges_keep_their_nodes` in a run that makes one directory. -/
theorem oneDir_keeps_its_node : ∃ s₀ x, Booted 1000 3 s₀ ∧
    ReachVia TracedStep CarefulCall (s₀, 0) x ∧ HasEdge x.1 1 ⟨edgeName, 2, [100]⟩ ∧
    Allocated x.1 2 := by
  obtain ⟨s₀, s₁, tbl, V, hboot, hrun, -, hst⟩ :=
    exists_firstNode (.inl rfl) (letter_ok (b := 100) (by decide) (by decide))
  have hcare : CarefulCall (s₀, 0) (.createAt 1 (letter 100 (by decide)) nodeNamespace 0, .ok 2) :=
    ⟨firstView, ⟨_, _, (hboot.committed (by decide)).1⟩, trivial, (by decide : 0 + 1 < 2 ^ 32)⟩
  have hreach := ReachVia.refl.tail (hrun.traced 0) hcare
  have hedge : HasEdge s₁ 1 ⟨edgeName, 2, [100]⟩ :=
    hst.hasEdge (by decide) (by decide) (by decide) (by decide) (by decide)
  exact ⟨s₀, _, hboot, hreach, hedge,
    (edges_keep_their_nodes hboot (by decide) hreach hedge).1⟩

/-- **A TAG edge outlives its node**: a directory is made, tagged from the root, and removed. -/
theorem tag_outlives_node : ∃ s₀ x, Booted 1000 3 s₀ ∧
    ReachVia TracedStep (fun _ _ => True) (s₀, 0) x ∧ HasEdge x.1 1 ⟨edgeTag, 2, [116]⟩ ∧
    ¬Allocated x.1 2 := by
  have hd : NameOk (letter 100 (by decide)) := letter_ok (by decide) (by decide)
  have ht : NameOk (letter 116 (by decide)) := letter_ok (by decide) (by decide)
  obtain ⟨s₀, s₁, tbl₁, V₁, hboot, hrun₁, -, hst₁⟩ := exists_firstNode (.inl rfl) hd
  obtain ⟨s₂, tbl₂, V₂, hrun₂, hst₂⟩ := hst₁.tag 1 2 (by decide) ht (by decide)
    (by decide) (by decide)
  obtain ⟨s₃, tbl₃, V₃, -, hrun₃, hst₃⟩ := hst₂.unlink 1 2 (by decide) hd
    (by decide)
  have hreach : ReachVia TracedStep (fun _ _ => True) (s₀, 0) (s₃, _) :=
    ((ReachVia.refl.tail (hrun₁.traced _) trivial).tail (hrun₂.traced _) trivial).tail
      (hrun₃.traced _) trivial
  refine ⟨s₀, _, hboot, hreach, hst₃.hasEdge (by decide) (by decide) (by decide) (by decide)
    (by decide), fun ha => ?_⟩
  exact ((hst₃.committed.allocated_iff (hst₃.counted (by decide))).mp ha).2 (hst₃.type 2)

end Hallucinate.Gfs
