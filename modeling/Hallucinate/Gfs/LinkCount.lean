import Hallucinate.Gfs.Graph
import Mathlib.Algebra.BigOperators.Group.Finset.Piecewise

/-!
# Link counts

`Graph.indeg g count id` is the number of NAME edges to a node. The calls change edges and link
counts one after the other, so between two changes the counts are off: `Owes count g owed` says that
the link count of each node is its number of NAME edges plus `owed`. It has one rule for each change
of a graph, and a call as a whole owes nothing.

**`Step.linked`**: a step keeps every link count equal to the number of NAME edges (`Linked`), unless
it is a NAME link of a node to itself, or one more than the 32-bit count has room for
(`Countable`).
-/

namespace Hallucinate.Gfs

open Lib Function Multiset

namespace Graph

variable {count : Nat} {g g' : Graph} {c : Call} {v : Nat} {owed : Nat → Int}

/-! ## Counting NAME edges -/

/-- The NAME edges of a vertex to `target`. -/
def Vertex.names (w : Vertex) (target : Nat) : Nat :=
  w.edges.countP fun e => e.type = edgeName ∧ e.target = target

/-- The NAME edges to a node. -/
def indeg (g : Graph) (count target : Nat) : Nat :=
  ∑ i ∈ Finset.range count, Vertex.names (g i) target

/-- **A change of one vertex.** -/
theorem indeg_update {id : Nat} (hid : id < count) (w : Vertex) (target : Nat) :
    indeg (update g id w) count target + Vertex.names (g id) target =
      g.indeg count target + Vertex.names w target := by
  have hfun : (fun i => Vertex.names (update g id w i) target) =
      update (fun i => Vertex.names (g i) target) id (Vertex.names w target) := by
    funext i
    by_cases hi : i = id
    · subst hi
      rw [update_self, update_self]
    · rw [update_of_ne hi, update_of_ne hi]
  unfold indeg
  rw [hfun]
  exact sum_update_add (Finset.mem_range.mpr hid) (fun i => Vertex.names (g i) target) _

/-- What a NAME edge counts for its target. -/
def pays (e : Edge) : Nat → Int := if e.type = edgeName then Pi.single e.target 1 else 0

theorem pays_name (target : Nat) (name : List UInt8) :
    pays ⟨edgeName, target, name⟩ = Pi.single target 1 := if_pos rfl

theorem pays_other {e : Edge} (h : e.type ≠ edgeName) : pays e = 0 := if_neg h

theorem names_cons (w : Vertex) (e : Edge) (target : Nat) :
    ((w.edges.cons e).countP fun e => e.type = edgeName ∧ e.target = target : Nat) =
      (Vertex.names w target : Int) + pays e target := by
  rw [countP_cons]
  unfold pays Vertex.names
  by_cases ht : e.type = edgeName
  · rw [if_pos ht]
    by_cases he : e.target = target
    · subst he
      rw [if_pos ⟨ht, rfl⟩, Pi.single_eq_same]
      push_cast
      ring
    · rw [if_neg fun h => he h.2, Pi.single_eq_of_ne (Ne.symm he)]
      push_cast
      ring
  · rw [if_neg fun h => ht h.1, if_neg ht]
    simp

/-- A vertex without NAME edges. -/
theorem names_eq_zero {w : Vertex} (h : ∀ e ∈ w.edges, e.type ≠ edgeName) (target : Nat) :
    Vertex.names w target = 0 :=
  countP_eq_zero.mpr fun e he hc => h e he hc.1

/-! ## Accounts -/

structure Owes (count : Nat) (g : Graph) (owed : Nat → Int) : Prop where
  named : ∀ i, ∀ e ∈ (g i).edges, e.type = edgeName → (g i).type = nodeNamespace
  links : ∀ id, ((g id).nlink : Int) = g.indeg count id + owed id
  free : ∀ id, (g id).type = nodeFree → (g id).nlink = 0
  bound : ∀ id, (g id).nlink < 2 ^ 32
  outside : ∀ id, ¬Valid count id → g id = freeVertex

/-- Nothing is owed. -/
abbrev Linked (count : Nat) (g : Graph) : Prop := Owes count g 0

namespace Owes

variable {id dir : Nat} {e : Edge}

theorem named_of_free (h : Owes count g owed) (hfree : (g id).type = nodeFree) :
    ∀ e ∈ (g id).edges, e.type ≠ edgeName := by
  intro e he ht
  have := h.named id e he ht
  rw [hfree] at this
  cases this

/-- The general rule for a vertex that is replaced. -/
theorem set (w : Vertex) (h : Owes count g owed) (hid : Valid count id)
    (hnamed : ∀ e ∈ w.edges, e.type = edgeName → w.type = nodeNamespace)
    (hfree : w.type = nodeFree → w.nlink = 0) (hbound : w.nlink < 2 ^ 32)
    {owed' : Nat → Int}
    (hlinks : ∀ t, owed' t + Vertex.names w t = owed t + Vertex.names (g id) t +
      if t = id then (w.nlink : Int) - (g id).nlink else 0) :
    Owes count (update g id w) owed' := by
  refine ⟨fun i e => ?_, fun i => ?_, fun i => ?_, fun i => ?_, fun i hi => ?_⟩
  · by_cases hi : i = id
    · subst hi
      rw [update_self]
      exact hnamed e
    · rw [update_of_ne hi]
      exact h.named i e
  · have hsum := indeg_update (g := g) hid.2 w i
    have hl := hlinks i
    have hold := h.links i
    by_cases hi : i = id
    · subst hi
      rw [if_pos rfl] at hl
      rw [update_self]
      omega
    · rw [if_neg hi] at hl
      rw [update_of_ne hi]
      omega
  · by_cases hi : i = id
    · subst hi
      rw [update_self]
      exact hfree
    · rw [update_of_ne hi]
      exact h.free i
  · by_cases hi : i = id
    · subst hi
      rw [update_self]
      exact hbound
    · rw [update_of_ne hi]
      exact h.bound i
  · have hne : i ≠ id := by
      rintro rfl
      exact hi hid
    rw [update_of_ne hne]
    exact h.outside i hi

theorem addEdge (h : Owes count g owed) (hd : Valid count dir)
    (ht : e.type = edgeName → (g dir).type = nodeNamespace) :
    Owes count (g.addEdge dir e) (owed - pays e) := by
  refine h.set { g dir with edges := e ::ₘ (g dir).edges } hd (fun e' he' ht' => ?_) (h.free dir)
    (h.bound dir) fun t => ?_
  · rcases mem_cons.mp he' with rfl | he'
    · exact ht ht'
    · exact h.named dir e' he' ht'
  · have hn := names_cons (g dir) e t
    have hw : Vertex.names { g dir with edges := e ::ₘ (g dir).edges } t =
      (e ::ₘ (g dir).edges).countP fun e => e.type = edgeName ∧ e.target = t := rfl
    rw [hw, hn, Pi.sub_apply]
    simp only [sub_self, ite_self]
    ring

theorem delEdge (h : Owes count g owed) (hd : Valid count dir) (he : e ∈ (g dir).edges) :
    Owes count (g.delEdge dir e) (owed + pays e) := by
  refine h.set { g dir with edges := (g dir).edges.erase e } hd
    (fun e' he' => h.named dir e' (mem_of_mem_erase he')) (h.free dir) (h.bound dir)
    fun t => ?_
  have hn := names_cons { g dir with edges := (g dir).edges.erase e } e t
  have hcons : e ::ₘ (g dir).edges.erase e = (g dir).edges := cons_erase he
  have hw : Vertex.names (g dir) t =
      (g dir).edges.countP fun e => e.type = edgeName ∧ e.target = t := rfl
  dsimp only at hn
  rw [hcons] at hn
  rw [hw, hn, Pi.add_apply]
  simp only [sub_self, ite_self]
  ring

theorem countLink (dir : Nat) (h : Owes count g owed) (hid : Valid count id) (hlive : (g id).type ≠ nodeFree)
    (hroom : (g id).nlink + 1 < 2 ^ 32) :
    Owes count (g.countLink id dir) (owed + Pi.single id 1) := by
  have hn : ((g id).nlink + 1) % 2 ^ 32 = (g id).nlink + 1 := Nat.mod_eq_of_lt hroom
  unfold Graph.countLink
  rw [hn]
  refine h.set { g id with
    nlink := (g id).nlink + 1,
    parent := if (g id).type = nodeNamespace then dir else (g id).parent } hid (h.named id)
    (fun hf => absurd hf hlive) hroom fun t => ?_
  rw [Pi.add_apply]
  show _ + (Vertex.names (g id) t : Int) = _
  by_cases ht : t = id
  · subst ht
    rw [Pi.single_eq_same, if_pos rfl]
    push_cast
    ring
  · rw [Pi.single_eq_of_ne ht, if_neg ht]
    ring

/-- A link less. A node that is freed has no NAME edges to lose. -/
theorem dropLink (h : Owes count g owed) (hid : Valid count id) (hpos : 1 ≤ (g id).nlink)
    (hempty : (g id).type = nodeNamespace → (g id).edges = 0) :
    Owes count (g.dropLink id) (owed - Pi.single id 1) := by
  have hbound := h.bound id
  have hsingle : ∀ t, (owed - Pi.single id 1 : Nat → Int) t = owed t - if t = id then 1 else 0 := by
    intro t
    rw [Pi.sub_apply, Pi.single_apply]
  unfold Graph.dropLink
  by_cases hone : (g id).nlink = 1
  · rw [Vertex.less_of_one hone]
    refine h.set _ hid (fun e he => absurd he (notMem_zero e)) (fun _ => rfl)
      (by decide) fun t => ?_
    have hnames : Vertex.names (g id) t = 0 := by
      refine names_eq_zero (fun e he ht => ?_) t
      rw [hempty (h.named id e he ht)] at he
      exact notMem_zero e he
    have hfree : Vertex.names freeVertex t = 0 := rfl
    have hnl : freeVertex.nlink = 0 := rfl
    rw [hsingle, hnames, hfree, hnl, hone]
    split
    · push_cast
      ring
    · simp
  · rw [Vertex.less_of_ne hone hbound]
    have hn : ((g id).nlink + (2 ^ 32 - 1)) % 2 ^ 32 = (g id).nlink - 1 := by omega
    rw [hn]
    refine h.set { g id with nlink := (g id).nlink - 1 } hid (h.named id) (fun hf => ?_)
      (show (g id).nlink - 1 < 2 ^ 32 by omega) fun t => ?_
    · have := h.free id hf
      omega
    · rw [hsingle]
      show _ + (Vertex.names (g id) t : Int) = _
      split
      · push_cast [hpos]
        ring
      · ring

variable {type : Nat}

/-- A free node gets a record. -/
theorem create (nlink parent : Nat) (h : Owes count g owed) (hid : Valid count id)
    (hfree : (g id).type = nodeFree) (ht : type ≠ nodeFree) (hl : nlink < 2 ^ 32) :
    Owes count (g.create id type nlink parent) (owed + Pi.single id (nlink : Int)) := by
  refine h.set _ hid (fun e he => absurd he (notMem_zero e)) (fun hf => absurd hf ht) hl
    fun t => ?_
  have hnames := names_eq_zero (h.named_of_free hfree) t
  have hnew : Vertex.names ⟨type, nlink, parent, 0⟩ t = 0 := rfl
  rw [hnames, hnew, h.free id hfree, Pi.add_apply, Pi.single_apply]
  simp

theorem setParent {parent : Nat} (h : Owes count g owed) (hid : Valid count id) :
    Owes count (g.setParent id parent) owed := by
  refine h.set { g id with parent := parent } hid (h.named id) (h.free id) (h.bound id)
    fun t => ?_
  simp only [sub_self, ite_self, add_zero]
  rfl

theorem reparent {olddir newdir src : Nat} (h : Owes count g owed) (hs : Valid count src) :
    Owes count (g.reparent olddir newdir src) owed := by
  unfold Graph.reparent
  split
  · exact h.setParent hs
  · exact h

end Owes

/-! ## Steps -/

/-- A call whose links can be counted. -/
def Countable (g : Graph) : Call → Prop
  | .link dir _ target type => type = edgeName → target ≠ dir ∧ (g target).nlink + 1 < 2 ^ 32
  | _ => True

/-- A NAME edge is counted by its target. -/
theorem Owes.nlink_pos {dir : Nat} {e : Edge} (h : Linked count g) (hd : Valid count dir)
    (he : e ∈ (g dir).edges) (ht : e.type = edgeName) : 1 ≤ (g e.target).nlink := by
  have hl := h.links e.target
  have hone : 1 ≤ Vertex.names (g dir) e.target :=
    countP_pos.mpr ⟨e, he, ht, rfl⟩
  have hle : Vertex.names (g dir) e.target ≤ g.indeg count e.target :=
    Finset.single_le_sum (f := fun i => Vertex.names (g i) e.target) (fun _ _ => Nat.zero_le _)
      (Finset.mem_range.mpr hd.2)
  simp only [Pi.zero_apply, add_zero] at hl
  omega

/-- The names of an allocated node lead to allocated nodes. -/
theorem Owes.target_live {i : Nat} {e : Edge} (h : Linked count g) (hi : (g i).type ≠ nodeFree)
    (he : e ∈ (g i).edges) (ht : e.type = edgeName) : (g e.target).type ≠ nodeFree := by
  have hv : Valid count i := by
    by_contra hn
    rw [h.outside i hn] at hi
    exact hi rfl
  intro hfree
  have hpos := h.nlink_pos hv he ht
  have hzero := h.free _ hfree
  omega

/-- An unlink, when the link count of the target is still one too high. -/
theorem Owes.unlink {dir target : Nat} {name : List UInt8} (h : Owes count g owed)
    (hd : Valid count dir) (ht : Valid count target) (hne : target ≠ dir)
    (he : (⟨edgeName, target, name⟩ : Edge) ∈ (g dir).edges) (hpos : 1 ≤ (g target).nlink)
    (hempty : (g target).type = nodeNamespace → (g target).edges = 0) :
    Owes count (g.unlink dir name target) owed := by
  have h₁ := h.delEdge hd he
  have hsame : (g.delEdge dir ⟨edgeName, target, name⟩) target = g target :=
    update_of_ne hne _ _
  have h₂ := h₁.dropLink ht (by rw [hsame]; exact hpos) (by rw [hsame]; exact hempty)
  rw [pays_name, add_sub_cancel_right] at h₂
  exact h₂

theorem createType_ne (h : CreateType type) : type ≠ nodeFree := by
  rcases h with rfl | rfl <;> decide

/-- **A step keeps the link counts right.** -/
theorem Step.linked (h : Step count g c v g') (hl : Linked count g) (hc : g.Countable c) :
    Linked count g' := by
  cases h with
  | nodeCreate ht hid hfree =>
    have h₁ := hl.create 0 0 hid hfree (createType_ne ht) (by decide)
    rwa [Nat.cast_zero, Pi.single_zero, add_zero] at h₁
  | @createAt dir type _ name mode ht hd hdir hname hid hfree =>
    have hne : dir ≠ v := by
      rintro rfl
      rw [hdir] at hfree
      cases hfree
    have h₁ := hl.create 1 (if type = nodeNamespace then dir else 0) hid hfree (createType_ne ht)
      (by decide)
    have h₂ := h₁.addEdge (e := ⟨edgeName, v, name.bytes⟩) hd fun _ => by
      rw [create_of_ne hne]
      exact hdir
    rw [pays_name, Nat.cast_one, add_sub_cancel_right] at h₂
    exact h₂
  | @link dir target type name htype hd ht hlive hnamed =>
    have h₁ := hl.addEdge (e := ⟨type, target, name.bytes⟩) hd fun h => (hnamed h).1
    unfold Graph.link
    by_cases hname : type = edgeName
    · obtain ⟨hne, hroom⟩ := hc hname
      subst hname
      have hsame : (g.addEdge dir ⟨edgeName, target, name.bytes⟩) target = g target :=
        update_of_ne hne _ _
      have h₂ := h₁.countLink dir ht (by rw [hsame]; exact hlive)
        (by rw [hsame]; exact hroom)
      rw [pays_name, sub_add_cancel] at h₂
      rw [if_pos ⟨rfl, hne⟩]
      exact h₂
    · rw [pays_other hname, sub_zero] at h₁
      rw [if_neg fun h => hname h.1]
      exact h₁
  | @unlink dir target name hd hdir hfound ht hne hempty =>
    exact hl.unlink hd ht hne hfound (hl.nlink_pos hd hfound rfl) hempty
  | @rename olddir newdir src oldname newname dst ho hn hodir hndir hfound hsrc hwalk hnone hsome =>
    have h₁ := hl.delEdge ho hfound
    -- the new name is given up, and nothing more is owed than the edge that moves
    have h₂ : Owes count ((g.delEdge olddir ⟨edgeName, src, oldname.bytes⟩).replace newdir
        newname.bytes dst) (0 + pays ⟨edgeName, src, oldname.bytes⟩) := by
      cases dst with
      | none => exact h₁
      | some d =>
        obtain ⟨hmem, hds, hd, hrep, hdo, hdn⟩ := hsome d rfl
        have hsame : (g.delEdge olddir ⟨edgeName, src, oldname.bytes⟩) d = g d :=
          update_of_ne hdo _ _
        refine h₁.unlink hn hd hdn (mem_delEdge hmem hds) ?_ ?_
        · rw [hsame]
          exact hl.nlink_pos hn hmem rfl
        · rw [hsame]
          intro hns
          unfold Replaceable at hrep
          split at hrep
          · exact hrep.2
          · exact absurd hns hrep
    have hdir : ((g.delEdge olddir ⟨edgeName, src, oldname.bytes⟩).replace newdir newname.bytes dst
        newdir).type = nodeNamespace := by
      cases dst with
      | none => exact (delEdge_type ..).trans hndir
      | some d =>
        have hdn := (hsome d rfl).2.2.2.2.2
        show (((g.delEdge olddir _).delEdge newdir _).dropLink d newdir).type = _
        rw [dropLink_of_ne (Ne.symm hdn), delEdge_type, delEdge_type, hndir]
    have h₃ := h₂.addEdge (e := ⟨edgeName, src, newname.bytes⟩) hn fun _ => hdir
    rw [pays_name, pays_name, add_sub_cancel_right] at h₃
    exact h₃.reparent hsrc
  | renameSame => exact hl
  | write => exact hl
  | truncate => exact hl

end Graph

end Hallucinate.Gfs
