import Hallucinate.Vfs.Dirents

/-!
# Enumerating a directory while it changes

A description of a directory is read by `gfsf_getdents` until a call returns nothing, and between
the calls the file system may change (`Lists`). The cursor of the description is an index of the edge
chain. `edge_remove_name` copies the chain and `edge_add` may put an edge in front of it, so a name
may change its index; `edgesAfter` gives the edges of a directory after a call, in their new order.

**`enumeration_exact`**: a name that no call mentions is returned exactly once by the time the end is
reached, if no call moves it across the cursor (`Undisturbed`). `enumeration_skips` is a run in which
one does: removing a name that was already returned moves the next one below the cursor.
-/

namespace Hallucinate.Gfs

open Lib

/-! ## The edges of a directory after a call -/

/-- The edges of `dir` after a call that returned `v`. -/
def edgesAfter (V : View) (dir : Nat) : Call → Nat → List Edge
  | .createAt d name _ _, v =>
    if d = dir then addEdge (V.edges dir) ⟨edgeName, v, name.bytes⟩ else V.edges dir
  | .link d name target type, _ =>
    if d = dir then addEdge (V.edges dir) ⟨type, target, name.bytes⟩ else V.edges dir
  | .unlink d name, _ =>
    if d = dir then recopy (dropName name.bytes (V.edges dir)) else V.edges dir
  | .rename olddir oldname newdir newname, _ =>
    let src := lookupName oldname.bytes (V.edges olddir)
    let dst := lookupName newname.bytes (V.edges newdir)
    if src = dst then V.edges dir
    else
      let es := if olddir = dir then recopy (dropName oldname.bytes (V.edges dir)) else V.edges dir
      if newdir = dir then
        addEdge (if dst.isSome then recopy (dropName newname.bytes es) else es)
          ⟨edgeName, src.getD 0, newname.bytes⟩
      else es
  | _, _ => V.edges dir

variable {i : Nat} {e : Edge}

variable {cl : Call}

section After

variable {c : Core} {disk disk' : Nat → Option Bytes} {V V' : View} {dir id : Nat} {n : DiskNode}
  {cs : List EBlk}

theorem View.set_edges_self : (V.set id n cs).edges id = chainEdges cs := by
  rw [View.edges, View.set_chain_self]

theorem View.set_edges_ne (h : i ≠ id) : (V.set id n cs).edges i = V.edges i := by
  rw [View.edges, View.set_chain_ne h, View.edges]

/-- Changing a record alone. -/
theorem View.set_edges (V : View) (id : Nat) (n : DiskNode) (i : Nat) :
    (V.set id n (V.chain id)).edges i = V.edges i := by
  by_cases hi : i = id
  · rw [hi, View.set_edges_self, View.edges]
  · exact View.set_edges_ne hi

theorem View.reparented_edges (V : View) (olddir newdir src i : Nat) :
    (V.reparented olddir newdir src).edges i = V.edges i := by
  unfold View.reparented
  split
  · exact View.set_edges ..
  · rfl

theorem View.unlinked_edges {d target : Nat} (h : i ≠ target) :
    (V.unlinked d target n cs).edges i = if d = i then chainEdges cs else V.edges i := by
  unfold View.unlinked
  rw [View.set_edges_ne h]
  by_cases hd : d = i
  · rw [if_pos hd, hd, View.set_edges_self]
  · rw [if_neg hd, View.set_edges_ne fun e => hd e.symm]

theorem View.Replaces.edges {newdir : Nat} {newname : List UInt8} {dst : Option Nat}
    (h : V.Replaces newdir newname dst V') (hi : ∀ d, dst = some d → i ≠ d) :
    V'.edges i = if newdir = i ∧ dst.isSome then recopy (dropName newname (V.edges i))
      else V.edges i := by
  cases dst with
  | none =>
    have hV : V' = V := h
    rw [hV, if_neg (by simp)]
  | some d =>
    obtain ⟨n, cs, hdrop, rfl⟩ := h
    rw [View.unlinked_edges (hi d rfl)]
    by_cases hd : newdir = i
    · subst hd
      rw [if_pos rfl, if_pos ⟨rfl, rfl⟩, hdrop.1, View.edges]
    · rw [if_neg hd, if_neg fun h => hd h.1]

/-- **The order of the edges after a call**, in a directory that is not empty. -/
theorem Effect.edges_after {v : Nat} (h : Effect c disk disk' V cl v V')
    (hview : ViewAt disk c.nodeCount V) (hcount : V.Counted)
    (hns : (V.recs dir).type = nodeNamespace) (hne : V.edges dir ≠ []) :
    V'.edges dir = edgesAfter V dir cl v := by
  have hfree : ∀ id, (V.recs id).type = nodeFree → dir ≠ id := by
    rintro id hid rfl
    rw [hns] at hid
    cases hid
  -- a directory that a call frees has no edges
  have hempty : (V.recs dir).edgeCount ≠ 0 := fun h0 =>
    hne (Multiset.coe_eq_zero _ |>.mp (edges_eq_zero hview hcount h0))
  cases h with
  | nodeCreate _ _ hid => exact View.set_edges_ne (hfree _ hid)
  | @link d target type name n cs hok hadd =>
    have hset : (V.set d n cs).edges dir = edgesAfter V dir (.link d name target type) 0 := by
      rw [edgesAfter]
      by_cases hd : d = dir
      · subst hd
        rw [View.set_edges_self, if_pos rfl, hadd.1, View.edges]
      · rw [if_neg hd, View.set_edges_ne fun e => hd e.symm]
    unfold View.linked
    split
    · rename_i hlink
      by_cases ht : dir = target
      · subst ht
        rw [View.set_edges_self, edgesAfter, if_neg (Ne.symm hlink.2), View.edges]
      · rw [View.set_edges_ne ht, hset]
    · exact hset
  | @unlink d target name n cs hok _ hdrop =>
    have ht : dir ≠ target := by
      rintro rfl
      exact hok.empty ⟨hns, Nat.pos_of_ne_zero hempty⟩
    rw [View.unlinked_edges ht, edgesAfter]
    by_cases hd : d = dir
    · subst hd
      rw [if_pos rfl, if_pos rfl, hdrop.1, View.edges]
    · rw [if_neg hd, if_neg hd]
  | @createAt d type id name mode n cs hok _ hid hadd =>
    rw [edgesAfter]
    by_cases hd : d = dir
    · subst hd
      rw [View.set_edges_self, if_pos rfl, hadd.1, View.edges]
    · rw [if_neg hd, View.set_edges_ne fun e => hd e.symm, View.set_edges_ne (hfree _ hid)]
  | @rename olddir newdir src oldname newname dst V' _ _ hok hdst hren =>
    obtain ⟨n₁, cs₁, V₂, n₃, cs₃, hdrop, hrep, hadd, rfl⟩ := hren
    have hdir : ∀ d, dst = some d → dir ≠ d := by
      rintro d rfl rfl
      have hr := (hok.replace dir rfl fun e => hdst (by rw [e])).2
      unfold ReplaceOk at hr
      split at hr
      · exact hempty hr.2
      · exact hr hns
    have h₁ : (V.set olddir n₁ cs₁).edges dir =
        if olddir = dir then recopy (dropName oldname.bytes (V.edges dir)) else V.edges dir := by
      by_cases hd : olddir = dir
      · subst hd
        rw [View.set_edges_self, if_pos rfl, hdrop.1, View.edges]
      · rw [if_neg hd, View.set_edges_ne fun e => hd e.symm]
    have h₂ := hrep.edges hdir
    rw [h₁] at h₂
    rw [View.reparented_edges]
    simp only [edgesAfter, hok.found, hok.target, if_neg (Ne.symm hdst), Option.getD_some]
    by_cases hd : newdir = dir
    · subst hd
      have hV₂ : chainEdges (V₂.chain newdir) = V₂.edges newdir := rfl
      rw [View.set_edges_self, if_pos rfl, hadd.1, hV₂, h₂]
      simp only [true_and]
    · rw [if_neg hd, View.set_edges_ne fun e => hd e.symm, h₂, if_neg fun h => hd h.1]
  | @renameSame olddir newdir src oldname newname _ _ hok =>
    simp only [edgesAfter, hok.found, hok.target, if_true]
  | write => exact View.set_edges ..
  | truncate => exact View.set_edges ..
  | writeNone => rfl
  | truncateSame => rfl

/-- The call does not mention the entry `name` of `dir`. -/
def Spares (dir : Nat) (name : List UInt8) : Call → Prop
  | .createAt d name' _ _ => ¬(d = dir ∧ name'.bytes = name)
  | .link d name' _ _ => ¬(d = dir ∧ name'.bytes = name)
  | .unlink d name' => ¬(d = dir ∧ name'.bytes = name)
  | .rename olddir oldname newdir newname =>
    ¬(olddir = dir ∧ oldname.bytes = name) ∧ ¬(newdir = dir ∧ newname.bytes = name)
  | _ => True

variable {name : List UInt8} {es : List Edge}

theorem countP_addEdge (h : e.name ≠ name) :
    (addEdge es e).countP (isName name) = es.countP (isName name) := by
  rw [(addEdge_perm es e).countP_eq, List.countP_cons_of_neg]
  rw [isName_iff]
  exact fun he => h he.2

theorem countP_recopy_dropName {name' : List UInt8} (h : name' ≠ name) :
    (recopy (dropName name' es)).countP (isName name) = es.countP (isName name) := by
  rw [(recopy_perm _).countP_eq, dropName]
  rcases List.exists_or_eq_self_of_eraseP (isName name') es with heq | ⟨e, l₁, l₂, -, he, hl, hdrop⟩
  · rw [heq]
  · have hne : ¬isName name e = true := by
      rw [isName_iff]
      exact fun hn => h ((isName_iff.mp he).2.symm.trans hn.2)
    rw [hdrop, hl, List.countP_append, List.countP_append, List.countP_cons_of_neg hne]

/-- A call that does not mention a name keeps it. -/
theorem Spares.countP {v : Nat} (h : Spares dir name cl) :
    (edgesAfter V dir cl v).countP (isName name) = (V.edges dir).countP (isName name) := by
  cases cl with
  | createAt d name' type mode =>
    rw [edgesAfter]
    split
    · rename_i hd
      exact countP_addEdge fun hn => h ⟨hd, hn⟩
    · rfl
  | link d name' target type =>
    rw [edgesAfter]
    split
    · rename_i hd
      exact countP_addEdge fun hn => h ⟨hd, hn⟩
    · rfl
  | unlink d name' =>
    rw [edgesAfter]
    split
    · rename_i hd
      exact countP_recopy_dropName fun hn => h ⟨hd, hn⟩
    · rfl
  | rename olddir oldname newdir newname =>
    have hold : (if olddir = dir then recopy (dropName oldname.bytes (V.edges dir))
        else V.edges dir).countP (isName name) = (V.edges dir).countP (isName name) := by
      split
      · rename_i hd
        exact countP_recopy_dropName fun hn => h.1 ⟨hd, hn⟩
      · rfl
    simp only [edgesAfter]
    split
    · rfl
    split
    · rename_i hd
      rw [countP_addEdge fun hn => h.2 ⟨hd, hn⟩]
      split
      · rw [countP_recopy_dropName fun hn => h.2 ⟨hd, hn⟩, hold]
      · exact hold
    · exact hold
  | nodeCreate => rfl
  | write => rfl
  | truncate => rfl

end After

/-! ## Names without zero bytes -/

namespace Graph

variable {count v : Nat} {c : Call} {g g' : Graph}

/-- Names are C strings. -/
def Clean (g : Graph) : Prop := ∀ i, ∀ e ∈ (g i).edges, 0 ∉ e.name

theorem Clean.of_le (h : g.Clean) (hle : ∀ i, (g' i).edges ≤ (g i).edges) : g'.Clean :=
  fun i e he => h i e (Multiset.mem_of_le (hle i) he)

theorem Clean.addEdge (h : g.Clean) (dir : Nat) (he : 0 ∉ e.name) : (g.addEdge dir e).Clean := by
  intro i e' he'
  by_cases hee : e' = e
  · rw [hee]
    exact he
  · exact h i e' (mem_addEdge_of_ne he' hee)

theorem Step.clean (h : Step count g c v g') (hc : g.Clean) : g'.Clean := by
  cases h with
  | nodeCreate => exact hc.of_le (create_le _ _ _ _ _)
  | @createAt _ _ _ name => exact (hc.of_le (create_le _ _ _ _ _)).addEdge _ name.noNul
  | @link dir target type name =>
    have hadd := hc.addEdge dir (e := ⟨type, target, name.bytes⟩) name.noNul
    unfold Graph.link
    split
    · exact hadd.of_le fun i => (countLink_edges ..).le
    · exact hadd
  | unlink => exact hc.of_le (unlink_le _ _ _ _)
  | @rename olddir newdir src oldname newname dst =>
    unfold Graph.rename
    refine Clean.of_le ?_ fun i => (reparent_edges ..).le
    exact ((hc.of_le (delEdge_le _ _ _)).of_le (replace_le _ _ _ _)).addEdge _ newname.noNul
  | renameSame => exact hc
  | write => exact hc
  | truncate => exact hc

end Graph

end Hallucinate.Gfs

namespace Hallucinate.Vfs

open Lib Gfs

variable {es : List Edge} {name : List UInt8} {dir off : Nat}

/-! ## The entries between two positions of the cursor -/

theorem cname_eq (h : 0 ∉ e.name) : cname e = e.name := by
  refine List.takeWhile_eq_self_iff.mpr fun b hb => ?_
  simp only [ne_eq, decide_not, Bool.not_eq_true', decide_eq_false_iff_not]
  rintro rfl
  exact h hb

variable {off' : Nat}

theorem entries_snoc (h : off ≤ off') :
    entries es off (off' + 1) = entries es off off' ++ (entry es off').toList := by
  unfold entries
  rw [show off' + 1 - off = off' - off + 1 by omega, List.range'_concat, List.filterMap_append,
    Nat.one_mul, Nat.add_sub_cancel' h, List.filterMap_cons]
  cases entry es off' <;> rfl

/-- The entry at the cursor is `name` if the edge is. -/
theorem entry_count (hclean : ∀ e ∈ es, 0 ∉ e.name) (hdot : name ≠ [46]) (hup : name ≠ [46, 46])
    (k : Nat) : (es.take (k - 2)).countP (isName name) + (entry es k).toList.count name =
      (es.take (k + 1 - 2)).countP (isName name) := by
  match k with
  | 0 => simp [entry, hdot.symm]
  | 1 => simp [entry, hup.symm]
  | i + 2 =>
    rw [Nat.add_sub_cancel, show i + 2 + 1 - 2 = i + 1 by omega, List.take_add_one, List.countP_append]
    congr 1
    cases hi : es[i]? with
    | none => simp [entry, hi]
    | some e =>
      have hname := cname_eq (hclean e (List.mem_of_getElem? hi))
      by_cases ht : e.type = edgeName
      · simp [entry, hi, ht, hname, isName, List.count_singleton, List.countP_singleton]
      · simp [entry, hi, ht, isName]

/-- **How often a name is among the entries between two positions.** -/
theorem entries_count (hclean : ∀ e ∈ es, 0 ∉ e.name) (hdot : name ≠ [46]) (hup : name ≠ [46, 46])
    (hle : off ≤ off') :
    (es.take (off - 2)).countP (isName name) + (entries es off off').count name =
      (es.take (off' - 2)).countP (isName name) := by
  induction off', hle using Nat.le_induction with
  | base => rw [entries_self, List.count_nil, Nat.add_zero]
  | succ k hk ih =>
    rw [entries_snoc hk, List.count_append, ← Nat.add_assoc, ih]
    exact entry_count hclean hdot hup k

/-! ## Enumerations -/

/-- An enumeration under way: the file system, the cursor, the names returned so far, and whether a
call has returned that there are no more. -/
structure Listing where
  s : St
  off : Nat
  out : List (List UInt8)
  done : Bool

/-- A call of `getdents`, and whether a device operation failed in it, or another call. -/
inductive Event
  | getdents (len : Nat) (failed : Bool)
  | call (l : Call × Except Err Nat)

/-- A call of `getdents` that returned 0. -/
def ended : Except Errno (List Dirent) → Bool
  | .ok [] => true
  | _ => false

theorem ended_iff {r : Except Errno (List Dirent)} : ended r = true ↔ r = .ok [] := by
  unfold ended
  split <;> simp_all

/-- One step: the directory `dir` is read on, or the file system is changed. -/
inductive Lists (dir : Nat) : Listing → Event → Listing → Prop
  | getdents {x : Listing} {len off : Nat} {o : Nat → Bool} {r : Except Errno (List Dirent)} {s' : St}
      (hopen : x.done = false)
      (hrun : call (gfsfGetdents dir x.off len) o x.s = some (.ok (r, off), s')) :
      Lists dir x (.getdents len s'.failed) ⟨s', off, x.out ++ names r, ended r⟩
  | call {x : Listing} {l : Call × Except Err Nat} {s' : St} (hrun : Calls x.s l s') :
      Lists dir x (.call l) { x with s := s' }

/-- `name` is among the edges that the cursor has passed. -/
def passed (off : Nat) (name : List UInt8) (es : List Edge) : Bool :=
  (es.take (off - 2)).any (isName name)

/-- A call that keeps the counts of edges and links. -/
def BoundedCall (s : St) (l : Call × Except Err Nat) : Prop :=
  ∃ V, Shows s V ∧ V.graph.HasRoom l.1 ∧ V.graph.Countable l.1

/-- **A step that does not disturb the enumeration**: no device operation fails while the directory
is read, and a call does not move `name` across the cursor. -/
def Undisturbed (dir : Nat) (name : List UInt8) (x : Listing) : Event → Prop
  | .getdents _ failed => failed = false
  | .call l => BoundedCall x.s l ∧ Spares dir name l.1 ∧ ∀ V v, Shows x.s V → l.2 = .ok v →
      passed x.off name (edgesAfter V dir l.1 v) = passed x.off name (V.edges dir)

/-- What calls keep that do not lose count. -/
structure Listable (s : St) (V : View) : Prop where
  tidy : Tidy s V
  linked : Graph.Linked s.core.nodeCount V.graph
  clean : V.graph.Clean

variable {x : Listing}

section Runs

variable {s s' s₀ : St} {V : View} {total nodes : Nat} {l : Call × Except Err Nat}

theorem listable_of_booted (h : Booted total nodes s) (ht : total + 7 < 2 ^ 64) :
    Listable s firstView := by
  have hnodes := (h.committed ht).1.geom.nodes.1
  refine ⟨h.tidy ht, (firstView_sound hnodes).linked, fun i e he => ?_⟩
  rw [firstView_edges] at he
  exact absurd he (Multiset.notMem_zero e)

/-- A call that does not lose count: it changes nothing, or has its effect. -/
theorem Listable.step (h : Listable s V) (hb : BoundedCall s l) (hrun : Calls s l s') :
    ∃ V', Listable s' V' ∧ ((∃ e, l.2 = .error e) ∧ V' = V ∨
      ∃ v, l.2 = .ok v ∧ Effect s.core s.disk s'.disk V l.1 v V') := by
  obtain ⟨V₀, hs₀, hroom, hcountable⟩ := hb
  obtain rfl := h.tidy.shown.unique hs₀
  obtain ⟨hn, -⟩ := Calls.geometry h.tidy.shown h.tidy.counted hrun
  have hcount := h.tidy.counted
  rcases h.tidy.shown.step hcount hrun with ⟨he, hs', -⟩ | ⟨v, V', hr, heff, hs'⟩
  · exact ⟨V, ⟨⟨hs', hcount, h.tidy.unique⟩, hn ▸ h.linked, h.clean⟩, .inl ⟨he, rfl⟩⟩
  · obtain ⟨tbl, leak, hc⟩ := h.tidy.shown
    have hstep := heff.graph h.tidy.unique hc.view hcount hc.geom.root
    refine ⟨V', ⟨⟨hs', (hstep.counted hcount.graph hroom).view, hstep.unique h.tidy.unique⟩, ?_,
      hstep.clean h.clean⟩, .inr ⟨v, hr, heff⟩⟩
    rw [hn]
    exact hstep.linked h.linked hcountable

/-- **Every state that such calls lead to.** -/
theorem listable_of_reach (hboot : Booted total nodes s₀) (ht : total + 7 < 2 ^ 64)
    (hreach : ReachVia Calls BoundedCall s₀ s) : ∃ V, Listable s V := by
  refine ReachVia.invariant (P := fun s => ∃ V, Listable s V) ⟨_, listable_of_booted hboot ht⟩ ?_ hreach
  rintro s l s' ⟨V, hV⟩ hb hrun
  obtain ⟨V', hV', -⟩ := hV.step hb hrun
  exact ⟨V', hV'⟩

theorem Listable.readable (h : Listable s V) (hlive : (V.graph dir).type ≠ nodeFree) :
    Readable s.core V dir := by
  obtain ⟨tbl, leak, hc⟩ := h.tidy.shown
  have hvalid : ∀ id, (V.graph id).type ≠ nodeFree → Graph.Valid s.core.nodeCount id := by
    intro id hid
    by_contra hn
    rw [h.linked.outside id hn] at hid
    exact hid rfl
  refine ⟨View.live_ok.mpr ⟨⟨hvalid dir hlive, hlive⟩, rfl⟩,
    (hc.view.node dir).edgeCount_eq (h.tidy.counted dir), fun e he ht => ?_⟩
  have htarget := h.linked.target_live hlive (Multiset.mem_coe.mpr he) ht
  exact View.live_ok.mpr ⟨⟨hvalid _ htarget, htarget⟩, rfl⟩

/-- What a call of `getdents` does, if no device operation fails. -/
theorem getdents_quiet {len : Nat} {o : Nat → Bool} {r : Except Errno (List Dirent) × Nat}
    (h : Tidy s V) (hrun : call (gfsfGetdents dir off len) o s = some (.ok r, s'))
    (hquiet : s'.failed = false) :
    Shows s' V ∧ s'.core = s.core ∧ r = treeListing s.core V dir off len := by
  obtain ⟨tbl, leak, hc⟩ := h.shown
  obtain ⟨hsafe, hr⟩ := Prog.post_of_run (wp_gfsfGetdents _ _ _ hc.fresh rfl h.counted) hrun
  rcases hr with hf | hr
  · rw [hf] at hquiet
    cases hquiet
  · exact ⟨⟨tbl, leak, hc.fresh.safe hsafe⟩, hsafe.core, hr⟩

/-- What an enumeration keeps, for a name that is in the directory. -/
structure Tracks (dir : Nat) (name : List UInt8) (x : Listing) (V : View) : Prop where
  listable : Listable x.s V
  present : (V.edges dir).countP (isName name) = 1
  returned : x.out.count name = ((V.edges dir).take (x.off - 2)).countP (isName name)
  ended : x.done = true → x.out.count name = 1

theorem Tracks.namespace (h : Tracks dir name x V) : (V.recs dir).type = nodeNamespace := by
  have hpos : 0 < (V.edges dir).countP (isName name) := by
    rw [h.present]
    exact Nat.one_pos
  obtain ⟨e, he, hname⟩ := List.countP_pos_iff.mp hpos
  exact h.listable.linked.named dir e (Multiset.mem_coe.mpr he) (isName_iff.mp hname).1

theorem countP_take_of_passed {es' : List Edge} (h : es.countP (isName name) = 1)
    (h' : es'.countP (isName name) = 1) (hp : passed off name es' = passed off name es) :
    (es'.take (off - 2)).countP (isName name) = (es.take (off - 2)).countP (isName name) := by
  have hone : ∀ l : List Edge, l.countP (isName name) = 1 →
      (l.take (off - 2)).countP (isName name) = if passed off name l then 1 else 0 := by
    intro l hl
    have hle := (List.take_sublist (off - 2) l).countP_le (p := isName name)
    have hiff : passed off name l = true ↔ 0 < (l.take (off - 2)).countP (isName name) := by
      rw [List.countP_pos_iff, passed, List.any_eq_true]
    by_cases hpos : passed off name l = true
    · rw [if_pos hpos]
      have := hiff.mp hpos
      omega
    · rw [if_neg hpos]
      have := mt hiff.mpr hpos
      omega
  rw [hone es' h', hone es h, hp]

/-- **One step.** -/
theorem Tracks.step {y : Listing} {ev : Event} (h : Tracks dir name x V) (hdot : name ≠ [46])
    (hup : name ≠ [46, 46]) (hok : Undisturbed dir name x ev) (hstep : Lists dir x ev y) :
    ∃ V', Tracks dir name y V' := by
  have hns := h.namespace
  cases hstep with
  | @getdents len off' o r s' hopen hrun =>
    obtain ⟨hs', hcore, hr⟩ := getdents_quiet h.listable.tidy hrun hok
    have hlive : (V.graph dir).type ≠ nodeFree := by
      show (V.recs dir).type ≠ nodeFree
      rw [hns]
      decide
    obtain ⟨hle, hnames, hend⟩ := treeListing_names x.off len (h.listable.readable hlive)
    rw [← hr] at hle hnames hend
    have hout : (x.out ++ names r).count name =
        ((V.edges dir).take (off' - 2)).countP (isName name) := by
      rw [List.count_append, h.returned, hnames]
      exact entries_count (h.listable.clean dir) hdot hup hle
    refine ⟨V, ⟨⟨hs', h.listable.tidy.counted, h.listable.tidy.unique⟩, ?_, h.listable.clean⟩,
      h.present, hout, fun hd => ?_⟩
    · rw [hcore]
      exact h.listable.linked
    · have hall : (V.edges dir).length + 2 ≤ off' := hend (ended_iff.mp hd)
      rw [hout, List.take_of_length_le (by omega), h.present]
  | @call l s' hrun =>
    obtain ⟨hb, hspares, hpassed⟩ := hok
    obtain ⟨V', hl', ⟨-, rfl⟩ | ⟨v, hv, heff⟩⟩ := h.listable.step hb hrun
    · exact ⟨V', hl', h.present, h.returned, h.ended⟩
    · obtain ⟨tbl, leak, hc⟩ := h.listable.tidy.shown
      have hne : V.edges dir ≠ [] := fun hnil => by
        have hp := h.present
        rw [hnil] at hp
        cases hp
      have hedges := heff.edges_after hc.view h.listable.tidy.counted hns hne
      have hpresent : (V'.edges dir).countP (isName name) = 1 := by
        rw [hedges, hspares.countP, h.present]
      have hp := hpassed V v h.listable.tidy.shown hv
      rw [← hedges] at hp
      exact ⟨V', hl', hpresent, h.returned.trans (countP_take_of_passed h.present hpresent hp).symm,
        h.ended⟩

/-- **Stable enumeration**: a name that is in the directory when the enumeration starts and that no
call mentions is returned once, by the time the end is reached, and never more than once, if no step
disturbs the enumeration. Directories have no entries `.` and `..` of their own: `vfs_path_norm`
takes these names out of every path. -/
theorem enumeration_exact {s₁ : St} {target : Nat} {x : Listing} (hboot : Booted total nodes s₀)
    (ht : total + 7 < 2 ^ 64) (hreach : ReachVia Calls BoundedCall s₀ s₁)
    (hedge : HasEdge s₁ dir ⟨edgeName, target, name⟩) (hdot : name ≠ [46]) (hup : name ≠ [46, 46])
    (hrun : ReachVia (Lists dir) (Undisturbed dir name) ⟨s₁, 0, [], false⟩ x) :
    x.out.count name ≤ 1 ∧ (x.done = true → x.out.count name = 1) := by
  obtain ⟨V₁, hl₁⟩ := listable_of_reach hboot ht hreach
  have hstart : Tracks dir name ⟨s₁, 0, [], false⟩ V₁ := by
    obtain ⟨tbl, leak, hc⟩ := hl₁.tidy.shown
    obtain ⟨-, hmem⟩ := (hc.hasEdge_iff hl₁.tidy.counted).mp hedge
    have hpos : 0 < (V₁.edges dir).countP (isName name) :=
      List.countP_pos_iff.mpr ⟨_, Multiset.mem_coe.mp hmem, isName_iff.mpr ⟨rfl, rfl⟩⟩
    have hle := countP_of_unique hl₁.tidy.unique dir name
    exact ⟨hl₁, by omega, rfl, fun hd => by cases hd⟩
  obtain ⟨V, hV⟩ : ∃ V, Tracks dir name x V := by
    refine ReachVia.invariant (P := fun x => ∃ V, Tracks dir name x V) ⟨V₁, hstart⟩ ?_ hrun
    rintro x ev y ⟨V, hV⟩ hok hstep
    exact hV.step hdot hup hok hstep
  refine ⟨?_, hV.ended⟩
  rw [hV.returned, ← hV.present]
  exact (List.take_sublist _ _).countP_le

end Runs

/-! ## A run that skips a name -/

section Skip

variable {s : St} {V : View} {tbl : Nat → Bp} {leak : Multiset Nat}

/-- A buffer of 72 bytes holds the dot entries and one name of a letter. -/
theorem treeListing_three {c : Core} {rest : List Edge} (h : Readable c V dir)
    (hedges : V.edges dir = e :: rest) (htype : ∀ e' ∈ e :: rest, e'.type = edgeName)
    (hlen : (cname e).length = 1) : ∃ recs, treeListing c V dir 0 72 = (.ok recs, 3) ∧
      recs.map Dirent.name = [[46], [46, 46], cname e] := by
  have hlist : treeListing c V dir 0 72 =
      treeFill c V dir (V.recs dir).shown 72 ((V.recs dir).edgeCount + 3) ⟨0, 0, []⟩ := by
    unfold treeListing
    rw [h.live]
    rfl
  have hthird : entry (V.edges dir) 2 = some (cname e) := by
    rw [hedges, entry, List.getElem?_cons_zero]
    exact if_pos (htype e List.mem_cons_self)
  have he : reclen (cname e) = 24 := by rw [reclen, hlen]
  obtain ⟨d₁, hd₁, h₁⟩ := treeFill_emit ((V.recs dir).edgeCount + 2) ⟨0, 0, []⟩
    h (show entry (V.edges dir) 0 = some [46] from rfl) (show 0 + reclen [46] ≤ 72 by decide)
  obtain ⟨d₂, hd₂, h₂⟩ := treeFill_emit ((V.recs dir).edgeCount + 1)
    ⟨1, 24, [d₁]⟩ h (show entry (V.edges dir) 1 = some [46, 46] from rfl)
    (show 24 + reclen [46, 46] ≤ 72 by decide)
  obtain ⟨d₃, hd₃, h₃⟩ := treeFill_emit (V.recs dir).edgeCount
    ⟨2, 48, [d₁, d₂]⟩ h hthird (show 48 + reclen (cname e) ≤ 72 by omega)
  simp only [he] at h₃
  refine ⟨[d₁, d₂, d₃], ((hlist.trans h₁).trans h₂).trans (h₃.trans ?_), by simp [hd₁, hd₂, hd₃]⟩
  refine treeFill_stop (f := ⟨3, 72, [d₁, d₂, d₃]⟩) h ?_
  cases rest with
  | nil => exact .inl (by rw [hedges]; exact le_rfl)
  | cons e' rest =>
    have hmem : e' ∈ e :: e' :: rest := List.mem_cons_of_mem _ List.mem_cons_self
    refine .inr ⟨show 0 < 72 by decide, cname e', ?_, show 72 < 72 + reclen (cname e') from ?_⟩
    · show entry (V.edges dir) 3 = _
      rw [hedges, entry, List.getElem?_cons_succ, List.getElem?_cons_zero]
      exact if_pos (htype e' hmem)
    · have := reclen_pos (cname e')
      omega

/-- At the end a call returns nothing. -/
theorem treeListing_end {c : Core} (off len : Nat) (h : Readable c V dir)
    (hend : (V.edges dir).length + 2 ≤ off) : treeListing c V dir off len = (.ok [], off) := by
  unfold treeListing
  rw [h.live]
  exact treeFill_stop h (.inl hend)

/-- A call of `getdents` while the device works. -/
theorem exists_getdents (dir off len : Nat) (h : Committed s tbl V leak) (hcount : V.Counted)
    (out : List (List UInt8)) : ∃ s', Committed s' tbl V leak ∧ s'.core = s.core ∧
      Lists dir ⟨s, off, out, false⟩ (.getdents len false)
        ⟨s', (treeListing s.core V dir off len).2, out ++ names (treeListing s.core V dir off len).1,
          ended (treeListing s.core V dir off len).1⟩ := by
  obtain ⟨r, s', hrun, hpost⟩ := Prog.run_of_wp
    (wp_gfsfGetdents dir off len h.fresh rfl hcount) fun _ => false
  have hquiet : s'.failed = false := run_quiet rfl hrun
  cases r with
  | error e => exact hpost.elim
  | ok r =>
    obtain ⟨hsafe, hf | rfl⟩ := hpost
    · rw [hquiet] at hf
      cases hf
    · have hstep : Lists dir ⟨s, off, out, false⟩ (.getdents len s'.failed) _ := .getdents rfl hrun
      rw [hquiet] at hstep
      exact ⟨s', h.fresh.safe hsafe, hsafe.core, hstep⟩

/-- After a step a listable file system is one that shows another tree. -/
theorem Listable.after {l : Call × Except Err Nat} {s' : St} {V' : View} (h : Listable s V)
    (hb : BoundedCall s l) (hrun : Calls s l s') (hV : Shows s' V') : Listable s' V' := by
  obtain ⟨V'', hl, -⟩ := h.step hb hrun
  obtain rfl := hV.unique hl.tidy.shown
  exact hl

/-- A file system with one directory in its root can be listed. -/
theorem exists_listable : ∃ s₀ s₁ tbl V, Booted 1000 3 s₀ ∧ ReachVia Calls BoundedCall s₀ s₁ ∧
    Stage (oneSpot nodeNamespace [100]) s₁ tbl V ∧ Listable s₁ V := by
  obtain ⟨s₀, s₁, tbl, V, hboot, hrun, -, hst⟩ :=
    exists_firstNode (.inl rfl) (letter_ok (b := 100) (by decide) (by decide))
  have hb : BoundedCall s₀ (.createAt 1 (letter 100 (by decide)) nodeNamespace 0, .ok 2) :=
    ⟨firstView, ⟨_, _, (hboot.committed (by decide)).1⟩, (by decide : 0 + 1 < 2 ^ 32), trivial⟩
  exact ⟨s₀, s₁, tbl, V, hboot, ReachVia.refl.tail hrun hb, hst,
    (listable_of_booted hboot (by decide)).after hb hrun hst.shows⟩

/-- The statement of `enumeration_exact` for a root with one directory, which is read in two calls. -/
theorem enumeration_exact_oneDir : ∃ s₀ s₁ x, Booted 1000 3 s₀ ∧
    ReachVia Calls BoundedCall s₀ s₁ ∧ HasEdge s₁ 1 ⟨edgeName, 2, [100]⟩ ∧
    ReachVia (Lists 1) (Undisturbed 1 [100]) ⟨s₁, 0, [], false⟩ x ∧ x.done = true ∧
    x.out.count [100] = 1 := by
  obtain ⟨s₀, s₁, tbl, V, hboot, hreach, hst, hl⟩ := exists_listable
  have hc := hst.committed
  have hlive : (V.graph 1).type ≠ nodeFree := (hst.type 1).trans_ne (by decide)
  have hedges : V.edges 1 = [⟨edgeName, 2, [100]⟩] := hst.edges 1
  have hedge : HasEdge s₁ 1 ⟨edgeName, 2, [100]⟩ :=
    hst.hasEdge (by decide) (by decide) (by decide) (by decide) (by decide)
  have hread := hl.readable hlive
  obtain ⟨recs, hlist, hnames⟩ := treeListing_three hread hedges (by simp) (by simp [cname])
  obtain ⟨s₂, hc₂, hcore₂, hstep₂⟩ := exists_getdents 1 0 72 hc hl.tidy.counted []
  rw [hlist] at hstep₂
  have hend := treeListing_end 3 72 hread (by rw [hedges]; exact le_rfl)
  rw [← hcore₂] at hend
  have hopen : ended (.ok recs) = false := by
    cases recs with
    | nil => cases hnames
    | cons => rfl
  rw [hopen] at hstep₂
  obtain ⟨s₃, -, -, hstep₃⟩ := exists_getdents 1 3 72 hc₂ hl.tidy.counted
    ([] ++ names (.ok recs))
  rw [hend] at hstep₃
  have hx : ReachVia (Lists 1) (Undisturbed 1 [100]) ⟨s₁, 0, [], false⟩ _ :=
    (ReachVia.refl.tail hstep₂ rfl).tail hstep₃ rfl
  exact ⟨s₀, s₁, _, hboot, hreach, hedge, hx, rfl,
    (enumeration_exact hboot (by decide) hreach hedge (by decide) (by decide) hx).2 rfl⟩

/-- Steps that do not lose count, do not mention `name` and do not fail. -/
def Apart (dir : Nat) (name : List UInt8) (x : Listing) : Event → Prop
  | .getdents _ failed => failed = false
  | .call l => BoundedCall x.s l ∧ Spares dir name l.1

/-- The nodes of a root with the two directories `a` and `b`. -/
def twoSpots : List Spot := made (made (firstSpots 4) 1 [97] nodeNamespace 2) 1 [98] nodeNamespace 3

theorem exists_twoDirs : ∃ s₀ s tbl V, Booted 1000 4 s₀ ∧ ReachVia Calls BoundedCall s₀ s ∧
    Stage twoSpots s tbl V ∧ Listable s V := by
  obtain ⟨s₀, hboot, hst₀⟩ := exists_stage 4 (by decide) (by decide)
  obtain ⟨s₁, -, tbl₁, V₁, hrun₁, -, hst₁, -⟩ := hst₀.createAt 1 2 (by decide)
    (.inl rfl) (letter_ok (b := 97) (by decide) (by decide)) (by decide)
  obtain ⟨s₂, -, tbl₂, V₂, hrun₂, -, hst₂, -⟩ := hst₁.createAt 1 3 (by decide)
    (.inl rfl) (letter_ok (b := 98) (by decide) (by decide)) (by decide)
  have hc₁ : Calls s₀ (.createAt 1 (letter 97 (by decide)) nodeNamespace 0, .ok 2) s₁ := ⟨_, hrun₁⟩
  have hc₂ : Calls s₁ (.createAt 1 (letter 98 (by decide)) nodeNamespace 0, .ok 3) s₂ := ⟨_, hrun₂⟩
  have hb₁ : BoundedCall s₀ (.createAt 1 (letter 97 (by decide)) nodeNamespace 0, .ok 2) :=
    ⟨firstView, hst₀.shows, (by decide : 0 + 1 < 2 ^ 32), trivial⟩
  have hb₂ : BoundedCall s₁ (.createAt 1 (letter 98 (by decide)) nodeNamespace 0, .ok 3) := by
    refine ⟨V₁, hst₁.shows, ?_, trivial⟩
    show (V₁.edges 1).length + 1 < 2 ^ 32
    rw [hst₁.edges]
    decide
  exact ⟨s₀, s₂, tbl₂, V₂, hboot, (ReachVia.refl.tail hc₁ hb₁).tail hc₂ hb₂, hst₂,
    ((listable_of_booted hboot (by decide)).after hb₁ hc₁ hst₁.shows).after hb₂ hc₂ hst₂.shows⟩

/-- **A name is skipped**: `a` is returned and removed, `b` takes its place below the cursor. -/
theorem enumeration_skips : ∃ s₀ s₁ x target, Booted 1000 4 s₀ ∧ ReachVia Calls BoundedCall s₀ s₁ ∧
    HasEdge s₁ 1 ⟨edgeName, target, [98]⟩ ∧
    ReachVia (Lists 1) (Apart 1 [98]) ⟨s₁, 0, [], false⟩ x ∧
    HasEdge x.s 1 ⟨edgeName, target, [98]⟩ ∧ x.done = true ∧ x.out.count [98] = 0 := by
  obtain ⟨s₀, s₁, tbl, V, hboot, hreach, hst, hl⟩ := exists_twoDirs
  have hcount := hl.tidy.counted
  have hlive : (V.graph 1).type ≠ nodeFree := (hst.type 1).trans_ne (by decide)
  have hedges : V.edges 1 = [⟨edgeName, 2, [97]⟩, ⟨edgeName, 3, [98]⟩] := hst.edges 1
  -- the first call returns `a`
  obtain ⟨recs, hlist, hnames⟩ := treeListing_three (hl.readable hlive) hedges (by simp)
    (by simp [cname])
  obtain ⟨s₂, hc₂, hcore₂, hstep₂⟩ := exists_getdents 1 0 72 hst.committed hcount []
  have hopen : ended (.ok recs) = false := by
    cases recs with
    | nil => cases hnames
    | cons => rfl
  rw [hlist, hopen] at hstep₂
  -- `a` is removed
  have hst₂ := hst.same hc₂ hcore₂
  have hl₂ : Listable s₂ V := by
    refine ⟨⟨hst₂.shows, hcount, hl.tidy.unique⟩, ?_, hl.clean⟩
    rw [hcore₂]
    exact hl.linked
  obtain ⟨s₃, tbl₃, V₃, -, hrun₃, hst₃⟩ := hst₂.unlink 1 2 (by decide)
    (letter_ok (b := 97) (by decide) (by decide)) (by decide)
  have hb₃ : BoundedCall s₂ (.unlink 1 (letter 97 (by decide)), .ok 0) :=
    ⟨V, hst₂.shows, trivial, trivial⟩
  have hl₃ := hl₂.after hb₃ hrun₃ hst₃.shows
  have hlive₃ : (V₃.graph 1).type ≠ nodeFree := (hst₃.type 1).trans_ne (by decide)
  -- the second call is at the end
  have hend := treeListing_end 3 72 (hl₃.readable hlive₃) (by rw [hst₃.edges]; decide)
  obtain ⟨s₄, hc₄, hcore₄, hstep₄⟩ := exists_getdents 1 3 72 hst₃.committed hl₃.tidy.counted
    ([] ++ names (.ok recs))
  rw [hend] at hstep₄
  have hx : ReachVia (Lists 1) (Apart 1 [98]) ⟨s₁, 0, [], false⟩ _ :=
    ((ReachVia.refl.tail hstep₂ rfl).tail (.call hrun₃) ⟨hb₃, by simp [Spares, letter]⟩).tail hstep₄ rfl
  refine ⟨s₀, s₁, _, 3, hboot, hreach, hst.hasEdge (by decide) (by decide) (by decide) (by decide)
    (by decide), hx, (hst₃.same hc₄ hcore₄).hasEdge (by decide) (by decide) (by decide) (by decide)
    (by decide), rfl, ?_⟩
  simp [names, hnames, cname]

end Skip

end Hallucinate.Vfs
