import Hallucinate.Gfs.Space

/-!
# When a directory counts as empty

`GFS_ENOTEMPTY` is documented as "namespace still has NAME edges". `gfs_unlink` and `gfs_rename` test
`edge_count`, which counts edges of every type.

* **`notempty_exact`**: on a device that works, and with all other checks passed, the two calls report
  `GFS_ENOTEMPTY` for a directory exactly if it has names, if and only if the directory has no edges
  at all or has a name among them.
* **`tagged_dir_notempty`**: a directory without names, but with one TAG edge, cannot be removed.
-/

namespace Hallucinate.Gfs

open Lib

variable {s : St} {tbl : Nat → Bp} {V : View} {leak : Multiset Nat}

/-- The node has an outgoing NAME edge. -/
def View.HasNames (V : View) (id : Nat) : Prop := ∃ e ∈ V.edges id, e.type = edgeName

section

variable (h : Committed s tbl V leak) (hcount : V.Counted)
include h hcount

/-- The test of `edge_count` and the names of the node agree. -/
theorem Committed.count_iff_names (id : Nat) :
    (0 < (V.recs id).edgeCount ↔ V.HasNames id) ↔ (V.edges id = [] ∨ V.HasNames id) := by
  have hlen : (V.recs id).edgeCount = (V.edges id).length :=
    (h.view.node id).edgeCount_eq (hcount id)
  rw [hlen, List.length_pos_iff]
  by_cases hnil : V.edges id = []
  · have hnone : ¬V.HasNames id := by
      rintro ⟨e, he, -⟩
      rw [hnil] at he
      cases he
    exact iff_of_true (iff_of_false (not_not.mpr hnil) hnone) (.inl hnil)
  · exact ⟨fun hiff => .inr (hiff.mp hnil),
      fun hor => iff_of_true hnil (hor.resolve_left hnil)⟩

/-- **`gfs_unlink`** of a directory fails for its edges exactly if their count is not 0. -/
theorem Committed.unlink_notempty {dir target : Nat} {name : CStr}
    (hseen : UnlinkSeen s.core V dir name target) (hns : (V.recs target).type = nodeNamespace) :
    ∃ r s', call (gfsUnlink dir name) (fun _ => false) s = some (r, s') ∧
      (r = .error .enotempty ↔ 0 < (V.recs target).edgeCount) := by
  obtain ⟨r, s', hrun, hpost⟩ :=
    (wp_gfsUnlink h.fresh rfl hcount fun _ hstop => hstop).quiet
  refine ⟨r, s', hrun, ?_⟩
  cases r with
  | ok u =>
    obtain ⟨t, hok, -⟩ := hpost
    obtain rfl : t = target := Option.some.inj (hok.found.symm.trans hseen.found)
    exact iff_of_false nofun fun hpos => hok.empty ⟨hns, hpos⟩
  | error e =>
    cases hpost.2 with
    | check hn => exact absurd ⟨target, hseen⟩ hn
    | @full t ht _ hfull =>
      obtain rfl : t = target := Option.some.inj (ht.found.symm.trans hseen.found)
      exact iff_of_true rfl hfull
    | @space t hok _ =>
      obtain rfl : t = target := Option.some.inj (hok.found.symm.trans hseen.found)
      exact iff_of_false nofun fun hpos => hok.empty ⟨hns, hpos⟩

/-- **`gfs_rename`** onto a directory fails for its edges exactly if their count is not 0. -/
theorem Committed.rename_notempty {olddir newdir src target : Nat} {oldname newname : CStr}
    (hold : NameOk oldname) (hnew : NameOk newname)
    (hseen : RenameSeen s.core V olddir oldname.bytes newdir newname.bytes src (some target))
    (hne : target ≠ src) (hns : (V.recs target).type = nodeNamespace) :
    ∃ r s', call (gfsRename olddir oldname newdir newname) (fun _ => false) s = some (r, s') ∧
      (r = .error .enotempty ↔ 0 < (V.recs target).edgeCount) := by
  have hsrc : (V.recs src).type = nodeNamespace := (hseen.kind target rfl hne).2.mpr hns
  -- when all checks passed, the count was 0
  have hzero : ∀ {a b}, RenameOk s.core V olddir oldname.bytes newdir newname.bytes a b →
      (V.recs target).edgeCount = 0 := by
    intro a b hok
    obtain rfl : a = src := Option.some.inj (hok.found.symm.trans hseen.found)
    have hrep := (hok.replace target (hok.target.symm.trans hseen.target) hne).2
    unfold ReplaceOk at hrep
    rw [if_pos hsrc] at hrep
    exact hrep.2
  obtain ⟨r, s', hrun, hpost⟩ := (wp_gfsRename h.fresh rfl hcount
    fun _ hstop => hstop).quiet
  refine ⟨r, s', hrun, ?_⟩
  cases r with
  | ok u =>
    obtain ⟨-, -, a, b, hok, -⟩ := hpost
    exact iff_of_false nofun (hzero hok).not_gt
  | error e =>
    cases hpost.2 with
    | name hn => exact absurd ⟨hold, hnew⟩ hn
    | change hok hno =>
      exact iff_of_false (fun he => hno (Except.error.inj he)) (hzero hok).not_gt
    | stop hstop =>
      cases hstop with
      | check hn => exact absurd ⟨src, _, hseen⟩ hn
      | @full a d hfound _ _ hfull =>
        obtain rfl : d = target := Option.some.inj (hfound.target.symm.trans hseen.target)
        exact iff_of_true rfl hfull

end

/-- **`GFS_ENOTEMPTY` means names, for directories that have no edges or have a name among them.** -/
theorem notempty_exact (h : Shows s V) (hcount : V.Counted) :
    (∀ dir name target, UnlinkSeen s.core V dir name target →
      (V.recs target).type = nodeNamespace →
      ∃ r s', call (gfsUnlink dir name) (fun _ => false) s = some (r, s') ∧
        ((r = .error .enotempty ↔ V.HasNames target) ↔
          (V.edges target = [] ∨ V.HasNames target))) ∧
    ∀ olddir oldname newdir newname src target, NameOk oldname → NameOk newname →
      RenameSeen s.core V olddir oldname.bytes newdir newname.bytes src (some target) →
      target ≠ src → (V.recs target).type = nodeNamespace →
      ∃ r s', call (gfsRename olddir oldname newdir newname) (fun _ => false) s = some (r, s') ∧
        ((r = .error .enotempty ↔ V.HasNames target) ↔
          (V.edges target = [] ∨ V.HasNames target)) := by
  obtain ⟨tbl, leak, hc⟩ := h
  refine ⟨fun dir name target hseen hns => ?_, fun olddir oldname newdir newname src target hold
    hnew hseen hne hns => ?_⟩
  · obtain ⟨r, s', hrun, hiff⟩ := hc.unlink_notempty hcount hseen hns
    refine ⟨r, s', hrun, ?_⟩
    rw [hiff]
    exact hc.count_iff_names hcount target
  · obtain ⟨r, s', hrun, hiff⟩ := hc.rename_notempty hcount hold hnew hseen hne hns
    refine ⟨r, s', hrun, ?_⟩
    rw [hiff]
    exact hc.count_iff_names hcount target

/-- Removing the only directory of a file system. -/
theorem notempty_exact_oneDir : ∃ s V, Shows s V ∧ V.Counted ∧
    UnlinkSeen s.core V 1 (letter 100 (by decide)) 2 ∧ (V.recs 2).type = nodeNamespace ∧
    ∃ r s', call (gfsUnlink 1 (letter 100 (by decide))) (fun _ => false) s = some (r, s') ∧
      ((r = .error .enotempty ↔ V.HasNames 2) ↔ (V.edges 2 = [] ∨ V.HasNames 2)) := by
  have hname : NameOk (letter 100 (by decide)) := letter_ok (by decide) (by decide)
  obtain ⟨-, s, tbl, V, -, -, -, hst⟩ := exists_firstNode (.inl rfl) hname
  have hcount := hst.counted (by decide)
  have hseen := hst.unlinkSeen 1 2 hname (by decide) (by decide)
  have hns : (V.recs 2).type = nodeNamespace := hst.type 2
  exact ⟨s, V, hst.shows, hcount, hseen, hns, (notempty_exact hst.shows hcount).1 1 _ 2 hseen hns⟩

/-- **A directory that cannot be removed**: it has no names, but a TAG edge to the root. -/
theorem tagged_dir_notempty : ∃ s₀ s₁ s₂ V s₃, Booted 1000 3 s₀ ∧
    Calls s₀ (.createAt 1 (letter 100 (by decide)) nodeNamespace 0, .ok 2) s₁ ∧
    Calls s₁ (.link 2 (letter 116 (by decide)) 1 edgeTag, .ok 0) s₂ ∧
    Shows s₂ V ∧ ¬V.HasNames 2 ∧
    call (gfsUnlink 1 (letter 100 (by decide))) (fun _ => false) s₂ =
      some (.error .enotempty, s₃) := by
  have hname : NameOk (letter 100 (by decide)) := letter_ok (by decide) (by decide)
  have htag : NameOk (letter 116 (by decide)) := letter_ok (by decide) (by decide)
  obtain ⟨s₀, s₁, tbl₁, V₁, hboot, hrun₁, -, hst₁⟩ := exists_firstNode (.inl rfl) hname
  obtain ⟨s₂, tbl₂, V₂, hrun₂, hst₂⟩ := hst₁.tag 2 1 (by decide) htag
    (by decide) (by decide) (by decide)
  have hcount := hst₂.counted (by decide)
  have hseen := hst₂.unlinkSeen 1 2 hname (by decide) (by decide)
  have hedges : V₂.edges 2 = [⟨edgeTag, 1, [116]⟩] := hst₂.edges 2
  obtain ⟨r, s₃, hrun₃, hiff⟩ := hst₂.committed.unlink_notempty hcount hseen (hst₂.type 2)
  obtain rfl : r = .error .enotempty := hiff.mpr (by
    rw [(hst₂.committed.view.node 2).edgeCount_eq (hcount 2), ← View.edges, hedges]
    decide)
  refine ⟨s₀, s₁, s₂, V₂, s₃, hboot, hrun₁, hrun₂, hst₂.shows, ?_, hrun₃⟩
  rintro ⟨e, he, htype⟩
  rw [hedges, List.mem_singleton] at he
  rw [he] at htype
  cases htype

end Hallucinate.Gfs
