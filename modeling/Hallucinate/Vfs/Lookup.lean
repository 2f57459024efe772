import Hallucinate.Vfs.Path

/-!
# Two ways to look up a path (`gfs_resolve`, `path_split` and `gfs_lookup`)

`gfs_open` resolves a whole path. The calls that change names split it at its last slash, resolve the
parent and look the last component up in it (`gfs_locate`). Both are compared on every state of the
handle and the device; blocks that the device cannot read are part of its state (`bad`), so that a
program has one answer in each state.

Each `gfs_lookup` loads the node map again. Once it is in its buffer that changes nothing (`Warm`),
and the programs between two loads leave the buffer alone (`Looks`).

* `pathSplit_eq`: the last slash of a path is where its last component starts.
* `Warm.lookupAll`: with the node map in its buffer, looking up names one by one is `gfs_resolve`'s
  loop, errors included.
* **`lookups_agree`**: both ways give the same code and node; and `gfs_resolve` is the fold of
  `gfs_lookup` over the components, after it has loaded the node map.
* **`resolve_loads_map_first`**: with a node map that cannot be read, `gfs_resolve` fails on "/" and
  on a path with too long a component, where the fold returns the root or `GFS_ENAMETOOLONG`.
-/

namespace Hallucinate.Vfs

open Lib Gfs List

variable {α : Type}

/-! ## `path_split` -/

/-- The loop of `path_split` from index `i`; `last` is the last slash so far. -/
def lastSlash : Nat → Nat → List UInt8 → Nat
  | _, last, [] => last
  | i, last, b :: p => lastSlash (i + 1) (if b = 47 then i else last) p

/-- `path_split`: the parent's path and the final component. -/
def pathSplit (canon : CStr) : CStr × CStr :=
  let last := lastSlash 0 0 canon.bytes
  (if last = 0 then ⟨[47], by decide⟩
    else ⟨canon.bytes.take last, fun h => canon.noNul (mem_of_mem_take h)⟩,
    ⟨canon.bytes.drop (last + 1), fun h => canon.noNul (mem_of_mem_drop h)⟩)

variable {name : List UInt8}

theorem lastSlash_name (h : 47 ∉ name) (i last : Nat) : lastSlash i last name = last := by
  induction name generalizing i with
  | nil => rfl
  | cons b name ih =>
    rw [mem_cons, not_or] at h
    rw [lastSlash, if_neg (Ne.symm h.1)]
    exact ih h.2 (i + 1)

theorem lastSlash_append (h : 47 ∉ name) (p : List UInt8) (i last : Nat) :
    lastSlash i last (p ++ 47 :: name) = i + p.length := by
  induction p generalizing i last with
  | nil =>
    show lastSlash (i + 1) (if (47 : UInt8) = 47 then i else last) name = i
    rw [if_pos rfl, lastSlash_name h]
  | cons b p ih =>
    rw [cons_append, lastSlash, ih, length_cons]
    omega

variable {canon : CStr}

variable {p : List UInt8}

/-- **`path_split` cuts a path before its last component.** -/
theorem pathSplit_eq (hc : canon.bytes = p ++ 47 :: name) (hname : 47 ∉ name) :
    (pathSplit canon).1.bytes = (if p = [] then [47] else p) ∧ (pathSplit canon).2.bytes = name := by
  have hlast : lastSlash 0 0 canon.bytes = p.length := by
    rw [hc, lastSlash_append hname, Nat.zero_add]
  unfold pathSplit
  simp only [hlast]
  refine ⟨?_, ?_⟩
  · by_cases hp : p = []
    · rw [if_pos hp, if_pos (length_eq_zero_iff.mpr hp)]
    · rw [if_neg hp, if_neg (mt length_eq_zero_iff.mp hp)]
      show canon.bytes.take p.length = p
      rw [hc, take_left]
  · show canon.bytes.drop (p.length + 1) = name
    rw [hc, ← drop_drop, drop_left]
    rfl

/-! ## Answers -/

/-- The device operations that fail where the blocks in `bad` can be neither read nor written. -/
def badCmd (bad : Nat → Bool) : Cmd → Bool
  | .read lba _ => bad lba
  | .write lba _ => bad lba
  | _ => false

/-- What a program returns on a device with bad blocks. -/
def answer (bad : Nat → Bool) (p : GfsM α) (s : St) : Option (Except Err α) :=
  (p.runOn gfsMachine (badCmd bad) s).map Prod.fst

/-- The left fold of `gfs_lookup`. -/
def lookupAll (names : List CStr) (dir : Nat) : GfsM Nat := names.foldlM gfsLookup dir

/-- The components of a path as strings. -/
def pathNames (path : CStr) : List CStr :=
  (components path.bytes).attach.map fun c => ⟨c.1, (components_nameLike path c.2).noNul⟩

/-- The parent by `gfs_resolve` and the final component by `gfs_lookup`, as `gfs_locate` does it. -/
def splitLookup (canon : CStr) : GfsM Nat := do
  let dir ← gfsResolve (pathSplit canon).1
  gfsLookup dir (pathSplit canon).2

/-- A path as `vfs_path_norm` writes it. -/
def Canonical (canon : CStr) : Prop := ∃ path cap, vfsPathNorm path cap = .ok canon.bytes

variable {bad : Nat → Bool} {s s' : St}

/-! ## The node map in its buffer -/

/-- The node map can be read, and is in its buffer. -/
structure Warm (bad : Nat → Bool) (s : St) : Prop where
  inRange : s.core.nodemap.phys < s.core.totalBlocks
  good : bad s.core.nodemap.phys = false
  loaded : s.buf .map = s.disk s.core.nodemap.phys
  valid : ∃ blk, s.disk s.core.nodemap.phys = some blk ∧ blockCrc blk = s.core.nodemap.crc

theorem runOn_devRead (bad : Nat → Bool) (lba : Nat) (dst : Buf) (s : St) :
    (devRead lba dst).runOn gfsMachine (badCmd bad) s =
      if bad lba then some (.ok false, (s.setBuf dst none).fault)
      else (s.disk lba).map fun blk => (.ok true, s.setBuf dst (some blk)) := by
  have hstep : (devRead lba dst).runOn gfsMachine (badCmd bad) s =
      (gfsMachine.step (.read lba dst) (bad lba) s).bind fun xs => some (.ok xs.1, xs.2) := rfl
  rw [hstep]
  cases bad lba with
  | true => rfl
  | false =>
    show ((s.disk lba).map fun blk => (true, s.setBuf dst (some blk))).bind _ = _
    cases s.disk lba <;> rfl

/-- `map_load` on a device with bad blocks. -/
theorem runOn_mapLoad (bad : Nat → Bool) (s : St) :
    mapLoad.runOn gfsMachine (badCmd bad) s =
      if s.core.totalBlocks ≤ s.core.nodemap.phys then some (.error .ecorrupt, s)
      else if bad s.core.nodemap.phys then some (.error .eio, (s.setBuf .map none).fault)
      else (s.disk s.core.nodemap.phys).map fun blk =>
        (if blockCrc blk ≠ s.core.nodemap.crc then .error .ebadcrc else .ok (),
          s.setBuf .map (some blk)) := by
  have hload : mapLoad.runOn gfsMachine (badCmd bad) s =
      (readMeta s.core.nodemap .map).runOn gfsMachine (badCmd bad) s := rfl
  have hread : (bread s.core.nodemap.phys .map).runOn gfsMachine (badCmd bad) s =
      (if s.core.totalBlocks ≤ s.core.nodemap.phys then fail .ecorrupt
        else devRead s.core.nodemap.phys .map >>= fun ok =>
          if ok then pure () else fail .eio : GfsM Unit).runOn gfsMachine (badCmd bad) s := rfl
  rw [hload, readMeta, Prog.runOn_bind, hread]
  by_cases hr : s.core.totalBlocks ≤ s.core.nodemap.phys
  · rw [if_pos hr, if_pos hr]
    rfl
  rw [if_neg hr, if_neg hr, Prog.runOn_bind, runOn_devRead]
  cases bad s.core.nodemap.phys with
  | true => rfl
  | false =>
    rw [if_neg (by decide), if_neg (by decide)]
    cases s.disk s.core.nodemap.phys with
    | none => rfl
    | some blk =>
      have hbuf : (getBuf .map).runOn gfsMachine (badCmd bad) (s.setBuf .map (some blk)) =
          some (.ok blk, s.setBuf .map (some blk)) := by
        have hstep : (getBuf .map).runOn gfsMachine (badCmd bad) (s.setBuf .map (some blk)) =
            (((s.setBuf .map (some blk)).buf .map).map fun b => (b, s.setBuf .map (some blk))).bind
              fun xs => some (.ok xs.1, xs.2) := rfl
        rw [hstep, St.setBuf_same]
        rfl
      show (getBuf .map >>= fun b => if blockCrc b ≠ s.core.nodemap.crc then fail .ebadcrc
        else pure () : GfsM Unit).runOn gfsMachine (badCmd bad) (s.setBuf .map (some blk)) = _
      rw [Prog.runOn_bind, hbuf]
      show ((if blockCrc blk ≠ s.core.nodemap.crc then fail .ebadcrc else pure () : GfsM Unit)).runOn
        gfsMachine (badCmd bad) (s.setBuf .map (some blk)) = some (_, _)
      split <;> rfl

/-- **The node map is in its buffer** after it was loaded. -/
theorem warm_of_mapLoad (h : mapLoad.runOn gfsMachine (badCmd bad) s = some (.ok (), s')) :
    Warm bad s' ∧ s'.core = s.core := by
  rw [runOn_mapLoad] at h
  by_cases hr : s.core.totalBlocks ≤ s.core.nodemap.phys
  · rw [if_pos hr] at h
    cases h
  rw [if_neg hr] at h
  cases hb : bad s.core.nodemap.phys with
  | true =>
    rw [hb] at h
    cases h
  | false =>
    cases hd : s.disk s.core.nodemap.phys with
    | none =>
      rw [hb, hd] at h
      cases h
    | some blk =>
      rw [hb, hd, if_neg (by decide)] at h
      have hout := Option.some.inj h
      dsimp only at hout
      by_cases hcrc : blockCrc blk ≠ s.core.nodemap.crc
      · rw [if_pos hcrc] at hout
        cases hout
      · rw [if_neg hcrc] at hout
        cases hout
        exact ⟨⟨Nat.lt_of_not_le hr, hb, (St.setBuf_same s .map _).trans hd.symm,
          blk, hd, not_not.mp hcrc⟩, rfl⟩

/-- Loading it again changes nothing. -/
theorem Warm.mapLoad (h : Warm bad s) :
    Gfs.mapLoad.runOn gfsMachine (badCmd bad) s = some (.ok (), s) := by
  obtain ⟨blk, hd, hcrc⟩ := h.valid
  have hsame : s.setBuf .map (some blk) = s := by
    have hbuf : Function.update s.buf .map (some blk) = s.buf := by
      rw [← hd, ← h.loaded, Function.update_eq_self]
    unfold St.setBuf
    rw [hbuf]
  rw [runOn_mapLoad, if_neg (Nat.not_le.mpr h.inRange), h.good, if_neg (by decide), hd]
  show some (ite (blockCrc blk ≠ s.core.nodemap.crc) (Except.error Err.ebadcrc) (Except.ok ()), _) = _
  rw [if_neg (not_not.mpr hcrc), hsame]

/-! ## Looking things up -/

/-- Commands that leave the handle, the device and the node map's buffer alone. -/
def Looks : Cmd → Prop
  | .read _ dst => dst ≠ .map
  | .getBuf _ => True
  | .getCore => True
  | .diverge => True
  | _ => False

theorem Looks.step {c : Cmd} {f : Bool} {x : c.Ans} (hc : Looks c) (hw : Warm bad s)
    (h : gfsMachine.step c f s = some (x, s')) : Warm bad s' := by
  cases c with
  | read lba dst =>
    have hbuf : ∀ v, (s.setBuf dst v).buf .map = s.buf .map := fun v =>
      St.setBuf_of_ne (Ne.symm hc)
    cases f with
    | true =>
      cases h
      exact ⟨hw.inRange, hw.good, (hbuf none).trans hw.loaded, hw.valid⟩
    | false =>
      cases hd : s.disk lba with
      | none =>
        simp only [gfsMachine, hd] at h
        cases h
      | some blk =>
        simp only [gfsMachine, hd] at h
        cases h
        exact ⟨hw.inRange, hw.good, (hbuf _).trans hw.loaded, hw.valid⟩
  | getBuf src =>
    cases hb : s.buf src with
    | none =>
      simp only [gfsMachine, hb] at h
      cases h
    | some blk =>
      simp only [gfsMachine, hb] at h
      cases h
      exact hw
  | getCore =>
    cases h
    exact hw
  | diverge => cases h
  | write _ _ => exact hc.elim
  | setBuf _ _ => exact hc.elim
  | setCore _ => exact hc.elim
  | getWorking => exact hc.elim
  | setWorking _ => exact hc.elim

theorem looks_getCore {f : Core → GfsM α} (h : ∀ fs, (f fs).Uses Looks) :
    (getCore >>= f).Uses Looks := ⟨trivial, h⟩

theorem looks_getBuf {f : Bytes → GfsM α} (src : Buf) (h : ∀ blk, (f blk).Uses Looks) :
    (getBuf src >>= f).Uses Looks := ⟨trivial, h⟩

theorem looks_readMeta (bp : Bp) {dst : Buf} (h : dst ≠ .map) : (readMeta bp dst).Uses Looks := by
  have hread : (bread bp.phys dst).Uses Looks := by
    refine looks_getCore fun fs => Prog.Uses.ite (Prog.Uses.fail _) ⟨h, fun ok => ?_⟩
    cases ok
    · exact Prog.Uses.fail _
    · exact Prog.Uses.pure _
  exact hread.bind fun _ => looks_getBuf dst fun blk => Prog.Uses.ite (Prog.Uses.fail _) (Prog.Uses.pure _)

theorem looks_nodeRead (id : Nat) : (nodeRead id).Uses Looks := by
  unfold nodeRead
  refine looks_getCore fun fs => Prog.Uses.ite (Prog.Uses.fail _) ?_
  refine looks_getBuf .map fun m => ?_
  dsimp only
  generalize mapGet m (id / 16) = bp
  refine Prog.Uses.ite (Prog.Uses.pure zeroNode) ?_
  exact (looks_readMeta _ (by decide)).bind fun _ => looks_getBuf .tbl fun t => Prog.Uses.pure _

theorem looks_lookupWalk (name : List UInt8) (fuel : Nat) (cur : Bp) :
    (lookupWalk name fuel cur).Uses Looks := by
  induction fuel generalizing cur with
  | zero =>
    rw [lookupWalk]
    exact Prog.Uses.ite (Prog.Uses.fail _) ⟨trivial, nofun⟩
  | succ fuel ih =>
    rw [lookupWalk]
    refine Prog.Uses.ite (Prog.Uses.fail _) <| (looks_readMeta _ (by decide)).bind fun _ =>
      looks_getBuf .a fun a => ?_
    split
    · exact Prog.Uses.pure _
    · exact ih _

theorem looks_resolveStep (dir : Nat) (comp : List UInt8) : (resolveStep dir comp).Uses Looks := by
  unfold resolveStep
  exact (looks_nodeRead dir).bind fun d => Prog.Uses.ite (Prog.Uses.fail _) <|
    looks_getCore fun fs => looks_lookupWalk comp _ _

theorem looks_resolveWalk (comps : List (List UInt8)) (cur : Nat) :
    (resolveWalk comps cur).Uses Looks := by
  induction comps generalizing cur with
  | nil => exact Prog.Uses.pure cur
  | cons comp comps ih =>
    rw [resolveWalk]
    exact Prog.Uses.ite (Prog.Uses.fail _) ((looks_resolveStep cur comp).bind ih)

/-- The node map stays in its buffer. -/
theorem Warm.looks {p : GfsM α} {r : Except Err α} (h : Warm bad s) (hp : p.Uses Looks)
    (hrun : p.runOn gfsMachine (badCmd bad) s = some (r, s')) : Warm bad s' :=
  hp.runOn (I := Warm bad) (fun _ _ _ _ _ hc hw hst => Looks.step hc hw hst) h hrun

/-! ## The fold of `gfs_lookup` -/

theorem resolveWalk_append (comps comps' : List (List UInt8)) (cur : Nat) :
    resolveWalk (comps ++ comps') cur = resolveWalk comps cur >>= resolveWalk comps' := by
  induction comps generalizing cur with
  | nil => rfl
  | cons comp comps ih =>
    rw [cons_append, resolveWalk, resolveWalk]
    by_cases hlen : 255 < comp.length
    · rw [if_pos hlen, if_pos hlen]
      rfl
    · rw [if_neg hlen, if_neg hlen, Prog.bind_assoc]
      exact congrArg (resolveStep cur comp >>= ·) (funext ih)

theorem nameLenOk_nameLike {name : CStr} (h : NameLike name.bytes) :
    nameLenOk name = if 255 < name.bytes.length then .error .enametoolong else .ok name.bytes := by
  unfold nameLenOk
  rw [if_neg (mt length_eq_zero_iff.mp h.ne_nil), if_neg h.noSlash]

theorem gfsLookup_eq (dir : Nat) (name : CStr) : gfsLookup dir name =
    check (nameLenOk name) >>= fun bytes => mapLoad >>= fun _ => resolveStep dir bytes := rfl

/-- One `gfs_lookup`, with the node map in its buffer. -/
theorem Warm.gfsLookup (h : Warm bad s) (dir : Nat) {name : CStr} (hname : NameLike name.bytes) :
    (Gfs.gfsLookup dir name).runOn gfsMachine (badCmd bad) s =
      (resolveWalk [name.bytes] dir).runOn gfsMachine (badCmd bad) s := by
  have hone : resolveWalk [name.bytes] dir =
      if 255 < name.bytes.length then fail .enametoolong else resolveStep dir name.bytes := by
    rw [resolveWalk]
    exact if_congr Iff.rfl rfl (Prog.bind_pure _)
  rw [gfsLookup_eq, hone, nameLenOk_nameLike hname]
  by_cases hlen : 255 < name.bytes.length
  · rw [if_pos hlen, if_pos hlen]
    rfl
  · rw [if_neg hlen, if_neg hlen]
    show (Gfs.mapLoad >>= fun _ => resolveStep dir name.bytes).runOn gfsMachine (badCmd bad) s = _
    rw [Prog.runOn_bind, h.mapLoad]
    rfl

/-- **Looking up names one by one is the loop of `gfs_resolve`**, with the node map in its buffer. -/
theorem Warm.lookupAll (h : Warm bad s) (names : List CStr) (hnames : ∀ n ∈ names, NameLike n.bytes)
    (dir : Nat) : (Vfs.lookupAll names dir).runOn gfsMachine (badCmd bad) s =
      (resolveWalk (names.map CStr.bytes) dir).runOn gfsMachine (badCmd bad) s := by
  induction names generalizing s dir with
  | nil => rfl
  | cons name names ih =>
    have hfold : Vfs.lookupAll (name :: names) dir =
        Gfs.gfsLookup dir name >>= Vfs.lookupAll names := rfl
    have hwalk : resolveWalk ((name :: names).map CStr.bytes) dir =
        resolveWalk [name.bytes] dir >>= resolveWalk (names.map CStr.bytes) :=
      resolveWalk_append [name.bytes] _ dir
    rw [hfold, hwalk, Prog.runOn_bind, Prog.runOn_bind,
      h.gfsLookup dir (hnames name mem_cons_self)]
    cases hrun : (resolveWalk [name.bytes] dir).runOn gfsMachine (badCmd bad) s with
    | none => rfl
    | some rs =>
      obtain ⟨r, s'⟩ := rs
      cases r with
      | error e => rfl
      | ok cur =>
        exact ih (h.looks (looks_resolveWalk _ dir) hrun)
          (fun n hn => hnames n (mem_cons_of_mem name hn)) cur

/-! ## Canonical paths -/

theorem Canonical.joined (h : Canonical canon) :
    ∃ stack, canon.bytes = Vfs.joined stack ∧ ∀ n ∈ stack, NameLike n := by
  obtain ⟨path, cap, hnorm⟩ := h
  cases path with
  | none => cases hnorm
  | some path =>
    obtain ⟨-, -, hwalk⟩ := norm_ok hnorm
    have hcomps : ∀ n ∈ components path.bytes, NameLike n := fun n hn => components_nameLike path hn
    exact ⟨_, normWalk_ok nameLike_nil hcomps hwalk, nameLike_foldl nofun hcomps⟩

/-- A canonical path is a slash, or ends in a slash and a name. -/
theorem Canonical.split (h : Canonical canon) (hroot : canon.bytes ≠ [47]) :
    ∃ p name, canon.bytes = p ++ 47 :: name ∧ NameLike name ∧ (p = [] ∨ p.head? = some 47) := by
  obtain ⟨stack, hc, hstack⟩ := h.joined
  cases stack with
  | nil => exact absurd hc hroot
  | cons name stack =>
    have hname := hstack name mem_cons_self
    by_cases hs : stack = []
    · subst hs
      exact ⟨[], name, hc, hname, .inl rfl⟩
    · obtain ⟨rest, hrest⟩ := joined_eq stack
      exact ⟨Vfs.joined stack, name, hc.trans (joined_cons hs), hname, .inr (by rw [hrest]; rfl)⟩

/-! ## The two routes -/

variable {path : CStr}

theorem gfsResolve_eq (h : path.bytes.head? = some 47) :
    gfsResolve path = mapLoad >>= fun _ => getCore >>= fun fs =>
      resolveWalk (components path.bytes) fs.rootNode := by
  unfold gfsResolve
  rw [if_neg (not_not.mpr h)]
  refine congrArg (mapLoad >>= ·) (funext fun _ => congrArg (getCore >>= ·) (funext fun fs => ?_))
  exact resolveLoop_eq path.bytes fs.rootNode

/-- **Splitting off the last component changes nothing.** -/
theorem runOn_splitLookup (hc : canon.bytes = p ++ 47 :: name) (hname : NameLike name)
    (hp : p = [] ∨ p.head? = some 47) (bad : Nat → Bool) (s : St) :
    (gfsResolve canon).runOn gfsMachine (badCmd bad) s =
      (splitLookup canon).runOn gfsMachine (badCmd bad) s := by
  obtain ⟨hparent, hlast⟩ := pathSplit_eq hc hname.noSlash
  have hcomps : components (pathSplit canon).1.bytes = components p := by
    rw [hparent]
    by_cases hnil : p = []
    · rw [if_pos hnil, hnil, components_nil]
      have hcut := components_slash [] []
      rw [components_nil] at hcut
      exact hcut
    · rw [if_neg hnil]
  have habs : canon.bytes.head? = some 47 := by
    rw [hc]
    rcases hp with rfl | hp
    · rfl
    · rw [head?_append, hp]
      rfl
  have habs' : (pathSplit canon).1.bytes.head? = some 47 := by
    rw [hparent]
    rcases hp with rfl | hp
    · rfl
    · rw [if_neg (fun hnil => by rw [hnil] at hp; cases hp), hp]
  have hwhole : gfsResolve canon = gfsResolve (pathSplit canon).1 >>= fun dir =>
      resolveWalk [(pathSplit canon).2.bytes] dir := by
    rw [gfsResolve_eq habs, gfsResolve_eq habs', hcomps, hlast, hc, components_append p hname]
    simp only [Prog.bind_assoc, resolveWalk_append]
  have hsplit : splitLookup canon = gfsResolve (pathSplit canon).1 >>= fun dir =>
      gfsLookup dir (pathSplit canon).2 := rfl
  rw [hwhole, hsplit, Prog.runOn_bind, Prog.runOn_bind]
  cases hrun : (gfsResolve (pathSplit canon).1).runOn gfsMachine (badCmd bad) s with
  | none => rfl
  | some rs =>
    obtain ⟨r, s'⟩ := rs
    cases r with
    | error e => rfl
    | ok dir =>
      have hwarm : Warm bad s' := by
        rw [gfsResolve_eq habs', Prog.runOn_bind] at hrun
        cases hmap : mapLoad.runOn gfsMachine (badCmd bad) s with
        | none =>
          rw [hmap] at hrun
          cases hrun
        | some rs₁ =>
          obtain ⟨r₁, s₁⟩ := rs₁
          rw [hmap] at hrun
          cases r₁ with
          | error e => cases hrun
          | ok u =>
            exact (warm_of_mapLoad hmap).1.looks (looks_getCore fun fs => looks_resolveWalk _ _) hrun
      exact (hwarm.gfsLookup dir (by rw [hlast]; exact hname)).symm

theorem pathNames_bytes (path : CStr) : (pathNames path).map CStr.bytes = components path.bytes := by
  unfold pathNames
  rw [map_map]
  exact attach_map_subtype_val _

theorem pathNames_nameLike (path : CStr) : ∀ n ∈ pathNames path, NameLike n.bytes := by
  intro n hn
  refine components_nameLike path ?_
  rw [← pathNames_bytes]
  exact mem_map_of_mem hn

/-- The fold gives the same answer before and after the node map was loaded. -/
theorem answer_lookupAll {s₁ : St} (hmap : mapLoad.runOn gfsMachine (badCmd bad) s = some (.ok (), s₁))
    (names : List CStr) (dir : Nat) :
    answer bad (lookupAll names dir) s₁ = answer bad (lookupAll names dir) s := by
  obtain ⟨hwarm, -⟩ := warm_of_mapLoad hmap
  cases names with
  | nil => rfl
  | cons name names =>
    have hfold : lookupAll (name :: names) dir = check (nameLenOk name) >>= fun bytes =>
        mapLoad >>= fun _ => (resolveStep dir bytes >>= lookupAll names) := by
      show gfsLookup dir name >>= lookupAll names = _
      simp only [gfsLookup_eq, Prog.bind_assoc]
    unfold answer
    rw [hfold]
    cases nameLenOk name with
    | error e => rfl
    | ok bytes =>
      show Option.map _ ((mapLoad >>= _).runOn gfsMachine (badCmd bad) s₁) =
        Option.map _ ((mapLoad >>= _).runOn gfsMachine (badCmd bad) s)
      rw [Prog.runOn_bind, Prog.runOn_bind, hmap, hwarm.mapLoad]

/-- What `gfs_resolve` returns: the error of `map_load`, or what the fold gives. -/
def resolveAnswer (bad : Nat → Bool) (path : CStr) (s : St) : Option (Except Err Nat) :=
  match answer bad mapLoad s with
  | some (.ok ()) => answer bad (lookupAll (pathNames path) s.core.rootNode) s
  | some (.error e) => some (.error e)
  | none => none

theorem answer_gfsResolve (h : path.bytes.head? = some 47) (bad : Nat → Bool) (s : St) :
    answer bad (gfsResolve path) s = resolveAnswer bad path s := by
  unfold resolveAnswer
  cases hmap : mapLoad.runOn gfsMachine (badCmd bad) s with
  | none =>
    have hload : answer bad mapLoad s = none := by rw [answer, hmap]; rfl
    rw [hload, gfsResolve_eq h, answer, Prog.runOn_bind, hmap]
    rfl
  | some rs =>
    obtain ⟨r, s₁⟩ := rs
    have hload : answer bad mapLoad s = some r := by rw [answer, hmap]; rfl
    rw [hload]
    cases r with
    | error e =>
      rw [gfsResolve_eq h, answer, Prog.runOn_bind, hmap]
      rfl
    | ok u =>
      obtain ⟨hwarm, hcore⟩ := warm_of_mapLoad hmap
      have hrun : (gfsResolve path).runOn gfsMachine (badCmd bad) s =
          (resolveWalk (components path.bytes) s.core.rootNode).runOn gfsMachine (badCmd bad) s₁ := by
        rw [gfsResolve_eq h, Prog.runOn_bind, hmap, ← hcore]
        rfl
      show answer bad (gfsResolve path) s = answer bad (lookupAll (pathNames path) s.core.rootNode) s
      rw [answer, hrun, ← pathNames_bytes, ← hwarm.lookupAll _ (pathNames_nameLike path)]
      exact answer_lookupAll hmap _ _

/-- **The two path lookups agree**, and `gfs_resolve` is the fold of `gfs_lookup` once the node map is
loaded. -/
theorem lookups_agree (bad : Nat → Bool) (s : St) :
    (∀ canon, Canonical canon → canon.bytes ≠ [47] →
      answer bad (gfsResolve canon) s = answer bad (splitLookup canon) s) ∧
    ∀ path : CStr, path.bytes.head? = some 47 →
      answer bad (gfsResolve path) s = match answer bad mapLoad s with
        | some (.ok ()) => answer bad (lookupAll (pathNames path) s.core.rootNode) s
        | some (.error e) => some (.error e)
        | none => none := by
  refine ⟨fun canon hcanon hroot => ?_, fun path h => answer_gfsResolve h bad s⟩
  obtain ⟨p, name, hc, hname, hp⟩ := hcanon.split hroot
  exact congrArg (Option.map Prod.fst) (runOn_splitLookup hc hname hp bad s)

/-- The path "/d" where the root has a directory of that name. -/
theorem lookups_agree_oneDir : ∃ s V, Shows s V ∧ OneDir V.graph [100] ∧
    Canonical ⟨[47, 100], by decide⟩ ∧
    answer (fun _ => false) (gfsResolve ⟨[47, 100], by decide⟩) s =
      answer (fun _ => false) (splitLookup ⟨[47, 100], by decide⟩) s := by
  obtain ⟨-, s, tbl, V, -, -, -, hst⟩ :=
    exists_firstNode (.inl rfl) (letter_ok (b := 100) (by decide) (by decide))
  have hcanon : Canonical ⟨[47, 100], by decide⟩ := ⟨some ⟨[47, 100], by decide⟩, 4096, by decide⟩
  exact ⟨s, V, hst.shows, hst.oneDir, hcanon,
    (lookups_agree (fun _ => false) s).1 _ hcanon (by decide)⟩

/-- **`gfs_resolve` reports the node map first**: on a device that cannot be read any more it fails on
"/", where no lookup would be made, and on a component of 256 bytes, which `gfs_lookup` refuses before
it reads anything. -/
theorem resolve_loads_map_first : ∃ s, Booted 1000 3 s ∧ ∃ long : CStr,
    long.bytes = 47 :: List.replicate 256 97 ∧
    answer (fun _ => true) (gfsResolve ⟨[47], by decide⟩) s = some (.error .eio) ∧
    answer (fun _ => true) (lookupAll (pathNames ⟨[47], by decide⟩) s.core.rootNode) s =
      some (.ok 1) ∧
    answer (fun _ => true) (gfsResolve long) s = some (.error .eio) ∧
    answer (fun _ => true) (lookupAll (pathNames long) s.core.rootNode) s =
      some (.error .enametoolong) := by
  obtain ⟨s, hboot⟩ := exists_booted 1000 3 (by decide) (by decide)
  obtain ⟨hc, gen, -, hcore⟩ := hboot.committed (by decide)
  have hroot : s.core.rootNode = 1 := by
    rw [hcore]
    rfl
  have hload : answer (fun _ => true) mapLoad s = some (.error .eio) := by
    have hin : ¬s.core.totalBlocks ≤ s.core.nodemap.phys := by
      rw [hcore]
      exact (by decide : ¬1000 ≤ firstMapPhys 1000)
    rw [answer, runOn_mapLoad, if_neg hin, if_pos rfl]
    rfl
  have hfail : ∀ path : CStr, path.bytes.head? = some 47 →
      answer (fun _ => true) (gfsResolve path) s = some (.error .eio) := fun path h => by
    rw [answer_gfsResolve h, resolveAnswer, hload]
  have hnone : pathNames ⟨[47], by decide⟩ = [] := by
    have hnil : ∀ n ∈ ([] : List (List UInt8)), NameLike n := nofun
    have hbytes := pathNames_bytes ⟨[47], by decide⟩
    rw [show components [47] = [] from components_joined hnil] at hbytes
    exact map_eq_nil_iff.mp hbytes
  have hzero : ∀ n : Nat, (0 : UInt8) ∉ 47 :: List.replicate n 97 := fun n hmem => by
    simp at hmem
  refine ⟨s, hboot, ⟨47 :: List.replicate 256 97, hzero 256⟩, rfl, hfail _ rfl, ?_, hfail _ rfl, ?_⟩
  · rw [hnone, hroot]
    rfl
  · have hlike : NameLike (List.replicate 256 97) := ⟨by decide, by decide, by decide⟩
    have hbytes := pathNames_bytes ⟨47 :: List.replicate 256 97, hzero 256⟩
    rw [show components (47 :: List.replicate 256 97) = [List.replicate 256 97] from
      (components_append [] hlike).trans (by rw [components_nil]; rfl)] at hbytes
    obtain ⟨name, hnames, hname⟩ := map_eq_singleton_iff.mp hbytes
    have hlong : nameLenOk name = .error .enametoolong := by
      rw [nameLenOk_nameLike (hname ▸ hlike), hname, length_replicate]
      rfl
    have hfold : lookupAll [name] s.core.rootNode = gfsLookup s.core.rootNode name >>= pure := rfl
    rw [hnames, hfold, Prog.bind_pure, gfsLookup_eq, hlong]
    rfl

end Hallucinate.Vfs
