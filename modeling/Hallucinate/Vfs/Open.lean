import Hallucinate.Vfs.Dirents
import Hallucinate.Vfs.Lookup

/-!
# Opening a file (`sys_open`, `vfs_open`, `gfs_open`, `devfs_open`)

`gfs_open` looks the path up, creates a missing file if `O_CREAT` asks for it, empties a file if
`O_TRUNC` does, and allocates the description. `sys_open` then installs it in the descriptor table. A
core call commits before it returns, and nothing undoes it. An open that fails for want of memory or
of a descriptor therefore leaves the file that it has created or emptied behind.

The device operations of the core call number `k` fail as `o k` says, `mem` says whether `kzalloc`
finds memory, and the copy of the path from user memory is taken by its outcome.

* `Same`: the tree and the bytes of all files are as before.
* **`failed_open`**: a failed open leaves the open counts, the descriptor table and the file system
  as they were, or it has failed behind a creation or truncation that its flags asked for (`Late`).
* **`emfile_creates`**: with a full descriptor table, `open("/f", O_CREAT)` fails and creates `f`.
-/

namespace Hallucinate.Vfs

open Lib Gfs Function

/-! ## The calls -/

def oCreat : UInt32 := 64
def oExcl : UInt32 := 128
def oTrunc : UInt32 := 512
def oAppend : UInt32 := 1024
def oDirectory : UInt32 := 65536
def oAccmode : UInt32 := 3

/-- `(flags & bit) != 0`. -/
def Has (flags bit : UInt32) : Prop := flags &&& bit ≠ 0

instance (flags bit : UInt32) : Decidable (Has flags bit) := inferInstanceAs (Decidable (_ ≠ _))

/-- The `file_ops` tables that an open can choose. -/
inductive Ops
  | gfsFile | gfsDir | devDir | devConsole
  deriving DecidableEq

/-- An open file description, with the fields that an open sets. -/
structure OpenFile where
  ops : Ops
  node : Nat
  flags : UInt32

/-- `file_is_gfs`. -/
def OpenFile.IsGfs (f : OpenFile) : Prop := f.ops = .gfsFile ∨ f.ops = .gfsDir

instance (f : OpenFile) : Decidable f.IsGfs := inferInstanceAs (Decidable (_ ∨ _))

/-- What `sys_open` works on: `root_fs`, `node_opens` and the descriptor table of the process. -/
structure OpenState where
  mounted : Bool
  fs : St
  opens : Nat → UInt32
  fds : Fin 16 → Option OpenFile

/-- `gfs_node_get`, with the id beside the node. -/
def openNode (id : Nat) (o : Nat → Bool) (s : St) : Option (Except Errno (Nat × Node) × St) :=
  match call (gfsNodeGet id) o s with
  | none => none
  | some (.error e, s) => some (.error (gfsErrno e), s)
  | some (.ok n, s) => some (.ok (id, n), s)

/-- The branch of `gfs_open` that creates the missing final component in its parent. -/
def openCreate (o : Nat → Nat → Bool) (canon : CStr) (mode : UInt32) (s : St) :
    Option (Except Errno (Nat × Node) × St) :=
  match call (gfsResolve (pathSplit canon).1) (o 1) s with
  | none => none
  | some (.error e, s) => some (.error (gfsErrno e), s)
  | some (.ok dir, s) =>
    match call (gfsCreateAt dir (pathSplit canon).2 nodeData (mode &&& 4095)) (o 2) s with
    | none => none
    | some (.error e, s) => some (.error (gfsErrno e), s)
    | some (.ok id, s) => openNode id (o 3) s

/-- The first half of `gfs_open`: the node, found or created. -/
def openFind (o : Nat → Nat → Bool) (canon : CStr) (flags mode : UInt32) (s : St) :
    Option (Except Errno (Nat × Node) × St) :=
  match call (gfsResolve canon) (o 0) s with
  | none => none
  | some (.ok id, s) =>
    if Has flags oCreat ∧ Has flags oExcl then some (.error .eexist, s) else openNode id (o 1) s
  | some (.error e, s) =>
    if e = .enoent ∧ Has flags oCreat ∧ canon.bytes ≠ [47] then openCreate o canon mode s
    else some (.error (gfsErrno e), s)

/-- The checks on the node, and the truncation. -/
def openCheck (o : Nat → Nat → Bool) (flags : UInt32) (id : Nat) (node : Node) (s : St) :
    Option (Except Errno Unit × St) :=
  if node.type = nodeNamespace then
    if flags &&& oAccmode ≠ 0 ∨ Has flags (oCreat ||| oTrunc) then some (.error .eisdir, s)
    else some (.ok (), s)
  else if Has flags oDirectory then some (.error .enotdir, s)
  else if Has flags oTrunc ∧ 0 < node.size then
    match call (gfsTruncate id 0) (o 4) s with
    | none => none
    | some (.error e, s) => some (.error (gfsErrno e), s)
    | some (.ok (), s) => some (.ok (), s)
  else some (.ok (), s)

/-- `gfs_open`. -/
def gfsOpen (o : Nat → Nat → Bool) (mem : Bool) (canon : CStr) (flags mode : UInt32) (x : OpenState) :
    Option (Except Errno OpenFile × OpenState) :=
  match openFind o canon flags mode x.fs with
  | none => none
  | some (.error e, s) => some (.error e, { x with fs := s })
  | some (.ok (id, node), s) =>
    match openCheck o flags id node s with
    | none => none
    | some (.error e, s) => some (.error e, { x with fs := s })
    | some (.ok (), s) =>
      if mem = false then some (.error .enomem, { x with fs := s })
      else some (.ok ⟨if node.type = nodeNamespace then .gfsDir else .gfsFile, id, flags⟩,
        { x with fs := s, opens := update x.opens id (x.opens id + 1) })

/-- "console". -/
def consoleName : List UInt8 := [99, 111, 110, 115, 111, 108, 101]

/-- `devfs_open`. -/
def devfsOpen (mem : Bool) (rel : List UInt8) (flags : UInt32) : Except Errno OpenFile :=
  let alloc (ops : Ops) (node : Nat) : Except Errno OpenFile :=
    if mem = false then .error .enomem else .ok ⟨ops, node, flags⟩
  if rel = [] then
    if flags &&& oAccmode ≠ 0 ∨ Has flags (oCreat ||| oTrunc) then .error .eisdir
    else alloc .devDir 1
  else if rel = consoleName then
    if Has flags oDirectory then .error .enotdir
    else if Has flags oCreat ∧ Has flags oExcl then .error .eexist
    else alloc .devConsole 2
  else if rel.take 8 = consoleName ++ [47] then .error .enotdir
  else if 47 ∉ rel ∧ Has flags oCreat then .error .eperm
  else .error .enoent

/-- "/dev". -/
def devPrefix : List UInt8 := [47, 100, 101, 118]

/-- The match of the mount table: the path below "/dev". -/
def onDevfs (canon : List UInt8) : Option (List UInt8) :=
  if canon.take 4 = devPrefix ∧ ((canon.drop 4).head? = none ∨ (canon.drop 4).head? = some 47) then
    some ((canon.drop 4).dropWhile (· = 47))
  else none

theorem nul_notMem_takeWhile {l : List UInt8} : 0 ∉ l.takeWhile (· ≠ 0) := fun h => by
  simpa using List.mem_takeWhile_imp h

/-- The bytes up to the first zero, as a C string. -/
def cstr (bytes : List UInt8) : CStr :=
  ⟨bytes.takeWhile (· ≠ 0), nul_notMem_takeWhile⟩

/-- `vfs_open`. -/
def vfsOpen (o : Nat → Nat → Bool) (mem : Bool) (path : CStr) (flags mode : UInt32) (x : OpenState) :
    Option (Except Errno OpenFile × OpenState) :=
  if flags &&& ~~~(oAccmode ||| oCreat ||| oExcl ||| oTrunc ||| oAppend ||| oDirectory) ≠ 0 then
    some (.error .einval, x)
  else if Has flags oDirectory ∧ Has flags oCreat then some (.error .einval, x)
  else match vfsPathNorm (some path) 256 with
    | .error e => some (.error e, x)
    | .ok canon =>
      match onDevfs canon with
      | some rel => some (devfsOpen mem rel flags, x)
      | none =>
        if x.mounted = false then some (.error .enodev, x)
        else gfsOpen o mem (cstr canon) flags mode x

/-- `process_fd_install`: the first free descriptor. -/
def freeFd (fds : Fin 16 → Option OpenFile) : Option (Fin 16) :=
  (List.finRange 16).find? fun i => (fds i).isNone

/-- `vfs_file_put` of a description with one reference. The assertion on the count stops the
kernel. -/
def filePut (f : OpenFile) (x : OpenState) : Option OpenState :=
  if f.IsGfs then
    if x.opens f.node = 0 then none
    else some { x with opens := update x.opens f.node (x.opens f.node - 1) }
  else some x

/-- `sys_open`; `upath` is what `user_strncpy` gives. -/
def sysOpen (o : Nat → Nat → Bool) (mem : Bool) (upath : Except Errno CStr) (flags mode : UInt32)
    (x : OpenState) : Option (Except Errno (Fin 16) × OpenState) :=
  match upath with
  | .error e => some (.error e, x)
  | .ok path =>
    match vfsOpen o mem path flags mode x with
    | none => none
    | some (.error e, x) => some (.error e, x)
    | some (.ok f, x) =>
      match freeFd x.fds with
      | some i => some (.ok i, { x with fds := update x.fds i (some f) })
      | none => (filePut f x).map fun x => (.error .emfile, x)

/-! ## What the core calls keep -/

/-- The tree and the bytes of all files are those of `s`, which shows `V`. -/
def Same (V : View) (s s' : St) : Prop :=
  Shows s' V ∧ ∀ id, content s'.disk (V.recs id) = content s.disk (V.recs id)

variable {id : Nat} {tbl : Nat → Bp} {leak : Multiset Nat} {path : CStr}

section Calls

variable {V : View} {s s' s'' : St} {o : Nat → Bool}

theorem Same.refl (h : Shows s V) : Same V s s := ⟨h, fun _ => rfl⟩

theorem Same.trans (h : Same V s s') (h' : Same V s' s'') : Same V s s'' :=
  ⟨h'.1, fun id => (h'.2 id).trans (h.2 id)⟩

/-- A call that gave up or only read. -/
theorem Same.of_safe (h : Shows s V) (hs : Safe s.fresh s') : Same V s s' := by
  obtain ⟨tbl, leak, hc⟩ := h
  refine ⟨⟨tbl, leak, hc.fresh.safe hs⟩, fun id => content_congr fun b hb => ?_⟩
  exact hs.disk b (hc.stable (mem_nodeHeld.mpr (.inr hb)))

theorem same_nodeGet {r : Except Err Node} (h : Shows s V)
    (hrun : call (gfsNodeGet id) o s = some (r, s')) :
    Same V s s' ∧ ∀ n, r = .ok n → n = (V.recs id).shown := by
  have hV := h
  obtain ⟨tbl, leak, hc⟩ := h
  have hpost := Prog.post_of_run (wp_gfsNodeGet hc.fresh rfl) hrun
  cases r with
  | error e => exact ⟨.of_safe hV hpost.1, fun n hn => by cases hn⟩
  | ok n =>
    refine ⟨.of_safe hV (hpost.2.safe rfl), fun n' hn => ?_⟩
    cases hn
    obtain ⟨m, hm, rfl⟩ := except_map_eq_ok.mp hpost.1
    obtain ⟨-, rfl⟩ := View.live_ok.mp hm
    rfl

/-- The node that a path leads to in the tree. -/
def pathNode (c : Core) (V : View) (path : CStr) : Except Err Nat :=
  if path.bytes.head? ≠ some 47 then .error .einval
  else V.resolve c (components path.bytes) c.rootNode

theorem wp_resolvePath (h : Committed s tbl V leak) (hlog : s.log = []) :
    Wp (gfsResolve path) (outcome (fun id s' => pathNode s.core V path = .ok id ∧ Idle s s')
      (Abort s fun e => pathNode s.core V path = .error e)) s := by
  unfold pathNode gfsResolve
  by_cases hroot : path.bytes.head? ≠ some 47
  · rw [if_pos hroot, if_pos hroot]
    exact wp_fail ⟨Safe.start hlog, .inr rfl⟩
  · rw [if_neg hroot, if_neg hroot]
    refine Wp.bind (wp_mapLoad h hlog) fun _ s₁ hp => wp_getCore ?_
    rw [hp.idle.core, resolveLoop_eq]
    exact wp_resolveWalk h hp

theorem same_resolve {r : Except Err Nat} (h : Shows s V)
    (hrun : call (gfsResolve path) o s = some (r, s')) : Same V s s' := by
  have hV := h
  obtain ⟨tbl, leak, hc⟩ := h
  have hpost := Prog.post_of_run (wp_resolvePath hc.fresh rfl) hrun
  cases r with
  | error e => exact .of_safe hV hpost.1
  | ok id => exact .of_safe hV (hpost.2.safe rfl)

/-- `gfs_create_at` changes nothing, or gives a tree with an empty file at the id it returns. -/
theorem same_createAt {dir : Nat} {name : CStr} {mode : UInt32} {r : Except Err Nat} (h : Shows s V)
    (hrun : call (gfsCreateAt dir name nodeData mode) o s = some (r, s')) :
    match r with
    | .error _ => Same V s s'
    | .ok id => ∃ V', Shows s' V' ∧ (V'.recs id).type = nodeData ∧ (V'.recs id).size = 0 := by
  have hV := h
  obtain ⟨tbl, leak, hc⟩ := h
  have hpost := Prog.post_of_run (wp_gfsCreateAt hc.fresh rfl fun _ _ => trivial) hrun
  cases r with
  | error e => exact .of_safe hV hpost.1
  | ok id =>
    obtain ⟨hok, -, hfree, n, cs, -, tbl', hc', -⟩ := hpost
    refine ⟨_, ⟨tbl', _, hc'⟩, ?_⟩
    have hne : id ≠ dir := by
      rintro rfl
      rw [hok.isDir] at hfree
      cases hfree
    rw [View.set_recs_ne hne, View.set_recs_self]
    exact ⟨rfl, rfl⟩

theorem same_truncate {r : Except Err Unit} (h : Shows s V)
    (hrun : call (gfsTruncate id 0) o s = some (r, s')) : match r with
    | .error _ => Same V s s'
    | .ok _ => ∃ V', Shows s' V' := by
  have hV := h
  obtain ⟨tbl, leak, hc⟩ := h
  have hpost := Prog.post_of_run (wp_gfsTruncate hc.fresh rfl fun _ _ => trivial) hrun
  cases r with
  | error e => exact .of_safe hV hpost.1
  | ok id =>
    obtain ⟨-, ⟨-, hidle⟩ | ⟨-, n, ⟨tbl', hc', -⟩, -⟩⟩ := hpost
    · exact ⟨V, tbl, leak, hc.fresh.idle hidle⟩
    · exact ⟨_, tbl', leak, hc'⟩

end Calls

/-! ## What a failed open leaves -/

/-- `s'` holds what `s` holds. -/
def Unmoved (s s' : St) : Prop := ∃ V, Shows s V ∧ Same V s s'

/-- The missing component of `canon` has been created, and `s₁` is the state after that call. -/
def Created (V : View) (canon : CStr) (mode : UInt32) (s : St) (id : Nat) (s₁ : St) : Prop :=
  ∃ dir s₀ o, Same V s s₀ ∧
    call (gfsCreateAt dir (pathSplit canon).2 nodeData (mode &&& 4095)) o s₀ = some (.ok id, s₁)

/-- What follows the creation of node `id`: the new node is an empty file, or it could not be read. -/
def AfterCreate (id : Nat) (s₁ : St) : Except Errno (Nat × Node) → Prop
  | .ok (_, n) => n.type = nodeData ∧ n.size = 0
  | .error e => ∃ o err s₂, call (gfsNodeGet id) o s₁ = some (.error err, s₂) ∧ e = gfsErrno err

/-- File `id` has been emptied, and `s₁` is the state after that call. -/
def Emptied (V : View) (s : St) (id : Nat) (s₁ : St) : Prop :=
  ∃ s₀ o, Same V s s₀ ∧ call (gfsTruncate id 0) o s₀ = some (.ok (), s₁)

variable {r : Except Errno (Nat × Node)} {node : Node} {mem : Bool} {x x' : OpenState}

section Open

variable {V : View} {s s' : St} {o : Nat → Nat → Bool} {canon : CStr} {flags mode : UInt32}

theorem openNode_cases {o : Nat → Bool} (hrun : openNode id o s = some (r, s')) :
    (∃ e, call (gfsNodeGet id) o s = some (.error e, s') ∧ r = .error (gfsErrno e)) ∨
      ∃ n, call (gfsNodeGet id) o s = some (.ok n, s') ∧ r = .ok (id, n) := by
  unfold openNode at hrun
  split at hrun
  · cases hrun
  · rename_i e s₁ hcall
    cases hrun
    exact .inl ⟨e, hcall, rfl⟩
  · rename_i n s₁ hcall
    cases hrun
    exact .inr ⟨n, hcall, rfl⟩

/-- The branch that creates. -/
theorem openCreate_spec {s₀ : St} (h₀ : Same V s s₀)
    (hrun : openCreate o canon mode s₀ = some (r, s')) :
    Same V s s' ∨ ∃ id s₁, Created V canon mode s id s₁ ∧ Unmoved s₁ s' ∧
      AfterCreate id s₁ r := by
  unfold openCreate at hrun
  split at hrun
  · cases hrun
  · rename_i e s₁ hres
    cases hrun
    exact .inl (h₀.trans (same_resolve h₀.1 hres))
  rename_i dir s₁ hres
  have h₁ := h₀.trans (same_resolve h₀.1 hres)
  split at hrun
  · cases hrun
  · rename_i e s₂ hcreate
    cases hrun
    have h₂ : Same V s₁ s' := same_createAt h₁.1 hcreate
    exact .inl (h₁.trans h₂)
  rename_i id s₂ hcreate
  obtain ⟨V', hV', hempty⟩ : ∃ V', Shows s₂ V' ∧ (V'.recs id).type = nodeData ∧
      (V'.recs id).size = 0 := same_createAt h₁.1 hcreate
  have hmade : Created V canon mode s id s₂ := ⟨dir, s₁, o 2, h₁, hcreate⟩
  refine .inr ⟨id, s₂, hmade, ?_⟩
  obtain ⟨e, hget, rfl⟩ | ⟨n, hget, rfl⟩ := openNode_cases hrun
  · exact ⟨⟨V', hV', (same_nodeGet hV' hget).1⟩, o 3, e, s', hget, rfl⟩
  · obtain ⟨hsame, hn⟩ := same_nodeGet hV' hget
    rw [hn n rfl]
    exact ⟨⟨V', hV', hsame⟩, hempty⟩

/-- **Finding or creating the node**: only a creation changes anything. -/
theorem openFind_spec (h : Shows s V) (hrun : openFind o canon flags mode s = some (r, s')) :
    Same V s s' ∨ Has flags oCreat ∧ ∃ id s₁, Created V canon mode s id s₁ ∧ Unmoved s₁ s' ∧
      AfterCreate id s₁ r := by
  unfold openFind at hrun
  split at hrun
  · cases hrun
  · rename_i id s₁ hres
    have h₁ := same_resolve h hres
    split at hrun
    · cases hrun
      exact .inl h₁
    · obtain ⟨e, hget, -⟩ | ⟨n, hget, -⟩ := openNode_cases hrun
      · exact .inl (h₁.trans (same_nodeGet h₁.1 hget).1)
      · exact .inl (h₁.trans (same_nodeGet h₁.1 hget).1)
  · rename_i e s₁ hres
    have h₁ := same_resolve h hres
    split at hrun
    · rename_i hcreat
      rcases openCreate_spec h₁ hrun with hsame | hmade
      · exact .inl hsame
      · exact .inr ⟨hcreat.2.1, hmade⟩
    · cases hrun
      exact .inl h₁

/-- **The checks**: only a truncation changes anything, and it needs a size. -/
theorem openCheck_spec {r : Except Errno Unit} (h : Shows s V)
    (hrun : openCheck o flags id node s = some (r, s')) :
    Same V s s' ∨ r = .ok () ∧ Has flags oTrunc ∧ 0 < node.size ∧ ∃ V', Shows s' V' ∧
      call (gfsTruncate id 0) (o 4) s = some (.ok (), s') := by
  have hrefl := Same.refl h
  unfold openCheck at hrun
  split at hrun
  · split at hrun <;> cases hrun <;> exact .inl hrefl
  split at hrun
  · cases hrun
    exact .inl hrefl
  split at hrun
  · rename_i htrunc
    split at hrun
    · cases hrun
    · rename_i e s₁ hcut
      cases hrun
      exact .inl (same_truncate h hcut)
    · rename_i s₁ hcut
      cases hrun
      obtain ⟨V', hV'⟩ : ∃ V', Shows s' V' := same_truncate h hcut
      exact .inr ⟨rfl, htrunc.1, htrunc.2, V', hV', hcut⟩
  · cases hrun
    exact .inl hrefl

/-- Why an open fails that has come to its end. -/
def LateError (mem : Bool) (fds : Fin 16 → Option OpenFile) (e : Errno) : Prop :=
  e = .enomem ∧ mem = false ∨ e = .emfile ∧ freeFd fds = none

/-- What a failed open leaves of the file system: everything, or all but a creation or truncation
that its flags asked for and that it had committed. -/
inductive Residue (V : View) (canon : CStr) (flags mode : UInt32) (s s' : St) (late : Prop)
    (e : Errno) : Prop
  | same (h : Same V s s')
  | created {id : Nat} {s₁ : St} (hflag : Has flags oCreat) (hmade : Created V canon mode s id s₁)
      (hrest : Unmoved s₁ s') (hwhy : late ∨ AfterCreate id s₁ (.error e))
  | emptied {id : Nat} {s₁ : St} (hflag : Has flags oTrunc) (hcut : Emptied V s id s₁)
      (hrest : Unmoved s₁ s') (hwhy : late)

/-- A new file passes the checks: it has the type of a file and nothing to cut. -/
theorem openCheck_new (hflags : ¬(Has flags oDirectory ∧ Has flags oCreat))
    (hcreat : Has flags oCreat) (hnode : node.type = nodeData ∧ node.size = 0) :
    openCheck o flags id node s = some (.ok (), s) := by
  have hdir : ¬Has flags oDirectory := fun hd => hflags ⟨hd, hcreat⟩
  unfold openCheck
  rw [if_neg (by rw [hnode.1]; decide), if_neg hdir, if_neg (by rw [hnode.2]; simp)]

/-- **Both halves**: an error of the checks leaves everything as it was. -/
theorem openBoth_spec {s₁ : St} {r : Except Errno Unit} (h : Shows s V)
    (hflags : ¬(Has flags oDirectory ∧ Has flags oCreat))
    (hfind : openFind o canon flags mode s = some (.ok (id, node), s₁))
    (hcheck : openCheck o flags id node s₁ = some (r, s')) :
    Same V s s' ∨ r = .ok () ∧ ∀ e (late : Prop), late → Residue V canon flags mode s s' late e := by
  rcases openFind_spec h hfind with hsame | ⟨hcreat, new, s₀, hmade, hrest, hnode⟩
  · rcases openCheck_spec hsame.1 hcheck with hsame' | ⟨hok, htrunc, -, V', hV', hcut⟩
    · exact .inl (hsame.trans hsame')
    · refine .inr ⟨hok, fun e late hlate => ?_⟩
      exact .emptied htrunc ⟨s₁, o 4, hsame, hcut⟩ ⟨V', hV', .refl hV'⟩ hlate
  · rw [openCheck_new hflags hcreat hnode] at hcheck
    cases hcheck
    exact .inr ⟨rfl, fun e late hlate => .created hcreat hmade hrest (.inl hlate)⟩

/-- **`gfs_open`** fails, or has a description whose node it counts as open; a failure that follows
is a late one. -/
theorem gfsOpen_spec {r : Except Errno OpenFile} (h : Shows x.fs V)
    (hflags : ¬(Has flags oDirectory ∧ Has flags oCreat))
    (hrun : gfsOpen o mem canon flags mode x = some (r, x')) : x'.fds = x.fds ∧
      ((∃ e, r = .error e ∧ x'.opens = x.opens ∧
        Residue V canon flags mode x.fs x'.fs (e = .enomem ∧ mem = false) e) ∨
      ∃ f, r = .ok f ∧ f.IsGfs ∧
        x'.opens = update x.opens f.node (x.opens f.node + 1) ∧
        ∀ e (late : Prop), late → Residue V canon flags mode x.fs x'.fs late e) := by
  unfold gfsOpen at hrun
  split at hrun
  · cases hrun
  · rename_i e s₁ hfind
    cases hrun
    refine ⟨rfl, .inl ⟨e, rfl, rfl, ?_⟩⟩
    rcases openFind_spec h hfind with hsame | ⟨hcreat, id, s₀, hmade, hrest, hwhy⟩
    · exact .same hsame
    · exact .created hcreat hmade hrest (.inr hwhy)
  rename_i id node s₁ hfind
  split at hrun
  · cases hrun
  · rename_i e s₂ hcheck
    cases hrun
    rcases openBoth_spec h hflags hfind hcheck with hsame | ⟨hok, -⟩
    · exact ⟨rfl, .inl ⟨e, rfl, rfl, .same hsame⟩⟩
    · cases hok
  rename_i s₂ hcheck
  have hleft : ∀ e (late : Prop), late → Residue V canon flags mode x.fs s₂ late e := by
    intro e late hlate
    rcases openBoth_spec h hflags hfind hcheck with hsame | ⟨-, hres⟩
    · exact .same hsame
    · exact hres e late hlate
  split at hrun
  · rename_i hmem
    cases hrun
    exact ⟨rfl, .inl ⟨.enomem, rfl, rfl, hleft _ _ ⟨rfl, hmem⟩⟩⟩
  · cases hrun
    refine ⟨rfl, .inr ⟨_, rfl, ?_, rfl, hleft⟩⟩
    unfold OpenFile.IsGfs
    split
    · exact .inr rfl
    · exact .inl rfl

end Open

variable {f : OpenFile}

/-- Dropping the only reference to a description gives the count back. -/
theorem filePut_opens {opens : Nat → UInt32} (hf : f.IsGfs)
    (hopens : x.opens = update opens f.node (opens f.node + 1)) (hrun : filePut f x = some x') :
    x'.opens = opens ∧ x'.fs = x.fs ∧ x'.fds = x.fds := by
  unfold filePut at hrun
  rw [if_pos hf] at hrun
  split at hrun
  · cases hrun
  · cases hrun
    refine ⟨?_, rfl, rfl⟩
    show update x.opens f.node (x.opens f.node - 1) = opens
    rw [hopens, update_self, update_idem]
    have hback : opens f.node + 1 - 1 = opens f.node := by
      exact UInt32.add_sub_cancel _ _
    rw [hback, update_eq_self]

theorem devfsOpen_ops {rel : List UInt8} {flags : UInt32} (h : devfsOpen mem rel flags = .ok f) :
    ¬f.IsGfs := by
  unfold devfsOpen at h
  dsimp only at h
  repeat' split at h
  all_goals cases h
  all_goals simp [OpenFile.IsGfs]

/-- `vfs_open` on graphfs is `gfs_open`; before it, and on `/dev`, nothing changes. -/
theorem vfsOpen_cases {o : Nat → Nat → Bool} {flags mode : UInt32} {r : Except Errno OpenFile}
    (hrun : vfsOpen o mem path flags mode x = some (r, x')) : (x' = x ∧ ∀ f, r = .ok f → ¬f.IsGfs) ∨
      ∃ canon, vfsPathNorm (some path) 256 = .ok canon ∧
        ¬(Has flags oDirectory ∧ Has flags oCreat) ∧
        gfsOpen o mem (cstr canon) flags mode x = some (r, x') := by
  unfold vfsOpen at hrun
  split at hrun
  · cases hrun
    exact .inl ⟨rfl, nofun⟩
  split at hrun
  · cases hrun
    exact .inl ⟨rfl, nofun⟩
  rename_i hflags
  split at hrun
  · cases hrun
    exact .inl ⟨rfl, nofun⟩
  rename_i canon hnorm
  split at hrun
  · cases hrun
    exact .inl ⟨rfl, fun f hf => devfsOpen_ops hf⟩
  split at hrun
  · cases hrun
    exact .inl ⟨rfl, nofun⟩
  · exact .inr ⟨canon, hnorm, hflags, hrun⟩

theorem Residue.late {V : View} {canon : CStr} {flags mode : UInt32} {s s' : St} {p q : Prop}
    {e : Errno} (h : Residue V canon flags mode s s' p e) (hpq : p → q) :
    Residue V canon flags mode s s' q e := by
  cases h with
  | same h => exact .same h
  | created hflag hmade hrest hwhy => exact .created hflag hmade hrest (hwhy.imp_left hpq)
  | emptied hflag hcut hrest hwhy => exact .emptied hflag hcut hrest (hpq hwhy)

/-- **A failed open** leaves the open counts and the descriptors as they were. The contents of the
file system are as before, or as after the creation or truncation that the flags asked for: then the
open failed for want of memory or of a descriptor, or could not read the node it had created. -/
theorem failed_open {V : View} {o : Nat → Nat → Bool} {mem : Bool} {upath : Except Errno CStr}
    {flags mode : UInt32} {x x' : OpenState} {e : Errno} (h : Shows x.fs V)
    (hrun : sysOpen o mem upath flags mode x = some (.error e, x')) :
    x'.opens = x.opens ∧ x'.fds = x.fds ∧ (Same V x.fs x'.fs ∨
      ∃ path canon, upath = .ok path ∧ vfsPathNorm (some path) 256 = .ok canon ∧
        Residue V (cstr canon) flags mode x.fs x'.fs (LateError mem x.fds e) e) := by
  unfold sysOpen at hrun
  split at hrun
  · cases hrun
    exact ⟨rfl, rfl, .inl (.refl h)⟩
  rename_i path
  split at hrun
  · cases hrun
  · rename_i e₁ x₁ hopen
    cases hrun
    rcases vfsOpen_cases hopen with ⟨rfl, -⟩ | ⟨canon, hnorm, hflags, hgfs⟩
    · exact ⟨rfl, rfl, .inl (.refl h)⟩
    obtain ⟨hfds, ⟨e', he, hopens, hres⟩ | ⟨f, hf, -⟩⟩ := gfsOpen_spec h hflags hgfs
    · cases he
      exact ⟨hopens, hfds, .inr ⟨path, canon, rfl, hnorm, hres.late .inl⟩⟩
    · cases hf
  rename_i f x₁ hopen
  split at hrun
  · cases hrun
  -- no descriptor is free: the description is dropped again
  rename_i hfull
  obtain ⟨x₂, hput, hx₂⟩ := Option.map_eq_some_iff.mp hrun
  cases hx₂
  rcases vfsOpen_cases hopen with ⟨rfl, hdev⟩ | ⟨canon, hnorm, hflags, hgfs⟩
  · rw [filePut, if_neg (hdev f rfl)] at hput
    cases hput
    exact ⟨rfl, rfl, .inl (.refl h)⟩
  obtain ⟨hfds, ⟨e', he, -⟩ | ⟨f', hf', hgfsf, hopens, hres⟩⟩ := gfsOpen_spec h hflags hgfs
  · cases he
  · cases hf'
    obtain ⟨hback, hfs, hfds'⟩ := filePut_opens hgfsf hopens hput
    rw [hfds] at hfull
    refine ⟨hback, hfds'.trans hfds, .inr ⟨path, canon, rfl, hnorm, ?_⟩⟩
    rw [hfs]
    exact hres _ _ (.inr ⟨rfl, hfull⟩)

/-! ## Creating a file without a descriptor for it -/

theorem call_quiet {α : Type} {p : GfsM α} {s s' : St} {r : Except Err α} {P : α → St → Prop}
    {Why : Err → Prop} (h : Wp p (outcome P (Abort s.fresh Why)) s.fresh)
    (hrun : call p (fun _ => false) s = some (r, s')) : outcome P (fun e _ => Why e) r s' := by
  have hquiet : s'.failed = false := run_quiet rfl hrun
  have hpost := Prog.post_of_run h hrun
  cases r with
  | ok a => exact hpost
  | error e =>
    rcases hpost.2 with hfail | hwhy
    · rw [hquiet] at hfail
      cases hfail
    · exact hwhy

theorem exists_filePut (h : x.opens f.node ≠ 0) : ∃ x', filePut f x = some x' ∧ x'.fs = x.fs := by
  unfold filePut
  by_cases hf : f.IsGfs
  · rw [if_pos hf, if_neg h]
    exact ⟨_, rfl, rfl⟩
  · rw [if_neg hf]
    exact ⟨x, rfl, rfl⟩

/-- "/f". -/
def newPath : CStr := ⟨[47, 102], by decide⟩

/-- A descriptor table in which every descriptor is the console. -/
def fullFds : Fin 16 → Option OpenFile := fun _ => some ⟨.devConsole, 2, 0⟩

/-- `gfs_resolve` on a device that works. -/
theorem resolve_quiet {s : St} {V : View} (path : CStr) (h : Committed s tbl V leak) :
    ∃ s', call (gfsResolve path) (fun _ => false) s =
      some (pathNode s.core V path, s') ∧ Safe s.fresh s' := by
  have hwp : Wp (gfsResolve path) _ s.fresh := wp_resolvePath h.fresh rfl
  obtain ⟨r, s', hrun, hpost⟩ := Prog.run_of_wp hwp fun _ => false
  have hquiet := call_quiet hwp hrun
  cases r with
  | ok id =>
    obtain ⟨hid, hidle⟩ := hpost
    exact ⟨s', hid ▸ hrun, hidle.safe rfl⟩
  | error e =>
    have he : pathNode s.core V path = .error e := hquiet
    exact ⟨s', he ▸ hrun, hpost.1⟩

/-- `gfs_node_get` of an allocated node, on a device that works. -/
theorem nodeGet_quiet {s : St} {V : View} (h : Committed s tbl V leak) (hid : ValidId s.core id)
    (hfree : (V.recs id).type ≠ nodeFree) :
    ∃ s', call (gfsNodeGet id) (fun _ => false) s = some (.ok (V.recs id).shown, s') ∧
      Shows s' V := by
  have hwp : Wp (gfsNodeGet id) _ s.fresh := wp_gfsNodeGet h.fresh rfl
  obtain ⟨r, s', hrun, hpost⟩ := Prog.run_of_wp hwp fun _ => false
  have hlive : (V.live s.core id).map DiskNode.shown = .ok (V.recs id).shown :=
    except_map_eq_ok.mpr ⟨V.recs id, View.live_ok.mpr ⟨⟨hid, hfree⟩, rfl⟩, rfl⟩
  have hquiet := call_quiet hwp hrun
  cases r with
  | ok n =>
    have hn : (V.live s.core id).map DiskNode.shown = .ok n := hpost.1
    rw [hlive] at hn
    cases hn
    exact ⟨s', hrun, _, _, h.fresh.idle hpost.2⟩
  | error e =>
    have he : (V.live s.core id).map DiskNode.shown = .error e := hquiet
    rw [hlive] at he
    cases he

theorem exists_emfile : ∃ o s x' V', Booted 1000 3 s ∧ Shows s firstView ∧
    sysOpen o true (.ok newPath) oCreat 0 ⟨true, s, fun _ => 0, fullFds⟩ =
      some (.error .emfile, x') ∧
    Shows x'.fs V' ∧ (V'.recs 2).type = nodeData := by
  obtain ⟨s, hboot⟩ := exists_booted 1000 3 (by decide) (by decide)
  obtain ⟨hc, gen, -, hcore⟩ := hboot.committed (by decide)
  obtain ⟨s₁, hres, hsafe₁⟩ := resolve_quiet newPath hc
  have hc₁ := hc.fresh.safe hsafe₁
  have hcore₁ : s₁.core = firstCore 1000 3 gen := hsafe₁.core.trans hcore
  obtain ⟨s₂, hpar, hsafe₂⟩ := resolve_quiet (pathSplit newPath).1 hc₁
  have hc₂ := hc₁.fresh.safe hsafe₂
  have hcore₂ : s₂.core = firstCore 1000 3 gen := hsafe₂.core.trans hcore₁
  have hmissing : pathNode s.core firstView newPath = .error .enoent := by
    rw [hcore]
    rfl
  have hroot : pathNode s₁.core firstView (pathSplit newPath).1 = .ok 1 := by
    rw [hcore₁]
    rfl
  rw [hmissing] at hres
  rw [hroot] at hpar
  have hname : NameOk (pathSplit newPath).2 := rfl
  obtain ⟨s₃, tbl, V, hcreate, -, hst₃⟩ :=
    (stage_first hc₂ (by rw [hcore₂]; rfl) (by rw [hcore₂]; rfl)).first (.inr rfl) hname
  obtain ⟨V', hV', hempty⟩ : ∃ V', Shows s₃ V' ∧ (V'.recs 2).type = nodeData ∧
      (V'.recs 2).size = 0 := same_createAt ⟨_, _, hc₂⟩ hcreate
  obtain rfl := Shows.unique hst₃.shows hV'
  have hvalid : ValidId s₃.core 2 := hst₃.validId (by decide) (by decide)
  obtain ⟨s₄, hget, hshow⟩ := nodeGet_quiet hst₃.committed hvalid (by rw [hempty.1]; decide)
  -- the calls one after the other
  have hnode : openNode 2 (fun _ => false) s₃ = some (.ok (2, (V.recs 2).shown), s₄) := by
    rw [openNode, hget]
  have hmade : call (gfsCreateAt 1 (pathSplit newPath).2 nodeData (0 &&& 4095)) (fun _ => false) s₂ =
    some (.ok 2, s₃) := hcreate
  have hfind : openFind (fun _ _ => false) newPath oCreat 0 s =
      some (.ok (2, (V.recs 2).shown), s₄) := by
    rw [openFind, hres]
    dsimp only
    rw [if_pos (by decide), openCreate, hpar]
    dsimp only
    rw [hmade]
    dsimp only
    rw [hnode]
  have hopen : vfsOpen (fun _ _ => false) true newPath oCreat 0 ⟨true, s, fun _ => 0, fullFds⟩ =
      some (.ok ⟨.gfsFile, 2, oCreat⟩, ⟨true, s₄, update (fun _ => 0) 2 1, fullFds⟩) := by
    have hnorm : vfsPathNorm (some newPath) 256 = .ok newPath.bytes := by rfl
    have hcanon : cstr newPath.bytes = newPath := by rfl
    rw [vfsOpen, if_neg (by decide), if_neg (by decide), hnorm]
    dsimp only
    rw [show onDevfs newPath.bytes = none by decide]
    dsimp only
    rw [if_neg (by decide), hcanon, gfsOpen, hfind]
    dsimp only
    rw [openCheck_new (by decide) (by decide) hempty]
    dsimp only
    rw [if_neg (by decide), if_neg (by rw [show (V.recs 2).shown.type = nodeData from hempty.1]; decide)]
    rfl
  obtain ⟨x', hput, hfs⟩ := exists_filePut (f := ⟨.gfsFile, 2, oCreat⟩)
    (x := ⟨true, s₄, update (fun _ => 0) 2 1, fullFds⟩)
    (show update (fun _ => (0 : UInt32)) 2 1 2 ≠ 0 by decide)
  refine ⟨fun _ _ => false, s, x', V, hboot, ⟨_, _, hc⟩, ?_, by rw [hfs]; exact hshow, hempty.1⟩
  rw [sysOpen, hopen]
  dsimp only
  rw [show freeFd fullFds = none by decide, hput]
  rfl

/-- **A failed open that creates a file**: no descriptor is free. -/
theorem emfile_creates : ∃ o s x', Booted 1000 3 s ∧ Shows s firstView ∧
    sysOpen o true (.ok newPath) oCreat 0 ⟨true, s, fun _ => 0, fullFds⟩ =
      some (.error .emfile, x') ∧
    ¬Same firstView s x'.fs := by
  obtain ⟨o, s, x', V', hboot, hshow, hrun, hV', hdata⟩ := exists_emfile
  refine ⟨o, s, x', hboot, hshow, hrun, fun hsame => ?_⟩
  obtain rfl := hsame.1.unique hV'
  cases hdata

/-- The same open, with what it leaves. -/
theorem failed_open_emfile : ∃ o s x', Shows s firstView ∧
    sysOpen o true (.ok newPath) oCreat 0 ⟨true, s, fun _ => 0, fullFds⟩ =
      some (.error .emfile, x') ∧
    x'.opens = (fun _ => 0) ∧ x'.fds = fullFds ∧ (Same firstView s x'.fs ∨
      ∃ path canon, Except.ok newPath = (Except.ok path : Except Errno CStr) ∧
        vfsPathNorm (some path) 256 = .ok canon ∧
        Residue firstView (cstr canon) oCreat 0 s x'.fs (LateError true fullFds .emfile) .emfile) := by
  obtain ⟨o, s, x', V', -, hshow, hrun, -⟩ := exists_emfile
  exact ⟨o, s, x', hshow, hrun, failed_open hshow hrun⟩

end Hallucinate.Vfs
