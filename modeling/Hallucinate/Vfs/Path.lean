import Hallucinate.Gfs.Progress
import Mathlib

/-!
# Lexical path normalization (`kernel/fs/vfs_path.c`)

`vfs_path_norm` takes the components of a path in order and keeps the canonical path so far in the
output buffer: `.` does nothing, `..` removes the last component from the text, a name is appended.
The other way to read a path is to walk it in the tree, where `..` goes to the node in the parent
field (`walk`).

**`norm_agrees_with_walk`**: where the parent fields are right (`ParentsOk`) and every proper prefix
of the path leads to a directory, `gfs_resolve` of the normalized path answers what the walk gives.
The buffer is read as a stack of names (`joined`), and the names on the stack lead from the root to
the node where the walk is (`Trail`); popping a name is then going to the parent.
-/

namespace Hallucinate.Vfs

open Lib Gfs List

/-- The error codes of `errno.h` that the virtual filesystem and `sys_open` return. -/
inductive Errno
  | eperm
  | enoent
  | eio
  | enomem
  | efault
  | eexist
  | enodev
  | enotdir
  | eisdir
  | einval
  | emfile
  | efbig
  | enospc
  | erofs
  | enametoolong
  | enotempty
  deriving DecidableEq, Repr

/-- `out[0..olen)` after a `..`: the last name goes, and the slash before it unless it is the
first. -/
def popName (out : List UInt8) : List UInt8 :=
  out.take 1 ++ ((out.drop 1).rdropWhile (· ≠ 47)).dropLast

/-- One component in the loop of `vfs_path_norm`. -/
def normStep (cap : Nat) (out comp : List UInt8) : Except Errno (List UInt8) :=
  if comp = [46] then .ok out
  else if comp = [46, 46] then .ok (popName out)
  else if 255 < comp.length then .error .enametoolong
  else
    let sep := if 1 < out.length then [47] else []
    if cap < out.length + sep.length + comp.length + 1 then .error .enametoolong
    else .ok (out ++ sep ++ comp)

/-- The loop of `vfs_path_norm`. -/
def normWalk (cap : Nat) : List UInt8 → List (List UInt8) → Except Errno (List UInt8)
  | out, [] => .ok out
  | out, comp :: comps => do
    let out ← normStep cap out comp
    normWalk cap out comps

/-- `vfs_path_norm`: the bytes of `out` up to the terminating zero. `none` is a null pointer. -/
def vfsPathNorm (path : Option CStr) (cap : Nat) : Except Errno (List UInt8) :=
  match path with
  | none => .error .einval
  | some path =>
    if path.bytes = [] then .error .einval
    else if cap < 2 then .error .enametoolong
    else normWalk cap [47] (components path.bytes)

/-! ## Walking the tree -/

/-- The node is a directory. -/
def IsDir (c : Core) (V : View) (id : Nat) : Prop :=
  ∃ n, V.get c id = .ok n ∧ n.type = nodeNamespace

/-- One component: `.` stays, `..` goes to the node in the parent field, a name is looked up. -/
def walkStep (c : Core) (V : View) (cur : Nat) (comp : List UInt8) : Except Err Nat :=
  if comp = [46] then .ok cur
  else if comp = [46, 46] then (V.get c cur).map (·.parent)
  else V.lookup c cur comp

/-- A path component by component. -/
def walk (c : Core) (V : View) : List (List UInt8) → Nat → Except Err Nat
  | [], cur => .ok cur
  | comp :: comps, cur => do
    let cur ← walkStep c V cur comp
    walk c V comps cur

/-- The parent fields are those of the tree: a directory found in a directory has it as its parent,
and the root is its own. -/
structure ParentsOk (c : Core) (V : View) : Prop where
  root : ∀ n, V.get c c.rootNode = .ok n → n.parent = c.rootNode
  entry : ∀ dir name id n, IsDir c V dir → V.lookup c dir name = .ok id →
    V.get c id = .ok n → n.type = nodeNamespace → n.parent = dir

/-! ## The buffer as a stack of names -/

/-- A component that is a name. -/
structure NameLike (name : List UInt8) : Prop where
  ne_nil : name ≠ []
  noSlash : 47 ∉ name
  noNul : 0 ∉ name

/-- The canonical path of a stack of names, the last name on top. -/
def joined : List (List UInt8) → List UInt8
  | [] => [47]
  | [name] => 47 :: name
  | name :: names => joined names ++ 47 :: name

variable {names : List (List UInt8)} {name : List UInt8}

theorem joined_cons (h : names ≠ []) : joined (name :: names) = joined names ++ 47 :: name := by
  cases names with
  | nil => exact absurd rfl h
  | cons _ _ => rfl

/-- A canonical path is a slash and more, if there is a name in it. -/
theorem joined_eq (names : List (List UInt8)) : ∃ rest, joined names = 47 :: rest := by
  induction names with
  | nil => exact ⟨[], rfl⟩
  | cons name names ih =>
    by_cases h : names = []
    · subst h
      exact ⟨name, rfl⟩
    · obtain ⟨rest, hrest⟩ := ih
      exact ⟨rest ++ 47 :: name, by rw [joined_cons h, hrest]; rfl⟩

theorem one_lt_length_joined (h : ∀ n ∈ names, NameLike n) :
    1 < (joined names).length ↔ names ≠ [] := by
  cases names with
  | nil => simp [joined]
  | cons name names =>
    have hpos := length_pos_iff.mpr (h name mem_cons_self).ne_nil
    refine iff_of_true ?_ (cons_ne_nil _ _)
    by_cases hn : names = []
    · subst hn
      simp only [joined, length_cons]
      omega
    · rw [joined_cons hn, length_append, length_cons]
      omega

/-- Appending a name, with a slash if there is one before it. -/
theorem joined_push (h : ∀ n ∈ names, NameLike n) (name : List UInt8) :
    joined names ++ (if 1 < (joined names).length then [47] else []) ++ name
      = joined (name :: names) := by
  by_cases hn : names = []
  · subst hn
    rfl
  · rw [if_pos ((one_lt_length_joined h).mpr hn), joined_cons hn, append_assoc]
    rfl

/-- Nothing of a name without slashes is kept. -/
theorem rdropWhile_name (hname : 47 ∉ name) : name.rdropWhile (· ≠ 47) = [] := by
  rw [rdropWhile_eq_nil_iff]
  intro b hb
  have hne : b ≠ 47 := fun he => hname (he ▸ hb)
  simpa using hne

theorem rdropWhile_slash_name (l : List UInt8) (hname : 47 ∉ name) :
    (l ++ 47 :: name).rdropWhile (· ≠ 47) = l ++ [47] := by
  induction name using List.reverseRecOn with
  | nil => exact rdropWhile_concat_neg _ _ 47 (by simp)
  | append_singleton name b ih =>
    have hb : b ≠ 47 := fun he => hname (by simp [he])
    have hname' : 47 ∉ name := fun hm => hname (mem_append_left _ hm)
    rw [← cons_append, ← append_assoc, rdropWhile_concat_pos _ _ b (by simpa using hb)]
    exact ih hname'

/-- `..` takes the last name off the stack. -/
theorem popName_joined (h : ∀ n ∈ names, NameLike n) : popName (joined names) = joined names.tail := by
  cases names with
  | nil => rfl
  | cons name names =>
    have hslash := (h name mem_cons_self).noSlash
    unfold popName
    by_cases hn : names = []
    · subst hn
      show [47] ++ (name.rdropWhile (· ≠ 47)).dropLast = [47]
      rw [rdropWhile_name hslash]
      rfl
    · obtain ⟨rest, hrest⟩ := joined_eq names
      rw [joined_cons hn, hrest, tail_cons, hrest]
      show [47] ++ ((rest ++ 47 :: name).rdropWhile (· ≠ 47)).dropLast = 47 :: rest
      rw [rdropWhile_slash_name rest hslash, dropLast_concat]
      rfl

theorem noNul_joined (h : ∀ n ∈ names, NameLike n) : 0 ∉ joined names := by
  induction names with
  | nil => decide
  | cons name names ih =>
    have hname : (0 : UInt8) ∉ 47 :: name := by
      rw [mem_cons, not_or]
      exact ⟨by decide, (h name mem_cons_self).noNul⟩
    by_cases hn : names = []
    · subst hn
      exact hname
    · rw [joined_cons hn, mem_append, not_or]
      exact ⟨ih fun n hm => h n (mem_cons_of_mem _ hm), hname⟩

/-! ## Components -/

/-- The parts of a split list have no separator, and nothing that the list does not have. -/
theorem of_mem_splitOnP {α : Type} {p : α → Bool} {xs l : List α} {x : α}
    (hl : l ∈ xs.splitOnP p) (hx : x ∈ l) : x ∈ xs ∧ p x = false := by
  induction xs generalizing l with
  | nil =>
    rw [splitOnP_nil, mem_singleton] at hl
    rw [hl] at hx
    exact absurd hx not_mem_nil
  | cons a xs ih =>
    rw [splitOnP_cons_eq_if_modifyHead] at hl
    split at hl
    · rcases mem_cons.mp hl with rfl | hl
      · exact absurd hx not_mem_nil
      · exact (ih hl hx).imp_left (mem_cons_of_mem a)
    · rename_i ha
      obtain ⟨l₀, ls, he⟩ := exists_cons_of_ne_nil (splitOnP_ne_nil p xs)
      rw [he, modifyHead_cons] at hl
      rcases mem_cons.mp hl with rfl | hl
      · rcases mem_cons.mp hx with rfl | hx
        · exact ⟨mem_cons_self, by simpa using ha⟩
        · exact (ih (he ▸ mem_cons_self) hx).imp_left (mem_cons_of_mem a)
      · exact (ih (he ▸ mem_cons_of_mem l₀ hl) hx).imp_left (mem_cons_of_mem a)

variable {comp : List UInt8}

theorem components_nameLike (path : CStr) (h : comp ∈ components path.bytes) : NameLike comp := by
  unfold components at h
  rw [mem_filter] at h
  refine ⟨by simpa using h.2, fun hs => ?_, fun hz => ?_⟩
  · exact absurd (of_mem_splitOnP h.1 hs).2 (by decide)
  · exact path.noNul (of_mem_splitOnP h.1 hz).1

theorem components_append (path : List UInt8) (h : NameLike name) :
    components (path ++ 47 :: name) = components path ++ [name] := by
  rw [components_slash, components_name h.ne_nil h.noSlash]

/-- The names of a canonical path. -/
theorem components_joined (h : ∀ n ∈ names, NameLike n) :
    components (joined names) = names.reverse := by
  induction names with
  | nil =>
    have hcut := components_slash [] []
    rw [components_nil] at hcut
    exact hcut
  | cons name names ih =>
    have hname := h name mem_cons_self
    have ih := ih fun n hm => h n (mem_cons_of_mem _ hm)
    rw [reverse_cons]
    by_cases hn : names = []
    · subst hn
      show components ([] ++ 47 :: name) = _
      rw [components_append [] hname, components_nil]
      rfl
    · rw [joined_cons hn, components_append _ hname, ih]

/-! ## The trail of a walk -/

variable {c : Core} {V : View} {cur : Nat} {cap : Nat}

/-- The names lead from the root to the node, through directories. -/
inductive Trail (c : Core) (V : View) : List (List UInt8) → Nat → Prop
  | root : Trail c V [] c.rootNode
  | child {names : List (List UInt8)} {name : List UInt8} {dir id : Nat} (h : Trail c V names dir)
      (hdir : IsDir c V dir) (hlen : name.length ≤ 255) (hl : V.lookup c dir name = .ok id) :
      Trail c V (name :: names) id

theorem resolve_append (comps comps' : List (List UInt8)) (cur : Nat) :
    V.resolve c (comps ++ comps') cur = (V.resolve c comps cur) >>= V.resolve c comps' := by
  induction comps generalizing cur with
  | nil => rfl
  | cons comp comps ih =>
    rw [cons_append]
    unfold View.resolve
    split
    · rfl
    · cases V.lookup c cur comp with
      | error e => rfl
      | ok id => exact ih id

theorem Trail.resolve (h : Trail c V names cur) :
    V.resolve c names.reverse c.rootNode = .ok cur := by
  induction h with
  | root => rfl
  | child _ _ hlen hl ih =>
    rw [reverse_cons, resolve_append, ih]
    show V.resolve c [_] _ = _
    unfold View.resolve
    rw [if_neg (by omega), hl]
    rfl

/-- One more name, found or not. -/
theorem Trail.resolve_cons (h : Trail c V names cur) (hlen : name.length ≤ 255) :
    V.resolve c (name :: names).reverse c.rootNode = V.lookup c cur name := by
  rw [reverse_cons, resolve_append, h.resolve]
  show V.resolve c [name] cur = _
  unfold View.resolve
  rw [if_neg (by omega)]
  cases V.lookup c cur name <;> rfl

variable {n : DiskNode}

/-- **Going to the parent is dropping the last name.** -/
theorem Trail.parent (hp : ParentsOk c V) (h : Trail c V names cur) (hn : V.get c cur = .ok n)
    (hdir : n.type = nodeNamespace) : Trail c V names.tail n.parent := by
  cases h with
  | root =>
    rw [hp.root n hn]
    exact Trail.root
  | child h hd _ hl =>
    rw [hp.entry _ _ _ n hd hl hn hdir]
    exact h

/-! ## Normalizing and walking -/

/-- What a component does to the stack of names. -/
def stackStep (names : List (List UInt8)) (comp : List UInt8) : List (List UInt8) :=
  if comp = [46] then names else if comp = [46, 46] then names.tail else comp :: names

theorem nameLike_stackStep (h : ∀ n ∈ names, NameLike n) (hname : NameLike name) :
    ∀ n ∈ stackStep names name, NameLike n := by
  intro n hn
  unfold stackStep at hn
  split at hn
  · exact h n hn
  · split at hn
    · exact h n (mem_of_mem_tail hn)
    · rcases mem_cons.mp hn with rfl | hn
      · exact hname
      · exact h n hn

/-- A step of `vfs_path_norm` is a step on the stack, of a name that is not too long. -/
theorem normStep_joined (h : ∀ n ∈ names, NameLike n) {out : List UInt8}
    (hs : normStep cap (joined names) comp = .ok out) :
    out = joined (stackStep names comp) ∧ (comp ≠ [46] → comp ≠ [46, 46] → comp.length ≤ 255) := by
  unfold normStep at hs
  unfold stackStep
  split at hs
  · rename_i hdot
    rw [if_pos hdot]
    exact ⟨(Except.ok.inj hs).symm, fun hne => absurd hdot hne⟩
  · rename_i hdot
    rw [if_neg hdot]
    split at hs
    · rename_i hup
      rw [if_pos hup, ← popName_joined h]
      exact ⟨(Except.ok.inj hs).symm, fun _ hne => absurd hup hne⟩
    · rename_i hup
      rw [if_neg hup, ← joined_push h]
      split at hs
      · cases hs
      · rename_i hlen
        simp only at hs
        generalize (if 1 < (joined names).length then [(47 : UInt8)] else []) = sep at hs ⊢
        split at hs
        · cases hs
        · exact ⟨(Except.ok.inj hs).symm, fun _ _ => Nat.le_of_not_lt hlen⟩

variable {comps : List (List UInt8)} {out : List UInt8}

theorem nameLike_nil : ∀ n ∈ ([] : List (List UInt8)), NameLike n := nofun

/-- The names on the stack are from the path. -/
theorem nameLike_foldl (h : ∀ n ∈ names, NameLike n) (hc : ∀ n ∈ comps, NameLike n) :
    ∀ n ∈ comps.foldl stackStep names, NameLike n := by
  induction comps generalizing names with
  | nil => exact h
  | cons comp comps ih =>
    exact ih (nameLike_stackStep h (hc comp mem_cons_self)) fun n hn =>
      hc n (mem_cons_of_mem comp hn)

/-- **A path that is accepted** leaves its names on the stack. -/
theorem normWalk_ok (h : ∀ n ∈ names, NameLike n) (hc : ∀ n ∈ comps, NameLike n)
    (hok : normWalk cap (joined names) comps = .ok out) :
    out = joined (comps.foldl stackStep names) := by
  induction comps generalizing names with
  | nil => exact (Except.ok.inj hok).symm
  | cons comp comps ih =>
    rw [normWalk] at hok
    cases hs : normStep cap (joined names) comp with
    | error e =>
      rw [hs] at hok
      cases hok
    | ok out₁ =>
      rw [hs] at hok
      obtain ⟨rfl, -⟩ := normStep_joined h hs
      exact ih (nameLike_stackStep h (hc comp mem_cons_self))
        (fun n hn => hc n (mem_cons_of_mem comp hn)) hok

variable {path : CStr}

/-- A path that is accepted. -/
theorem norm_ok (hok : vfsPathNorm (some path) cap = .ok out) :
    path.bytes ≠ [] ∧ 2 ≤ cap ∧ normWalk cap (joined []) (components path.bytes) = .ok out := by
  unfold vfsPathNorm at hok
  simp only at hok
  split at hok
  · cases hok
  · rename_i hne
    split at hok
    · cases hok
    · rename_i hcap
      exact ⟨hne, Nat.le_of_not_lt hcap, hok⟩

theorem norm_eq (hne : path.bytes ≠ []) (hcap : 2 ≤ cap) :
    vfsPathNorm (some path) cap = normWalk cap (joined []) (components path.bytes) := by
  unfold vfsPathNorm
  simp only
  rw [if_neg hne, if_neg (Nat.not_lt.mpr hcap)]
  rfl

/-- The hypothesis on prefixes, after one component. -/
theorem prefix_step {comps : List (List UInt8)} {cur' : Nat}
    (hpre : ∀ pre, pre <+: comp :: comps → pre ≠ comp :: comps →
      ∃ d, walk c V pre cur = .ok d ∧ IsDir c V d) (hw : walkStep c V cur comp = .ok cur') :
    ∀ pre, pre <+: comps → pre ≠ comps → ∃ d, walk c V pre cur' = .ok d ∧ IsDir c V d := by
  intro pre hp hne
  obtain ⟨d, hd, hdir⟩ := hpre (comp :: pre) ((prefix_cons_inj comp).mpr hp)
    fun he => hne (List.cons.inj he).2
  unfold walk at hd
  rw [hw] at hd
  exact ⟨d, hd, hdir⟩

/-- From a trail on, the normalized path resolves to where the walk ends. -/
theorem Trail.normWalk (hp : ParentsOk c V) {comps : List (List UInt8)} {out : List UInt8}
    (htrail : Trail c V names cur) (hnames : ∀ n ∈ names, NameLike n)
    (hcomps : ∀ n ∈ comps, NameLike n)
    (hpre : ∀ pre, pre <+: comps → pre ≠ comps → ∃ d, walk c V pre cur = .ok d ∧ IsDir c V d)
    (hnorm : normWalk cap (joined names) comps = .ok out) :
    ∃ names', out = joined names' ∧ (∀ n ∈ names', NameLike n) ∧
      V.resolve c names'.reverse c.rootNode = walk c V comps cur := by
  induction comps generalizing names cur with
  | nil => exact ⟨names, (Except.ok.inj hnorm).symm, hnames, htrail.resolve⟩
  | cons comp comps ih =>
    unfold Vfs.normWalk at hnorm
    cases hs : normStep cap (joined names) comp with
    | error e =>
      rw [hs] at hnorm
      cases hnorm
    | ok out₁ =>
      rw [hs] at hnorm
      obtain ⟨rfl, hlen⟩ := normStep_joined hnames hs
      have hnames' := nameLike_stackStep hnames (hcomps comp mem_cons_self)
      have hcomps' : ∀ n ∈ comps, NameLike n := fun n hn => hcomps n (mem_cons_of_mem comp hn)
      obtain ⟨d, hd, n, hn, hdir⟩ := hpre [] nil_prefix (cons_ne_nil comp comps).symm
      obtain rfl : cur = d := Except.ok.inj hd
      -- what the component does to the walk and to the trail
      have hgo : ∀ cur', walkStep c V cur comp = .ok cur' → Trail c V (stackStep names comp) cur' →
          ∃ names', out = joined names' ∧ (∀ n ∈ names', NameLike n) ∧
            V.resolve c names'.reverse c.rootNode = walk c V (comp :: comps) cur := by
        intro cur' hw ht
        obtain ⟨names', h1, h2, h3⟩ := ih ht hnames' hcomps' (prefix_step hpre hw) hnorm
        refine ⟨names', h1, h2, h3.trans ?_⟩
        unfold walk
        rw [hw]
        cases comps <;> rfl
      by_cases hdot : comp = [46]
      · subst hdot
        exact hgo cur rfl htrail
      · by_cases hup : comp = [46, 46]
        · subst hup
          have hw : walkStep c V cur [46, 46] = .ok n.parent := by
            show (V.get c cur).map _ = _
            rw [hn]
            rfl
          exact hgo n.parent hw (htrail.parent hp hn hdir)
        · have hw : walkStep c V cur comp = V.lookup c cur comp := by
            unfold walkStep
            rw [if_neg hdot, if_neg hup]
          have hst : stackStep names comp = comp :: names := by
            unfold stackStep
            rw [if_neg hdot, if_neg hup]
          cases hl : V.lookup c cur comp with
          | ok id =>
            refine hgo id (hw.trans hl) ?_
            rw [hst]
            exact htrail.child ⟨n, hn, hdir⟩ (hlen hdot hup) hl
          | error e =>
            -- a name that is not there is the last component
            have hlast : comps = [] := by
              by_contra hne
              obtain ⟨d, hd, -⟩ := hpre [comp] ((prefix_cons_inj comp).mpr nil_prefix)
                fun he => hne (List.cons.inj he).2.symm
              unfold walk at hd
              rw [hw, hl] at hd
              cases hd
            subst hlast
            refine ⟨comp :: names, ?_, hst ▸ hnames', ?_⟩
            · rw [← hst]
              exact (Except.ok.inj hnorm).symm
            · rw [htrail.resolve_cons (hlen hdot hup)]
              unfold walk
              rw [hw, hl]
              rfl

variable {s : St} {tbl : Nat → Bp} {leak : Multiset Nat}

/-- **Normalizing a path agrees with walking it.** In a file system whose parent fields are those of
the tree, take a path every proper prefix of which, walked component by component from the root,
leads to a directory. If `vfs_path_norm` accepts it, `gfs_resolve` of the canonical path answers the
node that the walk ends at, or that there is none. -/
theorem norm_agrees_with_walk (h : Committed s tbl V leak) (hp : ParentsOk s.core V) {path : CStr}
    {out : List UInt8} (hnorm : vfsPathNorm (some path) cap = .ok out)
    (hpre : ∀ pre, pre <+: components path.bytes → pre ≠ components path.bytes →
      ∃ d, walk s.core V pre s.core.rootNode = .ok d ∧ IsDir s.core V d) :
    ∃ hz : 0 ∉ out, ∀ r, Sees s (.resolve ⟨out, hz⟩) r ↔
      r = (walk s.core V (components path.bytes) s.core.rootNode).map .id := by
  unfold vfsPathNorm at hnorm
  simp only at hnorm
  split at hnorm
  · cases hnorm
  · split at hnorm
    · cases hnorm
    · obtain ⟨names, rfl, hnames, hres⟩ := Trail.root.normWalk hp (fun n hn => nomatch hn)
        (fun n hn => components_nameLike path hn) hpre hnorm
      refine ⟨noNul_joined hnames, fun r => ?_⟩
      have hhead : ¬(joined names).head? ≠ some 47 := by
        obtain ⟨rest, hrest⟩ := joined_eq names
        rw [hrest]
        simp
      rw [h.sees_resolve]
      unfold View.answer
      simp only [if_neg hhead]
      rw [components_joined hnames, hres]

/-! ### An example -/

variable {id : Nat}

section

variable (h : OneDir V.graph name) (hn : c.nodeCount = 3)
include h hn

/-- The records of a tree with one directory in the root. -/
theorem oneDir_get (hg : V.get c id = .ok n) :
    (id = 1 ∨ id = 2) ∧ n = V.recs id ∧ n.parent = 1 := by
  unfold View.get at hg
  split at hg
  · cases hg
  · rename_i hid
    obtain rfl := Except.ok.inj hg
    have hid : id = 1 ∨ id = 2 := by omega
    refine ⟨hid, rfl, ?_⟩
    rcases hid with rfl | rfl
    · exact congrArg Vertex.parent h.root
    · exact congrArg Vertex.parent h.child

theorem oneDir_isDir (hid : id = 1 ∨ id = 2) : IsDir c V id := by
  refine ⟨V.recs id, if_neg (by omega), ?_⟩
  rcases hid with rfl | rfl
  · exact congrArg Vertex.type h.root
  · exact congrArg Vertex.type h.child

theorem oneDir_parentsOk (hr : c.rootNode = 1) : ParentsOk c V := by
  refine ⟨fun n hg => (oneDir_get h hn hg).2.2.trans hr.symm, fun dir nm id n hdir hl hg _ => ?_⟩
  -- the directory in which something is found is the root
  obtain ⟨d, hd, hdt⟩ := hdir
  obtain ⟨hid, rfl, -⟩ := oneDir_get h hn hd
  rw [(oneDir_get h hn hg).2.2]
  rcases hid with rfl | rfl
  · rfl
  · have hnone : V.edges 2 = [] := Multiset.coe_eq_zero _ |>.mp (congrArg Vertex.edges h.child)
    unfold View.lookup at hl
    rw [hd, hnone] at hl
    change (if (V.recs 2).type ≠ nodeNamespace then _ else _) = _ at hl
    rw [if_neg (not_not.mpr hdt)] at hl
    cases hl

theorem oneDir_lookup : V.lookup c 1 name = .ok 2 := by
  obtain ⟨d, hd, hdt⟩ := oneDir_isDir h hn (.inl rfl)
  have hedges : V.edges 1 = [⟨edgeName, 2, name⟩] :=
    Multiset.coe_eq_singleton.mp (congrArg Vertex.edges h.root)
  have hfound : lookupName name [⟨edgeName, 2, name⟩] = some 2 := by
    have hp : isName name (⟨edgeName, 2, name⟩ : Edge) = true := isName_iff.mpr ⟨rfl, rfl⟩
    unfold lookupName
    rw [find?_cons_of_pos hp]
    rfl
  unfold View.lookup
  rw [hd, hedges, hfound]
  change (if d.type ≠ nodeNamespace then _ else _) = _
  rw [if_neg (not_not.mpr hdt)]

end

/-- `/x/..` -/
def upPath : CStr := ⟨[47, 120, 47, 46, 46], by decide⟩

/-- One directory `x` in the root: `/x/..` is normalized to `/`, and both lead to the root. -/
theorem norm_agrees_with_walk_up :
    ∃ s V, Shows s V ∧ vfsPathNorm (some upPath) 256 = .ok [47] ∧
      ∃ hz, ∀ r, Sees s (.resolve ⟨[47], hz⟩) r ↔
        r = (walk s.core V (components upPath.bytes) s.core.rootNode).map .id := by
  obtain ⟨-, s, tbl, V, -, -, -, hst⟩ :=
    exists_firstNode (.inl rfl) (letter_ok (b := 120) (by decide) (by decide))
  have hc := hst.committed
  have hone := hst.oneDir
  have hcount : s.core.nodeCount = 3 := hst.nodes
  have hroot : s.core.rootNode = 1 := hc.geom.root
  have hcomps : components upPath.bytes = [[120], [46, 46]] := by decide
  have hnorm : vfsPathNorm (some upPath) 256 = .ok [47] := by decide
  refine ⟨s, V, ⟨_, _, hc⟩, hnorm,
    norm_agrees_with_walk hc (oneDir_parentsOk hone hcount hroot) hnorm ?_⟩
  rw [hcomps, hroot]
  intro pre hpre hne
  have hlen : pre.length < 2 := by
    refine Nat.lt_of_le_of_ne hpre.length_le fun he => hne ?_
    exact hpre.eq_of_length he
  have hcase : pre.length = 0 ∨ pre.length = 1 := by omega
  rw [prefix_iff_eq_take.mp hpre]
  rcases hcase with hp | hp <;> rw [hp]
  · exact ⟨1, rfl, oneDir_isDir hone hcount (.inl rfl)⟩
  · refine ⟨2, ?_, oneDir_isDir hone hcount (.inr rfl)⟩
    show (walkStep s.core V 1 [120] >>= _) = _
    have hstep : walkStep s.core V 1 [120] = .ok 2 := oneDir_lookup hone hcount
    rw [hstep]
    rfl

end Hallucinate.Vfs
