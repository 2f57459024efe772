import Hallucinate.Gfs.Refs
import Hallucinate.Vfs.Path

/-!
# Reading a directory (`gfsf_getdents` of `kernel/fs/vfs.c`)

The offset of an open directory is a cursor: 0 stands for `.`, 1 for `..`, and 2 + i for edge i of
the node. A call fills the buffer with records from the cursor on and leaves it behind the last.

`treeListing` is what a call returns in terms of the tree: **`wp_gfsfGetdents`**, unless a device
operation fails. **`treeListing_filled`**: if the names of the directory lead to allocated nodes, the
records returned are those between the old and the new cursor. The call stops at the end or at a
record that does not fit any more, and fails only if that is the first one.
-/

namespace Hallucinate.Vfs

open Lib Gfs List

/-- `gfs_errno`. -/
def gfsErrno : Err → Errno
  | .enoent => .enoent
  | .enotdir => .enotdir
  | .eisdir => .eisdir
  | .enametoolong => .enametoolong
  | .erofs => .erofs
  | .einval => .einval
  | .eexist => .eexist
  | .enotempty => .enotempty
  | .enospc | .efrag => .enospc
  | .efbig => .efbig
  | .emanyparents => .eperm
  | _ => .eio

/-- `struct dirent64`, but for the length of the record. -/
structure Dirent where
  ino : Nat
  off : Nat
  type : Nat
  name : List UInt8
  deriving DecidableEq, Repr

def dtDir : Nat := 4

def dtReg : Nat := 8

/-- The length of a record: `(DIRENT64_HDR + nlen + 1 + 7) & ~7`. -/
def reclen (name : List UInt8) : Nat := (19 + name.length + 1 + 7) / 8 * 8

/-- The name of an edge as a C string. -/
def cname (e : Edge) : List UInt8 := e.name.takeWhile (· ≠ 0)

/-- The loop of `gfsf_getdents`: the cursor, the bytes used of the buffer and the records in it. -/
structure Fill where
  off : Nat
  out : Nat
  recs : List Dirent

/-- How one turn of the loop ends. -/
inductive Turn
  | stop (r : Except Errno (List Dirent))
  | next (f : Fill)

/-- `dirent_emit`, with what the loop makes of a record that does not fit. -/
def direntEmit (len : Nat) (f : Fill) (d : Dirent) : Turn :=
  if len < f.out + reclen d.name then .stop (if f.out = 0 then .error .einval else .ok f.recs)
  else .next ⟨f.off + 1, f.out + reclen d.name, f.recs ++ [d]⟩

def dotEntry (node : Nat) : Dirent := ⟨node, 1, dtDir, [46]⟩

/-- The root is its own parent. -/
def dotdotEntry (node : Nat) (dir : Node) : Dirent :=
  ⟨if dir.parent ≠ 0 then dir.parent else node, 2, dtDir, [46, 46]⟩

def edgeEntry (off : Nat) (edge : Edge) (target : Node) : Dirent :=
  ⟨edge.target, off + 1, if target.type = nodeNamespace then dtDir else dtReg, cname edge⟩

/-- One turn of the loop of `gfsf_getdents`. -/
def getdentsTurn (node : Nat) (dir : Node) (len : Nat) (f : Fill) : GfsM Turn :=
  if f.off = 0 then pure (direntEmit len f (dotEntry node))
  else if f.off = 1 then pure (direntEmit len f (dotdotEntry node dir))
  else if f.off - 2 < dir.edgeCount then do
    match ← (gfsEdgeGet node (f.off - 2)).attempt with
    | .error e => pure (.stop (.error (gfsErrno e)))
    | .ok edge =>
      -- TAG and REF edges are not entries of the namespace
      if edge.type ≠ edgeName then pure (.next { f with off := f.off + 1 })
      else
        match ← (gfsNodeGet edge.target).attempt with
        | .error e => pure (.stop (.error (gfsErrno e)))
        | .ok target => pure (direntEmit len f (edgeEntry f.off edge target))
  else pure (.stop (.ok f.recs))

/-- The loop: the value returned, and the cursor. -/
def getdentsLoop (node : Nat) (dir : Node) (len : Nat) :
    Nat → Fill → GfsM (Except Errno (List Dirent) × Nat)
  | 0, f => pure (.ok f.recs, f.off)
  | fuel + 1, f => do
    match ← getdentsTurn node dir len f with
    | .stop r => pure (r, f.off)
    | .next f => getdentsLoop node dir len fuel f

/-- `gfsf_getdents` on a description of `node` with cursor `off`. -/
def gfsfGetdents (node off len : Nat) : GfsM (Except Errno (List Dirent) × Nat) := do
  match ← (gfsNodeGet node).attempt with
  | .error e => pure (.error (gfsErrno e), off)
  | .ok dir => getdentsLoop node dir len (dir.edgeCount + 3) ⟨off, 0, []⟩

/-! ## The answer in terms of the tree -/

/-- One turn, on the tree `V`. -/
def treeTurn (c : Core) (V : View) (node : Nat) (dir : Node) (len : Nat) (f : Fill) : Turn :=
  if f.off = 0 then direntEmit len f (dotEntry node)
  else if f.off = 1 then direntEmit len f (dotdotEntry node dir)
  else if f.off - 2 < dir.edgeCount then
    match V.edgeGet c node (f.off - 2) with
    | .error e => .stop (.error (gfsErrno e))
    | .ok edge =>
      if edge.type ≠ edgeName then .next { f with off := f.off + 1 }
      else match (V.live c edge.target).map DiskNode.shown with
        | .error e => .stop (.error (gfsErrno e))
        | .ok target => direntEmit len f (edgeEntry f.off edge target)
  else .stop (.ok f.recs)

def treeFill (c : Core) (V : View) (node : Nat) (dir : Node) (len : Nat) :
    Nat → Fill → Except Errno (List Dirent) × Nat
  | 0, f => (.ok f.recs, f.off)
  | fuel + 1, f =>
    match treeTurn c V node dir len f with
    | .stop r => (r, f.off)
    | .next f => treeFill c V node dir len fuel f

/-- What a call returns, and where it leaves the cursor. -/
def treeListing (c : Core) (V : View) (node off len : Nat) : Except Errno (List Dirent) × Nat :=
  match (V.live c node).map DiskNode.shown with
  | .error e => (.error (gfsErrno e), off)
  | .ok dir => treeFill c V node dir len (dir.edgeCount + 3) ⟨off, 0, []⟩

section Spec

variable {s s' : St} {tbl : Nat → Bp} {V : View} {leak : Multiset Nat}

/-- A reading call whose outcome is handed on: it is `r`, unless the device failed. -/
theorem wp_attemptRead {α β : Type} {p : GfsM α} {r : Except Err α} {f : Except Err α → GfsM β}
    {Q : Except Err β → St → Prop}
    (hp : Wp p (outcome (fun a s' => r = .ok a ∧ Idle s s') (Abort s fun e => r = .error e)) s)
    (hok : ∀ a s', r = .ok a → Idle s s' → Wp (f (.ok a)) Q s')
    (herr : ∀ e s', Safe s s' → s'.failed = true ∨ r = .error e → Wp (f (.error e)) Q s') :
    Wp (p.attempt >>= f) Q s := by
  refine Prog.wp_seq (P := fun a s' => ∃ x, a = .ok x ∧ outcome (fun a s' => r = .ok a ∧ Idle s s')
    (Abort s fun e => r = .error e) x s') (Prog.wp_attempt ?_) ?_ ?_
  · exact Prog.wp_mono hp fun x s' hx => ⟨x, rfl, hx⟩
  · rintro e s' ⟨x, hx, -⟩
    cases hx
  · rintro x s' ⟨y, hy, hpost⟩
    cases hy
    cases x with
    | ok a => exact hok a s' hpost.1 hpost.2
    | error e => exact herr e s' hpost.1 hpost.2

/-- The outcome of one turn. -/
def TurnDone (c : Core) (V : View) (node : Nat) (dir : Node) (len : Nat) (f : Fill) (s : St)
    (t : Turn) (s' : St) : Prop :=
  Safe s s' ∧ (s'.failed = true ∧ (∃ r, t = .stop r) ∨ t = treeTurn c V node dir len f ∧
    ((∃ r, t = .stop r) ∨ Idle s s'))

theorem wp_getdentsTurn {node len : Nat} {dir : Node} {f : Fill} (h : Committed s tbl V leak)
    (hlog : s.log = []) (hcount : V.Counted) :
    Wp (getdentsTurn node dir len f)
      (outcome (TurnDone s.core V node dir len f s) fun _ _ => False) s := by
  have hidle : Idle s s := ⟨rfl, rfl, rfl⟩
  have hsafe := hidle.safe hlog
  unfold getdentsTurn TurnDone treeTurn
  by_cases h0 : f.off = 0
  · simp only [if_pos h0]
    exact wp_pure ⟨hsafe, .inr ⟨rfl, .inr hidle⟩⟩
  by_cases h1 : f.off = 1
  · simp only [if_neg h0, if_pos h1]
    exact wp_pure ⟨hsafe, .inr ⟨rfl, .inr hidle⟩⟩
  by_cases h2 : f.off - 2 < dir.edgeCount
  · simp only [if_neg h0, if_neg h1, if_pos h2]
    refine wp_attemptRead (wp_gfsEdgeGet h hlog hcount) (fun edge s₁ hedge hi => ?_)
      fun e s₁ hs he => ?_
    · simp only [hedge]
      by_cases hname : edge.type ≠ edgeName
      · simp only [if_pos hname]
        exact wp_pure ⟨hi.safe hlog, .inr ⟨rfl, .inr hi⟩⟩
      · simp only [if_neg hname]
        have hread : Wp (gfsNodeGet edge.target) _ s₁ := wp_gfsNodeGet (h.idle hi) (hi.log.trans hlog)
        rw [hi.core] at hread
        refine wp_attemptRead hread (fun target s₂ htarget hi₂ => ?_)
          fun e s₂ hs he => ?_
        · have hi' : Idle s s₂ :=
            ⟨hi₂.core.trans hi.core, hi₂.disk.trans hi.disk, hi₂.log.trans hi.log⟩
          simp only [htarget]
          exact wp_pure ⟨hi'.safe hlog, .inr ⟨rfl, .inr hi'⟩⟩
        · refine wp_pure ⟨hs.of_idle hi, ?_⟩
          rcases he with hf | he
          · exact .inl ⟨hf, _, rfl⟩
          · simp only [he]
            exact .inr ⟨trivial, .inl ⟨_, rfl⟩⟩
    · refine wp_pure ⟨hs, ?_⟩
      rcases he with hf | he
      · exact .inl ⟨hf, _, rfl⟩
      · simp only [he]
        exact .inr ⟨trivial, .inl ⟨_, rfl⟩⟩
  · simp only [if_neg h0, if_neg h1, if_neg h2]
    exact wp_pure ⟨hsafe, .inr ⟨rfl, .inl ⟨_, rfl⟩⟩⟩

theorem wp_getdentsLoop (node : Nat) (dir : Node) (len fuel : Nat) (f : Fill)
    (h : Committed s tbl V leak) (hlog : s.log = []) (hcount : V.Counted) :
    Wp (getdentsLoop node dir len fuel f) (outcome (fun r s' => Safe s s' ∧
      (s'.failed = true ∨ r = treeFill s.core V node dir len fuel f)) fun _ _ => False) s := by
  induction fuel generalizing s f with
  | zero => exact wp_pure ⟨Safe.start hlog, .inr rfl⟩
  | succ fuel ih =>
    unfold getdentsLoop treeFill
    refine Wp.bind (wp_getdentsTurn h hlog hcount) ?_
    rintro t s₁ ⟨hsafe, hturn⟩
    cases t with
    | stop r =>
      refine wp_pure ⟨hsafe, ?_⟩
      rcases hturn with ⟨hf, -⟩ | ⟨ht, -⟩
      · exact .inl hf
      · rw [← ht]
        exact .inr rfl
    | next f' =>
      rcases hturn with ⟨-, r, hr⟩ | ⟨ht, hstop | hi⟩
      · cases hr
      · obtain ⟨r, hr⟩ := hstop
        cases hr
      · have hrest := ih f' (h.idle hi) (hi.log.trans hlog)
        rw [hi.core] at hrest
        rw [← ht]
        exact hrest.post fun r s₂ hr => ⟨hr.1.of_idle hi, hr.2⟩

/-- **A call answers from the tree** unless the device fails. -/
theorem wp_gfsfGetdents (node off len : Nat) (h : Committed s tbl V leak) (hlog : s.log = [])
    (hcount : V.Counted) :
    Wp (gfsfGetdents node off len) (outcome (fun r s' => Safe s s' ∧
      (s'.failed = true ∨ r = treeListing s.core V node off len)) fun _ _ => False) s := by
  unfold gfsfGetdents treeListing
  refine wp_attemptRead (wp_gfsNodeGet h hlog) (fun dir s₁ hdir hi => ?_) fun e s₁ hs he => ?_
  · have hloop := wp_getdentsLoop node dir len (dir.edgeCount + 3) ⟨off, 0, []⟩ (h.idle hi) (hi.log.trans hlog) hcount
    rw [hi.core] at hloop
    simp only [hdir]
    exact hloop.post fun r s₂ hr => ⟨hr.1.of_idle hi, hr.2⟩
  · refine wp_pure ⟨hs, he.imp_right fun he => ?_⟩
    simp only [he]

end Spec

/-! ## The records returned -/

/-- The record at a position of the cursor. -/
def recordAt (V : View) (node : Nat) : Nat → Option Dirent
  | 0 => some (dotEntry node)
  | 1 => some (dotdotEntry node (V.recs node).shown)
  | i + 2 =>
    match (V.edges node)[i]? with
    | some e => if e.type = edgeName then some (edgeEntry (i + 2) e (V.recs e.target).shown) else none
    | none => none

/-- The records from `off` on and before `off'`. -/
def records (V : View) (node off off' : Nat) : List Dirent :=
  (List.range' off (off' - off)).filterMap (recordAt V node)

/-- The bytes that records take. -/
def reclens (recs : List Dirent) : Nat := (recs.map fun d => reclen d.name).sum

/-- The names of the directory lead to allocated nodes, and its count of edges is right. -/
structure Readable (c : Core) (V : View) (node : Nat) : Prop where
  live : V.live c node = .ok (V.recs node)
  count : (V.recs node).edgeCount = (V.edges node).length
  targets : ∀ e ∈ V.edges node, e.type = edgeName → V.live c e.target = .ok (V.recs e.target)

variable {off : Nat}

variable {off' fuel : Nat}

section Records

variable {c : Core} {V : View} {node len : Nat} {f : Fill}

theorem records_self (V : View) (node off : Nat) : records V node off off = [] := by
  rw [records, Nat.sub_self]
  rfl

theorem records_cons (V : View) (node : Nat) (h : off < off') :
    records V node off off' = (recordAt V node off).toList ++ records V node (off + 1) off' := by
  unfold records
  rw [show off' - off = off' - (off + 1) + 1 by omega, range'_succ, filterMap_cons]
  cases recordAt V node off <;> rfl

theorem records_append (V : View) (node : Nat) {off'' : Nat} (h : off ≤ off') (h' : off' ≤ off'') :
    records V node off off' ++ records V node off' off'' = records V node off off'' := by
  have hrange : List.range' off (off' - off) ++ List.range' off' (off'' - off') =
      List.range' off (off'' - off) := by
    have happ := range'_append_1 (s := off) (m := off' - off) (n := off'' - off')
    rw [show off + (off' - off) = off' by omega,
      show off' - off + (off'' - off') = off'' - off by omega] at happ
    exact happ
  rw [records, records, records, ← hrange, filterMap_append]

theorem reclen_pos (name : List UInt8) : 0 < reclen name := by
  unfold reclen
  omega

theorem reclens_append (recs recs' : List Dirent) :
    reclens (recs ++ recs') = reclens recs + reclens recs' := by
  rw [reclens, map_append, sum_append, reclens, reclens]

theorem reclens_singleton (d : Dirent) : reclens [d] = reclen d.name := by
  rw [reclens, map_singleton, sum_singleton]

theorem reclens_eq_zero {recs : List Dirent} : reclens recs = 0 ↔ recs = [] := by
  refine ⟨fun h => ?_, fun h => by rw [h]; rfl⟩
  cases recs with
  | nil => rfl
  | cons d recs =>
    have hpos := reclen_pos d.name
    rw [← singleton_append, reclens_append, reclens_singleton] at h
    omega

theorem recordAt_end (h : (V.edges node).length + 2 ≤ off) : recordAt V node off = none := by
  obtain ⟨i, rfl⟩ : ∃ i, off = i + 2 := ⟨off - 2, by omega⟩
  rw [recordAt, getElem?_eq_none (by omega)]

/-- **One turn** puts the record at the cursor in the buffer, passes over an edge that has none, or
stops at the end. -/
theorem treeTurn_cases (len : Nat) (f : Fill) (h : Readable c V node) :
    (∃ d, recordAt V node f.off = some d ∧
      treeTurn c V node (V.recs node).shown len f = direntEmit len f d) ∨
    (recordAt V node f.off = none ∧ f.off < (V.edges node).length + 2 ∧
      treeTurn c V node (V.recs node).shown len f = .next { f with off := f.off + 1 }) ∨
    (V.edges node).length + 2 ≤ f.off ∧
      treeTurn c V node (V.recs node).shown len f = .stop (.ok f.recs) := by
  have hcount : (V.recs node).shown.edgeCount = (V.edges node).length := h.count
  unfold treeTurn
  match hoff : f.off with
  | 0 => exact .inl ⟨dotEntry node, rfl, rfl⟩
  | 1 => exact .inl ⟨dotdotEntry node (V.recs node).shown, rfl, rfl⟩
  | i + 2 =>
    rw [if_neg (by omega), if_neg (by omega), Nat.add_sub_cancel, hcount]
    by_cases hi : i < (V.edges node).length
    · have hget : V.edgeGet c node i = .ok (V.edges node)[i] := by
        unfold View.edgeGet
        rw [h.live, getElem?_eq_getElem hi]
        rfl
      rw [if_pos hi, hget]
      by_cases ht : (V.edges node)[i].type = edgeName
      · refine .inl ⟨edgeEntry (i + 2) (V.edges node)[i] (V.recs (V.edges node)[i].target).shown,
          ?_, ?_⟩
        · simp only [recordAt, getElem?_eq_getElem hi, if_pos ht]
        · simp only [h.targets _ (getElem_mem hi) ht, ht, ne_eq, not_true_eq_false, if_false]
          rfl
      · refine .inr (.inl ⟨?_, by omega, ?_⟩)
        · simp only [recordAt, getElem?_eq_getElem hi, if_neg ht]
        · simp only [ne_eq, ht, not_false_eq_true, if_true]
    · rw [if_neg hi]
      exact .inr (.inr ⟨by omega, rfl⟩)

/-- What the loop returns from `f` on. -/
structure Filled (V : View) (node len : Nat) (f : Fill) (r : Except Errno (List Dirent) × Nat) :
    Prop where
  le : f.off ≤ r.2
  ok : ∀ recs, r.1 = .ok recs → recs = f.recs ++ records V node f.off r.2 ∧ reclens recs ≤ len ∧
    ((V.edges node).length + 2 ≤ r.2 ∨
      recs ≠ [] ∧ ∃ d, recordAt V node r.2 = some d ∧ len < reclens recs + reclen d.name)
  error : ∀ e, r.1 = .error e → e = .einval ∧ f.recs = [] ∧ records V node f.off r.2 = [] ∧
    ∃ d, recordAt V node r.2 = some d ∧ len < reclen d.name

/-- The loop stops with what it has. -/
theorem Filled.stop (hle : reclens f.recs ≤ len) (h : (V.edges node).length + 2 ≤ f.off ∨
    f.recs ≠ [] ∧ ∃ d, recordAt V node f.off = some d ∧ len < reclens f.recs + reclen d.name) :
    Filled V node len f (.ok f.recs, f.off) := by
  refine ⟨le_rfl, fun recs hr => ?_, fun e he => nomatch he⟩
  cases hr
  exact ⟨by rw [records_self, append_nil], hle, h⟩

theorem treeFill_filled (h : Readable c V node) (hout : f.out = reclens f.recs) (hle : f.out ≤ len)
    (hfuel : (V.edges node).length + 2 < f.off + fuel) :
    Filled V node len f (treeFill c V node (V.recs node).shown len fuel f) := by
  induction fuel generalizing f with
  | zero => exact Filled.stop (hout ▸ hle) (.inl hfuel.le)
  | succ fuel ih =>
    unfold treeFill
    rcases treeTurn_cases len f h with ⟨d, hd, ht⟩ | ⟨hnone, -, ht⟩ | ⟨hend, ht⟩
    · rw [ht]
      unfold direntEmit
      by_cases hroom : len < f.out + reclen d.name
      · rw [if_pos hroom]
        by_cases h0 : f.out = 0
        · rw [if_pos h0]
          refine ⟨le_rfl, fun recs hr => (nomatch hr), fun e he => ?_⟩
          cases he
          exact ⟨rfl, reclens_eq_zero.mp (hout.symm.trans h0), records_self _ _ _, d, hd, by omega⟩
        · rw [if_neg h0]
          have hne : f.recs ≠ [] := fun hnil => h0 (hout.trans (reclens_eq_zero.mpr hnil))
          exact Filled.stop (hout ▸ hle) (.inr ⟨hne, d, hd, hout ▸ hroom⟩)
      · rw [if_neg hroom]
        have hrest := ih (f := ⟨f.off + 1, f.out + reclen d.name, f.recs ++ [d]⟩)
          (by simp only [reclens_append, reclens_singleton, hout]) (by simp only; omega)
          (by simp only; omega)
        have hlt : f.off < (treeFill c V node (V.recs node).shown len fuel
          ⟨f.off + 1, f.out + reclen d.name, f.recs ++ [d]⟩).2 := hrest.le
        refine ⟨hlt.le, fun recs hr => ?_, fun e he => ?_⟩
        · obtain ⟨hrecs, hrest⟩ := hrest.ok recs hr
          rw [records_cons _ _ hlt, hd]
          exact ⟨hrecs.trans (append_assoc _ _ _), hrest⟩
        · have hnil := (hrest.error e he).2.1
          simp at hnil
    · rw [ht]
      have hrest := ih (f := { f with off := f.off + 1 }) hout hle (by simp only; omega)
      have hlt : f.off < (treeFill c V node (V.recs node).shown len fuel
        { f with off := f.off + 1 }).2 := hrest.le
      have hcons := records_cons V node hlt
      rw [hnone, Option.toList_none, nil_append] at hcons
      refine ⟨hlt.le, fun recs hr => ?_, fun e he => ?_⟩
      · rw [hcons]
        exact hrest.ok recs hr
      · rw [hcons]
        exact hrest.error e he
    · rw [ht]
      exact Filled.stop (hout ▸ hle) (.inl hend)

/-- **A call returns the records between its cursors.** -/
theorem treeListing_filled (off len : Nat) (h : Readable c V node) :
    Filled V node len ⟨off, 0, []⟩ (treeListing c V node off len) := by
  have hlist : treeListing c V node off len =
      treeFill c V node (V.recs node).shown len ((V.recs node).edgeCount + 3) ⟨off, 0, []⟩ := by
    unfold treeListing
    rw [h.live]
    rfl
  rw [hlist]
  exact treeFill_filled h rfl (Nat.zero_le len) (by rw [h.count]; simp only; omega)

end Records

/-! ## The names returned -/

/-- The name of the entry at a position of the cursor. -/
def entry (es : List Edge) : Nat → Option (List UInt8)
  | 0 => some [46]
  | 1 => some [46, 46]
  | i + 2 =>
    match es[i]? with
    | some e => if e.type = edgeName then some (cname e) else none
    | none => none

/-- The names of the entries from `off` on and before `off'`. -/
def entries (es : List Edge) (off off' : Nat) : List (List UInt8) :=
  (List.range' off (off' - off)).filterMap (entry es)

/-- The names that a call returned. -/
def names : Except Errno (List Dirent) → List (List UInt8)
  | .ok recs => recs.map Dirent.name
  | .error _ => []

section Names

variable {c : Core} {V : View} {node len : Nat} {f : Fill} {es : List Edge}

theorem entries_self (es : List Edge) (off : Nat) : entries es off off = [] := by
  rw [entries, Nat.sub_self]
  rfl

theorem entry_eq (V : View) (node off : Nat) :
    entry (V.edges node) off = (recordAt V node off).map Dirent.name := by
  match off with
  | 0 => rfl
  | 1 => rfl
  | i + 2 =>
    rw [entry, recordAt]
    cases (V.edges node)[i]? with
    | none => rfl
    | some e =>
      by_cases ht : e.type = edgeName
      · simp only [if_pos ht]
        rfl
      · simp only [if_neg ht]
        rfl

theorem entries_eq (V : View) (node off off' : Nat) :
    entries (V.edges node) off off' = (records V node off off').map Dirent.name := by
  rw [entries, records, map_filterMap]
  exact congrArg (List.filterMap · _) (funext fun k => entry_eq V node k)

/-- A turn that puts an entry in the buffer. -/
theorem treeFill_emit {name : List UInt8} (fuel : Nat) (f : Fill) (h : Readable c V node)
    (hname : entry (V.edges node) f.off = some name) (hroom : f.out + reclen name ≤ len) :
    ∃ d : Dirent, d.name = name ∧
      treeFill c V node (V.recs node).shown len (fuel + 1) f =
        treeFill c V node (V.recs node).shown len fuel
          ⟨f.off + 1, f.out + reclen name, f.recs ++ [d]⟩ := by
  rw [entry_eq, Option.map_eq_some_iff] at hname
  obtain ⟨d, hd, rfl⟩ := hname
  rcases treeTurn_cases len f h with ⟨d', hd', ht⟩ | ⟨hnone, -⟩ | ⟨hend, ht⟩
  · obtain rfl : d' = d := Option.some.inj (hd'.symm.trans hd)
    refine ⟨d', rfl, ?_⟩
    rw [treeFill, ht, direntEmit, if_neg (by omega)]
  · rw [hd] at hnone
    cases hnone
  · rw [recordAt_end hend] at hd
    cases hd

/-- The loop stops at the end, and when the next entry does not fit behind others. -/
theorem treeFill_stop (h : Readable c V node)
    (hstop : (V.edges node).length + 2 ≤ f.off ∨ 0 < f.out ∧ ∃ name,
      entry (V.edges node) f.off = some name ∧ len < f.out + reclen name) :
    treeFill c V node (V.recs node).shown len fuel f = (.ok f.recs, f.off) := by
  cases fuel with
  | zero => rfl
  | succ fuel =>
    unfold treeFill
    rcases treeTurn_cases len f h with ⟨d, hd, ht⟩ | ⟨hnone, hlt, -⟩ | ⟨-, ht⟩
    · rcases hstop with hle | ⟨hpos, name, hname, hroom⟩
      · rw [recordAt_end hle] at hd
        cases hd
      · rw [entry_eq, hd] at hname
        cases hname
        rw [ht, direntEmit, if_pos hroom, if_neg (by omega)]
    · rcases hstop with hle | ⟨-, name, hname, -⟩
      · omega
      · rw [entry_eq, hnone] at hname
        cases hname
    · rw [ht]

/-- **A call returns the names between its cursors**, and nothing only at the end. -/
theorem treeListing_names (off len : Nat) (h : Readable c V node) :
    off ≤ (treeListing c V node off len).2 ∧
      names (treeListing c V node off len).1 =
        entries (V.edges node) off (treeListing c V node off len).2 ∧
      ((treeListing c V node off len).1 = .ok [] →
        (V.edges node).length + 2 ≤ (treeListing c V node off len).2) := by
  have hfill := treeListing_filled off len h
  refine ⟨hfill.le, ?_, fun hr => ?_⟩
  · rw [entries_eq]
    cases hr : (treeListing c V node off len).1 with
    | ok recs => exact congrArg (List.map Dirent.name) (hfill.ok recs hr).1
    | error e => rw [(hfill.error e hr).2.2.1]; rfl
  · exact (hfill.ok [] hr).2.2.resolve_right fun hne => hne.1 rfl

end Names

end Hallucinate.Vfs
