import Hallucinate.Vfs.Enumerate

/-!
# The records of a directory as bytes

What `gfsf_getdents` puts in the caller's buffer is read back by a parser for `struct dirent64`. A
directory is read by a sequence of calls with buffers of any length; in between the file system may
change, but not the directory (`Unchanged`).

* `parseDirents_dirent64`: records of any fields that fit in their widths are read back.
* `listing`: the records of a directory as they should be: `.`, `..`, and the NAME edges by index.
* `reply`: what a call with a buffer of `len` bytes owes, given the records that are left.
  **`treeListing_reply`**: the call gives that, and leaves the cursor at the records left.
* **`getdents_complete`**: so the bytes returned by any sequence of calls parse to the first records of
  the listing, and to the whole listing once a call has returned 0.
-/

namespace Hallucinate.Vfs

open Lib Gfs List

/-! ## Records as bytes -/

/-- The record that `dirent_emit` builds: the header, the name with its zero, and zeros up to a
multiple of eight. -/
def dirent64 (d : Dirent) : List UInt8 :=
  leBytes 8 d.ino ++ (leBytes 8 d.off ++ (leBytes 2 (reclen d.name) ++ (leBytes 1 d.type ++
    (d.name ++ 0 :: List.replicate (reclen d.name - 19 - d.name.length - 1) 0))))

/-- The record at the start of a buffer and the bytes after it, as a caller of `getdents64` reads it:
its length is a multiple of eight, and its name ends inside it. -/
def parseDirent (bs : List UInt8) : Option (Dirent × List UInt8) :=
  let len := leNat ((bs.drop 16).take 2)
  let text := (bs.take len).drop 19
  if 8 ∣ len ∧ len ≤ bs.length ∧ 0 ∈ text then
    some (⟨leNat (bs.take 8), leNat ((bs.drop 8).take 8), leNat ((bs.drop 18).take 1),
      text.takeWhile (· ≠ 0)⟩, bs.drop len)
  else none

variable {d : Dirent}

theorem parseDirent_length {bs rest : List UInt8} (h : parseDirent bs = some (d, rest)) :
    rest.length < bs.length := by
  unfold parseDirent at h
  dsimp only at h
  split at h
  · rename_i hok
    cases h
    have hpos := length_pos_of_mem hok.2.2
    rw [length_drop, length_take] at hpos
    rw [length_drop]
    omega
  · cases h

/-- All the records of a buffer. -/
def parseDirents (bs : List UInt8) : Option (List Dirent) :=
  if bs = [] then some []
  else match h : parseDirent bs with
    | none => none
    | some (d, rest) => (parseDirents rest).map (d :: ·)
termination_by bs.length
decreasing_by exact parseDirent_length h

/-- A record whose fields are not cut by their widths. -/
structure Dirent.Fits (d : Dirent) : Prop where
  ino : d.ino < 2 ^ 64
  off : d.off < 2 ^ 63
  type : d.type < 2 ^ 8
  noNul : 0 ∉ d.name
  name : d.name.length ≤ 255

/-- The record stays in the array `rec` of `dirent_emit`. -/
theorem reclen_le {name : List UInt8} (h : name.length ≤ 255) : reclen name ≤ 19 + 255 + 1 + 7 := by
  unfold reclen
  omega

theorem reclen_ge (name : List UInt8) : 19 + name.length + 1 ≤ reclen name := by
  unfold reclen
  omega

theorem dirent64_length (d : Dirent) : (dirent64 d).length = reclen d.name := by
  have hge := reclen_ge d.name
  simp only [dirent64, length_append, leBytes_length, length_cons, length_replicate]
  omega

/-- **A record reads back.** -/
theorem parseDirent_dirent64 (h : d.Fits) (bs : List UInt8) :
    parseDirent (dirent64 d ++ bs) = some (d, bs) := by
  have hlen := dirent64_length d
  have hle := reclen_le h.name
  generalize hpad : List.replicate (reclen d.name - 19 - d.name.length - 1) (0 : UInt8) = pad
  have hrec : dirent64 d = leBytes 8 d.ino ++ (leBytes 8 d.off ++ (leBytes 2 (reclen d.name) ++
      (leBytes 1 d.type ++ (d.name ++ 0 :: pad)))) := by rw [← hpad]; rfl
  have h8 : (dirent64 d ++ bs).take 8 = leBytes 8 d.ino := by
    rw [hrec, append_assoc]
    exact take_left' (leBytes_length 8 _)
  have hd8 : (dirent64 d ++ bs).drop 8 = leBytes 8 d.off ++ (leBytes 2 (reclen d.name) ++
      (leBytes 1 d.type ++ (d.name ++ 0 :: pad))) ++ bs := by
    rw [hrec, append_assoc]
    exact drop_left' (leBytes_length 8 _)
  have hd16 : (dirent64 d ++ bs).drop 16 = leBytes 2 (reclen d.name) ++
      (leBytes 1 d.type ++ (d.name ++ 0 :: pad)) ++ bs := by
    rw [show 16 = 8 + 8 from rfl, ← drop_drop, hd8, append_assoc]
    exact drop_left' (leBytes_length 8 _)
  have hd18 : (dirent64 d ++ bs).drop 18 = leBytes 1 d.type ++ (d.name ++ 0 :: pad) ++ bs := by
    rw [show 18 = 16 + 2 from rfl, ← drop_drop, hd16, append_assoc]
    exact drop_left' (leBytes_length 2 _)
  have htext : (dirent64 d).drop 19 = d.name ++ 0 :: pad := by
    have happ : dirent64 d = (leBytes 8 d.ino ++ leBytes 8 d.off ++ leBytes 2 (reclen d.name) ++
        leBytes 1 d.type) ++ (d.name ++ 0 :: pad) := by
      rw [hrec]
      simp only [append_assoc]
    rw [happ]
    exact drop_left' (by simp only [length_append, leBytes_length])
  have hreclen : leNat (((dirent64 d ++ bs).drop 16).take 2) = reclen d.name := by
    rw [hd16, append_assoc, take_left' (leBytes_length 2 _), leNat_leBytes]
    exact Nat.mod_eq_of_lt (by omega)
  unfold parseDirent
  simp only [hreclen]
  rw [take_left' hlen, drop_left' hlen, htext, h8, hd8, hd18]
  have hzero : (0 : UInt8) ∈ d.name ++ 0 :: pad := mem_append_right _ mem_cons_self
  have hdvd : 8 ∣ reclen d.name := ⟨_, Nat.mul_comm _ 8⟩
  rw [if_pos ⟨hdvd, by rw [length_append]; omega, hzero⟩]
  have hname : (d.name ++ 0 :: pad).takeWhile (· ≠ 0) = d.name := by
    rw [takeWhile_append_of_pos fun b hb => ?_]
    · rw [takeWhile_cons_of_neg (by decide), append_nil]
    · have hne : b ≠ 0 := fun he => h.noNul (he ▸ hb)
      simpa using hne
  have hino : d.ino < 256 ^ 8 := lt_of_lt_of_le h.ino (by decide)
  have hoff : d.off < 256 ^ 8 := lt_of_lt_of_le h.off (by decide)
  have htype : d.type < 256 ^ 1 := lt_of_lt_of_le h.type (by decide)
  rw [append_assoc, take_left' (leBytes_length 8 _), append_assoc,
    take_left' (leBytes_length 1 _), leNat_leBytes, leNat_leBytes, leNat_leBytes,
    Nat.mod_eq_of_lt hino, Nat.mod_eq_of_lt hoff, Nat.mod_eq_of_lt htype, hname]

variable {recs : List Dirent}

/-- **Records read back.** -/
theorem parseDirents_dirent64 (h : ∀ d ∈ recs, d.Fits) :
    parseDirents (recs.flatMap dirent64) = some recs := by
  induction recs with
  | nil =>
    rw [flatMap_nil, parseDirents, if_pos rfl]
  | cons d recs ih =>
    have hne : dirent64 d ++ recs.flatMap dirent64 ≠ [] := by
      have hlen := dirent64_length d
      have hpos := reclen_pos d.name
      intro hnil
      rw [(append_eq_nil_iff.mp hnil).1, length_nil] at hlen
      omega
    rw [flatMap_cons, parseDirents, if_neg hne]
    split
    · rename_i hnone
      rw [parseDirent_dirent64 (h d mem_cons_self)] at hnone
      cases hnone
    · rename_i d' rest hsome
      rw [parseDirent_dirent64 (h d mem_cons_self)] at hsome
      cases hsome
      rw [ih fun d' hd' => h d' (mem_cons_of_mem d hd')]
      rfl

/-! ## What a directory lists -/

/-- The records of a directory: `.`, `..` with the parent's id, and each NAME edge in the order of the
edges, with the cursor behind it. -/
def listing (V : View) (node : Nat) : List Dirent :=
  ⟨node, 1, dtDir, [46]⟩ ::
  ⟨if (V.recs node).parent ≠ 0 then (V.recs node).parent else node, 2, dtDir, [46, 46]⟩ ::
    (V.edges node).zipIdx.filterMap fun (e, i) =>
      if e.type = edgeName then
        some ⟨e.target, i + 3, if (V.recs e.target).type = nodeNamespace then dtDir else dtReg, e.name⟩
      else none

/-- The records from `off` on. -/
def remaining (V : View) (node off : Nat) : List Dirent :=
  records V node off ((V.edges node).length + 2)

/-- The longest run of records at the front that fits in `len` bytes. -/
def fit : Nat → List Dirent → List Dirent
  | _, [] => []
  | len, d :: rest => if len < reclen d.name then [] else d :: fit (len - reclen d.name) rest

/-- What a call with a buffer of `len` bytes owes when `rest` is left. -/
def reply (len : Nat) (rest : List Dirent) : Except Errno (List Dirent) :=
  if rest = [] then .ok []
  else if fit len rest = [] then .error .einval
  else .ok (fit len rest)

/-- The records that a call returned. -/
def given : Except Errno (List Dirent) → List Dirent
  | .ok recs => recs
  | .error _ => []

variable {rest : List Dirent}

section Listing

variable {c : Core} {V V₀ : View} {node len off off' : Nat}

theorem remaining_end (h : (V.edges node).length + 2 ≤ off) : remaining V node off = [] := by
  rw [remaining, records, Nat.sub_eq_zero_of_le h]
  rfl

theorem remaining_cons (h : recordAt V node off = some d) :
    remaining V node off = d :: remaining V node (off + 1) := by
  have hlt : off < (V.edges node).length + 2 := by
    by_contra hn
    rw [recordAt_end (Nat.le_of_not_lt hn)] at h
    cases h
  rw [remaining, records_cons V node hlt, h]
  rfl

/-- **The records between two cursors and those after the second.** -/
theorem remaining_split (h : off ≤ off') :
    remaining V node off = records V node off off' ++ remaining V node off' := by
  by_cases hend : off' ≤ (V.edges node).length + 2
  · exact (records_append V node h hend).symm
  · have hend := Nat.le_of_not_le hend
    rw [remaining_end hend, append_nil]
    by_cases hoff : off ≤ (V.edges node).length + 2
    · have hnone : records V node ((V.edges node).length + 2) off' = [] := by
        rw [records, filterMap_eq_nil_iff]
        intro k hk
        exact recordAt_end (mem_range'_1.mp hk).1
      rw [← records_append V node hoff hend, hnone, append_nil, remaining]
    · have hoff := Nat.le_of_not_le hoff
      rw [remaining_end hoff, records, eq_comm, filterMap_eq_nil_iff]
      intro k hk
      exact recordAt_end (hoff.trans (mem_range'_1.mp hk).1)

/-- Records that fit, before one that does not fit any more. -/
theorem fit_append (hle : reclens recs ≤ len)
    (hrest : ∀ d ∈ rest.head?, len < reclens recs + reclen d.name) :
    fit len (recs ++ rest) = recs := by
  induction recs generalizing len with
  | nil =>
    cases rest with
    | nil => rfl
    | cons d rest =>
      have hlt := hrest d rfl
      rw [nil_append, fit, if_pos (by rw [reclens, map_nil, sum_nil] at hlt; omega)]
  | cons d recs ih =>
    rw [← singleton_append, reclens_append, reclens_singleton] at hle hrest
    rw [cons_append, fit, if_neg (by omega), ih (by omega) fun d' hd' => ?_]
    have := hrest d' hd'
    omega

/-- **A call gives what it owes**, and leaves the cursor at what is left. -/
theorem treeListing_reply (off len : Nat) (h : Readable c V node) :
    (treeListing c V node off len).1 = reply len (remaining V node off) ∧
      remaining V node off = given (treeListing c V node off len).1 ++
        remaining V node (treeListing c V node off len).2 := by
  have hfill := treeListing_filled off len h
  generalize treeListing c V node off len = r at hfill
  obtain ⟨r, off'⟩ := r
  have hsplit : remaining V node off = records V node off off' ++ remaining V node off' :=
    remaining_split hfill.le
  cases r with
  | error e =>
    obtain ⟨rfl, -, hnone, d, hd, hlt⟩ := hfill.error e rfl
    rw [show records V node off off' = [] from hnone, nil_append] at hsplit
    refine ⟨?_, hsplit⟩
    rw [hsplit, remaining_cons hd, reply, if_neg (cons_ne_nil _ _), fit, if_pos hlt, if_pos rfl]
  | ok recs =>
    obtain ⟨hrecs, hle, hstop⟩ := hfill.ok recs rfl
    rw [show records V node off off' = recs from hrecs.symm] at hsplit
    refine ⟨?_, hsplit⟩
    have hfit : fit len (remaining V node off) = recs := by
      rw [hsplit]
      refine fit_append hle fun d hd => ?_
      rcases hstop with hend | ⟨-, d', hd', hlt⟩
      · rw [show remaining V node off' = [] from remaining_end hend] at hd
        cases hd
      · rw [show remaining V node off' = _ from remaining_cons hd'] at hd
        cases hd
        exact hlt
    unfold reply
    rw [hfit]
    by_cases hnil : recs = []
    · have hend := hstop.resolve_right fun hne => hne.1 hnil
      rw [if_pos (by rw [hsplit, hnil, show remaining V node off' = [] from remaining_end hend]; rfl),
        hnil]
    · rw [if_neg (by rw [hsplit]; exact append_ne_nil_of_left_ne_nil hnil _), if_neg hnil]

/-- A list with its indices, by a function of the index. -/
theorem filterMap_zipIdx {α β : Type} {f : α × Nat → Option β} {g : Nat → Option β} {l : List α}
    {k n : Nat} (h : ∀ i a, l[i]? = some a → g (k + i) = f (a, n + i)) :
    (List.range' k l.length).filterMap g = (l.zipIdx n).filterMap f := by
  induction l generalizing k n with
  | nil => rfl
  | cons a l ih =>
    have hrest := ih (k := k + 1) (n := n + 1) fun i b hb => by
      rw [Nat.add_assoc, Nat.add_comm 1 i, Nat.add_assoc, Nat.add_comm 1 i]
      exact h (i + 1) b (by rw [getElem?_cons_succ]; exact hb)
    have hhead := h 0 a rfl
    rw [Nat.add_zero, Nat.add_zero] at hhead
    rw [length_cons, range'_succ, zipIdx_cons, filterMap_cons,
      filterMap_cons, hhead, hrest]

/-- **The records of a directory are its listing.** -/
theorem remaining_zero (h : ∀ e ∈ V.edges node, 0 ∉ e.name) : remaining V node 0 = listing V node := by
  have htail : remaining V node 2 = (V.edges node).zipIdx.filterMap fun (e, i) =>
      if e.type = edgeName then
        some ⟨e.target, i + 3, if (V.recs e.target).type = nodeNamespace then dtDir else dtReg, e.name⟩
      else none := by
    rw [remaining, records, Nat.add_sub_cancel]
    refine filterMap_zipIdx fun i e he => ?_
    rw [Nat.add_comm 2 i, recordAt, he, Nat.zero_add]
    by_cases ht : e.type = edgeName
    · simp only [if_pos ht]
      rw [edgeEntry, cname_eq (h e (mem_of_getElem? he))]
      rfl
    · simp only [if_neg ht]
  have hdot : recordAt V node 0 = some (dotEntry node) := rfl
  have hup : recordAt V node 1 = some (dotdotEntry node (V.recs node).shown) := rfl
  rw [remaining_cons hdot, remaining_cons hup, htail]
  rfl

/-- The directory is the same in two trees: its edges, its parent, and what kind of node each of its
names leads to. -/
structure Unchanged (V₀ V : View) (node : Nat) : Prop where
  edges : V.edges node = V₀.edges node
  parent : (V.recs node).parent = (V₀.recs node).parent
  kinds : ∀ e ∈ V₀.edges node, e.type = edgeName →
    ((V.recs e.target).type = nodeNamespace ↔ (V₀.recs e.target).type = nodeNamespace)

theorem Unchanged.recordAt (h : Unchanged V₀ V node) (off : Nat) :
    Vfs.recordAt V node off = Vfs.recordAt V₀ node off := by
  match off with
  | 0 => rfl
  | 1 =>
    have hp : (V.recs node).shown.parent = (V₀.recs node).shown.parent := h.parent
    simp only [Vfs.recordAt, dotdotEntry, hp]
  | i + 2 =>
    rw [Vfs.recordAt, Vfs.recordAt, h.edges]
    cases he : (V₀.edges node)[i]? with
    | none => rfl
    | some e =>
      by_cases ht : e.type = edgeName
      · have hk : (V.recs e.target).shown.type = nodeNamespace ↔
            (V₀.recs e.target).shown.type = nodeNamespace :=
          h.kinds e (mem_of_getElem? he) ht
        simp only [if_pos ht, edgeEntry, hk]
      · simp only [if_neg ht]

theorem Unchanged.remaining (h : Unchanged V₀ V node) (off : Nat) :
    Vfs.remaining V node off = Vfs.remaining V₀ node off := by
  rw [Vfs.remaining, Vfs.remaining, records, records, h.edges]
  exact congrArg (List.filterMap · _) (funext h.recordAt)

end Listing

/-! ## Sequences of calls -/

/-- One call on a working device, with the length of its buffer and what it returned, in a state whose
directory is as in `V₀`; the state is the cursor. -/
def Reads (V₀ : View) (node off : Nat) (l : Nat × Except Errno (List Dirent)) (off' : Nat) : Prop :=
  ∃ s V s', Listable s V ∧ Unchanged V₀ V node ∧ (V.recs node).type = nodeNamespace ∧
    call (gfsfGetdents node off l.1) (fun _ => false) s = some (.ok (l.2, off'), s')

/-- The bytes that calls put in their buffers, one after the other. -/
def returned (calls : List (Nat × Except Errno (List Dirent))) : List UInt8 :=
  calls.flatMap fun l => (given l.2).flatMap dirent64

/-- The records of the calls so far. -/
def givens (calls : List (Nat × Except Errno (List Dirent))) : List Dirent :=
  calls.flatMap fun l => given l.2

section Calls

variable {s : St} {V V₀ : View} {node off off' : Nat} {l : Nat × Except Errno (List Dirent)}
  {calls : List (Nat × Except Errno (List Dirent))}

theorem returned_eq (calls : List (Nat × Except Errno (List Dirent))) :
    returned calls = (givens calls).flatMap dirent64 := by
  rw [returned, givens, flatMap_assoc]

theorem givens_append (pre post : List (Nat × Except Errno (List Dirent))) :
    givens (pre ++ post) = givens pre ++ givens post := flatMap_append

/-- **One call.** -/
theorem Reads.reply (h : Reads V₀ node off l off') :
    l.2 = Vfs.reply l.1 (remaining V₀ node off) ∧
      remaining V₀ node off = given l.2 ++ remaining V₀ node off' := by
  obtain ⟨s, V, s', hl, hsame, hns, hrun⟩ := h
  have hlive : (V.graph node).type ≠ nodeFree := by
    show (V.recs node).type ≠ nodeFree
    rw [hns]
    decide
  obtain ⟨-, -, hr⟩ := getdents_quiet hl.tidy hrun (run_quiet rfl hrun)
  have hreply := treeListing_reply off l.1 (hl.readable hlive)
  rw [← hr, hsame.remaining, hsame.remaining] at hreply
  exact hreply

/-- Every call of a sequence gives what it owes. -/
structure Steady (V : View) (node : Nat) (calls : List (Nat × Except Errno (List Dirent)))
    (off : Nat) : Prop where
  split : remaining V node 0 = givens calls ++ remaining V node off
  each : ∀ pre len r post, calls = pre ++ (len, r) :: post →
    ∃ rest, remaining V node 0 = givens pre ++ rest ∧ r = reply len rest

theorem steady_of_run (h : Run (Reads V node) 0 calls off) : Steady V node calls off := by
  refine Run.invariant (P := Steady V node) ⟨rfl, fun pre len r post hnil => ?_⟩ ?_ h
  · simp at hnil
  · intro calls off l off' hsteady hstep
    obtain ⟨hreply, hrest⟩ := hstep.reply
    refine ⟨?_, fun pre len r post hsplit => ?_⟩
    · rw [hsteady.split, hrest, givens_append, append_assoc]
      simp [givens]
    · rcases eq_nil_or_concat post with rfl | ⟨post', last, rfl⟩
      · obtain ⟨rfl, hl⟩ := append_inj' hsplit rfl
        cases hl
        exact ⟨_, hsteady.split, hreply⟩
      · have happ : calls ++ [l] = (pre ++ (len, r) :: post') ++ [last] := by
          rw [hsplit]
          simp
        exact hsteady.each pre len r post' (append_inj' happ rfl).1

theorem reply_ok_nil {len : Nat} (h : reply len rest = .ok []) : rest = [] := by
  by_contra hne
  unfold reply at h
  rw [if_neg hne] at h
  split at h
  · cases h
  · rename_i hfit
    exact hfit (Except.ok.inj h)

theorem reply_error {len : Nat} {e : Errno} (h : reply len rest = .error e) :
    e = .einval ∧ ∃ d rest', rest = d :: rest' ∧ len < reclen d.name := by
  unfold reply at h
  cases rest with
  | nil => cases h
  | cons d rest =>
    rw [if_neg (cons_ne_nil d rest)] at h
    by_cases hlt : len < reclen d.name
    · rw [fit, if_pos hlt, if_pos rfl] at h
      cases h
      exact ⟨rfl, d, rest, rfl, hlt⟩
    · rw [fit, if_neg hlt, if_neg (cons_ne_nil _ _)] at h
      cases h

/-- A call that returns 0 has left nothing. -/
theorem Steady.complete (h : Steady V node calls off) {len : Nat} (hend : (len, .ok []) ∈ calls) :
    givens calls = remaining V node 0 := by
  obtain ⟨pre, post, rfl⟩ := append_of_mem hend
  obtain ⟨rest, hrest, hreply⟩ := h.each pre len (.ok []) post rfl
  rw [reply_ok_nil hreply.symm, append_nil] at hrest
  have hsplit := h.split
  rw [givens_append, hrest, append_assoc] at hsplit
  have hnil := self_eq_append_right.mp hsplit
  rw [givens_append, (append_eq_nil_iff.mp hnil).1, append_nil, hrest]

/-- The records of a listing keep to the widths of their fields. -/
theorem Listable.fits (h : Listable s V) (hns : (V.recs node).type = nodeNamespace) :
    ∀ d ∈ listing V node, d.Fits := by
  obtain ⟨tbl, leak, hc⟩ := h.tidy.shown
  have hnode := hc.view.node node
  have hvalid : node < s.core.nodeCount := by
    by_contra hn
    rw [(hc.view.outside node (.inr (Nat.le_of_not_lt hn))).1] at hns
    cases hns
  have hid : node < 2 ^ 64 := by
    have := hc.geom.nodes.2
    omega
  have hdots : ∀ (ino off : Nat) (name : List UInt8), ino < 2 ^ 64 → off < 2 ^ 63 → 0 ∉ name →
      name.length ≤ 255 → Dirent.Fits ⟨ino, off, dtDir, name⟩ := fun _ _ _ hino hoff hnul hlen =>
    ⟨hino, hoff, (by decide : dtDir < 2 ^ 8), hnul, hlen⟩
  intro d hd
  rcases mem_cons.mp hd with rfl | hd
  · exact hdots _ _ _ hid (by decide) (by decide) (by decide)
  rcases mem_cons.mp hd with rfl | hd
  · refine hdots _ _ _ ?_ (by decide) (by decide) (by decide)
    show (if (V.recs node).parent ≠ 0 then (V.recs node).parent else node) < 2 ^ 64
    split
    · exact hnode.fits.parent
    · exact hid
  · obtain ⟨⟨e, i⟩, hmem, hsome⟩ := mem_filterMap.mp hd
    dsimp only at hsome
    split at hsome
    · cases hsome
      have he : e ∈ V.edges node := fst_mem_of_mem_zipIdx hmem
      have hi : i < (V.edges node).length := snd_lt_of_mem_zipIdx hmem
      have hfits : e.Fits := hnode.chain.edges_fit e he
      have hcount := h.tidy.counted node
      refine ⟨hfits.target, ?_, ?_, h.clean node e (Multiset.mem_coe.mpr he), hfits.name⟩
      · show i + 3 < 2 ^ 63
        have hlen : (V.edges node).length < 2 ^ 32 := hcount
        omega
      · show (if (V.recs e.target).type = nodeNamespace then dtDir else dtReg) < 2 ^ 8
        split <;> decide
    · cases hsome

/-- **Directory records are complete and do not depend on the buffers**: the bytes returned parse to
the first records of the listing, to all of them once a call has returned 0, and every call gives the
records that fit. A call fails only if the next record does not fit in its buffer, and that record
stays the next one; after the end every call returns 0. -/
theorem getdents_complete (h : Listable s V) (hns : (V.recs node).type = nodeNamespace)
    (hrun : Run (Reads V node) 0 calls off) :
    (∃ recs, parseDirents (returned calls) = some recs ∧ recs <+: listing V node ∧
      ∀ len, (len, .ok []) ∈ calls → recs = listing V node) ∧
    ∀ pre len r post, calls = pre ++ (len, r) :: post →
      ∃ done rest, parseDirents (returned pre) = some done ∧ listing V node = done ++ rest ∧
        r = reply len rest ∧
        (∀ e, r = .error e → e = .einval ∧ ∃ d rest', rest = d :: rest' ∧ len < reclen d.name) ∧
        ∀ len', (len', .ok []) ∈ pre → r = .ok [] := by
  have hsteady := steady_of_run hrun
  have hall : remaining V node 0 = listing V node :=
    remaining_zero fun e he => h.clean node e (Multiset.mem_coe.mpr he)
  have hparse : ∀ cs rest, remaining V node 0 = givens cs ++ rest →
      parseDirents (returned cs) = some (givens cs) := by
    intro cs rest hcs
    rw [returned_eq]
    refine parseDirents_dirent64 fun d hd => h.fits hns d ?_
    rw [← hall, hcs]
    exact mem_append_left rest hd
  refine ⟨⟨givens calls, hparse calls _ hsteady.split, ⟨_, hall ▸ hsteady.split.symm⟩,
    fun len hend => (hsteady.complete hend).trans hall⟩, fun pre len r post hcalls => ?_⟩
  obtain ⟨rest, hrest, rfl⟩ := hsteady.each pre len r post hcalls
  refine ⟨givens pre, rest, hparse pre rest hrest, hall ▸ hrest, rfl, fun e he => reply_error he,
    fun len' hend => ?_⟩
  -- a call before this one has returned 0, so nothing is left
  obtain ⟨pre', post', rfl⟩ := append_of_mem hend
  obtain ⟨rest', hrest', hreply⟩ := hsteady.each pre' len' (.ok []) (post' ++ (len, reply len rest) :: post)
    (by rw [hcalls]; simp)
  rw [reply_ok_nil hreply.symm, append_nil] at hrest'
  rw [givens_append, hrest', append_assoc] at hrest
  have hnil := self_eq_append_right.mp hrest
  rw [(append_eq_nil_iff.mp hnil).2]
  rfl

/-- A directory can be read with buffers of any lengths. -/
theorem exists_reads (h : Listable s V) (hns : (V.recs node).type = nodeNamespace) (lens : List Nat) :
    ∃ calls off, calls.map Prod.fst = lens ∧ Run (Reads V node) 0 calls off := by
  induction lens using List.reverseRecOn with
  | nil => exact ⟨[], 0, rfl, Run.nil⟩
  | append_singleton lens len ih =>
    obtain ⟨calls, off, hlens, hrun⟩ := ih
    obtain ⟨tbl, leak, hc⟩ := h.tidy.shown
    obtain ⟨r, s', hcall, hpost⟩ := Prog.run_of_wp
      (wp_gfsfGetdents node off len hc.fresh rfl h.tidy.counted) fun _ => false
    cases r with
    | error e => exact hpost.elim
    | ok r =>
      have hstep : Reads V node off (len, r.1) r.2 :=
        ⟨s, V, s', h, ⟨rfl, rfl, fun _ _ _ => Iff.rfl⟩, hns, hcall⟩
      exact ⟨calls ++ [(len, r.1)], r.2, by rw [map_append, hlens]; rfl, hrun.snoc hstep⟩

/-- The root of a file system with one directory, read with buffers of 24, 10 and 100 bytes. -/
theorem getdents_complete_oneDir : ∃ s V calls off, Listable s V ∧ OneDir V.graph [100] ∧
    (V.recs 1).type = nodeNamespace ∧ calls.map Prod.fst = [24, 10, 100] ∧
    Run (Reads V 1) 0 calls off ∧
    ∃ recs, parseDirents (returned calls) = some recs ∧ recs <+: listing V 1 := by
  obtain ⟨-, s, tbl, V, -, -, hst, hl⟩ := exists_listable
  have hone := hst.oneDir
  have hns : (V.recs 1).type = nodeNamespace := congrArg Vertex.type hone.root
  obtain ⟨calls, off, hlens, hrun⟩ := exists_reads hl hns [24, 10, 100]
  obtain ⟨⟨recs, hparse, hpre, -⟩, -⟩ := getdents_complete hl hns hrun
  exact ⟨s, V, calls, off, hl, hone, hns, hlens, hrun, recs, hparse, hpre⟩

end Calls

end Hallucinate.Vfs
