import Hallucinate.Gfs.OpSpec

/-!
# What `gfs_rename` does to the tree

The old directory loses the edge, a node that the new name referred to loses a link, the new
directory gets the edge, and a namespace that moves gets its new parent (`View.Renamed`). The two
directories may be one, and the node that moves may be one of them: a record written early is then
replaced by the directory's own record, which is written last.

`UpTo` is what the walk from the new directory to the root has seen: by their parent fields, the
directories above the new one lead to the root and the node that moves is not among them.
-/

namespace Hallucinate.Gfs

open Lib Function

variable {s s₀ : St} {tbl : Nat → Bp} {recs : Nat → DiskNode} {V : View} {leak : Multiset Nat}
  {k : Nat} {Why : Err → Prop}

/-! ## The checks -/

/-- The parent fields lead from a node to the root, and `src` is not on the way. -/
inductive UpTo (recs : Nat → DiskNode) (root src : Nat) : Nat → Prop
  | root : UpTo recs root src root
  | step {cur : Nat} (hroot : cur ≠ root) (hsrc : cur ≠ src)
      (h : UpTo recs root src (recs cur).parent) : UpTo recs root src cur

/-- The node `i` steps up from `cur`. -/
def ancestor (recs : Nat → DiskNode) (i cur : Nat) : Nat := (fun id => (recs id).parent)^[i] cur

theorem ancestor_succ (recs : Nat → DiskNode) (i cur : Nat) :
    ancestor recs (i + 1) cur = ancestor recs i (recs cur).parent := rfl

theorem ancestor_add (recs : Nat → DiskNode) (i j cur : Nat) :
    ancestor recs (i + j) cur = ancestor recs i (ancestor recs j cur) :=
  Function.iterate_add_apply _ i j cur

variable {src cur : Nat}

theorem UpTo.first {root : Nat} (h : UpTo recs root src cur) :
    ∃ n, ancestor recs n cur = root ∧ ∀ i < n, ancestor recs i cur ≠ root := by
  induction h with
  | root => exact ⟨0, rfl, nofun⟩
  | step hroot hsrc _ ih =>
    obtain ⟨n, hn, hmin⟩ := ih
    refine ⟨n + 1, hn, fun i hi => ?_⟩
    cases i with
    | zero => exact hroot
    | succ i => exact hmin i (by omega)

variable {i : Nat}

/-- Nothing but node 0 is above a node that is not in use. -/
theorem ancestor_outside {count : Nat} (hout : ∀ id, id = 0 ∨ count ≤ id → recs id = zeroNode)
    (hcur : cur = 0 ∨ count ≤ cur) : ancestor recs (i + 1) cur = 0 := by
  induction i generalizing cur with
  | zero => exact congrArg DiskNode.parent (hout cur hcur)
  | succ i ih =>
    rw [ancestor_succ, hout cur hcur]
    exact ih (.inl rfl)

/-- **A way to the root has no more steps than there are nodes**: it meets no node twice. -/
theorem first_le {root count n : Nat} (hroot : root ≠ 0)
    (hout : ∀ id, id = 0 ∨ count ≤ id → recs id = zeroNode) (hn : ancestor recs n cur = root)
    (hmin : ∀ i < n, ancestor recs i cur ≠ root) : n ≤ count := by
  have hvalid : ∀ i < n, ancestor recs i cur < count := by
    intro i hi
    by_contra hge
    obtain ⟨j, rfl⟩ := Nat.exists_eq_add_of_lt hi
    rw [show i + j + 1 = (j + 1) + i by omega, ancestor_add,
      ancestor_outside hout (.inr (by omega))] at hn
    exact hroot hn.symm
  have hinj : Set.InjOn (fun i => ancestor recs i cur) (Finset.range n) := by
    -- from two meetings with a node, the root would be reached too early
    have key : ∀ i j, i < j → j < n → ancestor recs i cur ≠ ancestor recs j cur := by
      intro i j hij hj he
      refine hmin (n - j + i) (by omega) ?_
      rw [ancestor_add, he, ← ancestor_add, show n - j + j = n by omega, hn]
    intro i hi j hj he
    simp only [Finset.coe_range, Set.mem_Iio] at hi hj
    rcases Nat.lt_trichotomy i j with hlt | heq | hgt
    · exact absurd he (key i j hlt hj)
    · exact heq
    · exact absurd he.symm (key j i hgt hi)
  have hcard := Finset.card_le_card_of_injOn (s := Finset.range n) (t := Finset.range count)
    (fun i => ancestor recs i cur)
    (fun i hi => Finset.mem_coe.mpr (Finset.mem_range.mpr (hvalid i (Finset.mem_range.mp hi)))) hinj
  simpa using hcard

/-- The walk finds the way to the root, if it is given enough rounds. -/
theorem wp_parentWalk {fuel : Nat} (h : Loaded s₀ tbl recs s)
    (hfuel : ∀ n, ancestor recs n cur = s₀.core.rootNode →
      (∀ i < n, ancestor recs i cur ≠ s₀.core.rootNode) → n ≤ fuel)
    (hout : ∀ id, id = 0 ∨ s₀.core.nodeCount ≤ id → recs id = zeroNode)
    (hroot : s₀.core.rootNode ≠ 0) (hwhy : ∀ e, ¬UpTo recs s₀.core.rootNode src cur → Why e) :
    Wp (parentWalk src fuel cur) (outcome (fun _ s' => UpTo recs s₀.core.rootNode src cur ∧
      Scratch s s') (Abort s₀ Why)) s := by
  induction fuel generalizing cur s with
  | zero =>
    change Wp (getCore >>= fun fs => if cur = fs.rootNode then pure ()
      else if cur = src then fail .einval else fail .ecorrupt) _ s
    refine wp_getCore ?_
    rw [h.safe.core]
    split
    · rename_i hcur
      exact wp_pure ⟨hcur ▸ .root, Scratch.refl s⟩
    · rename_i hcur
      have hno : ¬UpTo recs s₀.core.rootNode src cur := fun hup => by
        obtain ⟨n, hn, hmin⟩ := hup.first
        obtain rfl : n = 0 := Nat.le_zero.mp (hfuel n hn hmin)
        exact hcur hn
      split <;> exact wp_fail (h.safe.abort_why (hwhy _ hno))
  | succ fuel ih =>
    change Wp (getCore >>= fun fs => if cur = fs.rootNode then pure ()
      else if cur = src then fail .einval
      else nodeRead cur >>= fun walk => parentWalk src fuel walk.parent) _ s
    refine wp_getCore ?_
    rw [h.safe.core]
    split
    · rename_i hcur
      exact wp_pure ⟨hcur ▸ .root, Scratch.refl s⟩
    rename_i hcur
    -- a way to the root goes on with the parent
    have hnext : UpTo recs s₀.core.rootNode src cur →
        cur ≠ src ∧ UpTo recs s₀.core.rootNode src (recs cur).parent := by
      rintro (_ | ⟨-, hsrc, hup⟩)
      · exact absurd rfl hcur
      · exact ⟨hsrc, hup⟩
    refine wp_guard (fun hsrc => h.safe.abort_why (hwhy _ fun hup => (hnext hup).1 hsrc))
      fun hsrc => ?_
    refine Wp.bind (wp_nodeRead h fun hid => hwhy _ fun hup => ?_) ?_
    · obtain ⟨n, hn, -⟩ := (hnext hup).2.first
      have hcount : cur = 0 ∨ s₀.core.nodeCount ≤ cur := by unfold ValidId at hid; omega
      rw [← ancestor_succ, ancestor_outside hout hcount] at hn
      exact hroot hn.symm
    rintro n s₁ ⟨rfl, -, hsc⟩
    refine (ih (h.scratch hsc) (fun n hn hmin => ?_) fun e hno => hwhy e fun hup =>
      hno (hnext hup).2).post ?_
    · refine Nat.le_of_succ_le_succ (hfuel (n + 1) hn fun i hi => ?_)
      cases i with
      | zero => exact hcur
      | succ i => exact hmin i (by omega)
    · rintro _ s' ⟨hup, hsc'⟩
      exact ⟨.step hcur hsrc hup, hsc.trans hsc'⟩

/-- A node that a rename may replace. -/
def ReplaceOk (sn dn : DiskNode) : Prop :=
  if sn.type = nodeNamespace then dn.type = nodeNamespace ∧ dn.edgeCount = 0
  else dn.type ≠ nodeNamespace

/-- Two nodes of which both or neither is a directory. -/
def SameKind (sn dn : DiskNode) : Prop := sn.type = nodeNamespace ↔ dn.type = nodeNamespace

theorem wp_replaceChecks {sn dn : DiskNode} (hs : Safe s₀ s) (hkind : ∀ e, ¬SameKind sn dn → Why e)
    (hfull : SameKind sn dn → dn.type = nodeNamespace → 0 < dn.edgeCount → Why .enotempty) :
    Wp (replaceChecks sn dn) (outcome (fun _ s' => ReplaceOk sn dn ∧ s' = s) (Abort s₀ Why)) s := by
  unfold replaceChecks ReplaceOk
  by_cases hsn : sn.type = nodeNamespace
  · rw [if_pos hsn, if_pos hsn]
    refine wp_guard (fun hdn => hs.abort_why (hkind _ fun hk => hdn (hk.mp hsn))) fun hdn => ?_
    have hdn := not_not.mp hdn
    exact wp_guard (fun hpos => hs.abort_why (hfull (iff_of_true hsn hdn) hdn hpos))
      fun hpos => wp_pure ⟨⟨hdn, by omega⟩, rfl⟩
  · rw [if_neg hsn, if_neg hsn]
    exact wp_guard (fun hdn => hs.abort_why (hkind _ fun hk => hsn (hk.mpr hdn)))
      fun hdn => wp_pure ⟨hdn, rfl⟩

/-- What `gfs_rename` has found: `src` is to move, and the new name refers to `dst`. -/
structure RenameOk (c : Core) (V : View) (olddir : Nat) (oldname : List UInt8) (newdir : Nat)
    (newname : List UInt8) (src : Nat) (dst : Option Nat) : Prop where
  oldOk : ValidId c olddir
  newOk : ValidId c newdir
  oldDir : (V.recs olddir).type = nodeNamespace
  newDir : (V.recs newdir).type = nodeNamespace
  found : lookupName oldname (V.edges olddir) = some src
  srcOk : ValidId c src
  walk : (V.recs src).type = nodeNamespace → olddir ≠ newdir → UpTo V.recs c.rootNode src newdir
  target : lookupName newname (V.edges newdir) = dst
  replace : ∀ d, dst = some d → d ≠ src → ValidId c d ∧ ReplaceOk (V.recs src) (V.recs d)

/-- The plan that the checks hand to the second half. -/
def planOf (V : View) (olddir newdir src : Nat) (dst : Option Nat) : RenamePlan :=
  ⟨V.recs olddir, V.recs newdir, src, V.recs src, dst.map fun d => (d, V.recs d)⟩

/-- What `gfs_rename` has checked before it asks whether a directory is empty. -/
structure RenameSeen (c : Core) (V : View) (olddir : Nat) (oldname : List UInt8) (newdir : Nat)
    (newname : List UInt8) (src : Nat) (dst : Option Nat) : Prop where
  oldOk : ValidId c olddir
  newOk : ValidId c newdir
  oldDir : (V.recs olddir).type = nodeNamespace
  newDir : (V.recs newdir).type = nodeNamespace
  found : lookupName oldname (V.edges olddir) = some src
  srcOk : ValidId c src
  walk : (V.recs src).type = nodeNamespace → olddir ≠ newdir → UpTo V.recs c.rootNode src newdir
  target : lookupName newname (V.edges newdir) = dst
  kind : ∀ d, dst = some d → d ≠ src → ValidId c d ∧ SameKind (V.recs src) (V.recs d)

/-- The reasons for which the checks of `gfs_rename` fail although the device works. -/
inductive RenameStops (c : Core) (V : View) (olddir : Nat) (oldname : List UInt8) (newdir : Nat)
    (newname : List UInt8) : Err → Prop
  | check {e : Err} (h : ¬∃ src dst, RenameSeen c V olddir oldname newdir newname src dst) :
      RenameStops c V olddir oldname newdir newname e
  | full {src d : Nat} (h : RenameSeen c V olddir oldname newdir newname src (some d))
      (hne : d ≠ src) (hns : (V.recs d).type = nodeNamespace) (hfull : 0 < (V.recs d).edgeCount) :
      RenameStops c V olddir oldname newdir newname .enotempty

variable {olddir newdir : Nat} {oldname newname : List UInt8}

theorem wp_renameChecks (h : Edit s₀ tbl V.recs V leak k s)
    (hwhy : ∀ e, RenameStops s₀.core V olddir oldname newdir newname e → Why e) :
    Wp (renameChecks olddir oldname newdir newname) (outcome (fun p s' => ∃ src dst,
      RenameOk s₀.core V olddir oldname newdir newname src dst ∧
      p = (if dst = some src then none else some (planOf V olddir newdir src dst)) ∧
      Scratch s s') (Abort s₀ Why)) s := by
  -- a check has failed that every source and target would have to pass
  have hcheck : ∀ e, (∀ a b, ¬RenameSeen s₀.core V olddir oldname newdir newname a b) → Why e :=
    fun e hn => hwhy e (.check fun ⟨a, b, hab⟩ => hn a b hab)
  unfold renameChecks
  refine Wp.bind (wp_nodeRead h.txn.loaded fun hid => hcheck _ fun _ _ hc => hid hc.oldOk) ?_
  rintro od s₁ ⟨rfl, ho, hsc₁⟩
  have h₁ := h.scratch hsc₁
  refine wp_guard (fun hod => h₁.txn.safe.abort_why (hcheck _ fun _ _ hc => hod hc.oldDir))
    fun hod => ?_
  refine Wp.bind (P := fun ndn s' => ndn = V.recs newdir ∧ ValidId s₀.core newdir ∧ Scratch s s')
    ?_ ?_
  · by_cases hsame : olddir = newdir
    · subst hsame
      rw [if_pos rfl]
      exact wp_pure ⟨rfl, ho, hsc₁⟩
    · rw [if_neg hsame]
      exact (wp_nodeRead h₁.txn.loaded fun hid => hcheck _ fun _ _ hc => hid hc.newOk).post
        fun _ s' hp => ⟨hp.1, hp.2.1, hsc₁.trans hp.2.2⟩
  rintro ndn s₂ ⟨rfl, hn, hsc₂⟩
  have h₂ := h.scratch hsc₂
  refine wp_guard (fun hnd => h₂.txn.safe.abort_why (hcheck _ fun _ _ hc => hnd hc.newDir))
    fun hnd => ?_
  refine Wp.bind ((wp_edgeLookup oldname h₂.txn.safe (h₂.chainOk olddir)).mono
    (fun _ _ hp => hp) fun e s' he => he.abort h₂.txn.safe fun hnone => hcheck _ fun _ _ hc =>
      nomatch hnone.symm.trans hc.found) ?_
  rintro src s₃ ⟨hfound, hsc₃⟩
  have hsc₃ := hsc₂.trans hsc₃
  have h₃ := h.scratch hsc₃
  -- from here on the source is known
  have hsrc : ∀ {a b}, RenameSeen s₀.core V olddir oldname newdir newname a b → a = src :=
    fun hc => Option.some.inj (hc.found.symm.trans hfound)
  refine Wp.bind (wp_nodeRead h₃.txn.loaded fun hid => hcheck _ fun _ _ hc =>
    hid (hsrc hc ▸ hc.srcOk)) ?_
  rintro sn s₄ ⟨rfl, hs, hsc₄⟩
  have hsc₄ := hsc₃.trans hsc₄
  have h₄ := h.scratch hsc₄
  have hroot : s₀.core.rootNode ≠ 0 := by
    rw [h.txn.geom.root]
    decide
  have hout : ∀ id, id = 0 ∨ s₀.core.nodeCount ≤ id → V.recs id = zeroNode := fun id hid =>
    (h.view.outside id hid).1
  refine wp_getCore (wp_when (I := fun s' => ((V.recs src).type = nodeNamespace →
      olddir ≠ newdir → UpTo V.recs s₀.core.rootNode src newdir) ∧ Scratch s s')
    (fun hns => (wp_parentWalk h₄.txn.loaded (fun n hn hmin => ?_) hout hroot
      fun e hno => hcheck _ fun a b hc => hno ?_).post fun _ s' hp =>
      ⟨fun _ _ => hp.1, hsc₄.trans hp.2⟩)
    (fun hno => ⟨fun h1 h2 => absurd ⟨h1, h2⟩ hno, hsc₄⟩) ?_)
  · rw [h₄.txn.safe.core]
    exact (first_le hroot hout hn hmin).trans (Nat.le_succ _)
  · obtain rfl := hsrc hc
    exact hc.walk hns.1 hns.2
  rintro s₅ ⟨hwalk, hsc₅⟩
  have h₅ := h.scratch hsc₅
  have hok : ∀ dst, lookupName newname (V.edges newdir) = dst →
      (∀ d, dst = some d → d ≠ src → ValidId s₀.core d ∧ ReplaceOk (V.recs src) (V.recs d)) →
      RenameOk s₀.core V olddir oldname newdir newname src dst := fun dst ht hr =>
    ⟨ho, hn, not_not.mp hod, not_not.mp hnd, hfound, hs, hwalk, ht, hr⟩
  refine Wp.bind (P := fun rc s' => outcome
      (fun t s' => lookupName newname (V.edges newdir) = some t ∧ Scratch s₅ s')
      (LookupFails s₀ s₅ (lookupName newname (V.edges newdir))) rc s')
    (Prog.wp_attempt (Prog.wp_mono (wp_edgeLookup newname h₅.txn.safe (h₅.chainOk newdir))
      fun _ _ hp => hp)) ?_
  rintro (e | dst) s₆ hr
  · rcases hr with ⟨rfl, hnone, hsc₆⟩ | ⟨rfl, hsafe, hfail⟩
    · exact wp_pure ⟨src, none, hok none hnone nofun, rfl, hsc₅.trans hsc₆⟩
    · exact wp_fail ⟨hsafe, .inl hfail⟩
  · obtain ⟨hdst, hsc₆⟩ := hr
    have hsc₆ := hsc₅.trans hsc₆
    have h₆ := h.scratch hsc₆
    simp only
    by_cases hsame : dst = src
    · rw [if_pos hsame]
      refine wp_pure ⟨src, some dst, hok _ hdst fun d hd hne => ?_, ?_, hsc₆⟩
      · exact absurd ((Option.some.inj hd).symm.trans hsame) hne
      · rw [if_pos (by rw [hsame])]
    · rw [if_neg hsame]
      -- what the checks seen so far say of the node to be replaced
      have hkind : ∀ {a b}, RenameSeen s₀.core V olddir oldname newdir newname a b →
          ValidId s₀.core dst ∧ SameKind (V.recs src) (V.recs dst) := fun hc => by
        obtain rfl := hsrc hc
        exact hc.kind dst (hc.target.symm.trans hdst) hsame
      refine Wp.bind (wp_nodeRead h₆.txn.loaded fun hid => hcheck _ fun _ _ hc =>
        hid (hkind hc).1) ?_
      rintro dn s₇ ⟨rfl, hd, hsc₇⟩
      have hsc₇ := hsc₆.trans hsc₇
      refine Wp.bind (wp_replaceChecks (h.scratch hsc₇).txn.safe
        (fun e hno => hcheck _ fun _ _ hc => hno (hkind hc).2) fun hk hns hfull => hwhy _ ?_) ?_
      · refine .full ⟨ho, hn, not_not.mp hod, not_not.mp hnd, hfound, hs, hwalk, hdst,
          fun d hd' _ => ?_⟩ hsame hns hfull
        obtain rfl := Option.some.inj hd'
        exact ⟨hd, hk⟩
      rintro _ s₈ ⟨hrep, rfl⟩
      refine wp_pure ⟨src, some dst, hok _ hdst fun d hd' _ => ?_, ?_, hsc₇⟩
      · obtain rfl := Option.some.inj hd'
        exact ⟨hd, hrep⟩
      · rw [if_neg fun e => hsame (Option.some.inj e)]
        rfl

/-! ## The changes -/

/-- The tree `V'` once the new name is free: the node `dst` that it referred to has lost a link. -/
def View.Replaces (V : View) (newdir : Nat) (newname : List UInt8) (dst : Option Nat) (V' : View) :
    Prop :=
  match dst with
  | none => V' = V
  | some d => ∃ n cs, V.DropsEdge newdir newname n cs ∧ V' = V.unlinked newdir d n cs

/-- The tree with the new parent of a namespace that has moved. -/
def View.reparented (V : View) (olddir newdir src : Nat) : View :=
  if (V.recs src).type = nodeNamespace ∧ src ≠ olddir ∧ src ≠ newdir then
    V.set src { V.recs src with parent := newdir } (V.chain src)
  else V

/-- **What a rename makes of a tree.** -/
def View.Renamed (V : View) (olddir : Nat) (oldname : List UInt8) (newdir : Nat)
    (newname : List UInt8) (src : Nat) (dst : Option Nat) (V' : View) : Prop :=
  ∃ n₁ cs₁ V₂ n₃ cs₃, V.DropsEdge olddir oldname n₁ cs₁ ∧
    (V.set olddir n₁ cs₁).Replaces newdir newname dst V₂ ∧
    V₂.AddsEdge newdir ⟨edgeName, src, newname⟩ n₃ cs₃ ∧
    V' = (V₂.set newdir n₃ cs₃).reparented olddir newdir src

/-- The change of the free-node count. -/
def renameDelta (V : View) : Option Nat → Int
  | none => 0
  | some d => droppedDelta (V.recs d)

/-- The node to be replaced is neither of the directories: it is empty or no directory. -/
theorem RenameOk.dst_ne {c : Core} {disk : Nat → Option Bytes} {d : Nat}
    (h : RenameOk c V olddir oldname newdir newname src (some d)) (hne : d ≠ src)
    (hv : ViewAt disk c.nodeCount V) (hcount : V.Counted) : d ≠ olddir ∧ d ≠ newdir := by
  have hrep := (h.replace d rfl hne).2
  have hfull : ∀ dir name target, lookupName name (V.edges dir) = some target →
      (V.recs dir).type = nodeNamespace → d ≠ dir := by
    rintro dir name target hl ht rfl
    have hpos := lookupName_pos hl
    have hec := (hv.node d).edgeCount_eq (hcount d)
    unfold ReplaceOk at hrep
    split at hrep
    · unfold View.edges at hpos
      omega
    · exact hrep ht
  exact ⟨hfull _ _ _ h.found h.oldDir, hfull _ _ _ h.target h.newDir⟩

variable {dst : Option Nat}

/-- Emptying the new name. -/
theorem wp_replace {n₁ : DiskNode} {cs₁ : List EBlk}
    (h : Edit s₀ tbl V.recs (V.set olddir n₁ cs₁) leak k s)
    (hok : RenameOk s₀.core V olddir oldname newdir newname src dst) (hdst : dst ≠ some src)
    (hne : ∀ d, dst = some d → d ≠ olddir ∧ d ≠ newdir) (hwhy : ∀ e, e ≠ .enotempty → Why e) :
    Wp (match dst.map fun d => (d, V.recs d) with
      | none => pure ((V.set olddir n₁ cs₁).recs newdir, 0)
      | some (d, dn) => edgeRemoveName ((V.set olddir n₁ cs₁).recs newdir) newname >>= fun r =>
          dropLink d dn >>= fun delta => pure (r.1, delta))
      (outcome (fun r s' => ∃ V₂ tbl' recs' k', (V.set olddir n₁ cs₁).Replaces newdir newname dst V₂ ∧
        r = (V₂.recs newdir, renameDelta V dst) ∧
        (∀ i, i ≠ olddir → i ≠ newdir → recs' i = V₂.recs i) ∧
        (olddir ≠ newdir → V₂.recs olddir = n₁) ∧
        Edit s₀ tbl' recs' V₂ leak k' s') (Abort s₀ Why)) s := by
  cases dst with
  | none =>
    refine wp_pure ⟨_, tbl, V.recs, k, rfl, rfl, fun i hi _ => (View.set_recs_ne hi).symm, fun _ => ?_, h⟩
    exact View.set_recs_self
  | some d =>
    obtain ⟨hdo, hdn⟩ := hne d rfl
    have hds : d ≠ src := fun e => hdst (by rw [e])
    obtain ⟨hd, -⟩ := hok.replace d rfl hds
    simp only [Option.map_some]
    refine Wp.bind (wp_removeEdit h hok.newOk (fun _ => hwhy _ (by decide))
      fun _ => hwhy _ (by decide)) ?_
    rintro ⟨n₂, t⟩ s₁ ⟨cs₂, hdrop, -, -, h₁⟩
    have hrec : ((V.set olddir n₁ cs₁).set newdir n₂ cs₂).recs d = V.recs d := by
      rw [View.set_recs_ne hdn, View.set_recs_ne hdo]
    have hrec' : (V.set olddir n₁ cs₁).recs d = V.recs d := View.set_recs_ne hdo
    have hdl := wp_dropLink h₁ hd fun _ => hwhy _ (by decide)
    rw [hrec] at hdl
    refine Wp.bind hdl ?_
    rintro delta s₂ ⟨rfl, tbl₂, h₂, -⟩
    have hV₂ : (V.set olddir n₁ cs₁).unlinked newdir d n₂ cs₂ =
        ((V.set olddir n₁ cs₁).set newdir n₂ cs₂).set d (dropped (V.recs d))
          (droppedChain (V.recs d) (((V.set olddir n₁ cs₁).set newdir n₂ cs₂).chain d)) := by
      unfold View.unlinked
      rw [hrec', View.set_chain_ne hdn]
    rw [← hV₂] at h₂
    refine wp_pure ⟨_, tbl₂, _, _, ⟨n₂, cs₂, hdrop, rfl⟩, ?_, fun i hi hi' => ?_, fun hon => ?_, h₂⟩
    · rw [hV₂, View.set_recs_ne (Ne.symm hdn), View.set_recs_self]
      rfl
    · rw [hV₂]
      by_cases hid : i = d
      · subst hid
        rw [View.set_recs_self, update_self]
      · rw [View.set_recs_ne hid, update_of_ne hid, View.set_recs_ne hi', View.set_recs_ne hi]
    · rw [hV₂, View.set_recs_ne (Ne.symm hdo), View.set_recs_ne hon, View.set_recs_self]

/-- Writing the new parent of a namespace that moves. -/
theorem wp_reparent (h : Edit s₀ tbl recs V leak k s) (hs : ValidId s₀.core src)
    (hn : ValidId s₀.core newdir) {sn : DiskNode} (hfit : sn.Fits)
    (hsn : src ≠ olddir → src ≠ newdir → sn = V.recs src) (htype : sn.type = (V.recs src).type)
    (hagree : ∀ i, i ≠ olddir → i ≠ newdir → recs i = V.recs i) (hwhy : ∀ e, e ≠ .enotempty → Why e) :
    
    Wp (Prog.when (sn.type = nodeNamespace ∧ sn.parent ≠ newdir)
        (nodeWrite src { sn with parent := newdir }))
      (outcome (fun _ s' => ∃ tbl' recs' k',
        (∀ i, i ≠ olddir → i ≠ newdir → recs' i = (V.reparented olddir newdir src).recs i) ∧
        Edit s₀ tbl' recs' (V.reparented olddir newdir src) leak k' s') (Abort s₀ Why)) s := by
  have hp64 : newdir < 2 ^ 64 := by have := h.txn.geom.nodes.2; have := hn.2; omega
  have hfit' : ({ sn with parent := newdir } : DiskNode).Fits :=
    ⟨hfit.type, hfit.mode, hfit.size, hfit.nlink, hfit.nExtents, hfit.edgeCount, hp64, hfit.edgeHead,
      hfit.ext⟩
  unfold View.reparented Prog.when
  by_cases hmove : (V.recs src).type = nodeNamespace ∧ src ≠ olddir ∧ src ≠ newdir
  · rw [if_pos hmove]
    obtain ⟨hns, ho, hne⟩ := hmove
    obtain rfl := hsn ho hne
    have h₁ := h.setRec hs (n := { V.recs src with parent := newdir })
      (extBlocks_congr rfl rfl) ((h.view.node src).relink (h.view.node src).fits.nlink hp64)
    by_cases hpar : (V.recs src).parent ≠ newdir
    · rw [if_pos ⟨hns, hpar⟩]
      refine (wp_writeEdit h₁ hs hfit' fun _ => hwhy _ (by decide)).post ?_
      rintro _ s' ⟨tbl', h', -⟩
      refine ⟨tbl', _, _, fun i hi hi' => ?_, h'⟩
      by_cases his : i = src
      · subst his
        rw [View.set_recs_self, update_self]
      · rw [View.set_recs_ne his, update_of_ne his]
        exact hagree i hi hi'
    · rw [if_neg fun hc => hpar hc.2]
      refine wp_pure ⟨tbl, recs, k, fun i hi hi' => ?_, h₁⟩
      by_cases his : i = src
      · subst his
        rw [View.set_recs_self, hagree i hi hi', ← not_not.mp hpar]
      · rw [View.set_recs_ne his]
        exact hagree i hi hi'
  · rw [if_neg hmove]
    split
    · -- the record is one of a directory, which is written again below
      rename_i hc
      have hdir : src = olddir ∨ src = newdir := by
        by_contra hno
        exact hmove ⟨htype ▸ hc.1, fun e => hno (.inl e), fun e => hno (.inr e)⟩
      refine (wp_writeEdit h hs hfit' fun _ => hwhy _ (by decide)).post ?_
      rintro _ s' ⟨tbl', h', -⟩
      refine ⟨tbl', _, _, fun i hi hi' => ?_, h'⟩
      have his : i ≠ src := by
        rintro rfl
        rcases hdir with e | e
        · exact hi e
        · exact hi' e
      rw [update_of_ne his]
      exact hagree i hi hi'
    · exact wp_pure ⟨tbl, recs, k, hagree, h⟩

theorem View.Replaces.type_eq {V V₂ : View} (h : V.Replaces newdir newname dst V₂)
    (hi : ∀ d, dst = some d → i ≠ d) : (V₂.recs i).type = (V.recs i).type := by
  cases dst with
  | none => rw [show V₂ = V from h]
  | some d =>
    obtain ⟨n, cs, ⟨-, bp, rfl⟩, rfl⟩ := h
    unfold View.unlinked
    rw [View.set_recs_ne (hi d rfl)]
    by_cases hn : i = newdir
    · subst hn
      rw [View.set_recs_self]
    · rw [View.set_recs_ne hn]

theorem View.Replaces.recs_eq {V V₂ : View} (h : V.Replaces newdir newname dst V₂)
    (hi : ∀ d, dst = some d → i ≠ d) (hn : i ≠ newdir) : V₂.recs i = V.recs i := by
  cases dst with
  | none => rw [show V₂ = V from h]
  | some d =>
    obtain ⟨n, cs, -, rfl⟩ := h
    unfold View.unlinked
    rw [View.set_recs_ne (hi d rfl), View.set_recs_ne hn]

theorem wp_renameMutate (h : Edit s₀ tbl V.recs V leak k s)
    (hok : RenameOk s₀.core V olddir oldname newdir newname src dst) (hdst : dst ≠ some src)
    (hne : ∀ d, dst = some d → d ≠ olddir ∧ d ≠ newdir) (hlen : newname.length ≤ 255)
    (hwhy : ∀ e, e ≠ .enotempty → Why e) :
    Wp (renameMutate olddir oldname newdir newname (planOf V olddir newdir src dst))
      (outcome (fun _ s' => ∃ V', V.Renamed olddir oldname newdir newname src dst V' ∧
        Commits s₀ V' leak (renameDelta V dst) s') (Abort s₀ Why)) s := by
  have hN := h.txn.geom.nodes.2
  unfold renameMutate planOf
  refine Wp.bind (wp_removeEdit h hok.oldOk (fun _ => hwhy _ (by decide))
    fun _ => hwhy _ (by decide)) ?_
  rintro ⟨n₁, t⟩ s₁ ⟨cs₁, hdrop, -, -, h₁⟩
  dsimp only at hdrop h₁ ⊢
  have hnd : (if olddir = newdir then n₁ else V.recs newdir) =
      (V.set olddir n₁ cs₁).recs newdir := by
    split
    · rename_i hsame
      subst hsame
      rw [View.set_recs_self]
    · rename_i hsame
      rw [View.set_recs_ne (Ne.symm hsame)]
  rw [hnd]
  refine Wp.bind (wp_replace h₁ hok hdst hne hwhy) ?_
  rintro r s₂ ⟨V₂, tbl₂, recs₂, k₂, hrep, rfl, hagree, hold, h₂⟩
  dsimp only
  have hefits : (⟨edgeName, src, newname⟩ : Edge).Fits :=
    ⟨by show edgeName < _; decide, by show src < _; have := hok.srcOk.2; omega, hlen⟩
  refine Wp.bind (wp_addEdit h₂ hok.newOk hefits fun _ => hwhy _ (by decide)) ?_
  rintro n₃ s₃ ⟨cs₃, hadd, h₃⟩
  have hsrc : ∀ d, dst = some d → src ≠ d := fun d hd e => hdst (by rw [hd, e])
  have hn₃type : n₃.type = (V₂.recs newdir).type := by
    obtain ⟨-, bp, rfl⟩ := hadd
    rfl
  have hn₁type : n₁.type = (V.recs olddir).type := by
    obtain ⟨-, bp, rfl⟩ := hdrop
    rfl
  -- the record of the node that moves, if it is not a directory of the call
  have hsn : src ≠ olddir → src ≠ newdir → V.recs src = (V₂.set newdir n₃ cs₃).recs src :=
    fun ho hn => by rw [View.set_recs_ne hn, hrep.recs_eq hsrc hn, View.set_recs_ne ho]
  have htype : (V.recs src).type = ((V₂.set newdir n₃ cs₃).recs src).type := by
    have hV₁ : ((V.set olddir n₁ cs₁).recs src).type = (V.recs src).type := by
      by_cases ho : src = olddir
      · rw [ho, View.set_recs_self, hn₁type]
      · rw [View.set_recs_ne ho]
    by_cases hn : src = newdir
    · rw [hn, View.set_recs_self, hn₃type, ← hn, hrep.type_eq hsrc, hV₁]
    · rw [View.set_recs_ne hn, hrep.type_eq hsrc, hV₁]
  refine Wp.bind (wp_reparent h₃ hok.srcOk hok.newOk (h.view.node src).fits hsn htype
    (fun i hi hi' => by rw [View.set_recs_ne hi']; exact hagree i hi hi') hwhy) ?_
  rintro _ s₄ ⟨tbl₄, recs₄, k₄, hagree₄, h₄⟩
  generalize hV₄ : (V₂.set newdir n₃ cs₃).reparented olddir newdir src = V₄ at hagree₄ h₄
  have hdirs : V₄.recs newdir = n₃ ∧
      V₄.recs olddir = (if olddir = newdir then n₃ else n₁) := by
    have hkeep : ∀ i, i = olddir ∨ i = newdir → V₄.recs i = (V₂.set newdir n₃ cs₃).recs i := by
      intro i hi
      rw [← hV₄, View.reparented]
      split
      · rename_i hc
        refine View.set_recs_ne ?_
        rintro rfl
        rcases hi with e | e
        · exact hc.2.1 e
        · exact hc.2.2 e
      · rfl
    refine ⟨by rw [hkeep newdir (.inr rfl), View.set_recs_self], ?_⟩
    rw [hkeep olddir (.inl rfl)]
    split
    · rename_i hsame
      rw [hsame, View.set_recs_self]
    · rename_i hsame
      rw [View.set_recs_ne hsame, hold hsame]
  rw [← hdirs.2]
  refine Wp.bind (wp_writeEdit h₄ hok.oldOk (h₄.view.node olddir).fits
    fun _ => hwhy _ (by decide)) ?_
  rintro _ s₅ ⟨tbl₅, h₅, -⟩
  refine wp_when (I := fun s' => ∃ tbl' k', Edit s₀ tbl' V₄.recs V₄ leak k' s') (fun hc => ?_)
    (fun hc => ?_) ?_
  · rw [← hdirs.1]
    refine (wp_writeEdit h₅ hok.newOk (h₄.view.node newdir).fits
      fun _ => hwhy _ (by decide)).post ?_
    rintro _ s' ⟨tbl', h', -⟩
    have hrecs : update (update recs₄ olddir (V₄.recs olddir)) newdir
        (V₄.recs newdir) = V₄.recs := by
      funext i
      by_cases hin : i = newdir
      · rw [hin, update_self]
      · rw [update_of_ne hin]
        by_cases hio : i = olddir
        · rw [hio, update_self]
        · rw [update_of_ne hio]
          exact hagree₄ i hio hin
    rw [hrecs] at h'
    exact ⟨tbl', _, h'⟩
  · have hrecs : update recs₄ olddir (V₄.recs olddir) = V₄.recs := by
      funext i
      by_cases hio : i = olddir
      · rw [hio, update_self]
      · rw [update_of_ne hio]
        exact hagree₄ i hio fun e => hio (e.trans (not_not.mp hc).symm)
    rw [hrecs] at h₅
    exact ⟨tbl₅, _, h₅⟩
  · rintro s₆ ⟨tbl₆, k₆, h₆⟩
    refine (wp_commitEdit h₆ rfl fun _ => hwhy _ (by decide)).post ?_
    rintro _ s₇ ⟨hc, rest, hp⟩
    exact ⟨V₄, ⟨n₁, cs₁, V₂, n₃, cs₃, hdrop, hrep, hadd, hV₄.symm⟩, tbl₆, hc, rest, s₆, hp⟩

/-- The reasons for which `gfs_rename` gives up although the device works. -/
inductive RenameFails (c : Core) (V : View) (olddir : Nat) (oldname : CStr) (newdir : Nat)
    (newname : CStr) : Err → Prop
  | name {e : Err} (h : ¬(NameOk oldname ∧ NameOk newname)) :
      RenameFails c V olddir oldname newdir newname e
  | stop {e : Err} (h : RenameStops c V olddir oldname.bytes newdir newname.bytes e) :
      RenameFails c V olddir oldname newdir newname e
  /-- A failure while changes are made, for lack of space. -/
  | change {e : Err} {src : Nat} {dst : Option Nat}
      (hok : RenameOk c V olddir oldname.bytes newdir newname.bytes src dst) (h : e ≠ .enotempty) :
      RenameFails c V olddir oldname newdir newname e

/-- **`gfs_rename`**: nothing happens if both names refer to the same node, and otherwise the edge
moves. -/
theorem wp_gfsRename {oldname newname : CStr} (h : Committed s tbl V leak) (hlog : s.log = [])
    (hcount : V.Counted) (hwhy : ∀ e, RenameFails s.core V olddir oldname newdir newname e → Why e) :
    
    Wp (gfsRename olddir oldname newdir newname) (outcome (fun _ s' => NameOk oldname ∧
      NameOk newname ∧ ∃ src dst,
        RenameOk s.core V olddir oldname.bytes newdir newname.bytes src dst ∧
        (dst = some src ∧ Idle s s' ∨ dst ≠ some src ∧
          ∃ V', V.Renamed olddir oldname.bytes newdir newname.bytes src dst V' ∧
            Commits s V' leak (renameDelta V dst) s')) (Abort s Why)) s := by
  have hsafe := Safe.start hlog
  unfold gfsRename
  refine wp_checkName (fun hold => ?_) fun e hn => hsafe.abort_why (hwhy _ (.name fun hc => hn hc.1))
  refine wp_checkName (fun hnew => ?_) fun e hn => hsafe.abort_why (hwhy _ (.name fun hc => hn hc.2))
  refine Wp.bind (P := fun _ s₁ => Edit s tbl V.recs V leak 0 s₁ ∧ Idle s s₁)
    ((wp_txnBegin h.toLive hlog).post fun _ s₁ hp => ⟨⟨hp.1, by rw [hp.2.1]; exact h.view⟩,
      hp.1.safe.core, hp.2.1, hp.2.2⟩) ?_
  rintro _ s₁ ⟨h₁, hidle⟩
  refine Wp.bind (wp_renameChecks h₁ fun e hstop => hwhy e (.stop hstop)) ?_
  rintro p s₂ ⟨src, dst, hok, rfl, hsc⟩
  by_cases hsame : dst = some src
  · rw [if_pos hsame]
    exact wp_pure ⟨hold, hnew, src, dst, hok, .inl ⟨hsame, hsc.core.trans hidle.core,
      hsc.disk.trans hidle.disk, hsc.log.trans hidle.log⟩⟩
  · rw [if_neg hsame]
    refine (wp_renameMutate (h₁.scratch hsc) hok hsame (fun d hd => ?_) hnew.length_le
      fun e he => hwhy e (.change hok he)).post ?_
    · subst hd
      exact hok.dst_ne (fun e => hsame (by rw [e])) h.view hcount
    · rintro _ s' ⟨V', hren, hcom⟩
      exact ⟨hold, hnew, src, dst, hok, .inr ⟨hsame, V', hren, hcom⟩⟩

end Hallucinate.Gfs
