import Hallucinate.Gfs.Commit

/-!
# What the operations on edge chains do

`lookupName` and `dropName` say what a lookup finds in a list of edges and what a removal leaves.
On a chain of edge blocks, `edge_lookup` finds what `lookupName` finds (`wp_edgeLookup`);
`edge_chain_free` gives up the blocks of the chain (`wp_edgeChainFree`); `edge_add` adds one edge
(`wp_edgeAdd`), and `edge_remove_name` leaves the edges of `dropName` (`wp_edgeRemoveName`). Both
leave a chain that is packed (`Rechained`), so where the edges end up depends on their number only:
`addEdge` and `recopy` give the order.
-/

namespace Hallucinate.Gfs

open Lib List

/-! ## Lists of edges -/

/-- A NAME edge called `name`. -/
def isName (name : List UInt8) (e : Edge) : Bool := e.type == edgeName && e.name == name

/-- The target of the first NAME edge called `name`. -/
def lookupName (name : List UInt8) (es : List Edge) : Option Nat :=
  (es.find? (isName name)).map Edge.target

/-- The edges but for that one. -/
def dropName (name : List UInt8) (es : List Edge) : List Edge := es.eraseP (isName name)

/-- The edges with `e` added: behind those of the first block if that has room, else in front. -/
def addEdge (es : List Edge) (e : Edge) : List Edge :=
  es.take (es.length % 14) ++ e :: es.drop (es.length % 14)

/-- The edges copied to blocks of fourteen, each written in front of the one before. -/
def recopy (es : List Edge) : List Edge :=
  (List.range ((es.length + 13) / 14)).reverse.flatMap fun i => (es.drop (14 * i)).take 14

section EdgeLists

variable {name : List UInt8} {es : List Edge} {e : Edge}

theorem isName_iff : isName name e = true ↔ e.type = edgeName ∧ e.name = name := by
  simp [isName]

theorem edgeMatches_eq (m : Bytes) (k : Nat) (name : List UInt8) :
    edgeMatches m k name = isName name (edgeAt m k) := by
  rw [Bool.eq_iff_iff, edgeMatches_iff, isName_iff]

theorem lookupName_eq_none : lookupName name es = none ↔ ∀ e ∈ es, ¬isName name e = true := by
  rw [lookupName, Option.map_eq_none_iff, find?_eq_none]

theorem lookupName_snoc (name : List UInt8) (es : List Edge) (e : Edge) :
    lookupName name (es ++ [e]) =
    if lookupName name es = none ∧ isName name e = true then some e.target
    else lookupName name es := by
  unfold lookupName
  rw [find?_append]
  cases hf : es.find? (isName name) with
  | some x => simp
  | none => cases he : isName name e <;> simp [he]

theorem dropName_snoc (name : List UInt8) (es : List Edge) (e : Edge) :
    dropName name (es ++ [e]) =
    if lookupName name es = none ∧ isName name e = true then dropName name es
    else dropName name es ++ [e] := by
  unfold dropName
  by_cases hn : lookupName name es = none
  · have hall := lookupName_eq_none.mp hn
    rw [eraseP_append_right _ hall, eraseP_of_forall_not hall]
    cases he : isName name e <;> simp [hn, he]
  · obtain ⟨x, hx, hp⟩ : ∃ x ∈ es, isName name x = true := by
      by_contra hno
      exact hn (lookupName_eq_none.mpr fun x hx hp => hno ⟨x, hx, hp⟩)
    rw [eraseP_append_left hp _ hx, if_neg fun h => hn h.1]

theorem addEdge_perm (es : List Edge) (e : Edge) : (addEdge es e).Perm (e :: es) := by
  refine perm_middle.trans ?_
  rw [take_append_drop]

theorem addEdge_length (es : List Edge) (e : Edge) : (addEdge es e).length = es.length + 1 :=
  (addEdge_perm es e).length_eq

theorem recopy_short (h : es.length ≤ 14) : recopy es = es := by
  unfold recopy
  rcases Nat.eq_zero_or_pos es.length with h0 | hpos
  · rw [eq_nil_of_length_eq_zero h0]
    rfl
  · rw [show (es.length + 13) / 14 = 1 by omega]
    simp [take_of_length_le h]

/-- The first fourteen edges come last. -/
theorem recopy_append {a : List Edge} (ha : a.length = 14) (es : List Edge) :
    recopy (a ++ es) = recopy es ++ a := by
  have hdiv : ((a ++ es).length + 13) / 14 = (es.length + 13) / 14 + 1 := by
    rw [length_append]
    omega
  have hdrop : ∀ i, (a ++ es).drop (14 * (i + 1)) = es.drop (14 * i) := fun i => by
    rw [drop_append, drop_of_length_le (by omega), nil_append, ha,
      show 14 * (i + 1) - 14 = 14 * i by omega]
  unfold recopy
  rw [hdiv, range_succ_eq_map, reverse_cons, flatMap_append, ← map_reverse,
    flatMap_map]
  simp only [Nat.succ_eq_add_one, hdrop]
  simp [take_append_of_le_length (le_of_eq ha.symm), take_of_length_le (le_of_eq ha)]

theorem recopy_perm (es : List Edge) : (recopy es).Perm es := by
  induction hn : es.length using Nat.strong_induction_on generalizing es with
  | _ n ih =>
    by_cases hle : es.length ≤ 14
    · rw [recopy_short hle]
    · have htake : (es.take 14).length = 14 := by rw [length_take]; omega
      have hrest := ih (es.drop 14).length (by rw [length_drop]; omega) (es.drop 14) rfl
      have hcopy := recopy_append htake (es.drop 14)
      rw [take_append_drop] at hcopy
      rw [hcopy]
      refine (hrest.append_right _).trans (perm_append_comm.trans ?_)
      rw [take_append_drop]

theorem recopy_length (es : List Edge) : (recopy es).length = es.length :=
  (recopy_perm es).length_eq

theorem dropName_length_le (name : List UInt8) (es : List Edge) :
    (dropName name es).length ≤ es.length := length_eraseP_le

end EdgeLists

/-! ## Edge blocks -/

section Blocks

variable {blk blk' : Bytes} {es : List Edge} {e : Edge}

theorem Records.nil (blk : Bytes) : Records blk [] := ⟨by simp, by simp, by simp⟩

/-- The records lie behind the header. -/
theorem Records.congr (h : Records blk es) (hb : ∀ i, 24 ≤ i → blk' i = blk i) :
    Records blk' es := by
  refine ⟨h.le, fun k hk => ?_, h.fits⟩
  have hlen : (edgeAt blk k).name.length ≤ 255 := by
    rw [h.get k hk]
    exact (h.fits _ (getElem_mem hk)).name
  rw [← h.get k hk]
  exact (edgeAt_congr (fun i hi _ => (hb i (by unfold ebRecord at hi; omega)).symm) hlen).symm

section

variable (h : Records blk es) (hlt : es.length < 14)
include h hlt

/-- One more record, written behind the others. -/
theorem Records.snoc (hb : ∀ i < ebRecord es.length, blk' i = blk i)
    (he : edgeAt blk' es.length = e) (hf : e.Fits) : Records blk' (es ++ [e]) := by
  refine ⟨by simp; omega, fun k hk => ?_, fun x hx => ?_⟩
  · rw [length_append, length_singleton] at hk
    by_cases hk' : k < es.length
    · have hlen : (edgeAt blk k).name.length ≤ 255 := by
        rw [h.get k hk']
        exact (h.fits _ (getElem_mem hk')).name
      rw [getElem_append_left hk', ← h.get k hk']
      exact (edgeAt_congr (fun i _ hi => (hb i (by unfold ebRecord at *; omega)).symm) hlen).symm
    · obtain rfl : k = es.length := by omega
      rw [getElem_concat_length rfl]
      exact he
  · rcases mem_append.mp hx with hx | hx
    · exact h.fits x hx
    · rw [mem_singleton.mp hx]
      exact hf

theorem Records.encode (hf : e.Fits) : Records (edgeEncode blk es.length e) (es ++ [e]) :=
  h.snoc hlt (fun _ hi => edgeEncode_of_not_mem hf.name (Or.inl hi)) (edgeAt_edgeEncode _ _ hf) hf

theorem Records.copy {src : Bytes} {k : Nat} (hf : (edgeAt src k).Fits) :
    Records (copyIn blk (ebRecord es.length) (slice src (ebRecord k) 272)) (es ++ [edgeAt src k]) :=
  h.snoc hlt (fun _ hi => copyRecord_of_not_mem (Or.inl hi)) (edgeAt_copy hf.name) hf

end

/-- Writing the header completes a block. -/
theorem Records.header {prev : Bp} (h : Records blk es) (hp : prev.Fits) :
    EdgesIn (ebSetHeader blk es.length prev) es ∧ ebNext (ebSetHeader blk es.length prev) = prev :=
  ⟨⟨h.congr fun _ hi => ebSetHeader_of_le hi,
    ebCount_ebSetHeader (by have := h.le; omega)⟩, ebNext_ebSetHeader hp⟩

/-- The block `edge_add` writes when there is room in the first one. -/
theorem EdgesIn.push (h : EdgesIn blk es) (hlt : es.length < 14) (hf : e.Fits) :
    EdgesIn (wr (edgeEncode blk (ebCount blk) e) ebCountOff 4 (ebCount blk + 1)) (es ++ [e]) ∧
      ebNext (wr (edgeEncode blk (ebCount blk) e) ebCountOff 4 (ebCount blk + 1)) = ebNext blk := by
  rw [h.count]
  refine ⟨⟨(h.toRecords.encode hlt hf).congr fun i hi => ?_, ?_⟩, ?_⟩
  · exact wr_of_not_mem (by unfold ebCountOff; omega)
  · rw [ebCount, rd_wr, length_append, length_singleton]
    exact Nat.mod_eq_of_lt (by omega)
  · have hkeep : ∀ i, 8 ≤ i → i < 24 →
        wr (edgeEncode blk es.length e) ebCountOff 4 (es.length + 1) i = blk i := by
      intro i h8 h24
      rw [wr_of_not_mem (by unfold ebCountOff; omega),
        edgeEncode_of_not_mem hf.name (by unfold ebRecord; omega)]
    unfold ebNext
    rw [rd_congr fun i h1 h2 => hkeep i (by unfold ebNextPhys at h1; omega)
        (by unfold ebNextPhys at h2; omega),
      rd_congr fun i h1 h2 => hkeep i (by unfold ebNextCrc at h1; omega)
        (by unfold ebNextCrc at h2; omega)]

/-- The block `edge_add` puts in front of a chain. -/
theorem EdgesIn.single {head : Bp} (hh : head.Fits) (hf : e.Fits) :
    EdgesIn (edgeEncode (ebSetHeader ebFresh 1 head) 0 e) [e] ∧
      ebNext (edgeEncode (ebSetHeader ebFresh 1 head) 0 e) = head := by
  have hkeep : ∀ i < 24, edgeEncode (ebSetHeader ebFresh 1 head) 0 e i =
      ebSetHeader ebFresh 1 head i := fun i hi =>
    edgeEncode_of_not_mem hf.name (Or.inl (by unfold ebRecord; omega))
  refine ⟨⟨(Records.nil _).encode (by simp) hf, ?_⟩, ?_⟩
  · rw [ebCount, rd_congr fun i _ h2 => hkeep i (by unfold ebCountOff at h2; omega)]
    exact ebCount_ebSetHeader (by decide)
  · have hrd : ∀ off w, off + w ≤ 24 → rd (edgeEncode (ebSetHeader ebFresh 1 head) 0 e) off w =
        rd (ebSetHeader ebFresh 1 head) off w := fun off w hw =>
      rd_congr fun i _ h2 => hkeep i (by omega)
    rw [ebNext, hrd ebNextPhys 8 (by decide), hrd ebNextCrc 4 (by decide)]
    exact ebNext_ebSetHeader hh

/-- The edges of a block, as its records decode. -/
theorem EdgesIn.eq_map (h : EdgesIn blk es) : es = (List.range (ebCount blk)).map (edgeAt blk) := by
  apply ext_getElem
  · rw [length_map, length_range, h.count]
  · intro k h1 h2
    rw [getElem_map, getElem_range, h.get k h1]

/-- The scan of one block finds what the list of its edges has. -/
theorem EdgesIn.find (h : EdgesIn blk es) (name : List UInt8) :
    ((List.range (ebCount blk)).find? fun k => edgeMatches blk k name).map (edgeAt blk)
      = es.find? (isName name) := by
  rw [h.eq_map, find?_map]
  simp only [edgeMatches_eq]
  rfl

end Blocks

/-! ## Reading a chain -/

/-- The chain that `bp` leads to is `cs`; its blocks are in range, and no block is in it twice. -/
structure ChainOk (s₀ s : St) (bp : Bp) (cs : List EBlk) : Prop where
  chain : ChainAt s.disk bp cs
  range : ∀ b ∈ chainBlocks cs, b < s₀.core.totalBlocks
  nodup : (chainBlocks cs).Nodup

variable {s₀ s : St} {tbl : Nat → Bp} {recs : Nat → DiskNode} {rest R : Multiset Nat} {k : Nat}
  {Why : Err → Prop} {bp : Bp} {cs : List EBlk} {name : List UInt8}

/-- The bound on the loops over a chain is never reached. -/
theorem ChainOk.length_le (h : ChainOk s₀ s bp cs) : cs.length ≤ s₀.core.totalBlocks := by
  have hsub := subperm_of_subset h.nodup fun b hb => mem_range.mpr (h.range b hb)
  have hlen := hsub.length_le
  rwa [chainBlocks, length_map, length_range] at hlen

/-- How a lookup fails: the name is not there, or a device read failed. -/
def LookupFails (s₀ s : St) (found : Option Nat) (e : Err) (s' : St) : Prop :=
  (e = .enoent ∧ found = none ∧ Scratch s s') ∨ (e = .eio ∧ Safe s₀ s' ∧ s'.failed = true)

variable {s' : St} {found : Option Nat}

theorem LookupFails.abort {s₀ s : St} {e : Err} (h : LookupFails s₀ s found e s') (hs : Safe s₀ s)
    (hwhy : found = none → Why .enoent) : Abort s₀ Why e s' := by
  rcases h with ⟨rfl, hf, hsc⟩ | ⟨-, hsafe, hfail⟩
  · exact (hs.scratch hsc).abort_why (hwhy hf)
  · exact ⟨hsafe, Or.inl hfail⟩

theorem LookupFails.mono {s₀ s s₁ : St} {e : Err} (h : LookupFails s₀ s₁ found e s')
    (hs : Scratch s s₁) : LookupFails s₀ s found e s' := by
  rcases h with ⟨he, hf, hsc⟩ | hfail
  · exact Or.inl ⟨he, hf, hs.trans hsc⟩
  · exact Or.inr hfail

variable {fuel : Nat}

theorem wp_lookupWalk (hs : Safe s₀ s) (hc : ChainAt s.disk bp cs)
    (hr : ∀ b ∈ chainBlocks cs, b < s₀.core.totalBlocks) (hf : cs.length ≤ fuel) :
    Wp (lookupWalk name fuel bp)
      (outcome (fun t s' => lookupName name (chainEdges cs) = some t ∧ Scratch s s')
        (LookupFails s₀ s (lookupName name (chainEdges cs)))) s := by
  induction cs generalizing fuel bp s with
  | nil =>
    have h0 : bp.phys = 0 := hc
    unfold lookupWalk
    rw [if_pos h0]
    exact wp_fail (Or.inl ⟨rfl, rfl, Scratch.refl s⟩)
  | cons c cs ih =>
    obtain ⟨h1, h2, blk, hblk, hcrc, hes, hnext⟩ := hc
    rw [← h1] at hblk h2
    obtain ⟨fuel, rfl⟩ : ∃ n, fuel = n + 1 := ⟨fuel - 1, by simp at hf; omega⟩
    have hlt : bp.phys < s.core.totalBlocks := by
      rw [hs.core, h1]
      exact hr _ mem_cons_self
    have hsc : Scratch s (s.setBuf .a (some blk)) := Scratch.setBuf s (by decide)
    have hfind := hes.find name
    have hlook : lookupName name (chainEdges (c :: cs)) =
        ((c.edges.find? (isName name)).map Edge.target).or (lookupName name (chainEdges cs)) := by
      rw [lookupName, chainEdges_cons, find?_append, Option.map_or]
      rfl
    unfold lookupWalk
    rw [if_neg h2, hlook]
    refine wp_fetchMeta hlt hblk hcrc (Or.inr ⟨rfl, hs.setBuf.fault, rfl⟩) ?_
    cases hk : (List.range (ebCount blk)).find? fun k => edgeMatches blk k name with
    | some k =>
      rw [hk, Option.map_some] at hfind
      rw [← hfind]
      exact wp_pure ⟨rfl, hsc⟩
    | none =>
      rw [hk, Option.map_none] at hfind
      rw [← hfind]
      exact (ih (hs.scratch hsc) hnext (fun b hb => hr b (mem_cons_of_mem _ hb))
        (by simp at hf; omega)).mono (fun t s' h => ⟨h.1, hsc.trans h.2⟩) fun e s' h => h.mono hsc

variable {n : DiskNode}

/-- **A lookup finds what is in the list of edges.** -/
theorem wp_edgeLookup (name : List UInt8) (hs : Safe s₀ s) (hc : ChainOk s₀ s n.edgeHead cs) :
    Wp (edgeLookup n name)
      (outcome (fun t s' => lookupName name (chainEdges cs) = some t ∧ Scratch s s')
        (LookupFails s₀ s (lookupName name (chainEdges cs)))) s := by
  refine wp_getCore (wp_lookupWalk hs hc.chain hc.range ?_)
  rw [hs.core]
  exact hc.length_le

/-! ## Freeing a chain -/

theorem wp_chainFreeWalk (h : Txn s₀ tbl recs rest k s) (hc : ChainAt s.disk bp cs)
    (hr : ∀ b ∈ chainBlocks cs, dataFirst s₀.core ≤ b ∧ b < s₀.core.totalBlocks ∧ b ∉ tblBlocks tbl)
    (hf : cs.length ≤ fuel) :
    Wp (chainFreeWalk fuel bp) (outcome (fun _ s' => Txn s₀ tbl recs (rest - chainBlocks cs) k s' ∧
      s'.disk = s.disk) (Abort s₀ Why)) s := by
  induction cs generalizing fuel bp s rest with
  | nil =>
    have h0 : bp.phys = 0 := hc
    unfold chainFreeWalk
    rw [if_pos h0]
    refine wp_pure ⟨?_, rfl⟩
    rw [chainBlocks, map_nil, Multiset.coe_nil, Multiset.sub_zero]
    exact h
  | cons c cs ih =>
    obtain ⟨h1, h2, blk, hblk, hcrc, -, hnext⟩ := hc
    obtain ⟨hfirst, htot, htbl⟩ := hr c.phys mem_cons_self
    rw [← h1] at hblk h2 hfirst htot htbl
    obtain ⟨fuel, rfl⟩ : ∃ n, fuel = n + 1 := ⟨fuel - 1, by simp at hf; omega⟩
    have hlt : bp.phys < s.core.totalBlocks := by
      rw [h.safe.core]
      exact htot
    unfold chainFreeWalk
    rw [if_neg h2]
    refine wp_fetchMeta hlt hblk hcrc (h.safe.setBuf.abort _) ?_
    have h₁ : Txn s₀ tbl recs rest k (s.setBuf .a (some blk)) := h.setBuf (by decide)
    refine Wp.bind (P := fun _ s' => Txn s₀ tbl recs (rest.erase c.phys) k s' ∧ s'.disk = s.disk)
      (wp_freeBlock h₁ hfirst htbl fun w h₂ => ⟨h1 ▸ h₂, rfl⟩) ?_
    rintro _ s' ⟨h₂, hd⟩
    rw [chainBlocks, map_cons, ← Multiset.cons_coe, Multiset.sub_cons]
    refine (ih h₂ (by rw [hd]; exact hnext) (fun b hb => hr b (mem_cons_of_mem _ hb))
      (by simp at hf; omega)).post fun _ s'' hp => ⟨hp.1, hp.2.trans hd⟩

/-- **Freeing a chain** gives up its blocks; a block that is not held may be given up again. -/
theorem wp_edgeChainFree (h : Txn s₀ tbl recs rest k s) (hc : ChainOk s₀ s bp cs)
    (hr : ∀ b ∈ chainBlocks cs, dataFirst s₀.core ≤ b ∧ b ∉ tblBlocks tbl) :
    Wp (edgeChainFree bp) (outcome (fun _ s' => Txn s₀ tbl recs (rest - chainBlocks cs) k s' ∧
      s'.disk = s.disk) (Abort s₀ Why)) s := by
  refine wp_getCore (wp_chainFreeWalk h hc.chain
    (fun b hb => ⟨(hr b hb).1, hc.range b hb, (hr b hb).2⟩) ?_)
  rw [h.safe.core]
  exact hc.length_le

/-! ## Writing edge blocks -/

theorem chainBlocks_cons_add (c : EBlk) (cs : List EBlk) (R : Multiset Nat) :
    (chainBlocks (c :: cs) : Multiset Nat) + R = c.phys ::ₘ ((chainBlocks cs : Multiset Nat) + R) := by
  rw [chainBlocks, map_cons, ← Multiset.cons_coe, Multiset.cons_add]
  rfl

/-- A fresh block with the edges `es` has been written in front of the chain `cs`. -/
structure Pushed (s₀ : St) (tbl : Nat → Bp) (recs : Nat → DiskNode) (rest : Multiset Nat) (k : Nat)
    (s : St) (cs : List EBlk) (es : List Edge) (bp : Bp) (phys : Nat) (s' : St) : Prop where
  txn : Txn s₀ tbl recs (phys ::ₘ rest) (k + 1) s'
  fresh : bitTest s₀.core.committed phys = false
  fits : bp.Fits
  chain : ChainAt s'.disk bp (⟨phys, es⟩ :: cs)
  frame : ∀ b ∈ rest, s'.disk b = s.disk b
  buf : s'.buf = s.buf

theorem wp_pushBlock {β : Type} {f : Bp → GfsM β} {P : β → St → Prop} {src : Buf} {d : Bytes}
    {es : List Edge} (h : Txn s₀ tbl recs rest k s) (hb : s.buf src = some d) (hes : EdgesIn d es)
    (hc : ChainAt s.disk (ebNext d) cs) (hcs : ∀ b ∈ chainBlocks cs, b ∈ rest)
    (hwhy : s₀.clear ≤ k → Why .enospc)
    (hok : ∀ bp phys s', Pushed s₀ tbl recs rest k s cs es bp phys s' →
      Wp (f bp) (outcome P (Abort s₀ Why)) s') :
    Wp (allocBlock >>= fun phys => writeMeta phys src >>= f) (outcome P (Abort s₀ Why)) s := by
  refine Wp.bind (wp_allocBlock h hwhy) ?_
  rintro phys s₁ ⟨h₁, hfresh, hnew, w, rfl⟩
  have hmem := Multiset.mem_cons_self phys rest
  have hrange := h₁.range_rest hmem
  have hpos := h.data_pos
  have htot := h.geom.total
  refine Wp.bind (P := fun bp s' => bp = ⟨phys, blockCrc d⟩ ∧ s' = (s.setWorking w).put phys d)
    (wp_writeMeta (by rw [h₁.safe.core]; exact hrange.2) hb ⟨rfl, rfl⟩ (h₁.safe.abort _)) ?_
  rintro bp s₂ ⟨rfl, rfl⟩
  have hframe : ∀ b ∈ rest, ((s.setWorking w).put phys d).disk b = s.disk b := fun b hb => by
    have hne : b ≠ phys := fun e => hnew (Multiset.mem_add.mpr (Or.inr (e ▸ hb)))
    exact St.put_of_ne hne
  refine hok _ phys _ ⟨h₁.put hmem hfresh, hfresh, ⟨by simp only; omega, crc32c_lt _⟩, ?_,
    hframe, rfl⟩
  exact ⟨rfl, by simp only; omega, d, St.put_same _ _ _, rfl, hes,
    hc.congr fun b hb => hframe b (hcs b hb)⟩

/-- The chain of a node has been replaced by `cs`, and the blocks `R` of the transaction are left
alone. -/
structure Rechained (s₀ : St) (tbl : Nat → Bp) (recs : Nat → DiskNode) (R : Multiset Nat) (k : Nat)
    (disk : Nat → Option Bytes) (bp : Bp) (cs : List EBlk) (s' : St) : Prop where
  txn : Txn s₀ tbl recs (chainBlocks cs + R) k s'
  fits : bp.Fits
  chain : ChainAt s'.disk bp cs
  packed : Packed cs
  frame : ∀ b ∈ R, s'.disk b = disk b

/-! ## Adding an edge -/

/-- The outcome of `edge_add`: the node `n` with the edge `e` added to its edges. -/
def EdgeAdded (s₀ : St) (tbl : Nat → Bp) (recs : Nat → DiskNode) (R : Multiset Nat) (k : Nat)
    (disk : Nat → Option Bytes) (n : DiskNode) (cs : List EBlk) (e : Edge) (n' : DiskNode) (s' : St) :
    Prop :=
  ∃ bp cs', Rechained s₀ tbl recs R (k + 1) disk bp cs' s' ∧
    chainEdges cs' = addEdge (chainEdges cs) e ∧
    n' = { n with edgeHead := bp, edgeCount := (n.edgeCount + 1) % 2 ^ 32 }

theorem wp_edgeAddFront {e : Edge} (h : Txn s₀ tbl recs (chainBlocks cs + R) k s)
    (hc : ChainAt s.disk n.edgeHead cs) (hfull : ∀ c ∈ cs, c.edges.length = 14)
    (hn : n.edgeHead.Fits) (he : e.Fits) (hwhy : s₀.clear ≤ k → Why .enospc) :
    Wp (edgeAddFront n e) (outcome (EdgeAdded s₀ tbl recs R k s.disk n cs e) (Abort s₀ Why)) s := by
  obtain ⟨hes, hnext⟩ := EdgesIn.single hn he
  rw [← hnext] at hc
  refine wp_setBuf (wp_pushBlock (h.setBuf (by decide)) (St.setBuf_same _ _ _) hes hc
    (fun b hb => ?_) hwhy ?_)
  · exact Multiset.mem_add.mpr (Or.inl (Multiset.mem_coe.mpr hb))
  · rintro bp phys s' hpush
    refine wp_pure ⟨bp, ⟨phys, [e]⟩ :: cs, ⟨?_, hpush.fits, hpush.chain, ⟨by simp, hfull⟩,
      fun b hb => ?_⟩, ?_, rfl⟩
    · rw [chainBlocks_cons_add]
      exact hpush.txn
    · rw [hpush.frame b (Multiset.mem_add.mpr (Or.inr hb)), St.setBuf_disk]
    · rw [addEdge, chainEdges_length_full hfull, Nat.mul_mod_right]
      rfl

theorem wp_edgeAddRoom {e : Edge} {c : EBlk} {blk : Bytes}
    (h : Txn s₀ tbl recs (chainBlocks (c :: cs) + R) k s) (hphys : n.edgeHead.phys = c.phys)
    (hes : EdgesIn blk c.edges) (hnext : ChainAt s.disk (ebNext blk) cs) (hp : Packed (c :: cs))
    (hroom : c.edges.length < 14) (he : e.Fits) (hwhy : s₀.clear ≤ k → Why .enospc) :
    Wp (edgeAddRoom n e blk)
      (outcome (EdgeAdded s₀ tbl recs R k s.disk n (c :: cs) e) (Abort s₀ Why)) s := by
  rw [chainBlocks_cons_add] at h
  obtain ⟨hes', hnext'⟩ := hes.push hroom he
  rw [← hnext'] at hnext
  refine wp_setBuf (wp_pushBlock (h.setBuf (by decide)) (St.setBuf_same _ _ _) hes' hnext
    (fun b hb => ?_) hwhy ?_)
  · exact Multiset.mem_cons_of_mem (Multiset.mem_add.mpr (Or.inl (Multiset.mem_coe.mpr hb)))
  rintro bp phys s' hpush
  have hmem := Multiset.mem_cons_self c.phys ((chainBlocks cs : Multiset Nat) + R)
  have hmem' := Multiset.mem_cons_of_mem (a := c.phys) (b := phys) hmem
  have hne : phys ≠ c.phys := fun heq => by
    have hnd := (Multiset.nodup_add.mp hpush.txn.nodup).2.1
    exact (Multiset.nodup_cons.mp hnd).1 (heq ▸ hmem)
  rw [hphys]
  refine Wp.bind (P := fun _ s'' => Txn s₀ tbl recs (phys ::ₘ (chainBlocks cs + R)) (k + 1) s'' ∧
    s''.disk = s'.disk) (wp_freeBlock hpush.txn (hpush.txn.range_rest hmem').1
      (hpush.txn.not_mem_tbl hmem') fun w h₃ => ⟨?_, rfl⟩) ?_
  · rwa [Multiset.erase_cons_tail _ hne, Multiset.erase_cons_head] at h₃
  · rintro _ s'' ⟨h₃, hd⟩
    refine wp_pure ⟨bp, ⟨phys, c.edges ++ [e]⟩ :: cs, ⟨?_, hpush.fits, ?_, ⟨by simp, hp.2⟩,
      fun b hb => ?_⟩, ?_, rfl⟩
    · rw [chainBlocks_cons_add]
      exact h₃
    · rw [hd]
      exact hpush.chain
    · rw [hd, hpush.frame b (Multiset.mem_cons_of_mem (Multiset.mem_add.mpr (Or.inr hb)))]
      rfl
    · rw [addEdge, chainEdges_cons, chainEdges_cons, length_append,
        chainEdges_length_full hp.2, Nat.add_mul_mod_self_left, Nat.mod_eq_of_lt hroom,
        take_left, drop_left, append_assoc, singleton_append]

/-- **Adding an edge** costs one block at most. -/
theorem wp_edgeAdd {e : Edge} (h : Txn s₀ tbl recs (chainBlocks cs + R) k s)
    (hc : ChainAt s.disk n.edgeHead cs) (hp : Packed cs) (hn : n.edgeHead.Fits) (he : e.Fits)
    (hwhy : s₀.clear ≤ k → Why .enospc) :
    Wp (edgeAdd n e) (outcome (EdgeAdded s₀ tbl recs R k s.disk n cs e) (Abort s₀ Why)) s := by
  unfold edgeAdd
  cases cs with
  | nil =>
    have h0 : n.edgeHead.phys = 0 := hc
    rw [if_pos h0]
    exact wp_edgeAddFront h hc (by simp) hn he hwhy
  | cons c cs =>
    have hfront := hc
    obtain ⟨h1, h2, blk, hblk, hcrc, hes, hnext⟩ := hc
    have hlt : n.edgeHead.phys < s.core.totalBlocks := by
      rw [h.safe.core, h1]
      exact (h.range_rest (Multiset.mem_add.mpr (Or.inl mem_cons_self))).2
    rw [if_neg (by rwa [h1])]
    refine wp_fetchMeta hlt (by rwa [h1]) hcrc (h.safe.setBuf.abort _) ?_
    have h₁ : Txn s₀ tbl recs (chainBlocks (c :: cs) + R) k (s.setBuf .a (some blk)) :=
      h.setBuf (by decide)
    rw [hes.count]
    by_cases hroom : c.edges.length < 14
    · rw [if_pos hroom]
      exact wp_edgeAddRoom h₁ h1 hes hnext hp hroom he hwhy
    · rw [if_neg hroom]
      have hlen := hes.le
      refine wp_edgeAddFront h₁ hfront (fun c' hc' => ?_) hn he hwhy
      rcases mem_cons.mp hc' with rfl | hc'
      · omega
      · exact hp.2 c' hc'

/-! ## Removing an edge -/

/-- `edge_remove_name` after the edges `done`: the blocks `old` are left of the old chain, the full
blocks `out` have been written, and the edges `cur` are in buffer `b`. -/
structure Removing (s₀ : St) (tbl : Nat → Bp) (recs : Nat → DiskNode) (R : Multiset Nat) (k : Nat)
    (disk : Nat → Option Bytes) (name : List UInt8) (old out : List EBlk) (cur done : List Edge)
    (st : RemoveSt) (s : St) : Prop where
  txn : Txn s₀ tbl recs (chainBlocks out + (chainBlocks old + R)) (k + out.length) s
  fresh : ∀ b ∈ chainBlocks out, bitTest s₀.core.committed b = false
  fits : st.outPrev.Fits
  chain : ChainAt s.disk st.outPrev out
  full : ∀ c ∈ out, c.edges.length = 14
  frame : ∀ b ∈ (chainBlocks old : Multiset Nat) + R, s.disk b = disk b
  buf : ∃ blk, s.buf .b = some blk ∧ Records blk cur
  count : st.outCount = cur.length
  kept : out.reverse.flatMap EBlk.edges ++ cur = dropName name done
  total : st.total = (dropName name done).length % 2 ^ 32
  removed : st.removed = lookupName name done

section Remove

variable {disk : Nat → Option Bytes} {old out : List EBlk} {cur done : List Edge} {st : RemoveSt}

section

variable (h : Removing s₀ tbl recs R k disk name old out cur done st s)
include h

/-- The blocks written hold edges that have been read. -/
theorem Removing.length_le : 14 * out.length + cur.length ≤ done.length := by
  have hlen := congrArg List.length h.kept
  have hrev := chainEdges_length_full fun c hc => h.full c (mem_reverse.mp hc)
  rw [chainEdges, length_reverse] at hrev
  rw [length_append, hrev] at hlen
  have := dropName_length_le name done
  omega

/-- The blocks written, and the one in the buffer in front of them, hold the edges kept. -/
theorem Removing.recopied : cur ++ chainEdges out = recopy (dropName name done) := by
  obtain ⟨blk, -, hrec⟩ := h.buf
  have hfull := h.full
  rw [← h.kept]
  clear h
  induction out using List.reverseRecOn with
  | nil => simp [chainEdges, recopy_short hrec.le]
  | append_singleton out c ih =>
    rw [reverse_append, reverse_singleton, singleton_append, flatMap_cons,
      append_assoc, recopy_append (hfull c (by simp)), chainEdges, flatMap_append,
      flatMap_singleton, ← append_assoc]
    congr 1
    exact ih fun c' hc' => hfull c' (mem_append_left _ hc')

theorem wp_flushEdges (hpos : 1 ≤ cur.length) (hwhy : s₀.clear ≤ k + done.length / 14 → Why .enospc) :
    
    Wp (flushEdges st) (outcome (fun bp s' => ∃ phys, Rechained s₀ tbl recs (chainBlocks old + R)
      (k + (out.length + 1)) disk bp (⟨phys, cur⟩ :: out) s' ∧
      bitTest s₀.core.committed phys = false ∧ s'.buf .a = s.buf .a) (Abort s₀ Why)) s := by
  have hlen := h.length_le
  obtain ⟨blk, hblk, hrec⟩ := h.buf
  obtain ⟨hes, hnext⟩ := hrec.header h.fits
  unfold flushEdges
  refine wp_getBuf hblk (wp_setBuf ?_)
  rw [h.count]
  have hlast : (fun phys => writeMeta phys .b) = fun phys => writeMeta phys .b >>= pure :=
    funext fun phys => (Prog.bind_pure _).symm
  rw [hlast]
  have hchain := h.chain
  rw [← hnext] at hchain
  refine wp_pushBlock (h.txn.setBuf (by decide)) (St.setBuf_same _ _ _) hes hchain (fun b hb => ?_)
    (fun hc => hwhy (by omega)) ?_
  · exact Multiset.mem_add.mpr (Or.inl (Multiset.mem_coe.mpr hb))
  · rintro bp phys s' hpush
    refine wp_pure ⟨phys, ⟨?_, hpush.fits, hpush.chain, ⟨hpos, h.full⟩, fun b hb => ?_⟩,
      hpush.fresh, ?_⟩
    · rw [chainBlocks_cons_add]
      exact hpush.txn
    · rw [hpush.frame b (Multiset.mem_add.mpr (Or.inr hb))]
      exact h.frame b hb
    · rw [hpush.buf, St.setBuf_of_ne (by decide)]

theorem wp_flushFull (hwhy : s₀.clear ≤ k + done.length / 14 → Why .enospc) :
    Wp (flushFull st) (outcome (fun st' s' => (∃ out' cur', cur'.length < 14 ∧
      Removing s₀ tbl recs R k disk name old out' cur' done st' s') ∧ st'.total = st.total ∧
        s'.buf .a = s.buf .a) (Abort s₀ Why)) s := by
  obtain ⟨blk, hblk, hrec⟩ := h.buf
  have hle := hrec.le
  have hcount := h.count
  unfold flushFull
  by_cases hfull : st.outCount = 14
  · rw [if_pos hfull]
    refine Wp.bind (wp_flushEdges h (by omega) hwhy) ?_
    rintro bp s₁ ⟨phys, hre, hfresh, ha⟩
    refine wp_setBuf (wp_pure ⟨⟨⟨phys, cur⟩ :: out, [], by simp, hre.txn.setBuf (by decide),
      forall_mem_cons.mpr ⟨hfresh, h.fresh⟩, hre.fits, hre.chain, fun c hc => ?_, hre.frame,
      ⟨_, St.setBuf_same _ _ _, Records.nil _⟩, rfl, ?_, h.total, h.removed⟩, rfl, ?_⟩)
    · rcases mem_cons.mp hc with rfl | hc
      · exact hcount.symm.trans hfull
      · exact h.full c hc
    · rw [append_nil, reverse_cons, flatMap_append, flatMap_singleton]
      exact h.kept
    · rw [St.setBuf_of_ne (by decide), ha]
  · rw [if_neg hfull]
    exact wp_pure ⟨⟨out, cur, by omega, h⟩, rfl, rfl⟩

/-- One record of the old chain. -/
theorem wp_removeRecord {blk : Bytes} {j : Nat} (ha : s.buf .a = some blk)
    (hf : (edgeAt blk j).Fits) (hwhy : s₀.clear ≤ k + done.length / 14 → Why .enospc) :
    Wp (removeRecord name st j) (outcome (fun st' s' => (∃ out' cur',
      Removing s₀ tbl recs R k disk name old out' cur' (done ++ [edgeAt blk j]) st' s') ∧
        s'.buf .a = some blk) (Abort s₀ Why)) s := by
  refine wp_getBuf ha ?_
  rw [h.removed, edgeMatches_eq]
  have hdrop := dropName_snoc name done (edgeAt blk j)
  have hlook := lookupName_snoc name done (edgeAt blk j)
  by_cases hhit : lookupName name done = none ∧ isName name (edgeAt blk j) = true
  · rw [if_pos hhit] at hdrop hlook ⊢
    refine wp_pure ⟨⟨out, cur, h.txn, h.fresh, h.fits, h.chain, h.full, h.frame, h.buf, h.count, ?_, ?_, ?_⟩,
      ha⟩
    · rw [hdrop]
      exact h.kept
    · rw [hdrop]
      exact h.total
    · exact hlook.symm
  · rw [if_neg hhit] at hdrop hlook ⊢
    refine Wp.bind (wp_flushFull h hwhy) ?_
    rintro st' s₁ ⟨⟨out', cur', hroom, h₁⟩, -, ha₁⟩
    obtain ⟨b, hb, hrec⟩ := h₁.buf
    have htotal := h₁.total
    refine wp_getBuf hb (wp_setBuf (wp_pure ⟨⟨out', cur' ++ [edgeAt blk j],
      h₁.txn.setBuf (by decide), h₁.fresh, h₁.fits, h₁.chain, h₁.full, h₁.frame,
      ⟨_, St.setBuf_same _ _ _, ?_⟩, ?_, ?_, ?_, ?_⟩, ?_⟩))
    · rw [h₁.count]
      exact hrec.copy hroom hf
    · rw [length_append, length_singleton, ← h₁.count]
    · rw [hdrop, ← append_assoc, h₁.kept]
    · rw [hdrop, length_append, length_singleton]
      simp only [htotal]
      omega
    · rw [hlook]
      exact h₁.removed
    · rw [St.setBuf_of_ne (by decide), ha₁, ha]

/-- The records of one block of the old chain. -/
theorem wp_removeBlock {blk : Bytes} {es : List Edge} (ha : s.buf .a = some blk)
    (hes : EdgesIn blk es) (hwhy : s₀.clear ≤ k + (done ++ es).length / 14 → Why .enospc) :
    Wp (Prog.foldP (removeRecord name) st (List.range (ebCount blk))) (outcome (fun st' s' =>
      ∃ out' cur', Removing s₀ tbl recs R k disk name old out' cur' (done ++ es) st' s')
      (Abort s₀ Why)) s := by
  refine (Wp.loop (I := fun i st' s' => (∃ out' cur', Removing s₀ tbl recs R k disk name
    old out' cur' (done ++ es.take i) st' s') ∧ s'.buf .a = some blk) ?_ ?_).post ?_
  · rw [take_zero, append_nil]
    exact ⟨⟨out, cur, h⟩, ha⟩
  · rintro i st' s' hi ⟨⟨out', cur', h'⟩, ha'⟩
    rw [hes.count] at hi
    have he := hes.get i hi
    refine (wp_removeRecord h' ha' (by rw [he]; exact hes.fits _ (getElem_mem hi))
      fun hcl => hwhy ?_).post fun st'' s'' hp => ?_
    · refine hcl.trans (Nat.add_le_add_left (Nat.div_le_div_right ?_) k)
      simp only [length_append, length_take]
      omega
    · rwa [he, append_assoc, take_append_getElem hi] at hp
  · rintro st' s' ⟨h', -⟩
    rwa [hes.count, take_length] at h'

/-- The old chain, block by block. -/
theorem wp_removeWalk (hc : ChainAt disk bp old) (hf : old.length ≤ fuel)
    (hwhy : s₀.clear ≤ k + (done ++ chainEdges old).length / 14 → Why .enospc) :
    Wp (removeWalk name fuel bp st) (outcome (fun st' s' => ∃ out' cur',
      Removing s₀ tbl recs R k disk name [] out' cur' (done ++ chainEdges old) st' s')
      (Abort s₀ Why)) s := by
  induction old generalizing fuel bp s st out cur done with
  | nil =>
    have h0 : bp.phys = 0 := hc
    unfold removeWalk
    rw [if_pos h0]
    refine wp_pure ⟨out, cur, ?_⟩
    rw [chainEdges, flatMap_nil, append_nil]
    exact h
  | cons c old ih =>
    obtain ⟨h1, h2, blk, hblk, hcrc, hes, hnext⟩ := hc
    obtain ⟨fuel, rfl⟩ : ∃ n, fuel = n + 1 := ⟨fuel - 1, by simp at hf; omega⟩
    have hmem : c.phys ∈ (chainBlocks (c :: old) : Multiset Nat) + R :=
      Multiset.mem_add.mpr (Or.inl mem_cons_self)
    have hlt : bp.phys < s.core.totalBlocks := by
      rw [h.txn.safe.core, h1]
      exact (h.txn.range_rest (Multiset.mem_add.mpr (Or.inr hmem))).2
    have hd : s.disk bp.phys = some blk := by rw [h1, h.frame _ hmem, hblk]
    unfold removeWalk
    rw [if_neg (by rwa [h1])]
    refine wp_fetchMeta hlt hd hcrc (h.txn.safe.setBuf.abort _) ?_
    have h₁ : Removing s₀ tbl recs R k disk name (c :: old) out cur done st
        (s.setBuf .a (some blk)) := by
      refine ⟨h.txn.setBuf (by decide), h.fresh, h.fits, h.chain, h.full, h.frame, ?_, h.count, h.kept,
        h.total, h.removed⟩
      rw [St.setBuf_of_ne (by decide)]
      exact h.buf
    rw [chainEdges_cons, ← append_assoc] at hwhy ⊢
    refine Wp.bind (wp_removeBlock h₁ (St.setBuf_same _ _ _) hes fun hcl => hwhy ?_) ?_
    · refine hcl.trans (Nat.add_le_add_left (Nat.div_le_div_right ?_) k)
      simp only [length_append]
      omega
    · rintro st' s' ⟨out', cur', h'⟩
      have hmem' := h'.txn.range_rest (Multiset.mem_add.mpr (Or.inr hmem))
      have hnot := h'.txn.not_mem_tbl (Multiset.mem_add.mpr (Or.inr hmem))
      have hout : c.phys ∉ (chainBlocks out' : Multiset Nat) := fun hin => by
        have hnd := (Multiset.nodup_add.mp h'.txn.nodup).2.1
        exact Multiset.disjoint_left.mp (Multiset.nodup_add.mp hnd).2.2 hin hmem
      rw [h1]
      refine Wp.bind (P := fun _ s'' => Removing s₀ tbl recs R k disk name old out' cur'
        (done ++ c.edges) st' s'') (wp_freeBlock h'.txn hmem'.1 hnot fun w h₂ => ?_) ?_
      · rw [chainBlocks_cons_add, Multiset.erase_add_right_neg _ hout,
          Multiset.erase_cons_head] at h₂
        refine ⟨h₂, h'.fresh, h'.fits, h'.chain, h'.full, fun b hb => h'.frame b ?_, h'.buf, h'.count,
          h'.kept, h'.total, h'.removed⟩
        rw [chainBlocks_cons_add]
        exact Multiset.mem_cons_of_mem hb
      · rintro _ s'' h''
        exact ih h'' hnext (by simp at hf; omega) hwhy

end

/-- The outcome of `edge_remove_name`: the node `n` without the edge called `name`, and its target.
The new chain is in fresh blocks. -/
def EdgeRemoved (s₀ : St) (tbl : Nat → Bp) (recs : Nat → DiskNode) (R : Multiset Nat) (k : Nat)
    (disk : Nat → Option Bytes) (n : DiskNode) (cs : List EBlk) (name : List UInt8)
    (r : DiskNode × Nat) (s' : St) : Prop :=
  ∃ bp cs', Rechained s₀ tbl recs R (k + cs'.length) disk bp cs' s' ∧
    (∀ b ∈ chainBlocks cs', bitTest s₀.core.committed b = false) ∧
    chainEdges cs' = recopy (dropName name (chainEdges cs)) ∧
    lookupName name (chainEdges cs) = some r.2 ∧
    r.1 = { n with edgeHead := bp, edgeCount := (dropName name (chainEdges cs)).length % 2 ^ 32 }

/-- The last block, if any edges are left for it. -/
theorem wp_flushLast (h : Removing s₀ tbl recs R k disk name [] out cur done st s)
    (hwhy : s₀.clear ≤ k + done.length / 14 → Why .enospc) :
    Wp (if 0 < st.outCount then flushEdges st else pure st.outPrev) (outcome (fun bp s' => ∃ cs',
      Rechained s₀ tbl recs R (k + cs'.length) disk bp cs' s' ∧
      (∀ b ∈ chainBlocks cs', bitTest s₀.core.committed b = false) ∧
      chainEdges cs' = recopy (dropName name done)) (Abort s₀ Why)) s := by
  have hR : (chainBlocks [] : Multiset Nat) + R = R := zero_add R
  by_cases hpos : 0 < st.outCount
  · rw [if_pos hpos]
    refine (wp_flushEdges h (by rw [← h.count]; exact hpos) hwhy).post ?_
    rintro bp s' ⟨phys, hre, hfresh, -⟩
    rw [hR] at hre
    refine ⟨⟨phys, cur⟩ :: out, hre, forall_mem_cons.mpr ⟨hfresh, h.fresh⟩, ?_⟩
    rw [chainEdges_cons]
    exact h.recopied
  · rw [if_neg hpos]
    have hcur : cur = [] := eq_nil_of_length_eq_zero (by rw [← h.count]; omega)
    have htxn := h.txn
    have hkept := h.recopied
    have hframe := h.frame
    rw [hR] at htxn hframe
    rw [hcur, nil_append] at hkept
    refine wp_pure ⟨out, ⟨htxn, h.fits, h.chain, ?_, hframe⟩, h.fresh, hkept⟩
    cases out with
    | nil => trivial
    | cons c out =>
      refine ⟨?_, fun c' hc' => h.full c' (mem_cons_of_mem _ hc')⟩
      rw [h.full c mem_cons_self]
      decide

/-- **Removing the edge called `name`** leaves the other edges, in a packed chain. -/
theorem wp_edgeRemoveName (h : Txn s₀ tbl recs (chainBlocks cs + R) k s)
    (hc : ChainOk s₀ s n.edgeHead cs)
    (hwhy : s₀.clear ≤ k + (chainEdges cs).length / 14 → Why .enospc)
    (hno : lookupName name (chainEdges cs) = none → Why .enoent) : Wp (edgeRemoveName n name)
      (outcome (EdgeRemoved s₀ tbl recs R k s.disk n cs name) (Abort s₀ Why)) s := by
  refine wp_getCore (wp_setBuf ?_)
  have hinit : Removing s₀ tbl recs R k s.disk name cs [] [] [] ⟨⟨0, 0⟩, 0, 0, none⟩
      (s.setBuf .b (some ebFresh)) := by
    refine ⟨?_, by simp [chainBlocks], ⟨by decide, by decide⟩, rfl, by simp, fun _ _ => rfl,
      ⟨_, St.setBuf_same _ _ _, Records.nil _⟩, rfl, rfl, rfl, rfl⟩
    rw [chainBlocks, map_nil, Multiset.coe_nil, zero_add]
    exact h.setBuf (by decide)
  rw [h.safe.core]
  refine Wp.bind (wp_removeWalk hinit hc.chain hc.length_le hwhy) ?_
  rintro st s₁ ⟨out, cur, h₁⟩
  rw [nil_append] at h₁
  have hrem := h₁.removed
  cases hr : st.removed with
  | none =>
    rw [hr] at hrem
    exact wp_fail (h₁.txn.safe.abort_why (hno hrem.symm))
  | some target =>
    rw [hr] at hrem
    refine Wp.bind (wp_flushLast h₁ hwhy) ?_
    rintro bp s' ⟨cs', hre, hfresh, hcopy⟩
    exact wp_pure ⟨bp, cs', hre, hfresh, hcopy, hrem.symm, by rw [h₁.total]⟩

end Remove

end Hallucinate.Gfs
