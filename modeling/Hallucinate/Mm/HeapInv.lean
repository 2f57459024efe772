import Hallucinate.Mm.HeapSpec
import Mathlib

/-!
# What a heap holds

The spans of pages that the heap has from its backend, as a list of blocks: a slab, or the span of one
large allocation.

* `Layout`: the blocks do not overlap, and the memory of each is what its header says.
* `Linked`: the partial lists hold the slabs that have a free object.
* `Counted`: the statistics.

One operation changes one block and the links around it. `Layout.frame` says that it leaves the memory
of the other blocks alone; `Linked.insert` and `Linked.remove` are what `partial_insert` and
`partial_remove` do to the lists of all classes.
-/

namespace Hallucinate.Mm.Heap

open Lib Function List

variable {m m' : Bytes} {b c n o : Nat}

/-! ## Blocks -/

/-- A span of pages: a slab with its free objects and its live ones, these with the sizes asked for;
or a large allocation of a size. -/
inductive Block
  | slab (b c : Nat) (free : List Nat) (live : List (Nat × Nat))
  | large (b n : Nat)

namespace Block

/-- The address of the first page, and the number of pages. -/
def span : Block → Nat × Nat
  | slab b _ _ _ => (b, 1)
  | large b n => (b, pagesFor n)

/-- The allocations in a block, by address and size asked for. -/
def slots : Block → List (Nat × Nat)
  | slab _ _ _ live => live
  | large b n => [(b + 64, n)]

/-- The live objects of a slab. -/
def objs : Block → Nat
  | slab _ _ _ live => live.length
  | large _ _ => 0

/-- What the memory of a block is. -/
def Own (m : Bytes) : Block → Prop
  | slab b c free live => SlabOk m b c free (live.map Prod.fst) ∧ ∀ p ∈ live, classFor p.2 = some c
  | large b n => classFor n = none ∧ magic m b = largeMagic ∧ npages m b = pagesFor n

end Block

variable {A B : Block} {bs bs' : List Block} {free free' : List Nat} {live live' : List (Nat × Nat)}

/-- A span of pages in the address space. -/
structure SpanOk (p : Nat × Nat) : Prop where
  ne : p.1 ≠ 0
  aligned : p.1 % 4096 = 0
  fits : p.1 + p.2 * 4096 ≤ 2 ^ 64
  pos : 0 < p.2

theorem Page.spanOk (h : Page b) : SpanOk (b, 1) := by
  have hfits := h.fits
  exact ⟨h.ne, h.aligned, by rwa [Nat.one_mul], Nat.one_pos⟩

theorem SpanOk.page (h : SpanOk (b, 1)) : Page b := by
  have hfits := h.fits
  rw [Nat.one_mul] at hfits
  exact ⟨h.ne, h.aligned, hfits⟩

/-- Spans that do not overlap. -/
def Apart (p q : Nat × Nat) : Prop := p.1 + p.2 * 4096 ≤ q.1 ∨ q.1 + q.2 * 4096 ≤ p.1

instance (p q : Nat × Nat) : Decidable (Apart p q) :=
  inferInstanceAs (Decidable (p.1 + p.2 * 4096 ≤ q.1 ∨ q.1 + q.2 * 4096 ≤ p.1))

variable {p : Nat × Nat}

theorem Apart.symm {q : Nat × Nat} (h : Apart p q) : Apart q p := Or.symm h

/-- Only the bytes of one span differ. -/
def SameOff (p : Nat × Nat) (m m' : Bytes) : Prop :=
  ∀ a, a < p.1 ∨ p.1 + p.2 * 4096 ≤ a → m' a = m a

/-- A block is the header and, in a slab, the links of its free objects. -/
theorem Block.Own.congr (h : B.Own m) (hhdr : ∀ a, B.span.1 ≤ a → a < B.span.1 + 64 → m' a = m a)
    (hlink : ∀ b c free live, B = .slab b c free live → ∀ o ∈ free, ∀ a, o ≤ a → a < o + 8 → m' a = m a) :
    B.Own m' := by
  cases B with
  | slab b c free live =>
    refine ⟨h.1.congr (fun a h1 h2 => hhdr a h1 ?_) (hlink b c free live rfl), h.2⟩
    exact Nat.lt_of_lt_of_le h2 (Nat.add_le_add_left (by decide) b)
  | large b n =>
    have hfield : ∀ off w, off + w ≤ 64 → rd m' (b + off) w = rd m (b + off) w := fun off w hw =>
      rd_congr fun a h1 h2 => hhdr a (by show b ≤ a; omega) (by show a < b + 64; omega)
    exact ⟨h.1, (hfield 0 4 (by decide)).trans h.2.1, (hfield 32 8 (by decide)).trans h.2.2⟩

/-- A block is inside of its span. -/
theorem Block.Own.sameOff (h : B.Own m) (hB : SpanOk B.span) (hp : Apart p B.span)
    (ho : SameOff p m m') : B.Own m' := by
  have hpos := hB.pos
  have hin : ∀ a, B.span.1 ≤ a → a < B.span.1 + B.span.2 * 4096 → m' a = m a := fun a h1 h2 => by
    refine ho a ?_
    rcases hp with hp | hp <;> omega
  refine h.congr (fun a h1 h2 => hin a h1 (by omega)) fun b c free live he o hfree a h1 h2 => ?_
  subst he
  have hwords := h.1.link_words hfree
  exact hin a (by show b ≤ a; omega) (by show a < b + 1 * 4096; omega)

/-- A block does not have the link fields. -/
theorem Block.Own.offLinks (h : B.Own m) (hB : SpanOk B.span) (ho : OffLinks m m') : B.Own m' := by
  cases B with
  | slab b c free live => exact ⟨h.1.offLinks hB.aligned ho, h.2⟩
  | large b n =>
    have hal : b % 4096 = 0 := hB.aligned
    refine ⟨h.1, ?_, ?_⟩
    · exact (rd_congr fun a h1 h2 => ho a (.inl (by omega))).trans h.2.1
    · exact (rd_congr fun a h1 h2 => ho a (.inr (by omega))).trans h.2.2

/-! ## The layout -/

/-- The spans of the blocks do not overlap. -/
structure Spans (bs : List Block) : Prop where
  span : ∀ B ∈ bs, SpanOk B.span
  apart : bs.Pairwise fun A B => Apart A.span B.span

theorem Spans.cons (h : Spans bs) (hspan : SpanOk B.span) (hapart : ∀ A ∈ bs, Apart B.span A.span) :
    Spans (B :: bs) :=
  ⟨forall_mem_cons.mpr ⟨hspan, h.span⟩, pairwise_cons.mpr ⟨hapart, h.apart⟩⟩

theorem Spans.tail (h : Spans (B :: bs)) : Spans bs :=
  ⟨fun A hA => h.span A (mem_cons_of_mem B hA), (pairwise_cons.mp h.apart).2⟩

theorem Spans.head_apart (h : Spans (B :: bs)) : ∀ A ∈ bs, Apart B.span A.span :=
  (pairwise_cons.mp h.apart).1

/-- The other blocks are elsewhere. -/
theorem Spans.base_ne (h : Spans (B :: bs)) : ∀ A ∈ bs, A.span.1 ≠ B.span.1 := fun A hA hbase => by
  have hA' := (h.tail.span A hA).pos
  have hB' := (h.span B mem_cons_self).pos
  rcases h.head_apart A hA with hlt | hlt <;> omega

section

variable (h : Spans bs)
include h

theorem Spans.perm (hp : bs.Perm bs') : Spans bs' :=
  ⟨fun B hB => h.span B (hp.mem_iff.mpr hB), (hp.pairwise_iff Apart.symm).mp h.apart⟩

theorem Spans.page (hB : .slab b c free live ∈ bs) : Page b := (h.span _ hB).page

theorem Spans.apart_of_ne (hA : A ∈ bs) (hB : B ∈ bs) (hne : A ≠ B) : Apart A.span B.span := by
  have : Std.Symm fun A B : Block => Apart A.span B.span := ⟨fun _ _ => Apart.symm⟩
  exact h.apart.forall hA hB hne

/-- Blocks are told apart by their addresses. -/
theorem Spans.eq_of_base (hA : A ∈ bs) (hB : B ∈ bs) (hb : A.span.1 = B.span.1) : A = B := by
  by_contra hne
  have hApos := (h.span A hA).pos
  have hBpos := (h.span B hB).pos
  rcases h.apart_of_ne hA hB hne with hlt | hlt <;> omega

/-- The pages of the blocks are distinct pages of the address space. -/
theorem Spans.pages_le : (bs.map fun B => B.span.2).sum ≤ 2 ^ 52 := by
  have hnd : (bs.flatMap fun B => List.range' (B.span.1 / 4096) B.span.2).Nodup := by
    refine nodup_flatMap.mpr ⟨fun B _ => nodup_range', ?_⟩
    refine h.apart.imp_of_mem fun {A B} hA hB hapart => ?_
    have hAal := (h.span A hA).aligned
    have hBal := (h.span B hB).aligned
    intro x hxA hxB
    simp only [mem_range'_1] at hxA hxB
    rcases hapart with hlt | hlt <;> omega
  have hsub : (bs.flatMap fun B => List.range' (B.span.1 / 4096) B.span.2) ⊆ List.range (2 ^ 52) := by
    intro x hx
    obtain ⟨B, hB, hx⟩ := mem_flatMap.mp hx
    have hfits := (h.span B hB).fits
    rw [mem_range'_1] at hx
    rw [mem_range]
    omega
  have hlen := (List.Nodup.subperm hnd hsub).length_le
  simpa only [length_flatMap, length_range', length_range] using hlen

end

/-- **The blocks of a heap** in its memory. -/
structure Layout (m : Bytes) (bs : List Block) : Prop extends Spans bs where
  own : ∀ B ∈ bs, B.Own m

theorem Layout.cons (h : Layout m bs) (hs : Spans (B :: bs)) (hown : B.Own m) : Layout m (B :: bs) :=
  ⟨hs, forall_mem_cons.mpr ⟨hown, h.own⟩⟩

theorem Layout.rest (h : Layout m (B :: bs)) : Layout m bs :=
  ⟨h.toSpans.tail, fun A hA => h.own A (mem_cons_of_mem B hA)⟩

theorem Layout.reorder (h : Layout m bs) (hp : bs.Perm bs') : Layout m bs' :=
  ⟨h.toSpans.perm hp, fun B hB => h.own B (hp.mem_iff.mpr hB)⟩

/-- **The frame**: what happens inside of a span apart from all blocks. -/
theorem Layout.frame (h : Layout m bs) (hp : ∀ B ∈ bs, Apart p B.span) (ho : SameOff p m m') :
    Layout m' bs :=
  ⟨h.toSpans, fun B hB => (h.own B hB).sameOff (h.span B hB) (hp B hB) ho⟩

theorem Layout.offLinks (h : Layout m bs) (ho : OffLinks m m') : Layout m' bs :=
  ⟨h.toSpans, fun B hB => (h.own B hB).offLinks (h.span B hB) ho⟩

/-- One slab is changed in place. -/
theorem Layout.replace (h : Layout m (.slab b c free live :: bs))
    (hown : (Block.slab b c free' live').Own m') (ho : SameOff (b, 1) m m') :
    Layout m' (.slab b c free' live' :: bs) := by
  refine (h.rest.frame h.toSpans.head_apart ho).cons ?_ hown
  exact h.toSpans.tail.cons (h.span (.slab b c free live) mem_cons_self) h.toSpans.head_apart

theorem Block.Own.objs_le (h : B.Own m) : B.objs ≤ 252 * B.span.2 := by
  cases B with
  | slab b c free live =>
    have hlen := h.1.length
    rw [length_map] at hlen
    show live.length ≤ 252 * 1
    omega
  | large b n => exact Nat.zero_le _

theorem Layout.objs_le (h : Layout m bs) : (bs.map Block.objs).sum ≤ 252 * 2 ^ 52 := by
  have hle : (bs.map Block.objs).sum ≤ (bs.map fun B => 252 * B.span.2).sum :=
    sum_le_sum fun B hB => (h.own B hB).objs_le
  rw [sum_map_mul_left] at hle
  exact hle.trans (Nat.mul_le_mul_left _ h.toSpans.pages_le)

/-! ## The partial lists -/

/-- The slab at `b` is of class `c` and has a free object. -/
def Spare (bs : List Block) (c b : Nat) : Prop :=
  ∃ free live, Block.slab b c free live ∈ bs ∧ free ≠ []

variable {c' : Nat}

variable {b' : Nat}

theorem spare_cons_slab : Spare (.slab b c free live :: bs) c' b' ↔
    (b' = b ∧ c' = c ∧ free ≠ []) ∨ Spare bs c' b' := by
  constructor
  · rintro ⟨free', live', hin, hne⟩
    rcases mem_cons.mp hin with heq | hin
    · cases heq
      exact .inl ⟨rfl, rfl, hne⟩
    · exact .inr ⟨free', live', hin, hne⟩
  · rintro (⟨rfl, rfl, hne⟩ | ⟨free', live', hin, hne⟩)
    · exact ⟨free, live, mem_cons_self, hne⟩
    · exact ⟨free', live', mem_cons_of_mem _ hin, hne⟩

theorem spare_cons_large : Spare (.large b n :: bs) c' b' ↔ Spare bs c' b' := by
  refine exists_congr fun free => exists_congr fun live => and_congr_left fun _ => ?_
  rw [mem_cons, or_iff_right Block.noConfusion]

/-- **The partial lists**: of each class, the slabs with a free object. -/
structure Linked (m : Bytes) (partials : Nat → Nat) (bs : List Block) (lists : Nat → List Nat) :
    Prop where
  links : ∀ c < 7, DList (next m) (prev m) (toLink (partials c)) (lists c)
  nodup : ∀ c < 7, (lists c).Nodup
  spare : ∀ c < 7, ∀ b, b ∈ lists c ↔ Spare bs c b

variable {partials : Nat → Nat} {lists : Nat → List Nat}

theorem Linked.congr (h : Linked m partials bs lists) (hs : ∀ c b, Spare bs' c b ↔ Spare bs c b) :
    Linked m partials bs' lists :=
  ⟨h.links, h.nodup, fun c hc b => (h.spare c hc b).trans (hs c b).symm⟩

/-- The lists are in the link fields of the blocks. -/
theorem Linked.frame (h : Linked m partials bs lists)
    (hm : ∀ B ∈ bs, ∀ a, B.span.1 + 16 ≤ a → a < B.span.1 + 32 → m' a = m a) :
    Linked m' partials bs lists := by
  have hword : ∀ c < 7, ∀ t ∈ lists c, ∀ off, 16 ≤ off → off + 8 ≤ 32 →
      rd m' (t + off) 8 = rd m (t + off) 8 := fun c hc t ht off h1 h2 => by
    obtain ⟨free, live, hin, -⟩ := (h.spare c hc t).mp ht
    refine rd_congr fun a h3 h4 => hm _ hin a ?_ ?_
    · show t + 16 ≤ a
      omega
    · show a < t + 32
      omega
  refine ⟨fun c hc => (h.links c hc).congr (fun t ht => ?_) fun t ht => ?_, h.nodup, h.spare⟩
  · exact congrArg toLink (hword c hc t ht 16 (by decide) (by decide))
  · exact congrArg toLink (hword c hc t ht 24 (by decide) (by decide))

/-- A slab is changed and its link fields are not. -/
theorem Linked.own (h : Linked m partials (.slab b c free live :: bs) lists)
    (hs : Spans (.slab b c free live :: bs)) (ho : SameOff (b, 1) m m')
    (hlinks : ∀ a, b + 16 ≤ a → a < b + 32 → m' a = m a) :
    Linked m' partials (.slab b c free live :: bs) lists := by
  refine h.frame fun B hB a h1 h2 => ?_
  rcases mem_cons.mp hB with rfl | hB
  · exact hlinks a h1 h2
  · have hpos := (hs.tail.span B hB).pos
    have hapart : b + 1 * 4096 ≤ B.span.1 ∨ B.span.1 + B.span.2 * 4096 ≤ b := hs.head_apart B hB
    exact ho a (by show a < b ∨ b + 1 * 4096 ≤ a; omega)

/-- Slabs of different classes are different. -/
theorem Spans.spare_unique (h : Spans bs) (hb : Spare bs c b) (hb' : Spare bs c' b) : c = c' := by
  obtain ⟨_, _, hin, -⟩ := hb
  obtain ⟨_, _, hin', -⟩ := hb'
  have heq := h.eq_of_base hin hin' rfl
  cases heq
  rfl

variable {h : Heap}

/-- **`partial_insert`** and the lists of all classes. -/
theorem Linked.insert (live : List (Nat × Nat)) (hl : Linked h.mem h.partials bs lists)
    (hs : Spans bs) (hc : c < 7) (hb : Page b) (hnew : ∀ B ∈ bs, B.span.1 ≠ b) (hfree : free ≠ []) :
    ∃ m' lists', partialInsert c b h =
        { h with mem := m', partials := update h.partials c b } ∧
      OffLinks h.mem m' ∧
      Linked m' (update h.partials c b) (.slab b c free live :: bs) lists' := by
  have hnot : ∀ c, ¬ Spare bs c b := fun c ⟨_, _, hin, _⟩ => hnew _ hin rfl
  have hpages : ∀ c < 7, ∀ x ∈ lists c, Page x := fun c hc x hx => by
    obtain ⟨_, _, hin, -⟩ := (hl.spare c hc x).mp hx
    exact hs.page hin
  have hmem : b ∉ lists c := fun hin => hnot c ((hl.spare c hc b).mp hin)
  obtain ⟨m', heq, hoff, hd, hframe⟩ :=
    partialInsert_spec (hl.links c hc) (hpages c hc) hb hmem (hl.nodup c hc)
  refine ⟨m', update lists c (b :: lists c), heq, hoff, ?_, ?_, ?_⟩
  · intro c' hc'
    by_cases hcc : c' = c
    · subst hcc
      rw [update_self, update_self, toLink_of_ne hb.ne]
      exact hd
    · rw [update_of_ne hcc, update_of_ne hcc]
      -- the lists of other classes have other slabs
      have hother : ∀ t ∈ lists c', next m' t = next h.mem t ∧ prev m' t = prev h.mem t := by
        intro t ht
        refine hframe t (hpages c' hc' t ht).aligned fun hin => ?_
        have hspare := (hl.spare c' hc' t).mp ht
        rcases mem_cons.mp hin with rfl | hin
        · exact hnot c' hspare
        · exact hcc (hs.spare_unique hspare ((hl.spare c hc t).mp hin))
      exact (hl.links c' hc').congr (fun t ht => (hother t ht).1) fun t ht => (hother t ht).2
  · intro c' hc'
    by_cases hcc : c' = c
    · subst hcc
      rw [update_self]
      exact nodup_cons.mpr ⟨hmem, hl.nodup c' hc'⟩
    · rw [update_of_ne hcc]
      exact hl.nodup c' hc'
  · intro c' hc' x
    rw [spare_cons_slab, ← hl.spare c' hc' x]
    by_cases hcc : c' = c
    · subst hcc
      rw [update_self, mem_cons]
      exact or_congr_left ⟨fun hx => ⟨hx, rfl, hfree⟩, And.left⟩
    · rw [update_of_ne hcc]
      exact (or_iff_right fun hx => hcc hx.2.1).symm

/-- **`partial_remove`** and the lists of all classes. -/
theorem Linked.remove (hl : Linked h.mem h.partials (.slab b c free live :: bs) lists)
    (hs : Spans (.slab b c free live :: bs)) (hc : c < 7) (hfree : free ≠ []) :
    ∃ m' head lists', partialRemove c b h =
        { h with mem := m', partials := update h.partials c head } ∧
      OffLinks h.mem m' ∧ Linked m' (update h.partials c head) bs lists' := by
  have hnot : ∀ c, ¬ Spare bs c b := fun c' ⟨_, _, hin, _⟩ => hs.base_ne _ hin rfl
  have hpages : ∀ c < 7, ∀ x ∈ lists c, Page x := fun c hc x hx => by
    obtain ⟨_, _, hin, -⟩ := (hl.spare c hc x).mp hx
    exact hs.page hin
  have hin : b ∈ lists c := (hl.spare c hc b).mpr ⟨free, live, mem_cons_self, hfree⟩
  obtain ⟨l, l', hsplit⟩ := append_of_mem hin
  have hd := hl.links c hc
  have hp := hpages c hc
  have hnd := hl.nodup c hc
  rw [hsplit] at hd hp hnd
  obtain ⟨m', head, heq, hoff, hd', hframe⟩ := partialRemove_spec hd hp hnd
  have hnd' := nodup_cons.mp (perm_middle.nodup_iff.mp hnd)
  refine ⟨m', head, update lists c (l ++ l'), heq, hoff, ?_, ?_, ?_⟩
  · intro c' hc'
    by_cases hcc : c' = c
    · subst hcc
      rw [update_self, update_self]
      exact hd'
    · rw [update_of_ne hcc, update_of_ne hcc]
      have hother : ∀ t ∈ lists c', next m' t = next h.mem t ∧ prev m' t = prev h.mem t := by
        intro t ht
        refine hframe t (hpages c' hc' t ht).aligned fun hin => ?_
        rw [← hsplit] at hin
        exact hcc (hs.spare_unique ((hl.spare c' hc' t).mp ht) ((hl.spare c hc t).mp hin))
      exact (hl.links c' hc').congr (fun t ht => (hother t ht).1) fun t ht => (hother t ht).2
  · intro c' hc'
    by_cases hcc : c' = c
    · subst hcc
      rw [update_self]
      exact hnd'.2
    · rw [update_of_ne hcc]
      exact hl.nodup c' hc'
  · intro c' hc' x
    have hspare := hl.spare c' hc' x
    rw [spare_cons_slab] at hspare
    by_cases hcc : c' = c
    · subst hcc
      rw [update_self]
      rw [hsplit, perm_middle.mem_iff, mem_cons] at hspare
      constructor
      · intro hx
        have hxb : x ≠ b := fun hxb => hnd'.1 (hxb ▸ hx)
        exact (hspare.mp (.inr hx)).resolve_left fun hx' => hxb hx'.1
      · intro hx
        have hxb : x ≠ b := fun hxb => hnot c' (hxb ▸ hx)
        exact (hspare.mpr (.inr hx)).resolve_left hxb
    · rw [update_of_ne hcc]
      exact hspare.trans (or_iff_right fun hx => hcc hx.2.1)

/-! ## The statistics -/

/-- The spans held, and the counters. -/
structure Counted (h : Heap) (bs : List Block) : Prop where
  held : h.held.Perm (bs.map Block.span)
  objects : h.liveObjects = (bs.map Block.objs).sum
  pages : h.livePages = (bs.map fun B => B.span.2).sum

/-- The pages do not overflow their counter. -/
theorem Counted.cons_pages (hcount : Counted h bs) (hs : Spans (B :: bs)) :
    (h.livePages + B.span.2) % 2 ^ 64 = ((B :: bs).map fun B => B.span.2).sum := by
  have hle := hs.pages_le
  rw [map_cons, sum_cons] at hle ⊢
  rw [hcount.pages]
  omega

/-- **What a heap holds**, with the partial lists of its classes. -/
structure Core (h : Heap) (bs : List Block) (lists : Nat → List Nat) : Prop where
  layout : Layout h.mem bs
  linked : Linked h.mem h.partials bs lists
  counted : Counted h bs

theorem Core.reorder (hcore : Core h bs lists) (hp : bs.Perm bs') : Core h bs' lists := by
  refine ⟨hcore.layout.reorder hp, hcore.linked.congr fun c b => ?_, ?_, ?_, ?_⟩
  · exact exists_congr fun _ => exists_congr fun _ => and_congr_left fun _ => hp.mem_iff.symm
  · exact hcore.counted.held.trans (hp.map _)
  · exact hcore.counted.objects.trans (hp.map _).sum_eq
  · exact hcore.counted.pages.trans (hp.map _).sum_eq

/-- A block of a heap brought to the front. -/
theorem Core.front (hcore : Core h bs lists) (hB : B ∈ bs) : ∃ bs', bs.Perm (B :: bs') ∧
    Core h (B :: bs') lists := by
  obtain ⟨l, l', rfl⟩ := append_of_mem hB
  exact ⟨l ++ l', perm_middle, hcore.reorder perm_middle⟩

theorem Core.slabOk (hcore : Core h (.slab b c free live :: bs) lists) :
    Page b ∧ SlabOk h.mem b c free (live.map Prod.fst) ∧ ∀ p ∈ live, classFor p.2 = some c :=
  ⟨hcore.layout.page mem_cons_self, hcore.layout.own _ mem_cons_self⟩

/-! ## Allocating -/

theorem classFor_lt (hn : classFor n = some c) : c < 7 :=
  mem_range.mp (mem_of_find?_eq_some hn)

variable {l : List Nat}

/-- The free list is empty when no object is free. -/
theorem SlabOk.freeList_eq_zero (hs : SlabOk m b c free l) : freeList m b = 0 ↔ free = [] := by
  rw [← toLink_eq_none]
  exact hs.chain.nil_iff

/-- **The end of `heap_core_alloc`.** -/
theorem Core.take (hcore : Core h (.slab b c (o :: free) live :: bs) lists)
    (hn : classFor n = some c) : ∃ h' lists', takeObject c b h = (o, h') ∧
      Core h' (.slab b c free ((o, n) :: live) :: bs) lists' := by
  obtain ⟨hpage, hslab, hsizes⟩ := hcore.slabOk
  obtain ⟨hfl, htaken⟩ := hslab.take
  have hinuse : inuse (wr h.mem (b + 8) 8 (objNext h.mem o)) b = inuse h.mem b :=
    rd_wr_of_disjoint (.inl (by omega))
  generalize hm : wr (wr h.mem (b + 8) 8 (objNext h.mem o)) (b + 6) 2 (inuse h.mem b + 1) = m' at htaken
  have hother : ∀ a, a < b + 6 ∨ b + 16 ≤ a → m' a = h.mem a := fun a ha => by
    rw [← hm, wr_of_not_mem (by omega), wr_of_not_mem (by omega)]
  have hoff : SameOff (b, 1) h.mem m' := fun a ha => hother a (by
    have ha' : a < b ∨ b + 1 * 4096 ≤ a := ha
    omega)
  have heq : takeObject c b h = (o, if freeList m' b = 0 then
      partialRemove c b { h with mem := m', liveObjects := (h.liveObjects + 1) % 2 ^ 64 }
      else { h with mem := m', liveObjects := (h.liveObjects + 1) % 2 ^ 64 }) := by
    simp only [takeObject, store, hfl, hinuse, hm]
  have hown : (Block.slab b c free ((o, n) :: live)).Own m' :=
    ⟨htaken, forall_mem_cons.mpr ⟨hn, hsizes⟩⟩
  have hlay := hcore.layout.replace hown hoff
  have hlink := hcore.linked.own hcore.layout.toSpans hoff fun a h1 _ => hother a (.inr h1)
  have hobjs : (h.liveObjects + 1) % 2 ^ 64 =
      ((Block.slab b c free ((o, n) :: live) :: bs).map Block.objs).sum := by
    have hle := hlay.objs_le
    have hold := hcore.counted.objects
    simp only [map_cons, sum_cons, Block.objs, length_cons] at hle hold ⊢
    omega
  by_cases hfree : free = []
  · -- the slab is now full
    subst hfree
    obtain ⟨m'', head, lists', hrem, hoff', hlink'⟩ :=
      Linked.remove (h := { h with mem := m', liveObjects := (h.liveObjects + 1) % 2 ^ 64 })
        hlink hcore.layout.toSpans hslab.lt (cons_ne_nil o [])
    refine ⟨_, lists', by rw [heq, if_pos (htaken.freeList_eq_zero.mpr rfl), hrem], ?_, ?_, ?_⟩
    · exact hlay.offLinks hoff'
    · refine hlink'.congr fun c' b' => ?_
      rw [spare_cons_slab, or_iff_right fun hx => hx.2.2 rfl]
    · exact ⟨hcore.counted.held, hobjs, hcore.counted.pages⟩
  · refine ⟨_, lists, by rw [heq, if_neg fun h0 => hfree (htaken.freeList_eq_zero.mp h0)], hlay, ?_, ?_⟩
    · refine hlink.congr fun c' b' => ?_
      rw [spare_cons_slab, spare_cons_slab]
      simp only [hfree, ne_eq, not_false_eq_true, and_true, cons_ne_nil]
    · exact ⟨hcore.counted.held, hobjs, hcore.counted.pages⟩

/-- **`slab_create`**, and the slab put on its list. -/
theorem Core.create (hcore : Core h bs lists) (hc : c < 7) (hb : Page b)
    (hapart : ∀ B ∈ bs, Apart (b, 1) B.span) : ∃ lists', (slabCreate c b h).1 = b ∧
      Core (partialInsert c b (slabCreate c b h).2) (.slab b c (objects b c) [] :: bs) lists' := by
  have heq : slabCreate c b h = (b, { h with
      mem := created h.mem b c
      livePages := (h.livePages + 1) % 2 ^ 64
      held := (b, 1) :: h.held }) := by
    simp only [slabCreate, pagesAlloc, if_neg hb.ne, store, created]
  have hoff : SameOff (b, 1) h.mem (created h.mem b c) := fun a ha => created_of_not_mem hc (by
    have ha' : a < b ∨ b + 1 * 4096 ≤ a := ha
    omega)
  have hspans : Spans (.slab b c (objects b c) [] :: bs) :=
    hcore.layout.toSpans.cons hb.spanOk hapart
  have hlink : Linked (created h.mem b c) h.partials bs lists := by
    refine hcore.linked.frame fun B hB a h1 h2 => hoff a ?_
    have hpos := (hcore.layout.span B hB).pos
    have hlt : b + 1 * 4096 ≤ B.span.1 ∨ B.span.1 + B.span.2 * 4096 ≤ b := hapart B hB
    show a < b ∨ b + 1 * 4096 ≤ a
    omega
  have hfree : objects b c ≠ [] := fun hnil => by
    have hlen := length_objects b c
    have hcount := (classSize_spec hc).2.2.2.1
    rw [hnil, length_nil] at hlen
    omega
  rw [heq]
  obtain ⟨m', lists', hins, hoff', hlink'⟩ := Linked.insert (h := { h with
      mem := created h.mem b c
      livePages := (h.livePages + 1) % 2 ^ 64
      held := (b, 1) :: h.held }) [] hlink hcore.layout.toSpans hc hb hspans.base_ne hfree
  refine ⟨lists', rfl, ?_⟩
  rw [hins]
  refine ⟨Layout.offLinks ?_ hoff', hlink', ?_, ?_, ?_⟩
  · refine (hcore.layout.frame hapart hoff).cons hspans ⟨?_, fun _ hx => by cases hx⟩
    exact slabOk_created h.mem hc hb.fits
  · exact hcore.counted.held.cons _
  · show h.liveObjects = _
    rw [hcore.counted.objects, map_cons, sum_cons]
    exact (Nat.zero_add _).symm
  · exact hcore.counted.cons_pages hspans

/-- **`alloc_large`**, unless it asks for no pages. -/
theorem Core.createLarge (hcore : Core h bs lists) (hn : classFor n = none)
    (hb : SpanOk (b, pagesFor n)) (hapart : ∀ B ∈ bs, Apart (b, pagesFor n) B.span) :
    ∃ h', allocLarge n b h = (b + 64, h') ∧ Core h' (.large b n :: bs) lists := by
  have hpos : 0 < pagesFor n := hb.pos
  have hlt : pagesFor n < 256 ^ 8 := by
    unfold pagesFor
    omega
  have hspans : Spans (.large b n :: bs) := hcore.layout.toSpans.cons hb hapart
  generalize hm : wr (wr (fill h.mem b 64 0) b 4 largeMagic) (b + 32) 8 (pagesFor n) = m'
  have heq : allocLarge n b h = (b + 64, { h with
      mem := m'
      livePages := (h.livePages + pagesFor n) % 2 ^ 64
      held := (b, pagesFor n) :: h.held }) := by
    simp only [allocLarge, pagesAlloc, if_neg hb.ne, store, hm]
  have hoff : SameOff (b, pagesFor n) h.mem m' := fun a ha => by
    have ha' : a < b ∨ b + pagesFor n * 4096 ≤ a := ha
    rw [← hm, wr_of_not_mem (by omega), wr_of_not_mem (by omega), fill_of_not_mem (by omega)]
  have hmagic : magic m' b = largeMagic := by
    rw [magic, ← hm, rd_wr_of_disjoint (.inl (by omega)), rd_wr]
    decide
  have hcount : npages m' b = pagesFor n := by
    rw [npages, ← hm, rd_wr, Nat.mod_eq_of_lt hlt]
  refine ⟨_, heq, ?_, ?_, ?_, ?_, ?_⟩
  · exact (hcore.layout.frame hapart hoff).cons hspans ⟨hn, hmagic, hcount⟩
  · refine Linked.congr (hcore.linked.frame fun B hB a h1 h2 => hoff a ?_) fun _ _ => spare_cons_large
    have hBpos := (hcore.layout.span B hB).pos
    have hlt : b + pagesFor n * 4096 ≤ B.span.1 ∨ B.span.1 + B.span.2 * 4096 ≤ b := hapart B hB
    show a < b ∨ b + pagesFor n * 4096 ≤ a
    omega
  · exact hcore.counted.held.cons _
  · show h.liveObjects = _
    rw [hcore.counted.objects, map_cons, sum_cons]
    exact (Nat.zero_add _).symm
  · exact hcore.counted.cons_pages hspans

/-! ## Freeing -/

/-- The block in front is given back to the backend, its first bytes overwritten. -/
theorem Core.release {k : Nat} (hB : B.span = (b, k)) (hlay : Layout m bs)
    (hlink : Linked m h.partials bs lists) (hcount : Counted h (B :: bs)) (hs : Spans (B :: bs))
    (hobjs : B.objs = 0) (ho : SameOff (b, k) m m') :
    Core { h with
      mem := m'
      livePages := (h.livePages + 2 ^ 64 - k) % 2 ^ 64
      held := h.held.erase (b, k) } bs lists := by
  have hapart := hs.head_apart
  rw [hB] at hapart
  refine ⟨hlay.frame hapart ho, hlink.frame fun A hA a h1 h2 => ho a ?_, ?_, ?_, ?_⟩
  · have hpos := (hs.tail.span A hA).pos
    rcases hapart A hA with hlt | hlt <;> omega
  · have hheld := hcount.held.erase (b, k)
    rwa [map_cons, hB, erase_cons_head] at hheld
  · have hold := hcount.objects
    rw [map_cons, sum_cons, hobjs, Nat.zero_add] at hold
    exact hold
  · have hle := hs.pages_le
    have hold := hcount.pages
    simp only [map_cons, sum_cons, hB] at hle hold ⊢
    omega

/-- **`heap_core_free`** of a large allocation. -/
theorem Core.freeLarge (hcore : Core h (.large b n :: bs) lists) :
    ∃ h', heapCoreFree (b + 64) h = (0, h') ∧ Core h' bs lists ∧ magic h'.mem b = 0 := by
  obtain ⟨-, hmagic, hcount⟩ := hcore.layout.own _ mem_cons_self
  have hspan : SpanOk (b, pagesFor n) := hcore.layout.span _ mem_cons_self
  have hal : b % 4096 = 0 := hspan.aligned
  have hpos : 0 < pagesFor n := hspan.pos
  have hbase : (b + 64) / 4096 * 4096 = b := by omega
  have heq : heapCoreFree (b + 64) h = (0, { h with
      mem := wr h.mem b 4 0
      livePages := (h.livePages + 2 ^ 64 - pagesFor n) % 2 ^ 64
      held := h.held.erase (b, pagesFor n) }) := by
    rw [heapCoreFree, if_neg (by omega)]
    simp only [hbase, hmagic, if_true, ne_eq, not_true_eq_false, if_false, hcount, store, pagesFree]
  refine ⟨_, heq, Core.release (B := .large b n) rfl hcore.layout.rest ?_ hcore.counted
    hcore.layout.toSpans rfl fun a ha => ?_, rd_wr ..⟩
  · exact hcore.linked.congr fun _ _ => spare_cons_large.symm
  · have ha' : a < b ∨ b + pagesFor n * 4096 ≤ a := ha
    exact wr_of_not_mem (by omega)

/-- The memory after an object went back to its slab. -/
def given (m : Bytes) (b o : Nat) : Bytes :=
  wr (wr (wr m o 8 (freeList m b)) (b + 8) 8 o) (b + 6) 2 (inuse m b + 2 ^ 16 - 1)

/-- `heap_core_free` of an object of a slab in use gets to its end. -/
theorem SlabOk.heapCoreFree_eq (hslab : SlabOk h.mem b c free l) (hpage : Page b)
    (ho : o ∈ objects b c) (hl : l ≠ []) : heapCoreFree o h = (0, giveObject o b h) := by
  have hbase := object_page hslab.lt hpage.aligned ho
  have hcount : inuse h.mem b ≠ 0 := fun h0 =>
    hl (length_eq_zero_iff.mp (hslab.counted.symm.trans h0))
  have hfits := hpage.fits
  obtain ⟨i, hi, ho⟩ := mem_objects.mp ho
  obtain ⟨hsize, -, hfit, -⟩ := classSize_spec hslab.lt
  have hle : (i + 1) * classSize c ≤ objectsPerSlab c * classSize c := Nat.mul_le_mul_right _ hi
  rw [Nat.succ_mul] at hle
  have hoffset : (o + 2 ^ 64 - (b + 64)) % 2 ^ 64 = i * classSize c := by
    rw [ho]
    omega
  have hmagic : magic h.mem b ≠ largeMagic := by
    rw [hslab.isSlab]
    decide
  have hdiv : i * classSize c / classSize c = i := Nat.mul_div_cancel i (by omega)
  have hlt := hslab.lt
  rw [heapCoreFree, if_neg (by rw [ho]; omega)]
  simp only [hbase]
  rw [if_neg hmagic, if_neg (by rw [hslab.isSlab, hslab.ofClass]; omega), hslab.ofClass, hoffset,
    Nat.mul_mod_left, hdiv, if_neg (by omega)]

/-- `heap_core_free` of another address in the page of a slab. -/
theorem SlabOk.heapCoreFree_of_not_mem {a : Nat} (hslab : SlabOk h.mem b c free l) (hpage : Page b)
    (hlo : b ≤ a) (hhi : a < b + 4096) (ha : a ∉ objects b c) : heapCoreFree a h = (-1, h) := by
  have hal := hpage.aligned
  have hne := hpage.ne
  have hfits := hpage.fits
  have hbase : a / 4096 * 4096 = b := by omega
  have hmagic : magic h.mem b ≠ largeMagic := by
    rw [hslab.isSlab]
    decide
  have hlt := hslab.lt
  obtain ⟨hsize, -, hfit, -, hcount⟩ := classSize_spec hlt
  have hreject : (a + 2 ^ 64 - (b + 64)) % 2 ^ 64 % classSize c ≠ 0 ∨
      objectsPerSlab c ≤ (a + 2 ^ 64 - (b + 64)) % 2 ^ 64 / classSize c ∨ inuse h.mem b = 0 := by
    by_cases hbig : a < b + 64
    · -- the offset has wrapped and is beyond every object
      refine .inr (.inl ((Nat.le_div_iff_mul_le (by omega)).mpr ?_))
      omega
    · by_contra hnot
      obtain ⟨hmod, hdiv, -⟩ : _ ∧ _ ∧ _ := by
        rw [not_or, not_or, not_not] at hnot
        exact hnot
      have hoffset : (a + 2 ^ 64 - (b + 64)) % 2 ^ 64 = a - (b + 64) := by omega
      rw [hoffset] at hmod hdiv
      refine ha (mem_objects.mpr ⟨(a - (b + 64)) / classSize c, Nat.lt_of_not_le hdiv, ?_⟩)
      rw [Nat.div_mul_cancel (Nat.dvd_of_mod_eq_zero hmod)]
      omega
  rw [heapCoreFree, if_neg (by omega)]
  simp only [hbase]
  rw [if_neg hmagic, if_neg (by rw [hslab.isSlab, hslab.ofClass]; omega), hslab.ofClass, if_pos hreject]

/-- **The end of `heap_core_free`**: the slab still has a live object, or its page is returned. -/
theorem Core.give (hcore : Core h (.slab b c free ((o, n) :: live) :: bs) lists) : ∃ lists',
    Core (giveObject o b h) (if live = [] then bs else .slab b c (o :: free) live :: bs) lists' ∧
      (live = [] → magic (giveObject o b h).mem b = 0) := by
  obtain ⟨hpage, hslab, hsizes⟩ := hcore.slabOk
  have ho : o ∈ objects b c := hslab.mem_live mem_cons_self
  obtain ⟨hlo, hhi⟩ := object_bounds hslab.lt ho
  have hsize := (classSize_spec hslab.lt).1
  have hgiven : SlabOk (given h.mem b o) b c (o :: free) (live.map Prod.fst) := hslab.give hpage.fits
  have hoff : SameOff (b, 1) h.mem (given h.mem b o) := fun a ha => by
    have ha' : a < b ∨ b + 1 * 4096 ≤ a := ha
    rw [given, wr_of_not_mem (by omega), wr_of_not_mem (by omega), wr_of_not_mem (by omega)]
  have hown : (Block.slab b c (o :: free) live).Own (given h.mem b o) :=
    ⟨hgiven, fun p hp => hsizes p (mem_cons_of_mem _ hp)⟩
  have hlay := hcore.layout.replace hown hoff
  have hlink : Linked (given h.mem b o) h.partials (.slab b c free ((o, n) :: live) :: bs) lists := by
    refine hcore.linked.own hcore.layout.toSpans hoff fun a h1 h2 => ?_
    rw [given, wr_of_not_mem (by omega), wr_of_not_mem (by omega), wr_of_not_mem (by omega)]
  -- the heap before the lists are touched
  generalize hh : ({ h with mem := given h.mem b o
                            liveObjects := (h.liveObjects + 2 ^ 64 - 1) % 2 ^ 64 } : Heap) = h₁
  have hcount : Counted h₁ (.slab b c (o :: free) live :: bs) := by
    have hle := hcore.layout.objs_le
    have hold := hcore.counted.objects
    subst hh
    refine ⟨hcore.counted.held, ?_, hcore.counted.pages⟩
    simp only [map_cons, sum_cons, Block.objs, length_cons] at hle hold ⊢
    omega
  have heq : giveObject o b h =
      if live = [] then
        let h₂ := if free = [] then h₁ else partialRemove c b h₁
        { h₂ with
          mem := wr h₂.mem b 4 0
          livePages := (h₂.livePages + 2 ^ 64 - 1) % 2 ^ 64
          held := h₂.held.erase (b, 1) }
      else if free = [] then partialInsert c b h₁ else h₁ := by
    have hinuse : inuse (wr (wr h.mem o 8 (freeList h.mem b)) (b + 8) 8 o) b = inuse h.mem b := by
      rw [inuse, rd_wr_of_disjoint (.inl (by omega)), rd_wr_of_disjoint (.inl (by omega))]
      rfl
    have hzero : inuse (given h.mem b o) b = 0 ↔ live = [] := by
      rw [hgiven.counted, length_map, length_eq_zero_iff]
    have hcls : classIdx (given h.mem b o) b = c := hgiven.ofClass
    unfold given at hzero hcls hh
    simp only [giveObject, store, hinuse, hslab.freeList_eq_zero, hzero, hcls, hh, pagesFree]
  have hlay₁ : Layout h₁.mem (.slab b c (o :: free) live :: bs) := hh ▸ hlay
  have hlink₁ : Linked h₁.mem h₁.partials (.slab b c free ((o, n) :: live) :: bs) lists := hh ▸ hlink
  -- a full slab is on no list
  have hrest : free = [] → Linked h₁.mem h₁.partials bs lists := fun hfree =>
    hlink₁.congr fun c' b' => by rw [spare_cons_slab, or_iff_right fun hx => hx.2.2 hfree]
  have hpoison : ∀ m, SameOff (b, 1) m (wr m b 4 0) := fun m a ha => by
    have ha' : a < b ∨ b + 1 * 4096 ≤ a := ha
    exact wr_of_not_mem (by omega)
  rw [heq]
  by_cases hlive : live = []
  · subst hlive
    rw [if_pos rfl, if_pos rfl]
    by_cases hfree : free = []
    · rw [if_pos hfree]
      exact ⟨lists, Core.release rfl hlay₁.rest (hrest hfree) hcount hlay.toSpans rfl (hpoison _),
        fun _ => rd_wr ..⟩
    · obtain ⟨m'', head, lists', hrem, hoff', hlink'⟩ :=
        hlink₁.remove hcore.layout.toSpans hslab.lt hfree
      rw [if_neg hfree, hrem]
      exact ⟨lists', Core.release (h := { h₁ with mem := m'', partials := _ }) rfl
        (hlay₁.offLinks hoff').rest hlink' ⟨hcount.held, hcount.objects, hcount.pages⟩ hlay.toSpans rfl
        (hpoison _), fun _ => rd_wr ..⟩
  · rw [if_neg hlive, if_neg hlive]
    by_cases hfree : free = []
    · have hnew : ∀ B ∈ bs, B.span.1 ≠ b := hlay.toSpans.base_ne
      obtain ⟨m'', lists', hins, hoff', hlink'⟩ :=
        (hrest hfree).insert _ hlay.toSpans.tail hslab.lt hpage hnew (cons_ne_nil o free)
      rw [if_pos hfree, hins]
      exact ⟨lists', ⟨hlay₁.offLinks hoff', hlink', hcount.held, hcount.objects, hcount.pages⟩,
        fun hnil => absurd hnil hlive⟩
    · rw [if_neg hfree]
      refine ⟨lists, ⟨hlay₁, hlink₁.congr fun c' b' => ?_, hcount⟩, fun hnil => absurd hnil hlive⟩
      rw [spare_cons_slab, spare_cons_slab]
      simp only [hfree, ne_eq, not_false_eq_true, and_true, cons_ne_nil]

end Hallucinate.Mm.Heap
