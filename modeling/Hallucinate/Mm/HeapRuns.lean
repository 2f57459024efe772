import Hallucinate.Lib.Trans
import Hallucinate.Mm.HeapInv

/-!
# Runs of the kernel heap

The heap between its clients and the backend. A client allocates, frees what it has got and writes to
it; the backend answers NULL or a span of pages that overlaps none that is held, and what it has in
memory outside of the spans held may change at any time.

`alloc_large` computes its number of pages from `size + 4159`, which is above `2 ^ 64` for sizes close to
it. For the sizes from `2 ^ 64 - 4159` to `2 ^ 64 - 64` it asks for no pages at all and then writes a
header to the address it got (`wrapped_alloc`). `pmm_core_alloc_run` answers a count of 0 with an error,
other backends need not.

* `Inv.step`: what one call or write keeps.
* **`heap_sound`**: in every run without such a size, the live allocations are disjoint and can be
  freed, the statistics are exact, the partial lists hold the partly used slabs, and a heap with nothing
  live holds nothing.
-/

namespace Hallucinate.Mm.Heap

open Lib List

/-! ## The system -/

/-- The heap, and the allocations that are live: address and size asked for. -/
structure HeapSys where
  heap : Heap
  live : List (Nat × Nat)

inductive HeapAct
  | alloc (size got : Nat)
  | free (ptr : Nat)
  | write (mem : Bytes)

/-- The bytes of the slot of an allocation: of its class, or of its pages without the header. -/
def slotSize (size : Nat) : Nat :=
  match classFor size with
  | some c => classSize c
  | none => pagesFor size * 4096 - 64

/-- The number of pages `heap_core_alloc` asks for, if it does. -/
def asked (size : Nat) : Nat := if size ≤ 1024 then 1 else pagesFor size

/-- NULL, or a fresh span of pages. -/
def Answer (h : Heap) (got count : Nat) : Prop :=
  got = 0 ∨ got % 4096 = 0 ∧ got + count * 4096 ≤ 2 ^ 64 ∧ ∀ p ∈ h.held, Apart (got, count) p

/-- The byte is in a span that is held and in no live slot. -/
def HeapSys.Kept (s : HeapSys) (a : Nat) : Prop :=
  (∃ p ∈ s.heap.held, p.1 ≤ a ∧ a < p.1 + p.2 * 4096) ∧
    ∀ p ∈ s.live, a < p.1 ∨ p.1 + slotSize p.2 ≤ a

/-- A call of `heap_core_alloc`, where the backend answers `got`. -/
def HeapSys.alloc (s : HeapSys) (size got : Nat) : HeapSys :=
  let (p, h) := heapCoreAlloc size got s.heap
  ⟨h, if p = 0 then s.live else (p, size) :: s.live⟩

/-- A call of `heap_core_free` on a live allocation. -/
def HeapSys.free (s : HeapSys) (ptr size : Nat) : HeapSys :=
  ⟨(heapCoreFree ptr s.heap).2, s.live.erase (ptr, size)⟩

inductive HeapStep : HeapSys → HeapAct → HeapSys → Prop
  | alloc {s : HeapSys} {size got : Nat} (hsize : size < 2 ^ 64)
      (hgot : Answer s.heap got (asked size)) : HeapStep s (.alloc size got) (s.alloc size got)
  | free {s : HeapSys} {ptr size : Nat} (hlive : (ptr, size) ∈ s.live) :
      HeapStep s (.free ptr) (s.free ptr size)
  | write {s : HeapSys} {m : Bytes} (hm : ∀ a, s.Kept a → m a = s.heap.mem a) :
      HeapStep s (.write m) ⟨{ s.heap with mem := m }, s.live⟩

def heapStart (mem : Bytes) : HeapSys := ⟨heapCoreInit mem, []⟩

/-- The number of pages is not computed as 0, or there are none. -/
def NoWrap : HeapAct → Prop
  | .alloc size got => 2 ^ 64 - 4159 ≤ size → size ≤ 2 ^ 64 - 64 → got = 0
  | _ => True

/-- The page at `b` is a slab of class `c`. -/
def HeapSys.IsSlab (s : HeapSys) (b c : Nat) : Prop :=
  (b, 1) ∈ s.heap.held ∧ magic s.heap.mem b = slabMagic ∧ classIdx s.heap.mem b = c

/-- The address is a live allocation. -/
def HeapSys.Live (s : HeapSys) (ptr : Nat) : Prop := ∃ size, (ptr, size) ∈ s.live

/-- **What a heap is for.** -/
structure Sound (s : HeapSys) : Prop where
  disjoint : s.live.Pairwise fun p q => p.1 + slotSize p.2 ≤ q.1 ∨ q.1 + slotSize q.2 ≤ p.1
  aligned : ∀ p ∈ s.live, p.1 % 16 = 0
  headers : ∀ p ∈ s.live, ∀ q ∈ s.heap.held, p.1 + slotSize p.2 ≤ q.1 ∨ q.1 + 64 ≤ p.1
  frees : ∀ p ∈ s.live, (heapCoreFree p.1 s.heap).1 = 0
  counted : s.heap.liveObjects = s.live.countP fun p => p.2 ≤ 1024
  pages : s.heap.livePages = (s.heap.held.map Prod.snd).sum
  partials : ∀ c < 7, ∃ l : List Nat, l.Nodup ∧
    DList (next s.heap.mem) (prev s.heap.mem) (toLink (s.heap.partials c)) l ∧
    ∀ b, b ∈ l ↔ s.IsSlab b c ∧ (∃ o ∈ objects b c, s.Live o) ∧ ∃ o ∈ objects b c, ¬ s.Live o
  returned : s.live = [] → s.heap.held = []

/-! ## The invariant -/

/-- The blocks of the heap hold the live allocations, and each holds one. -/
structure Inv (s : HeapSys) (bs : List Block) (lists : Nat → List Nat) : Prop where
  core : Core s.heap bs lists
  live : s.live.Perm (bs.flatMap Block.slots)
  used : ∀ B ∈ bs, B.slots ≠ []

variable {s s' : HeapSys} {m m' : Bytes} {b c n o : Nat} {A B : Block} {bs : List Block}
  {lists : Nat → List Nat} {free : List Nat} {live live' : List (Nat × Nat)}

theorem classFor_spec : classFor n = none ↔ 1024 < n := by
  rw [classFor, find?_eq_none]
  constructor
  · intro h
    have h6 := h 6 (by decide)
    rw [decide_eq_true_eq, Nat.not_le] at h6
    exact h6
  · intro hn i hi
    have hle : classSize i ≤ 1024 := by
      have hi' := mem_range.mp hi
      revert hi' i
      decide
    simp only [decide_eq_true_eq]
    omega

theorem slotSize_small (hn : classFor n = some c) : slotSize n = classSize c := by
  rw [slotSize, hn]

theorem slotSize_large (hn : classFor n = none) : slotSize n = pagesFor n * 4096 - 64 := by
  rw [slotSize, hn]

variable {p : Nat × Nat}

/-- A slot is in its block, behind the header. -/
theorem Block.Own.slot_bounds (h : B.Own m) (hB : SpanOk B.span) (hp : p ∈ B.slots) :
    B.span.1 + 64 ≤ p.1 ∧ p.1 + slotSize p.2 ≤ B.span.1 + B.span.2 * 4096 ∧ p.1 % 16 = 0 := by
  have hal := hB.aligned
  cases B with
  | slab b c free live =>
    have ho : p.1 ∈ objects b c := h.1.mem_live (mem_map_of_mem hp)
    obtain ⟨h1, h2⟩ := object_bounds h.1.lt ho
    rw [slotSize_small (h.2 p hp)]
    refine ⟨h1, ?_, object_aligned h.1.lt hal ho⟩
    show p.1 + classSize c ≤ b + 1 * 4096
    omega
  | large b n =>
    obtain rfl : p = (b + 64, n) := mem_singleton.mp hp
    have hpos : 0 < pagesFor n := hB.pos
    have hal' : b % 4096 = 0 := hal
    rw [slotSize_large h.1]
    refine ⟨Nat.le_refl _, ?_, ?_⟩
    · show b + 64 + (pagesFor n * 4096 - 64) ≤ b + pagesFor n * 4096
      omega
    · show (b + 64) % 16 = 0
      omega

/-- The slots of one block do not overlap. -/
theorem Block.Own.slots_apart (h : B.Own m) : B.slots.Pairwise fun p q =>
    p.1 + slotSize p.2 ≤ q.1 ∨ q.1 + slotSize q.2 ≤ p.1 := by
  cases B with
  | slab b c free live =>
    have hnd : (live.map Prod.fst).Nodup := (nodup_append.mp h.1.nodup).2.1
    refine (pairwise_map.mp hnd).imp_of_mem fun {p q} hp hq hne => ?_
    rw [slotSize_small (h.2 p hp), slotSize_small (h.2 q hq)]
    exact objects_apart (h.1.mem_live (mem_map_of_mem hp)) (h.1.mem_live (mem_map_of_mem hq)) hne
  | large b n => exact pairwise_singleton _ _

theorem Layout.slot_bounds (h : Layout m bs) (hB : B ∈ bs) (hp : p ∈ B.slots) :
    B.span.1 + 64 ≤ p.1 ∧ p.1 + slotSize p.2 ≤ B.span.1 + B.span.2 * 4096 ∧ p.1 % 16 = 0 :=
  (h.own B hB).slot_bounds (h.span B hB) hp

/-- Slots are apart from headers. -/
theorem Layout.slot_header (h : Layout m bs) (hA : A ∈ bs) (hB : B ∈ bs) (hp : p ∈ B.slots) :
    p.1 + slotSize p.2 ≤ A.span.1 ∨ A.span.1 + 64 ≤ p.1 := by
  obtain ⟨h1, h2, -⟩ := h.slot_bounds hB hp
  by_cases hne : A = B
  · subst hne
    exact .inr h1
  · have hpos := (h.span A hA).pos
    rcases h.apart_of_ne hA hB hne with hlt | hlt
    · exact .inr (by omega)
    · exact .inl (by omega)

section

variable (hi : Inv s bs lists)
include hi

theorem Inv.mem_live : p ∈ s.live ↔ ∃ B ∈ bs, p ∈ B.slots := by
  rw [hi.live.mem_iff, mem_flatMap]

theorem Inv.mem_held : p ∈ s.heap.held ↔ ∃ B ∈ bs, B.span = p := by
  rw [hi.core.counted.held.mem_iff, mem_map]

/-- A live allocation at a place in a slab is the slab's. -/
theorem Inv.live_object (hB : .slab b c free live ∈ bs) (ho : o ∈ objects b c) :
    s.Live o ↔ o ∈ live.map Prod.fst := by
  have hlay := hi.core.layout
  obtain ⟨hslab, -⟩ := hlay.own _ hB
  constructor
  · rintro ⟨n, hn⟩
    obtain ⟨A, hA, hp⟩ := hi.mem_live.mp hn
    obtain ⟨h1, h2⟩ := object_bounds hslab.lt ho
    have hsize := (classSize_spec hslab.lt).1
    obtain ⟨h3, h4, -⟩ := hlay.slot_bounds hA hp
    by_cases hne : A = .slab b c free live
    · subst hne
      exact mem_map_of_mem hp
    · have hApos := (hlay.span A hA).pos
      have h4' : o ≤ A.span.1 + A.span.2 * 4096 := by
        have h4' : o + slotSize n ≤ A.span.1 + A.span.2 * 4096 := h4
        omega
      have h3' : A.span.1 + 64 ≤ o := h3
      have happ : A.span.1 + A.span.2 * 4096 ≤ b ∨ b + 1 * 4096 ≤ A.span.1 :=
        hlay.apart_of_ne hA hB hne
      omega
  · intro hin
    obtain ⟨p, hp, rfl⟩ := mem_map.mp hin
    exact ⟨p.2, hi.mem_live.mpr ⟨_, hB, hp⟩⟩

/-! ## From the invariant -/

theorem Inv.disjoint :
    s.live.Pairwise fun p q => p.1 + slotSize p.2 ≤ q.1 ∨ q.1 + slotSize q.2 ≤ p.1 := by
  have hlay := hi.core.layout
  refine (hi.live.pairwise_iff Or.symm).mpr (pairwise_flatMap.mpr ⟨?_, ?_⟩)
  · exact fun B hB => (hlay.own B hB).slots_apart
  · refine hlay.apart.imp_of_mem fun {A B} hA hB hapart p hp q hq => ?_
    obtain ⟨h1, h2, -⟩ := hlay.slot_bounds hA hp
    obtain ⟨h3, h4, -⟩ := hlay.slot_bounds hB hq
    rcases hapart with hlt | hlt <;> omega

end

/-- The counter of live objects counts the small allocations. -/
theorem Block.Own.countP (h : B.Own m) : B.objs = B.slots.countP fun p => p.2 ≤ 1024 := by
  cases B with
  | slab b c free live =>
    refine (countP_eq_length.mpr fun p hp => ?_).symm
    have hsome := h.2 p hp
    have hle : ¬ 1024 < p.2 := fun hlt => by
      rw [classFor_spec.mpr hlt] at hsome
      cases hsome
    exact decide_eq_true (by omega)
  | large b n =>
    have hlt := classFor_spec.mp h.1
    have hnot : ¬ n ≤ 1024 := by omega
    simp [Block.objs, Block.slots, hnot]

theorem Inv.liveObjects (hi : Inv s bs lists) :
    s.heap.liveObjects = s.live.countP fun p => p.2 ≤ 1024 := by
  rw [hi.core.counted.objects, hi.live.countP_eq, countP_flatMap]
  refine congrArg List.sum (map_congr_left fun B hB => ?_)
  exact (hi.core.layout.own B hB).countP

/-- Slabs are told by their magic numbers. -/
theorem Inv.isSlab (hi : Inv s bs lists) :
    s.IsSlab b c ↔ ∃ free live, .slab b c free live ∈ bs := by
  constructor
  · rintro ⟨hheld, hmagic, hcls⟩
    obtain ⟨B, hB, hspan⟩ := hi.mem_held.mp hheld
    have hown := hi.core.layout.own B hB
    cases B with
    | slab b' c' free live =>
      obtain ⟨rfl, -⟩ := Prod.mk.inj hspan
      obtain rfl : c' = c := hown.1.ofClass.symm.trans hcls
      exact ⟨free, live, hB⟩
    | large b' n =>
      obtain ⟨rfl, -⟩ := Prod.mk.inj hspan
      have hmagic' := hown.2.1
      rw [hmagic] at hmagic'
      exact absurd hmagic' (by decide)
  · rintro ⟨free, live, hB⟩
    have hown := (hi.core.layout.own _ hB).1
    exact ⟨hi.mem_held.mpr ⟨_, hB, rfl⟩, hown.isSlab, hown.ofClass⟩

theorem Inv.partials (hi : Inv s bs lists) (hc : c < 7) :
    b ∈ lists c ↔ s.IsSlab b c ∧ (∃ o ∈ objects b c, s.Live o) ∧ ∃ o ∈ objects b c, ¬ s.Live o := by
  rw [hi.core.linked.spare c hc b]
  constructor
  · rintro ⟨free, live, hB, hfree⟩
    obtain ⟨hslab, -⟩ := hi.core.layout.own _ hB
    refine ⟨hi.isSlab.mpr ⟨free, live, hB⟩, ?_, ?_⟩
    · obtain ⟨p, hp⟩ := exists_mem_of_ne_nil live (hi.used _ hB)
      have hin : p.1 ∈ live.map Prod.fst := mem_map_of_mem hp
      exact ⟨p.1, hslab.mem_live hin, (hi.live_object hB (hslab.mem_live hin)).mpr hin⟩
    · obtain ⟨o, ho⟩ := exists_mem_of_ne_nil free hfree
      refine ⟨o, hslab.mem_free ho, fun hlive => ?_⟩
      have hin := (hi.live_object hB (hslab.mem_free ho)).mp hlive
      exact (nodup_append.mp hslab.nodup).2.2 o ho o hin rfl
  · rintro ⟨hslab, -, o, ho, hnot⟩
    obtain ⟨free, live, hB⟩ := hi.isSlab.mp hslab
    refine ⟨free, live, hB, fun hnil => hnot ?_⟩
    have hperm := (hi.core.layout.own _ hB).1.objs
    rw [hnil, nil_append] at hperm
    exact (hi.live_object hB ho).mpr (hperm.mem_iff.mpr ho)

/-! ## One step -/

theorem inv_start (mem : Bytes) : Inv (heapStart mem) [] fun _ => [] := by
  refine ⟨⟨⟨⟨nofun, .nil⟩, nofun⟩, ⟨fun c _ => DList.empty, fun c _ => nodup_nil, fun c _ b => ?_⟩,
    .nil, rfl, rfl⟩, .nil, nofun⟩
  exact ⟨nofun, fun ⟨_, _, hin, _⟩ => nomatch hin⟩

/-- The live objects of a slab in another order. -/
theorem Core.permLive {h : Heap} (hcore : Core h (.slab b c free live :: bs) lists)
    (hp : live.Perm live') : Core h (.slab b c free live' :: bs) lists := by
  obtain ⟨hpage, hslab, hsizes⟩ := hcore.slabOk
  have hown : (Block.slab b c free live').Own h.mem :=
    ⟨hslab.perm (hp.map _), fun p hin => hsizes p (hp.mem_iff.mpr hin)⟩
  refine ⟨hcore.layout.replace hown fun _ _ => rfl, hcore.linked.congr fun c' b' => ?_,
    hcore.counted.held, ?_, hcore.counted.pages⟩
  · rw [spare_cons_slab, spare_cons_slab]
  · refine hcore.counted.objects.trans ?_
    simp only [map_cons, sum_cons, Block.objs, hp.length_eq]

/-- What a block with a new allocation adds to the live ones. -/
theorem Inv.of_core {h : Heap} (hi : s.live.Perm (bs.flatMap Block.slots))
    (hused : ∀ B ∈ bs, B.slots ≠ []) (hcore : Core h (B :: bs) lists) (hB : B.slots = [p]) :
    Inv ⟨h, p :: s.live⟩ (B :: bs) lists := by
  refine ⟨hcore, ?_, forall_mem_cons.mpr ⟨?_, hused⟩⟩
  · rw [flatMap_cons, hB]
    exact hi.cons p
  · rw [hB]
    exact cons_ne_nil p []

/-- A span that the backend may answer is apart from all blocks. -/
theorem Inv.answer_apart (hi : Inv s bs lists) {got count : Nat}
    (hgot : ∀ p ∈ s.heap.held, Apart (got, count) p) : ∀ B ∈ bs, Apart (got, count) B.span :=
  fun B hB => hgot _ (hi.mem_held.mpr ⟨B, hB, rfl⟩)

theorem pagesFor_pos (hn : n < 2 ^ 64) (hwrap : ¬ (2 ^ 64 - 4159 ≤ n ∧ n ≤ 2 ^ 64 - 64)) :
    0 < pagesFor n := by
  unfold pagesFor
  omega

section

variable (hi : Inv s bs lists)
include hi

/-- **`heap_core_alloc`**: NULL and nothing has changed, or one more allocation. -/
theorem Inv.alloc {size got : Nat} (hsize : size < 2 ^ 64) (hgot : Answer s.heap got (asked size))
    (hno : NoWrap (.alloc size got)) : heapCoreAlloc size got s.heap = (0, s.heap) ∨
      ∃ p h' bs' lists', heapCoreAlloc size got s.heap = (p, h') ∧ p ≠ 0 ∧
        Inv ⟨h', (p, size) :: s.live⟩ bs' lists' := by
  by_cases h0 : size = 0
  · exact .inl (if_pos h0)
  by_cases hbig : 1024 < size
  · have heq : heapCoreAlloc size got s.heap = allocLarge size got s.heap := by
      rw [heapCoreAlloc, if_neg h0, if_pos hbig]
    rw [asked, if_neg (by omega)] at hgot
    rw [heq]
    rcases hgot with rfl | ⟨hal, hfits, hheld⟩
    · exact .inl rfl
    by_cases hg0 : got = 0
    · rw [hg0]
      exact .inl rfl
    have hpos := pagesFor_pos hsize fun hw => hg0 (hno hw.1 hw.2)
    obtain ⟨h', hlarge, hcore⟩ := hi.core.createLarge (classFor_spec.mpr hbig) ⟨hg0, hal, hfits, hpos⟩
      (hi.answer_apart hheld)
    exact .inr ⟨got + 64, h', _, lists, hlarge, by omega, Inv.of_core hi.live hi.used hcore rfl⟩
  · obtain ⟨c, hc⟩ : ∃ c, classFor size = some c := by
      rw [← Option.isSome_iff_exists, ← Option.ne_none_iff_isSome]
      exact fun hnone => hbig (classFor_spec.mp hnone)
    have hclt := classFor_lt hc
    have hobj : ∀ {b o : Nat}, o ∈ objects b c → o ≠ 0 := fun {b o} ho => by
      have hbounds := object_bounds hclt ho
      omega
    rw [heapCoreAlloc, if_neg h0, if_neg hbig, hc]
    show (if s.heap.partials c ≠ 0 then _ else _) = _ ∨ ∃ p h' bs' lists',
      (if s.heap.partials c ≠ 0 then _ else _) = _ ∧ _
    by_cases hp : s.heap.partials c = 0
    · rw [asked, if_pos (by omega)] at hgot
      rw [if_neg (not_not.mpr hp)]
      rcases hgot with rfl | ⟨hal, hfits, hheld⟩
      · exact .inl rfl
      by_cases hg0 : got = 0
      · rw [hg0]
        exact .inl rfl
      rw [Nat.one_mul] at hfits
      obtain ⟨lists', hbase, hcore⟩ :=
        hi.core.create hclt ⟨hg0, hal, hfits⟩ (hi.answer_apart hheld)
      have hlen := length_objects got c
      cases hobjs : objects got c with
      | nil =>
        have hcount := (classSize_spec hclt).2.2.2.1
        rw [hobjs, length_nil] at hlen
        omega
      | cons o free =>
        rw [hobjs] at hcore
        obtain ⟨h', lists'', htake, hcore'⟩ := hcore.take hc
        refine .inr ⟨o, h', _, lists'', ?_, hobj (b := got) (hobjs ▸ mem_cons_self),
          Inv.of_core hi.live hi.used hcore' rfl⟩
        simp only [hbase]
        rw [if_neg hg0, htake]
    · rw [if_pos hp]
      have hhead := (hi.core.linked.links c hclt).head_eq
      rw [toLink_of_ne hp] at hhead
      have hin := mem_of_head? hhead.symm
      obtain ⟨free, live, hB, hfree⟩ := (hi.core.linked.spare c hclt _).mp hin
      obtain ⟨o, free, rfl⟩ := exists_cons_of_ne_nil hfree
      obtain ⟨bs', hperm, hcore⟩ := hi.core.front hB
      obtain ⟨h', lists', htake, hcore'⟩ := hcore.take hc
      have ho := hcore.slabOk.2.1.mem_free mem_cons_self
      refine .inr ⟨o, h', _, lists', htake, hobj ho, hcore', ?_, ?_⟩
      · have hlive := hi.live.trans (hperm.flatMap_right _)
        exact hlive.cons (o, size)
      · refine forall_mem_cons.mpr ⟨cons_ne_nil _ _, fun B hB' => hi.used B ?_⟩
        exact hperm.mem_iff.mpr (mem_cons_of_mem _ hB')

/-- **`heap_core_free`** of a live allocation. -/
theorem Inv.release {ptr size : Nat} (hlive : (ptr, size) ∈ s.live) :
    ∃ h' bs' lists', heapCoreFree ptr s.heap = (0, h') ∧
      Inv ⟨h', s.live.erase (ptr, size)⟩ bs' lists' := by
  obtain ⟨B, hB, hp⟩ := hi.mem_live.mp hlive
  obtain ⟨bs', hperm, hcore⟩ := hi.core.front hB
  have hall := hi.live.trans (hperm.flatMap_right _)
  have hused : ∀ A ∈ bs', A.slots ≠ [] := fun A hA =>
    hi.used A (hperm.mem_iff.mpr (mem_cons_of_mem _ hA))
  rw [flatMap_cons] at hall
  cases B with
  | slab b c free live =>
    obtain ⟨l, l', rfl⟩ := append_of_mem hp
    have hcore' := hcore.permLive perm_middle
    obtain ⟨hpage, hslab, -⟩ := hcore'.slabOk
    obtain ⟨lists', hgive, -⟩ := hcore'.give
    have herase : (s.live.erase (ptr, size)).Perm (l ++ l' ++ bs'.flatMap Block.slots) := by
      have hfront : s.live.Perm ((ptr, size) :: (l ++ l' ++ bs'.flatMap Block.slots)) :=
        hall.trans (perm_middle.append_right _)
      have herase := hfront.erase (ptr, size)
      rwa [erase_cons_head] at herase
    refine ⟨_, _, lists', hslab.heapCoreFree_eq hpage (hslab.mem_live mem_cons_self)
      (cons_ne_nil _ _), hgive, ?_, ?_⟩
    · by_cases hnil : l ++ l' = []
      · rw [if_pos hnil]
        rwa [hnil, nil_append] at herase
      · rw [if_neg hnil]
        exact herase
    · by_cases hnil : l ++ l' = []
      · rw [if_pos hnil]
        exact hused
      · rw [if_neg hnil]
        exact forall_mem_cons.mpr ⟨hnil, hused⟩
  | large b n =>
    obtain ⟨rfl, rfl⟩ := Prod.mk.inj (mem_singleton.mp hp)
    obtain ⟨h', hfree, hcore', -⟩ := hcore.freeLarge
    refine ⟨h', bs', lists, hfree, hcore', ?_, hused⟩
    have herase := hall.erase (b + 64, size)
    rwa [show (Block.large b size).slots = [(b + 64, size)] from rfl, singleton_append,
      erase_cons_head] at herase

/-- **Clients write to what they have**, and the rest of the memory is not the heap's. -/
theorem Inv.write (hm : ∀ a, s.Kept a → m a = s.heap.mem a) :
    Inv ⟨{ s.heap with mem := m }, s.live⟩ bs lists := by
  have hlay := hi.core.layout
  have hhdr : ∀ B ∈ bs, ∀ a, B.span.1 ≤ a → a < B.span.1 + 64 → m a = s.heap.mem a :=
    fun B hB a h1 h2 => by
      have hpos := (hlay.span B hB).pos
      refine hm a ⟨⟨B.span, hi.mem_held.mpr ⟨B, hB, rfl⟩, h1, by omega⟩, fun p hp => ?_⟩
      obtain ⟨A, hA, hp⟩ := hi.mem_live.mp hp
      have hslot := hlay.slot_header hB hA hp
      omega
  refine ⟨⟨⟨hlay.toSpans, fun B hB => ?_⟩, ?_, hi.core.counted.held, hi.core.counted.objects,
    hi.core.counted.pages⟩, hi.live, hi.used⟩
  · refine (hlay.own B hB).congr (hhdr B hB) fun b c free live heq o ho a h1 h2 => ?_
    subst heq
    obtain ⟨hslab, hsizes⟩ := hlay.own _ hB
    have hobj := hslab.mem_free ho
    obtain ⟨hlo, hhi⟩ := object_bounds hslab.lt hobj
    have hsize := (classSize_spec hslab.lt).1
    refine hm a ⟨⟨(b, 1), hi.mem_held.mpr ⟨_, hB, rfl⟩, ?_, ?_⟩, fun p hp => ?_⟩
    · show b ≤ a
      omega
    · show a < b + 1 * 4096
      omega
    · obtain ⟨A, hA, hp⟩ := hi.mem_live.mp hp
      by_cases hne : A = .slab b c free live
      · subst hne
        have hin : p.1 ∈ live.map Prod.fst := mem_map_of_mem hp
        have hne : o ≠ p.1 := fun hop => (nodup_append.mp hslab.nodup).2.2 o ho p.1 hin hop
        rw [slotSize_small (hsizes p hp)]
        rcases objects_apart hobj (hslab.mem_live hin) hne with hlt | hlt <;> omega
      · obtain ⟨h3, h4, -⟩ := hlay.slot_bounds hA hp
        have happ : A.span.1 + A.span.2 * 4096 ≤ b ∨ b + 1 * 4096 ≤ A.span.1 :=
          hlay.apart_of_ne hA hB hne
        omega
  · exact hi.core.linked.frame fun B hB a h1 h2 => hhdr B hB a (by omega) (by omega)

/-- **What one step keeps.** -/
theorem Inv.step {a : HeapAct} (hno : NoWrap a) (hs : HeapStep s a s') :
    ∃ bs' lists', Inv s' bs' lists' := by
  cases hs with
  | alloc hsize hgot =>
    rcases hi.alloc hsize hgot hno with heq | ⟨p, h', bs', lists', heq, hp, hi'⟩
    · refine ⟨bs, lists, ?_⟩
      rw [HeapSys.alloc, heq]
      exact hi
    · refine ⟨bs', lists', ?_⟩
      simp only [HeapSys.alloc, heq, if_neg hp]
      exact hi'
  | free hlive =>
    obtain ⟨h', bs', lists', heq, hi'⟩ := hi.release hlive
    rw [HeapSys.free, heq]
    exact ⟨bs', lists', hi'⟩
  | write hm => exact ⟨bs, lists, hi.write hm⟩

end

/-! ## Every run -/

/-- What is reached without a number of pages computed as 0. -/
def HeapReach (mem : Bytes) : HeapSys → Prop :=
  ReachVia HeapStep (fun _ a => NoWrap a) (heapStart mem)

theorem HeapReach.inv {mem : Bytes} (h : HeapReach mem s) : ∃ bs lists, Inv s bs lists :=
  ReachVia.invariant (P := fun s => ∃ bs lists, Inv s bs lists) ⟨[], _, inv_start mem⟩
    (fun ⟨_, _, hi⟩ hno hs => hi.step hno hs) h

theorem Inv.sound (hi : Inv s bs lists) : Sound s := by
  have hlay := hi.core.layout
  refine ⟨hi.disjoint, fun p hp => ?_, fun p hp q hq => ?_, fun p hp => ?_, hi.liveObjects, ?_,
    fun c hc => ?_, fun hnil => ?_⟩
  · obtain ⟨B, hB, hp⟩ := hi.mem_live.mp hp
    exact (hlay.slot_bounds hB hp).2.2
  · obtain ⟨B, hB, hp⟩ := hi.mem_live.mp hp
    obtain ⟨A, hA, rfl⟩ := hi.mem_held.mp hq
    exact hlay.slot_header hA hB hp
  · obtain ⟨h', -, -, heq, -⟩ := hi.release (show (p.1, p.2) ∈ s.live from hp)
    rw [heq]
  · rw [hi.core.counted.pages, (hi.core.counted.held.map Prod.snd).sum_eq, map_map]
    rfl
  · exact ⟨lists c, hi.core.linked.nodup c hc, hi.core.linked.links c hc, fun b => hi.partials hc⟩
  · have hbs : bs = [] := eq_nil_iff_forall_not_mem.mpr fun B hB => by
      obtain ⟨p, hp⟩ := exists_mem_of_ne_nil _ (hi.used B hB)
      have hin := hi.mem_live.mpr ⟨B, hB, hp⟩
      rw [hnil] at hin
      cases hin
    have hheld := hi.core.counted.held
    rw [hbs] at hheld
    exact hheld.eq_nil

/-- **The heap does what it is for** in every run without a size for which `alloc_large` asks for no
pages. -/
theorem heap_sound {mem : Bytes} (h : HeapReach mem s) : Sound s := by
  obtain ⟨bs, lists, hi⟩ := h.inv
  exact hi.sound

/-- A heap with one live allocation of 1000 bytes. -/
def oneObject : HeapSys := (heapStart fun _ => 0).alloc 1000 4096

theorem heap_sound_oneObject : HeapReach (fun _ => 0) oneObject ∧ oneObject.live = [(4160, 1000)] ∧
    Sound oneObject := by
  have hreach : HeapReach (fun _ => 0) oneObject := ReachVia.refl.tail
    (.alloc (by decide) (.inr ⟨by decide, by decide, by decide⟩)) fun h _ => absurd h (by decide)
  exact ⟨hreach, by decide +kernel, heap_sound hreach⟩

/-- An allocation of `2 ^ 64 - 100` bytes. -/
def wrapped : HeapSys := (heapStart fun _ => 0).alloc (2 ^ 64 - 100) 4096

/-- No pages are asked for, so that the address is given out a second time; the slab made there is
freed, and the first allocation is live and cannot be freed. -/
theorem wrapped_alloc :
    ReachVia HeapStep (fun _ _ => True) (heapStart fun _ => 0) ((wrapped.alloc 1024 4096).free 4160 1024) ∧
    ((wrapped.alloc 1024 4096).free 4160 1024).live = [(4160, 2 ^ 64 - 100)] ∧
    (heapCoreFree 4160 ((wrapped.alloc 1024 4096).free 4160 1024).heap).1 = -1 ∧
    ¬ Sound ((wrapped.alloc 1024 4096).free 4160 1024) := by
  refine ⟨?_, by decide +kernel, by decide +kernel, fun hsound => ?_⟩
  · have h1 : HeapStep (heapStart fun _ => 0) (.alloc (2 ^ 64 - 100) 4096) wrapped :=
      .alloc (by decide) (.inr ⟨by decide, by decide, by decide⟩)
    have h2 : HeapStep wrapped (.alloc 1024 4096) (wrapped.alloc 1024 4096) :=
      .alloc (by decide) (.inr ⟨by decide, by decide, by decide +kernel⟩)
    have h3 : HeapStep (wrapped.alloc 1024 4096) (.free 4160) ((wrapped.alloc 1024 4096).free 4160 1024) :=
      .free (by decide +kernel)
    exact ((ReachVia.refl.tail h1 trivial).tail h2 trivial).tail h3 trivial
  · exact absurd (hsound.frees (4160, 2 ^ 64 - 100) (by decide +kernel)) (by decide +kernel)

end Hallucinate.Mm.Heap
