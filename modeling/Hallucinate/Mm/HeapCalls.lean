import Hallucinate.Mm.HeapRuns

/-!
# What `heap_core_alloc` and `heap_core_free` promise

`heap_core.h` and `kmalloc.h` promise memory of the size asked for, and that a pointer that is not a
live allocation is refused.

* **`alloc_enough`**: the slot is large enough exactly when `size + 64 + 4095` does not wrap; of a larger
  size `alloc_large` takes the pages of the wrapped sum.
* **`free_exact`**: `heap_core_free` knows a slab by its magic number, the place of an object by its
  offset, and otherwise only that the slab has live objects. So it accepts every object of a slab in
  use, live or free, and refuses all else without a change; a second free of the same object is refused
  exactly when the first one has emptied the slab.
-/

namespace Hallucinate.Mm.Heap

open Lib List

variable {s s' : HeapSys} {mem : Bytes} {b c n o : Nat} {bs : List Block} {lists : Nat → List Nat}
  {free : List Nat} {live : List (Nat × Nat)} {h' : Heap} {size got p a : Nat}

/-! ## Sizes -/

/-- The bytes asked for are in the slot, and the slot in a span of pages behind its header. -/
def Enough (h : Heap) (p size : Nat) : Prop :=
  size ≤ slotSize size ∧ ∃ q ∈ h.held, q.1 + 64 ≤ p ∧ p + slotSize size ≤ q.1 + q.2 * 4096

theorem le_classSize (hn : classFor n = some c) : n ≤ classSize c :=
  of_decide_eq_true (find?_some hn :)

/-- A slot is large enough when the sum does not wrap. -/
theorem le_slotSize_iff (hn : size < 2 ^ 64) : size ≤ slotSize size ↔ size + 4159 < 2 ^ 64 := by
  cases hc : classFor size with
  | some c =>
    have hle : ¬ 1024 < size := fun hlt => by
      rw [classFor_spec.mpr hlt] at hc
      cases hc
    rw [slotSize_small hc]
    exact ⟨fun _ => by omega, fun _ => le_classSize hc⟩
  | none =>
    have hlt := classFor_spec.mp hc
    rw [slotSize_large hc, pagesFor]
    omega

/-- **`heap_core_alloc` returns enough memory** exactly when its sum does not wrap. -/
theorem alloc_enough (h : HeapReach mem s) (hsize : size < 2 ^ 64)
    (hgot : Answer s.heap got (asked size)) (hret : heapCoreAlloc size got s.heap = (p, h'))
    (hp : p ≠ 0) : Enough h' p size ↔ size + 4159 < 2 ^ 64 := by
  refine ⟨fun henough => (le_slotSize_iff hsize).mp henough.1, fun hlt => ⟨(le_slotSize_iff hsize).mpr hlt, ?_⟩⟩
  obtain ⟨bs, lists, hi⟩ := h.inv
  have hno : NoWrap (.alloc size got) := fun hwrap _ => by omega
  rcases hi.alloc hsize hgot hno with heq | ⟨p', h'', bs', lists', heq, -, hi'⟩
  · rw [hret] at heq
    exact absurd (congrArg Prod.fst heq) hp
  · obtain ⟨rfl, rfl⟩ := Prod.mk.inj (hret.symm.trans heq)
    obtain ⟨B, hB, hslot⟩ := hi'.mem_live.mp mem_cons_self
    obtain ⟨hlo, hhi, -⟩ := hi'.core.layout.slot_bounds hB hslot
    exact ⟨B.span, hi'.mem_held.mpr ⟨B, hB, rfl⟩, hlo, hhi⟩

theorem alloc_enough_page : Enough (heapCoreAlloc 4033 4096 (heapStart fun _ => 0).heap).2 4160 4033 :=
  (alloc_enough ReachVia.refl (by decide) (.inr ⟨by decide, by decide, by decide⟩)
    (show heapCoreAlloc 4033 4096 (heapStart fun _ => 0).heap = (4160, _) from rfl)
    (by decide)).mpr (by decide)

/-- `2 ^ 64 - 1` bytes in one page. -/
theorem wrapped_size : (heapCoreAlloc (2 ^ 64 - 1) 4096 (heapStart fun _ => 0).heap).1 = 4160 ∧
    (heapCoreAlloc (2 ^ 64 - 1) 4096 (heapStart fun _ => 0).heap).2.held = [(4096, 1)] ∧
    ¬ Enough (heapCoreAlloc (2 ^ 64 - 1) 4096 (heapStart fun _ => 0).heap).2 4160 (2 ^ 64 - 1) :=
  ⟨by decide, by decide, fun henough => absurd henough.1 (by decide)⟩

/-! ## Frees of any address -/

/-- The address is in a slab page or in the first page of a large span. -/
def HeapSys.InPage (s : HeapSys) (a : Nat) : Prop := ∃ q ∈ s.heap.held, q.1 ≤ a ∧ a < q.1 + 4096

/-- The address is an object of a slab, live or free. -/
def HeapSys.IsObject (s : HeapSys) (a : Nat) : Prop := ∃ b c, s.IsSlab b c ∧ a ∈ objects b c

/-- The steps of the heap, and frees of what is not live. -/
inductive CallStep : HeapSys → HeapAct → HeapSys → Prop
  | heap {s : HeapSys} {act : HeapAct} {s' : HeapSys} (hs : HeapStep s act s') : CallStep s act s'
  | stale {s : HeapSys} {ptr : Nat} (hin : s.InPage ptr) (hdead : ¬ s.Live ptr) :
      CallStep s (.free ptr) ⟨(heapCoreFree ptr s.heap).2, s.live⟩

/-- No free object is freed, and no number of pages computed as 0. -/
def CallOk (s : HeapSys) : HeapAct → Prop
  | .free ptr => s.IsObject ptr → s.Live ptr
  | act => NoWrap act

/-- `heap_core_free` accepts an object of a slab. -/
theorem Inv.free_object (hi : Inv s bs lists) (ha : s.IsObject a) : (heapCoreFree a s.heap).1 = 0 := by
  obtain ⟨b, c, hslab, ha⟩ := ha
  obtain ⟨free, live, hB⟩ := hi.isSlab.mp hslab
  obtain ⟨hown, -⟩ := hi.core.layout.own _ hB
  have hused : live.map Prod.fst ≠ [] := fun hnil => hi.used _ hB (map_eq_nil_iff.mp hnil)
  rw [hown.heapCoreFree_eq (hi.core.layout.page hB) ha hused]

/-- `heap_core_free` refuses what is neither live nor an object. -/
theorem Inv.free_refused (hi : Inv s bs lists) (hin : s.InPage a) (hdead : ¬ s.Live a)
    (ha : ¬ s.IsObject a) : heapCoreFree a s.heap = (-1, s.heap) := by
  obtain ⟨q, hq, hlo, hhi⟩ := hin
  obtain ⟨B, hB, rfl⟩ := hi.mem_held.mp hq
  have hspan := hi.core.layout.span B hB
  cases B with
  | slab b c free live =>
    obtain ⟨hown, -⟩ := hi.core.layout.own _ hB
    refine hown.heapCoreFree_of_not_mem hspan.page hlo hhi fun hobj => ha ⟨b, c, ?_, hobj⟩
    exact hi.isSlab.mpr ⟨free, live, hB⟩
  | large b n =>
    obtain ⟨-, hmagic, -⟩ := hi.core.layout.own _ hB
    have hal : b % 4096 = 0 := hspan.aligned
    have hne : b ≠ 0 := hspan.ne
    have hlo' : b ≤ a := hlo
    have hhi' : a < b + 4096 := hhi
    have hbase : a / 4096 * 4096 = b := by omega
    have hslot : a ≠ b + 64 := fun hab =>
      hdead ⟨n, hi.mem_live.mpr ⟨_, hB, hab ▸ mem_singleton_self _⟩⟩
    rw [heapCoreFree, if_neg (by omega)]
    simp only [hbase]
    rw [if_pos hmagic, if_pos hslot]

/-- A step that the condition allows is one of the heap, or changes nothing. -/
theorem Inv.call {act : HeapAct} (hi : Inv s bs lists) (hok : CallOk s act) (hs : CallStep s act s') :
    ∃ bs' lists', Inv s' bs' lists' := by
  cases hs with
  | heap hs =>
    refine hi.step ?_ hs
    cases act with
    | free ptr => exact trivial
    | alloc size got => exact hok
    | write mem => exact trivial
  | stale hin hdead =>
    rw [hi.free_refused hin hdead fun hobj => hdead (hok hobj)]
    exact ⟨bs, lists, hi⟩

/-- What calls lead to of which none frees a free object or asks for no pages. -/
def CallReach (mem : Bytes) : HeapSys → Prop := ReachVia CallStep CallOk (heapStart mem)

theorem CallReach.inv (h : CallReach mem s) : ∃ bs lists, Inv s bs lists :=
  ReachVia.invariant (P := fun s => ∃ bs lists, Inv s bs lists) ⟨[], _, inv_start mem⟩
    (fun ⟨_, _, hi⟩ hok hs => hi.call hok hs) h

/-- What was freed and poisoned is refused. -/
theorem free_poisoned {h : Heap} (ha : a / 4096 * 4096 = b) (hmagic : magic h.mem b = 0) :
    (heapCoreFree a h).1 = -1 := by
  rw [heapCoreFree]
  by_cases h0 : a = 0
  · rw [if_pos h0]
  · rw [if_neg h0]
    simp only [ha]
    rw [if_neg (by rw [hmagic]; decide), if_pos (.inl (by rw [hmagic]; decide))]

/-- An address is in the page of one block. -/
theorem Inv.eq_of_object {B : Block} (hi : Inv s bs lists) (hB : B ∈ bs)
    (ha : a / 4096 * 4096 = B.span.1) (hb : s.IsSlab b c) (ho : a ∈ objects b c) :
    ∃ free live, B = .slab b c free live := by
  obtain ⟨free, live, hB'⟩ := hi.isSlab.mp hb
  have hpage := hi.core.layout.page hB'
  have hbase := object_page (hi.core.layout.own _ hB').1.lt hpage.aligned ho
  exact ⟨free, live, hi.core.layout.eq_of_base hB hB' (ha.symm.trans hbase)⟩

/-- **Freeing twice in a row**: the second free is refused when no other object of the slab is live. -/
theorem Inv.free_twice (hi : Inv s bs lists) (hlive : s.Live a) :
    (heapCoreFree a (heapCoreFree a s.heap).2).1 = -1 ↔
      ∀ b c, s.IsSlab b c → a ∈ objects b c → ∀ o ∈ objects b c, s.Live o → o = a := by
  obtain ⟨n, hn⟩ := hlive
  obtain ⟨B, hB, hp⟩ := hi.mem_live.mp hn
  have hspan := hi.core.layout.span B hB
  obtain ⟨bs', hperm, hcore⟩ := hi.core.front hB
  cases B with
  | slab b c free live =>
    obtain ⟨l, l', rfl⟩ := append_of_mem hp
    have hcore' := hcore.permLive perm_middle
    obtain ⟨hpage, hslab, -⟩ := hcore'.slabOk
    have hobj : a ∈ objects b c := hslab.mem_live mem_cons_self
    have hbase := object_page hslab.lt hpage.aligned hobj
    obtain ⟨lists', hgive, hpoison⟩ := hcore'.give
    rw [hslab.heapCoreFree_eq hpage hobj (cons_ne_nil _ _)]
    by_cases hnil : l ++ l' = []
    · refine ⟨fun _ b' c' hb' ha' o ho hlo => ?_, fun _ => free_poisoned hbase (hpoison hnil)⟩
      obtain ⟨_, _, heq⟩ := hi.eq_of_object hB hbase hb' ha'
      cases heq
      have hin := (hi.live_object hB ho).mp hlo
      obtain ⟨rfl, rfl⟩ := append_eq_nil_iff.mp hnil
      exact mem_singleton.mp hin
    · refine ⟨fun hrefused => ?_, fun hall => ?_⟩
      · rw [if_neg hnil] at hgive
        obtain ⟨-, hslab', -⟩ := hgive.slabOk
        rw [hslab'.heapCoreFree_eq hpage hobj fun h0 => hnil (map_eq_nil_iff.mp h0)] at hrefused
        have hne : (0 : Int) ≠ -1 := by decide
        exact absurd hrefused hne
      · -- another live object is not this one
        obtain ⟨p, hp'⟩ := exists_mem_of_ne_nil _ hnil
        have hnd := (nodup_append.mp hslab.nodup).2.1
        have hin : p.1 ∈ (l ++ l').map Prod.fst := mem_map_of_mem hp'
        have hpo : p.1 ∈ objects b c := hslab.mem_live (mem_cons_of_mem _ hin)
        have hpl : s.Live p.1 := ⟨p.2, hi.mem_live.mpr ⟨_, hB, perm_middle.mem_iff.mpr
          (mem_cons_of_mem _ hp')⟩⟩
        have hpa := hall b c (hi.isSlab.mpr ⟨_, _, hB⟩) hobj p.1 hpo hpl
        exact absurd (hpa ▸ hin) (nodup_cons.mp hnd).1
  | large b m =>
    obtain ⟨rfl, rfl⟩ := Prod.mk.inj (mem_singleton.mp hp)
    have hal : b % 4096 = 0 := hspan.aligned
    have hbase : (b + 64) / 4096 * 4096 = b := by omega
    obtain ⟨h', hfree, -, hmagic⟩ := hcore.freeLarge
    rw [hfree]
    refine ⟨fun _ b' c' hb' ha' => ?_, fun _ => free_poisoned hbase hmagic⟩
    obtain ⟨_, _, heq⟩ := hi.eq_of_object hB hbase hb' ha'
    cases heq

/-- **`heap_core_free`** decides whether an address is live by less than that. -/
theorem free_exact (h : CallReach mem s) (hin : s.InPage a) :
    ((((heapCoreFree a s.heap).1 = 0 ↔ s.Live a) ∧
        ((heapCoreFree a s.heap).1 ≠ 0 → heapCoreFree a s.heap = (-1, s.heap))) ↔
      (s.IsObject a → s.Live a)) ∧
    (s.Live a → ((heapCoreFree a (heapCoreFree a s.heap).2).1 = -1 ↔
      ∀ b c, s.IsSlab b c → a ∈ objects b c → ∀ o ∈ objects b c, s.Live o → o = a)) := by
  obtain ⟨bs, lists, hi⟩ := h.inv
  refine ⟨⟨fun hexact hobj => hexact.1.mp (hi.free_object hobj), fun hok => ?_⟩, hi.free_twice⟩
  by_cases hlive : s.Live a
  · obtain ⟨n, hn⟩ := hlive
    obtain ⟨h', -, -, heq, -⟩ := hi.release hn
    rw [heq]
    exact ⟨⟨fun _ => ⟨n, hn⟩, fun _ => rfl⟩, fun hne => absurd rfl hne⟩
  · have hrefused := hi.free_refused hin hlive fun hobj => hlive (hok hobj)
    rw [hrefused]
    have hne : (-1 : Int) ≠ 0 := by decide
    exact ⟨⟨fun h0 => absurd h0 hne, fun hl => absurd hl hlive⟩, fun _ => rfl⟩

theorem free_exact_oneObject : CallReach (fun _ => 0) oneObject ∧ oneObject.InPage 4160 ∧
    ((heapCoreFree 4160 oneObject.heap).1 = 0 ↔ oneObject.Live 4160) := by
  have hreach : CallReach (fun _ => 0) oneObject := ReachVia.refl.tail
    (.heap (.alloc (by decide) (.inr ⟨by decide, by decide, by decide⟩))) fun h _ => absurd h (by decide)
  have hin : oneObject.InPage 4160 := ⟨(4096, 1), by decide +kernel, by decide, by decide⟩
  have hlive : oneObject.Live 4160 := ⟨1000, by decide +kernel⟩
  exact ⟨hreach, hin, ((free_exact hreach hin).1.mpr fun _ => hlive).1⟩

/-- Two objects of one slab, and one of them freed. -/
def oneFreed : HeapSys := (oneObject.alloc 1024 0).free 4160 1000

/-- The freed object may be freed again. -/
theorem double_free_accepted : CallReach (fun _ => 0) oneFreed ∧ oneFreed.InPage 4160 ∧
    oneFreed.live = [(5184, 1024)] ∧ ¬ oneFreed.Live 4160 ∧ (heapCoreFree 4160 oneFreed.heap).1 = 0 := by
  have hlive : oneFreed.live = [(5184, 1024)] := by decide +kernel
  refine ⟨?_, ⟨(4096, 1), by decide +kernel, by decide, by decide⟩, hlive, ?_, by decide +kernel⟩
  · have h1 : HeapStep (heapStart fun _ => 0) (.alloc 1000 4096) oneObject :=
      .alloc (by decide) (.inr ⟨by decide, by decide, by decide⟩)
    have h2 : HeapStep oneObject (.alloc 1024 0) (oneObject.alloc 1024 0) := .alloc (by decide) (.inl rfl)
    have h3 : HeapStep (oneObject.alloc 1024 0) (.free 4160) oneFreed := .free (by decide +kernel)
    exact ((ReachVia.refl.tail (.heap h1) fun h _ => absurd h (by decide)).tail (.heap h2)
      fun h _ => absurd h (by decide)).tail (.heap h3) fun _ => ⟨1000, by decide +kernel⟩
  · rintro ⟨n, hn⟩
    rw [hlive] at hn
    cases mem_singleton.mp hn

end Hallucinate.Mm.Heap
