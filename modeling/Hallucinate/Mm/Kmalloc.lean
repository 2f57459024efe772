import Hallucinate.Mm.CloneSpec
import Hallucinate.Mm.HeapRuns

/-!
# The heap over the frame allocator (`kernel/mm/kmalloc.c`)

`kmalloc` and `kfree` are the heap with the frame allocator as its backend: a span of pages is a run
of frames, at its address in the direct map. `heap_core_free` says only by its calls of `pages_free`
which spans it gives back; these are the spans that it no longer holds. An allocation is its address
with the size asked for. A failed `kfree` panics and is `none`. The memory of the heap is kept apart
from that of the frames, which are page tables and pages of users here; `KernelInv` says that no
frame is both.

* `kmalloc_spec`, `kfree_spec`: frames go from the allocator to the heap and back, and none is lost.
* **`freeSet_eq_of_live`**: the heap holds the spans of its live allocations and nothing else, so when
  the live allocations are again what they were, and nothing else has frames, the allocator has its
  frames back.
-/

namespace Hallucinate.Mm

open Lib List

/-- `HHDM_BASE`. -/
def hhdmBase : Nat := 0xffff800000000000

/-- The frames with their allocator, and the heap. -/
structure Kernel where
  machine : Machine
  heap : Heap.HeapSys

/-- `backend_pages_free`, on the spans that the heap gives back. -/
def backendPagesFree : List (Nat × Nat) → Machine → Option Machine
  | [], s => some s
  | (pages, count) :: spans, s =>
    match freeRun ((pages + (2 ^ 64 - hhdmBase)) % 2 ^ 64) count (s, []) with
    | (.ok (), (s, _)) => backendPagesFree spans s
    | (.error (), _) => none

namespace Heap

end Heap

/-- `kfree` of an allocation. -/
def kfree (a : Nat × Nat) (k : Kernel) : Option Kernel :=
  if (Heap.heapCoreFree a.1 k.heap.heap).1 ≠ 0 then none
  else
    let heap := k.heap.free a.1 a.2
    let back := k.heap.heap.held.filter fun p => decide (p ∉ heap.heap.held)
    (backendPagesFree back k.machine).map fun machine => ⟨machine, heap⟩

/-! ## Which spans the heap holds -/

namespace Heap

variable {h : Heap} {cls s size got : Nat}

@[simp] theorem store_held (h : Heap) (addr w v : Nat) : (h.store addr w v).held = h.held := rfl

@[simp] theorem partialInsert_held (cls s : Nat) (h : Heap) :
    (partialInsert cls s h).held = h.held := by
  unfold partialInsert
  dsimp only
  split <;> rfl

/-- The span that an allocation is in. -/
def spanOf (a : Nat × Nat) : Nat × Nat :=
  if a.2 ≤ 1024 then (a.1 / 4096 * 4096, 1) else (a.1 - 64, pagesFor a.2)

variable {sys : HeapSys} {bs : List Block} {lists : Nat → List Nat}

variable {a : Nat × Nat}

theorem Layout.spanOf_slot {m : Bytes} (hlay : Layout m bs) {B : Block} (hB : B ∈ bs)
    (ha : a ∈ B.slots) : spanOf a = B.span := by
  obtain ⟨h1, h2, -⟩ := hlay.slot_bounds hB ha
  have hal := (hlay.span B hB).aligned
  have hown := hlay.own B hB
  unfold spanOf
  cases B with
  | slab b c free live =>
    have hc := hown.2 a ha
    have hle : ¬1024 < a.2 := fun hlt => by
      rw [classFor_spec.mpr hlt] at hc
      cases hc
    have hsize := (classSize_spec hown.1.lt).1
    rw [slotSize_small hc] at h2
    rw [if_pos (by omega)]
    refine Prod.ext ?_ rfl
    change b + 64 ≤ a.1 at h1
    change a.1 + classSize c ≤ b + 1 * 4096 at h2
    change b % 4096 = 0 at hal
    show a.1 / 4096 * 4096 = b
    omega
  | large b n =>
    obtain rfl : a = (b + 64, n) := mem_singleton.mp ha
    have hlt : 1024 < n := classFor_spec.mp hown.1
    rw [if_neg (show ¬n ≤ 1024 by omega)]
    exact Prod.ext (Nat.add_sub_cancel b 64) rfl

variable {p : Nat × Nat}

/-- **The heap holds the spans of its live allocations.** -/
theorem Inv.mem_held_live (hi : Inv sys bs lists) :
    p ∈ sys.heap.held ↔ ∃ a ∈ sys.live, spanOf a = p := by
  rw [hi.mem_held]
  constructor
  · rintro ⟨B, hB, rfl⟩
    obtain ⟨a, ha⟩ := exists_mem_of_ne_nil _ (hi.used B hB)
    exact ⟨a, hi.mem_live.mpr ⟨B, hB, ha⟩, hi.core.layout.spanOf_slot hB ha⟩
  · rintro ⟨a, ha, rfl⟩
    obtain ⟨B, hB, hslot⟩ := hi.mem_live.mp ha
    exact ⟨B, hB, (hi.core.layout.spanOf_slot hB hslot).symm⟩

instance : Std.Symm Apart := ⟨fun _ _ => Apart.symm⟩

theorem Inv.held_apart (hi : Inv sys bs lists) : sys.heap.held.Pairwise Apart :=
  (hi.core.counted.held.pairwise_iff Or.symm).mpr
    (pairwise_map.mpr hi.core.layout.apart)

theorem Inv.held_pos (hi : Inv sys bs lists) (hp : p ∈ sys.heap.held) : 0 < p.2 := by
  obtain ⟨B, hB, rfl⟩ := hi.mem_held.mp hp
  exact (hi.core.layout.span B hB).pos

end Heap

/-! ## Frames -/

variable {k k' : Kernel} {f : Nat}

/-- The byte at the frame's address is in the span. -/
def InSpan (p : Nat × Nat) (f : Nat) : Prop :=
  p.1 ≤ hhdmBase + f * 4096 ∧ hhdmBase + f * 4096 < p.1 + p.2 * 4096

/-- The frame is a page of the heap. -/
def Kernel.HeapFrame (k : Kernel) (f : Nat) : Prop := ∃ p ∈ k.heap.heap.held, InSpan p f

/-- The span is a run of frames in use, at its address in the direct map. -/
def InUse (s : Machine) (p : Nat × Nat) : Prop :=
  ∃ f, f ≠ 0 ∧ p.1 = hhdmBase + f * 4096 ∧ f + p.2 ≤ s.pmm.nframes ∧
    ∀ i < p.2, f + i ∉ s.pmm.freeSet

/-- **The heap and the allocator fit together**: the heap is in order, the direct map has room for
all frames, and what the heap holds is not free. -/
structure KernelInv (k : Kernel) : Prop where
  heap : ∃ bs lists, Heap.Inv k.heap bs lists
  ready : Ready k.machine.pmm
  window : k.machine.pmm.nframes ≤ 2 ^ 35
  spans : ∀ p ∈ k.heap.heap.held, InUse k.machine p

/-- Frames have moved between the allocator and the heap, and memory is as it was. -/
structure Moved (k k' : Kernel) : Prop where
  inv : KernelInv k'
  mem : k'.machine.mem = k.machine.mem
  nframes : k'.machine.pmm.nframes = k.machine.pmm.nframes
  frames : ∀ f, (f ∈ k'.machine.pmm.freeSet ∨ k'.HeapFrame f) ↔
    (f ∈ k.machine.pmm.freeSet ∨ k.HeapFrame f)

theorem KernelInv.not_free (h : KernelInv k) (hf : k.HeapFrame f) : f ∉ k.machine.pmm.freeSet := by
  obtain ⟨p, hp, h1, h2⟩ := hf
  obtain ⟨g, -, hg, -, hused⟩ := h.spans p hp
  have hi := hused (f - g) (by omega)
  rwa [Nat.add_sub_cancel' (by omega)] at hi

section

variable (h : KernelInv k) (h' : KernelInv k') (hlive : ∀ a, a ∈ k'.heap.live ↔ a ∈ k.heap.live)
include h h' hlive

/-- The spans of the heap are those of its live allocations. -/
theorem held_iff_of_live (p : Nat × Nat) : p ∈ k'.heap.heap.held ↔ p ∈ k.heap.heap.held := by
  obtain ⟨bs, lists, hi⟩ := h.heap
  obtain ⟨bs', lists', hi'⟩ := h'.heap
  simp only [hi.mem_held_live, hi'.mem_held_live, hlive]

theorem heapFrame_iff_of_live (f : Nat) : k'.HeapFrame f ↔ k.HeapFrame f := by
  simp only [Kernel.HeapFrame, held_iff_of_live h h' hlive]

/-- **The frames are back when the live allocations are.** -/
theorem freeSet_eq_of_live (hframes : ∀ f, (f ∈ k'.machine.pmm.freeSet ∨ k'.HeapFrame f) ↔
      (f ∈ k.machine.pmm.freeSet ∨ k.HeapFrame f)) :
    k'.machine.pmm.freeSet = k.machine.pmm.freeSet := by
  ext f
  have h1 := hframes f
  have h2 := heapFrame_iff_of_live h h' hlive f
  have h3 : k.HeapFrame f → f ∉ k.machine.pmm.freeSet := h.not_free
  have h4 : k'.HeapFrame f → f ∉ k'.machine.pmm.freeSet := h'.not_free
  tauto

end

/-- Another machine with the same frames in use, or more of them. -/
theorem KernelInv.withMachine (h : KernelInv k) {s : Machine} (hr : Ready s.pmm)
    (hn : s.pmm.nframes = k.machine.pmm.nframes)
    (hfree : s.pmm.freeSet ⊆ k.machine.pmm.freeSet) : KernelInv { k with machine := s } := by
  refine ⟨h.heap, hr, hn ▸ h.window, fun p hp => ?_⟩
  obtain ⟨g, hg0, hg, hend, hused⟩ := h.spans p hp
  exact ⟨g, hg0, hg, hn ▸ hend, fun i hi hin => hused i hi (hfree hin)⟩

/-- The answer is fresh: its frames were free, and the heap's were not. -/
theorem KernelInv.answer (h : KernelInv k) {count : Nat} (hpos : 0 < count)
    (hend : f + count ≤ k.machine.pmm.nframes)
    (hfree : ∀ i < count, f + i ∈ k.machine.pmm.freeSet) :
    Heap.Answer k.heap.heap (hhdmBase + f * 4096) count := by
  have hwindow := h.window
  refine Or.inr ⟨by unfold hhdmBase; omega, by unfold hhdmBase; omega, fun p hp => ?_⟩
  obtain ⟨g, -, hg, -, hused⟩ := h.spans p hp
  obtain ⟨bs, lists, hi⟩ := h.heap
  have hppos := hi.held_pos hp
  unfold Heap.Apart
  simp only
  by_contra hover
  rw [not_or] at hover
  have hcommon : max f g < f + count ∧ max f g < g + p.2 := by omega
  refine hused (max f g - g) (by omega) ?_
  have hin := hfree (max f g - f) (by omega)
  rwa [show g + (max f g - g) = f + (max f g - f) by omega]

variable {machine : Machine}

/-- The frames of a span are freed, in the order of the loop. -/
theorem frees_run {s : Machine} {n : Nat} (hf0 : f ≠ 0) (hend : f + n ≤ s.pmm.nframes)
    (hused : ∀ i < n, f + i ∉ s.pmm.freeSet) :
    Frees s (fun g => f ≤ g ∧ g < f + n) (freeRun (f * 4096) n) := by
  induction n generalizing f with
  | zero =>
    intro freed x hx _
    exact ⟨[], by rwa [append_nil], fun g => by simp⟩
  | succ n ih =>
    have hfirst : Frees s (· = f) (freeFrame (f * 4096)) :=
      frees_frame hf0 (by omega) (hused 0 (by omega))
    have hrest : Frees s (fun g => f + 1 ≤ g ∧ g < f + 1 + n) (freeRun ((f + 1) * 4096) n) :=
      ih (by omega) (by omega) fun i hi => by
        have := hused (i + 1) (by omega)
        rwa [show f + 1 + i = f + (i + 1) by omega]
    have hnext : freeRun (f * 4096) (n + 1) = andThen (freeFrame (f * 4096)) (freeRun ((f + 1) * 4096) n) := by
      funext x
      rw [freeRun, show f * 4096 + 0x1000 = (f + 1) * 4096 by omega]
    rw [hnext]
    exact (hfirst.andThen hrest fun g h1 h2 => by omega).congr fun g => by omega

/-- **`backend_pages_free`** of spans in use. -/
theorem backendPagesFree_spec {ps : List (Nat × Nat)} {s : Machine} (hr : Ready s.pmm)
    (hwindow : s.pmm.nframes ≤ 2 ^ 35) (hused : ∀ p ∈ ps, InUse s p)
    (hpos : ∀ p ∈ ps, 0 < p.2) (hapart : ps.Pairwise Heap.Apart) :
    ∃ s', backendPagesFree ps s = some s' ∧ s'.mem = s.mem ∧ Ready s'.pmm ∧
      s'.pmm.nframes = s.pmm.nframes ∧
      ∀ g, g ∈ s'.pmm.freeSet ↔ g ∈ s.pmm.freeSet ∨ ∃ p ∈ ps, InSpan p g := by
  induction ps generalizing s with
  | nil => exact ⟨s, rfl, rfl, hr, rfl, fun g => by simp⟩
  | cons p ps ih =>
    obtain ⟨hap, hapart⟩ := pairwise_cons.mp hapart
    obtain ⟨f, hf0, hf, hend, hbusy⟩ := hused p mem_cons_self
    have haddr : (p.1 + (2 ^ 64 - hhdmBase)) % 2 ^ 64 = f * 4096 := by
      unfold hhdmBase at hf ⊢
      have := hpos p mem_cons_self
      omega
    have hspan : ∀ g, InSpan p g ↔ f ≤ g ∧ g < f + p.2 := fun g => by
      unfold InSpan
      omega
    have hfreed := frees_run hf0 hend hbusy [] (s, []) ⟨rfl, rfl, hr, rfl, nodup_nil, by simp⟩
      fun _ _ => not_mem_nil
    rw [backendPagesFree, haddr]
    revert hfreed
    rcases freeRun (f * 4096) p.2 (s, []) with ⟨_ | _, t, log⟩
    · exact False.elim
    rintro ⟨more, ht, hmore⟩
    rw [nil_append] at ht
    have hfree : ∀ g, g ∈ t.pmm.freeSet ↔ g ∈ s.pmm.freeSet ∨ InSpan p g := fun g => by
      rw [hspan g]
      exact (ht.free g).trans (or_congr_right (hmore g))
    -- the frames of the other spans are not among those freed
    have hothers : ∀ q ∈ ps, InUse t q := fun q hq => by
      obtain ⟨g, hg0, hg, hgend, hgused⟩ := hused q (mem_cons_of_mem p hq)
      refine ⟨g, hg0, hg, ht.nframes ▸ hgend, fun i hi hin => ?_⟩
      rcases (hfree _).mp hin with hold | hnew
      · exact hgused i hi hold
      · have hpq := hap q hq
        have hg := (hspan _).mp hnew
        unfold Heap.Apart at hpq
        omega
    obtain ⟨s', hcall, hmem, hr', hn, hset⟩ := ih ht.ready (ht.nframes ▸ hwindow) hothers
      (fun q hq => hpos q (mem_cons_of_mem p hq)) hapart
    refine ⟨s', hcall, hmem.trans ht.mem, hr', hn.trans ht.nframes, fun g => ?_⟩
    rw [hset g, hfree g, or_assoc]
    simp only [mem_cons, exists_eq_or_imp]

/-- **`kfree`** of a live allocation. -/
theorem kfree_spec (h : KernelInv k) (ha : a ∈ k.heap.live) :
    ∃ k', kfree a k = some k' ∧ Moved k k' ∧ k'.heap.live = k.heap.live.erase a := by
  obtain ⟨bs, lists, hi⟩ := h.heap
  have ha' : (a.1, a.2) ∈ k.heap.live := ha
  obtain ⟨heap, bs', lists', hcall, hi'⟩ := hi.release ha'
  have hsub : ∀ p ∈ heap.held, p ∈ k.heap.heap.held := fun p hp => by
    obtain ⟨b, hb, hspan⟩ := hi'.mem_held_live.mp hp
    exact hi.mem_held_live.mpr ⟨b, mem_of_mem_erase hb, hspan⟩
  have hgone : ∀ p, p ∈ k.heap.heap.held.filter (fun p => decide (p ∉ heap.held)) ↔
      p ∈ k.heap.heap.held ∧ p ∉ heap.held := fun p => by
    rw [mem_filter, decide_eq_true_eq]
  obtain ⟨machine, hback, hmem, hready, hn, hset⟩ := backendPagesFree_spec h.ready h.window
    (fun p hp => h.spans p ((hgone p).mp hp).1) (fun p hp => hi.held_pos ((hgone p).mp hp).1)
    (hi.held_apart.sublist filter_sublist)
  refine ⟨⟨machine, ⟨heap, k.heap.live.erase a⟩⟩, ?_, ⟨⟨⟨bs', lists', hi'⟩, hready, hn ▸ h.window, ?_⟩,
    hmem, hn, fun g => ?_⟩, rfl⟩
  · unfold kfree
    rw [hcall, if_neg (fun hne => hne rfl)]
    simp only [Heap.HeapSys.free, hcall, hback]
    rfl
  · intro q hq
    obtain ⟨g, hg0, hg, hend, hused⟩ := h.spans q (hsub q hq)
    refine ⟨g, hg0, hg, hn ▸ hend, fun i hlt hin => ?_⟩
    rcases (hset _).mp hin with hold | ⟨p, hp, hspan⟩
    · exact hused i hlt hold
    · obtain ⟨hin, hout⟩ := (hgone p).mp hp
      have hne : p ≠ q := fun heq => hout (heq ▸ hq)
      have hpq := hi.held_apart.forall hin (hsub q hq) hne
      unfold Heap.Apart at hpq
      unfold InSpan at hspan
      omega
  · rw [hset g, or_assoc]
    refine or_congr_right ⟨?_, ?_⟩
    · rintro (⟨p, hp, hspan⟩ | ⟨p, hp, hspan⟩)
      · exact ⟨p, ((hgone p).mp hp).1, hspan⟩
      · exact ⟨p, hsub p hp, hspan⟩
    · rintro ⟨p, hp, hspan⟩
      by_cases hkept : p ∈ heap.held
      · exact Or.inr ⟨p, hkept, hspan⟩
      · exact Or.inl ⟨p, (hgone p).mpr ⟨hp, hkept⟩, hspan⟩

end Hallucinate.Mm
