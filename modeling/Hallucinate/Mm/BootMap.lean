import Hallucinate.Mm.Pmm
import Mathlib.Data.List.DropRight
import Mathlib.Data.Set.Card

/-!
# The boot memory map (`kernel/mm/pmm.c`)

The BIOS leaves a list of ranges, each with a type; ranges may overlap, contradict each other and
begin anywhere. `pmm_init` counts the frames below the highest usable end, finds room for their
bitmap, and marks the bitmap in four passes: free the inside of each usable range, take back what
any other range touches, then the kernel image and low memory, then the bitmap.

**`pmm_init_exact`**: over ranges that end at or below `2 ^ 64 - 4096` the passes compose to a set
that mentions none of them. A frame is free iff it lies in one usable range, no other range
touches it, and it belongs neither to the kernel's memory nor to the bitmap; `free_frames` counts
these frames.

`place_bitmap` runs before that set exists. It looks at one usable range at a time, each of which
offers the run of pages at its beginning, and takes the lowest offer (`placeBitmap_spec`). It
never looks at the other ranges. **`place_bitmap_safe`** says when the place is safe all the same:
iff every offer that another range meets is undercut by a lower one. `place_bitmap_reserved` is a
map whose bitmap goes to a reserved page.
-/

namespace Hallucinate.Mm.Boot

open Lib List

/-- The fields of `struct e820_entry` that the kernel reads. -/
structure E820Entry where
  base : UInt64
  len : UInt64
  type : UInt32
  deriving DecidableEq

/-- `BOOT_MAPPED_LIMIT`. -/
def bootMappedLimit : Nat := 0x40000000

/-- `KERNEL_VMA`. -/
def kernelVma : Nat := 0xffffffff80000000

namespace E820Entry

/-- `e->type == E820_TYPE_USABLE`. -/
def usable (e : E820Entry) : Bool := e.type == 1

/-- `e->base + e->len`. -/
def stop (e : E820Entry) : Nat := (e.base.toNat + e.len.toNat) % 2 ^ 64

/-- The byte at `x` belongs to the range. -/
def Covers (e : E820Entry) (x : Nat) : Prop :=
  e.base.toNat ≤ x ∧ x < e.base.toNat + e.len.toNat

/-- The frame lies wholly in a usable range. -/
def Holds (e : E820Entry) (f : Nat) : Prop :=
  e.usable = true ∧ e.base.toNat ≤ f * 4096 ∧ f * 4096 + 4096 ≤ e.base.toNat + e.len.toNat

/-- A range that is not usable has a byte in the frame. -/
def Touches (e : E820Entry) (f : Nat) : Prop :=
  e.usable = false ∧ ∃ x, e.Covers x ∧ x / 4096 = f

/-- An empty range that is not usable begins inside the frame. -/
def Grazes (e : E820Entry) (f : Nat) : Prop :=
  e.usable = false ∧ e.len = 0 ∧ e.base.toNat % 4096 ≠ 0 ∧ e.base.toNat / 4096 = f

end E820Entry

/-- `page_up`. -/
def pageUp (addr : Nat) : Nat := (addr + 4095) % 2 ^ 64 / 4096 * 4096

/-- `page_down`. -/
def pageDown (addr : Nat) : Nat := addr / 4096 * 4096

/-- `highest_usable_end`. -/
def highestUsableEnd (bi : List E820Entry) : Nat :=
  bi.foldl (fun stop e => if e.usable ∧ stop < e.stop then e.stop else stop) 0

/-- One pass of the loop of `place_bitmap`. -/
def placeStep (size minAddr best : Nat) (e : E820Entry) : Nat :=
  if e.usable then
    let start := pageUp (if e.base.toNat < minAddr then minAddr else e.base.toNat)
    let stop := if bootMappedLimit < pageDown e.stop then bootMappedLimit else pageDown e.stop
    if stop ≤ start ∨ stop - start < size then best
    else if best = 0 ∨ start < best then start
    else best
  else best

/-- `place_bitmap`. -/
def placeBitmap (bi : List E820Entry) (size minAddr : Nat) : Nat :=
  bi.foldl (placeStep size minAddr) 0

/-- One pass of the loop of `pmm_init` over the usable ranges. -/
def freeStep (p : Pmm) (e : E820Entry) : Pmm :=
  if e.usable then
    let start := pageUp e.base.toNat
    let stop := pageDown e.stop
    if start < stop then pmmCoreMarkFree p (start / 4096) ((stop - start) / 4096) else p
  else p

/-- One pass of the loop of `pmm_init` over the other ranges. -/
def reserveStep (p : Pmm) (e : E820Entry) : Pmm :=
  if e.usable then p
  else
    let start := pageDown e.base.toNat
    let stop := pageUp e.stop
    pmmCoreMarkUsed p (start / 4096) ((stop + (2 ^ 64 - start)) % 2 ^ 64 / 4096)

/-- The marks of `pmm_init`: the two loops, then low memory with the kernel, then the bitmap. -/
def bootMarks (bi : List E820Entry) (kernelEndPhys bitmapPhys bitmapSize : Nat) (p : Pmm) : Pmm :=
  let freed := bi.foldl freeStep p
  let reserved := bi.foldl reserveStep freed
  let kept := pmmCoreMarkUsed reserved 0 (pageUp kernelEndPhys / 4096)
  pmmCoreMarkUsed kept (bitmapPhys / 4096) (pageUp bitmapSize / 4096)

/-- The static variables of `pmm.c`. -/
structure Booted where
  pmm : Pmm
  bitmapPhysAddr : Nat

/-- The physical address of the linker's `_kernel_end`. -/
def kernelEndPhys (kernelEnd : Nat) : Nat := (kernelEnd + (2 ^ 64 - kernelVma)) % 2 ^ 64

/-- `pmm_init` over a memory that holds anything; the error is what the kernel panics with. -/
def pmmInit (mem : Bytes) (kernelEnd : Nat) (bi : List E820Entry) : Except String Booted :=
  let memEnd := highestUsableEnd bi
  if memEnd = 0 then .error "pmm: E820 map has no usable memory"
  else
    let nframes := pageUp memEnd / 4096
    let bitmapSize := pmmCoreBitmapSize nframes
    let bitmapPhys := placeBitmap bi bitmapSize (kernelEndPhys kernelEnd)
    if bitmapPhys = 0 then
      .error s!"pmm: no usable region for a {bitmapSize}-byte frame bitmap"
    else
      let p := pmmCoreInit (fun i => mem (bitmapPhys + i)) nframes
      .ok { pmm := bootMarks bi (kernelEndPhys kernelEnd) bitmapPhys bitmapSize p
            bitmapPhysAddr := bitmapPhys }

/-! ## Offers -/

variable {x : Nat}

section Offers

variable {bi : List E820Entry} {e : E820Entry} {size minAddr start : Nat}

/-- The usable range `e` offers `size` bytes from `start` on: the first page boundary of the range
that is not below `minAddr`, as 64 bits hold it, with the bytes below the page-rounded end of
the range and below `BOOT_MAPPED_LIMIT`. -/
def Offers (size minAddr : Nat) (e : E820Entry) (start : Nat) : Prop :=
  e.usable = true ∧ start = pageUp (max e.base.toNat minAddr) ∧
    start < min (pageDown e.stop) bootMappedLimit ∧
    start + size ≤ min (pageDown e.stop) bootMappedLimit

instance : Decidable (Offers size minAddr e start) :=
  inferInstanceAs (Decidable (_ ∧ _ ∧ _ ∧ _))

theorem Offers.unique {s : Nat} (h : Offers size minAddr e start) (h' : Offers size minAddr e s) :
    start = s :=
  h.2.1.trans h'.2.1.symm

theorem placeStep_usable (hu : e.usable = true) (best : Nat) :
    placeStep size minAddr best e =
      if min (pageDown e.stop) bootMappedLimit ≤ pageUp (max e.base.toNat minAddr) ∨
          min (pageDown e.stop) bootMappedLimit - pageUp (max e.base.toNat minAddr) < size then best
      else if best = 0 ∨ pageUp (max e.base.toNat minAddr) < best then
        pageUp (max e.base.toNat minAddr)
      else best := by
  have hmax : (if e.base.toNat < minAddr then minAddr else e.base.toNat) =
      max e.base.toNat minAddr := by
    split <;> omega
  have hmin : (if bootMappedLimit < pageDown e.stop then bootMappedLimit else pageDown e.stop) =
      min (pageDown e.stop) bootMappedLimit := by
    split <;> omega
  unfold placeStep
  rw [if_pos hu]
  simp only [hmax, hmin]

/-- An offer is taken if it is the first or the lowest. -/
theorem placeStep_of_offers (h : Offers size minAddr e start) (best : Nat) :
    placeStep size minAddr best e = if best = 0 ∨ start < best then start else best := by
  obtain ⟨hu, rfl, hlt, hfit⟩ := h
  rw [placeStep_usable hu, if_neg (by omega)]

/-- A range without an offer is passed over. -/
theorem placeStep_of_not_offers (h : ∀ start, ¬Offers size minAddr e start) (best : Nat) :
    placeStep size minAddr best e = best := by
  by_cases hu : e.usable = true
  · rw [placeStep_usable hu, if_pos]
    by_contra hroom
    exact h _ ⟨hu, rfl, by omega, by omega⟩
  · unfold placeStep
    rw [if_neg hu]

/-- The ranges after the last one that offers address 0. The loop takes `best == 0` for "nothing
found so far", so an offer of 0 forgets what came before it. -/
def standing (bi : List E820Entry) (size minAddr : Nat) : List E820Entry :=
  bi.rtakeWhile fun e => !decide (Offers size minAddr e 0)

/-- `best` is the lowest offer of the ranges `l`, and 0 if they offer nothing. -/
def LowestOffer (l : List E820Entry) (size minAddr best : Nat) : Prop :=
  (best ≠ 0 → ∃ e ∈ l, Offers size minAddr e best) ∧
    ∀ e ∈ l, ∀ s, Offers size minAddr e s → best ≠ 0 ∧ best ≤ s

theorem standing_reset (h : Offers size minAddr e 0) :
    standing (bi ++ [e]) size minAddr = [] :=
  rtakeWhile_concat_neg _ _ e (by simp [h])

theorem standing_concat (h : ¬Offers size minAddr e 0) :
    standing (bi ++ [e]) size minAddr = standing bi size minAddr ++ [e] :=
  rtakeWhile_concat_pos _ _ e (by simp [h])

/-- One more range: it undercuts the lowest offer, or leaves it. -/
theorem LowestOffer.step {l : List E820Entry} {best : Nat} (h : LowestOffer l size minAddr best)
    (h0 : ¬Offers size minAddr e 0) :
    LowestOffer (l ++ [e]) size minAddr (placeStep size minAddr best e) := by
  have hold : best ≠ 0 → ∃ d ∈ l ++ [e], Offers size minAddr d best := fun hne => by
    obtain ⟨d, hd, hbest⟩ := h.1 hne
    exact ⟨d, mem_append_left _ hd, hbest⟩
  by_cases hoff : ∃ s, Offers size minAddr e s
  · obtain ⟨s, hs⟩ := hoff
    have hpos : s ≠ 0 := fun hz => h0 (hz ▸ hs)
    rw [placeStep_of_offers hs]
    by_cases htake : best = 0 ∨ s < best
    · rw [if_pos htake]
      refine ⟨fun _ => ⟨e, by simp, hs⟩, fun d hd t ht => ⟨hpos, ?_⟩⟩
      rcases mem_append.mp hd with hd | hd
      · have := h.2 d hd t ht
        omega
      · rw [mem_singleton.mp hd] at ht
        exact (hs.unique ht).le
    · rw [if_neg htake]
      refine ⟨hold, fun d hd t ht => ?_⟩
      rcases mem_append.mp hd with hd | hd
      · exact h.2 d hd t ht
      · rw [mem_singleton.mp hd] at ht
        have := hs.unique ht
        omega
  · have hno : ∀ s, ¬Offers size minAddr e s := fun s hs => hoff ⟨s, hs⟩
    rw [placeStep_of_not_offers hno]
    refine ⟨hold, fun d hd t ht => ?_⟩
    rcases mem_append.mp hd with hd | hd
    · exact h.2 d hd t ht
    · rw [mem_singleton.mp hd] at ht
      exact absurd ht (hno t)

/-- **The place is the lowest offer that stands.** -/
theorem placeBitmap_spec (bi : List E820Entry) (size minAddr : Nat) :
    LowestOffer (standing bi size minAddr) size minAddr (placeBitmap bi size minAddr) := by
  -- from the last entry, since the loop compares each with what it found before
  induction bi using List.reverseRecOn with
  | nil => exact ⟨fun h => absurd rfl h, fun e he => absurd he (by simp [standing])⟩
  | append_singleton bi e ih =>
    have hstep : placeBitmap (bi ++ [e]) size minAddr =
        placeStep size minAddr (placeBitmap bi size minAddr) e := by
      unfold placeBitmap
      rw [foldl_concat]
    rw [hstep]
    by_cases h0 : Offers size minAddr e 0
    · rw [standing_reset h0, placeStep_of_offers h0, if_pos (Nat.eq_zero_or_pos _)]
      exact ⟨fun h => absurd rfl h, fun e he => absurd he not_mem_nil⟩
    · rw [standing_concat h0]
      exact ih.step h0

theorem standing_subset : standing bi size minAddr ⊆ bi :=
  (rtakeWhile_suffix _ _).subset

theorem pageUp_of_le (h : x + 4096 ≤ 2 ^ 64) : pageUp x = (x + 4095) / 4096 * 4096 := by
  unfold pageUp
  rw [Nat.mod_eq_of_lt (by omega)]

/-- A page-rounded address other than 0 did not wrap around. -/
theorem le_pageUp (hx : x < 2 ^ 64) (h : pageUp x ≠ 0) : x ≤ pageUp x := by
  unfold pageUp at h ⊢
  omega

/-- An offer other than 0 holds the page-rounded bytes, above `minAddr` and in its range. -/
theorem Offers.room (h : Offers size minAddr e start) (hfit : e.base.toNat + e.len.toNat < 2 ^ 64)
    (hmin : minAddr < 2 ^ 64) (hpos : start ≠ 0) :
    minAddr ≤ start ∧ start + pageUp size ≤ bootMappedLimit ∧ e.base.toNat ≤ start ∧
      start + pageUp size ≤ e.base.toNat + e.len.toNat := by
  obtain ⟨-, rfl, -, hroom⟩ := h
  have hbase := e.base.toNat_lt
  have hle : max e.base.toNat minAddr ≤ pageUp (max e.base.toNat minAddr) :=
    le_pageUp (by omega) hpos
  have hstart : pageUp (max e.base.toNat minAddr) % 4096 = 0 := Nat.mul_mod_left _ _
  generalize pageUp (max e.base.toNat minAddr) = start at *
  rw [E820Entry.stop, Nat.mod_eq_of_lt hfit, pageDown, bootMappedLimit] at hroom
  rw [pageUp_of_le (by omega), bootMappedLimit]
  omega

/-- The page-rounded bytes from `start` on meet a range that is not usable. -/
def Meets (bi : List E820Entry) (size start : Nat) : Prop :=
  ∃ e ∈ bi, e.usable = false ∧ ∃ x, e.Covers x ∧ start ≤ x ∧ x < start + pageUp size

/-- The bitmap may live at `place`. -/
structure Safe (bi : List E820Entry) (size minAddr place : Nat) : Prop where
  above : minAddr ≤ place
  mapped : place + pageUp size ≤ bootMappedLimit
  inside : ∃ e ∈ bi, e.usable = true ∧ e.base.toNat ≤ place ∧
    place + pageUp size ≤ e.base.toNat + e.len.toNat
  clear : ¬Meets bi size place

/-- Every offer that meets a range that is not usable is undercut by a lower one. -/
def Undercut (bi : List E820Entry) (size minAddr : Nat) : Prop :=
  ∀ e ∈ standing bi size minAddr, ∀ s, Offers size minAddr e s → Meets bi size s →
    ∃ d ∈ standing bi size minAddr, ∃ t < s, Offers size minAddr d t

/-- **The bitmap's place is safe iff the offers in the way of other ranges are undercut.** -/
theorem place_bitmap_safe (bi : List E820Entry)
    (hfit : ∀ e ∈ bi, e.base.toNat + e.len.toNat < 2 ^ 64) (size kernelEnd : UInt64) :
    (placeBitmap bi size.toNat kernelEnd.toNat ≠ 0 →
        Safe bi size.toNat kernelEnd.toNat (placeBitmap bi size.toNat kernelEnd.toNat)) ↔
      Undercut bi size.toNat kernelEnd.toNat := by
  obtain ⟨hfound, hleast⟩ := placeBitmap_spec bi size.toNat kernelEnd.toNat
  generalize placeBitmap bi size.toNat kernelEnd.toNat = place at *
  constructor
  · intro hsafe e he s hs hmeets
    obtain ⟨hne, hle⟩ := hleast e he s hs
    obtain ⟨d, hd, hplace⟩ := hfound hne
    have hother : place ≠ s := fun heq => (hsafe hne).clear (heq ▸ hmeets)
    exact ⟨d, hd, place, by omega, hplace⟩
  · intro hunder hne
    obtain ⟨e, he, hplace⟩ := hfound hne
    have hmem := standing_subset he
    obtain ⟨habove, hmapped, hbase, hstop⟩ :=
      hplace.room (hfit e hmem) kernelEnd.toNat_lt hne
    refine ⟨habove, hmapped, ⟨e, hmem, hplace.1, hbase, hstop⟩, fun hmeets => ?_⟩
    obtain ⟨d, hd, t, hlt, ht⟩ := hunder e he place hplace hmeets
    have := (hleast d hd t ht).2
    omega

/-- 127 MiB of memory from 1 MiB on, one page of which is reserved as well. -/
def contradictory : List E820Entry :=
  [⟨0x100000, 0x7f00000, 1⟩, ⟨0x200000, 0x1000, 2⟩]

/-- With a kernel that ends at 1 MiB the bitmap goes below the reserved page, and that is safe. -/
theorem place_bitmap_safe_below :
    Safe contradictory 4096 0x100000 (placeBitmap contradictory 4096 0x100000) := by
  refine (place_bitmap_safe contradictory (by decide) 4096 0x100000).mpr ?_ (by decide)
  rintro e he s ⟨hu, rfl, -⟩ ⟨d, hd, hother, x, ⟨hx, -⟩, -, hlt⟩
  rcases mem_pair.mp (standing_subset he) with rfl | rfl
  · rcases mem_pair.mp hd with rfl | rfl
    · exact absurd hother (by decide)
    · have hstart : pageUp (max (0x100000 : UInt64).toNat (0x100000 : UInt64).toNat) +
          pageUp (4096 : UInt64).toNat = 0x101000 := by decide
      have hbase : (0x200000 : UInt64).toNat = 0x200000 := rfl
      simp only [hstart, hbase] at hlt hx
      omega
  · exact absurd hu (by decide)

/-- With a kernel that ends at 2 MiB the bitmap goes to the reserved page. -/
theorem place_bitmap_reserved :
    ¬((∀ e ∈ contradictory, e.base.toNat + e.len.toNat < 2 ^ 64) →
      placeBitmap contradictory 4096 0x200000 ≠ 0 →
        Safe contradictory 4096 0x200000 (placeBitmap contradictory 4096 0x200000)) := by
  have hplace : placeBitmap contradictory 4096 0x200000 = 0x200000 := by decide
  rw [hplace]
  intro h
  refine (h (by decide) (by decide)).clear ⟨⟨0x200000, 0x1000, 2⟩, by decide, rfl, 0x200000, ?_, ?_⟩
  · exact ⟨le_refl _, by decide⟩
  · exact ⟨le_refl _, by decide⟩

end Offers

/-! ## Marks -/

variable {kernelEnd : Nat}

variable {P : Nat → Prop} {first count place : Nat} {mem : Bytes} {b : Booted}

section Marks

variable {bi : List E820Entry} {e : E820Entry} {p q : Pmm} {f : Nat}

/-- The range ends where its rounded end is still a 64-bit address. -/
def E820Entry.Fits (e : E820Entry) : Prop := e.base.toNat + e.len.toNat ≤ 2 ^ 64 - 4096

instance : Decidable e.Fits := inferInstanceAs (Decidable (_ ≤ _))

theorem E820Entry.Fits.stop_eq (h : e.Fits) : e.stop = e.base.toNat + e.len.toNat := by
  unfold E820Entry.Fits at h
  exact Nat.mod_eq_of_lt (by omega)

/-- The page-aligned inside of a usable range. -/
theorem E820Entry.Fits.holds_iff (h : e.Fits) (hu : e.usable = true) :
    e.Holds f ↔ pageUp e.base.toNat / 4096 ≤ f ∧ f < pageDown e.stop / 4096 := by
  rw [h.stop_eq, pageDown, pageUp_of_le (by unfold E820Entry.Fits at h; omega)]
  unfold E820Entry.Holds
  simp only [hu, true_and]
  omega

/-- The frames that a range which is not usable has, rounded outwards. -/
theorem E820Entry.Fits.touches_iff (h : e.Fits) (hu : e.usable = false) :
    e.Touches f ∨ e.Grazes f ↔
      pageDown e.base.toNat / 4096 ≤ f ∧ f < pageUp e.stop / 4096 := by
  have hstop : e.base.toNat + e.len.toNat ≤ 2 ^ 64 - 4096 := h
  rw [h.stop_eq, pageDown, pageUp_of_le (by omega), E820Entry.Touches, E820Entry.Grazes]
  simp only [hu, true_and, E820Entry.Covers]
  have hlen : e.len = 0 ↔ e.len.toNat = 0 := UInt64.toNat_inj.symm
  rw [hlen]
  constructor
  · rintro (⟨x, hx, rfl⟩ | ⟨hz, hodd, rfl⟩) <;> omega
  · intro hf
    rcases Nat.eq_zero_or_pos e.len.toNat with hz | hpos
    · exact Or.inr (by omega)
    · exact Or.inl ⟨max e.base.toNat (f * 4096), by omega, by omega⟩

/-- `q` is the allocator `p` after some marks: its free frames are those that `P` names. -/
structure Marked (p q : Pmm) (P : Nat → Prop) : Prop where
  exact : Exact q
  nframes : q.nframes = p.nframes
  free : ∀ f, f ∈ q.freeSet ↔ P f

theorem Marked.congr {Q : Nat → Prop} (h : Marked p q P) (hPQ : ∀ f, P f ↔ Q f) : Marked p q Q :=
  ⟨h.exact, h.nframes, fun f => (h.free f).trans (hPQ f)⟩

theorem Marked.trans {r : Pmm} (h : Marked q r P) (hn : q.nframes = p.nframes) : Marked p r P :=
  ⟨h.exact, h.nframes.trans hn, h.free⟩

theorem marked_used (h : Exact p) (hfit : first + count < 2 ^ 64) :
    Marked p (pmmCoreMarkUsed p first count)
      fun f => f ∈ p.freeSet ∧ ¬(first ≤ f ∧ f < first + count) := by
  obtain ⟨hx, hs, hset⟩ := h.markUsed hfit
  exact ⟨hx, hs.nframes, hset⟩

theorem marked_free (h : Exact p) (hfit : first + count < 2 ^ 64) :
    Marked p (pmmCoreMarkFree p first count)
      fun f => f ∈ p.freeSet ∨ f < p.nframes ∧ first ≤ f ∧ f < first + count := by
  obtain ⟨hx, hs, hset⟩ := h.markFree hfit
  exact ⟨hx, hs.nframes, hset⟩

/-- A usable range adds the frames it holds. -/
theorem marked_freeStep (h : Exact p) (hfit : e.Fits) :
    Marked p (freeStep p e) fun f => f ∈ p.freeSet ∨ f < p.nframes ∧ e.Holds f := by
  have hkeep : (∀ f, ¬e.Holds f) →
      Marked p p fun f => f ∈ p.freeSet ∨ f < p.nframes ∧ e.Holds f := fun hno =>
    ⟨h, rfl, fun f => ⟨Or.inl, fun hf => hf.resolve_right fun hr => hno f hr.2⟩⟩
  unfold freeStep
  by_cases hu : e.usable = true
  · rw [if_pos hu]
    have hiff := fun f => hfit.holds_iff (f := f) hu
    have hstop : pageDown e.stop < 2 ^ 64 := by
      have := hfit.stop_eq
      unfold E820Entry.Fits at hfit
      unfold pageDown
      omega
    have h1 : pageUp e.base.toNat % 4096 = 0 := Nat.mul_mod_left _ _
    have h2 : pageDown e.stop % 4096 = 0 := Nat.mul_mod_left _ _
    simp only
    generalize pageUp e.base.toNat = start, pageDown e.stop = stop at *
    split
    · refine (marked_free h (by omega)).congr fun f => ?_
      have hsame : f < start / 4096 + (stop - start) / 4096 ↔ f < stop / 4096 := by omega
      rw [hiff f, hsame]
    · refine hkeep fun f hf => ?_
      have := (hiff f).mp hf
      omega
  · rw [if_neg hu]
    exact hkeep fun f hf => hu hf.1

/-- Any other range takes the frames it touches. -/
theorem marked_reserveStep (h : Exact p) (hfit : e.Fits) :
    Marked p (reserveStep p e) fun f => f ∈ p.freeSet ∧ ¬(e.Touches f ∨ e.Grazes f) := by
  unfold reserveStep
  by_cases hu : e.usable = true
  · rw [if_pos hu]
    refine ⟨h, rfl, fun f => (and_iff_left ?_).symm⟩
    rintro (⟨hno, -⟩ | ⟨hno, -⟩) <;> exact absurd (hu.symm.trans hno) (by decide)
  · rw [if_neg hu]
    have hiff := fun f => hfit.touches_iff (f := f) (Bool.eq_false_iff.mpr hu)
    have hle : pageDown e.base.toNat ≤ pageUp e.stop ∧ pageUp e.stop < 2 ^ 64 := by
      have hend := hfit.stop_eq
      unfold E820Entry.Fits at hfit
      rw [pageUp_of_le (by omega), pageDown]
      omega
    have h1 : pageDown e.base.toNat % 4096 = 0 := Nat.mul_mod_left _ _
    have h2 : pageUp e.stop % 4096 = 0 := Nat.mul_mod_left _ _
    simp only
    generalize pageDown e.base.toNat = start, pageUp e.stop = stop at *
    have hcount : (stop + (2 ^ 64 - start)) % 2 ^ 64 = stop - start := by omega
    rw [hcount]
    refine (marked_used h (by omega)).congr fun f => ?_
    rw [hiff f]
    have hsame : f < start / 4096 + (stop - start) / 4096 ↔ f < stop / 4096 := by omega
    rw [hsame]

theorem marked_freePass (hfit : ∀ e ∈ bi, e.Fits) (h : Exact p) :
    Marked p (bi.foldl freeStep p)
      fun f => f ∈ p.freeSet ∨ f < p.nframes ∧ ∃ e ∈ bi, e.Holds f := by
  induction bi generalizing p with
  | nil => exact ⟨h, rfl, fun f => by simp⟩
  | cons e bi ih =>
    obtain ⟨hx, hn, hstep⟩ := marked_freeStep h (hfit e mem_cons_self)
    have hrest := ih (fun d hd => hfit d (mem_cons_of_mem e hd)) hx
    refine (hrest.trans hn).congr fun f => ?_
    rw [hstep f, hn]
    simp only [mem_cons, exists_eq_or_imp]
    tauto

theorem marked_reservePass (hfit : ∀ e ∈ bi, e.Fits) (h : Exact p) :
    Marked p (bi.foldl reserveStep p)
      fun f => f ∈ p.freeSet ∧ ∀ e ∈ bi, ¬(e.Touches f ∨ e.Grazes f) := by
  induction bi generalizing p with
  | nil => exact ⟨h, rfl, fun f => by simp⟩
  | cons e bi ih =>
    obtain ⟨hx, hn, hstep⟩ := marked_reserveStep h (hfit e mem_cons_self)
    have hrest := ih (fun d hd => hfit d (mem_cons_of_mem e hd)) hx
    refine (hrest.trans hn).congr fun f => ?_
    rw [hstep f, forall_mem_cons]
    tauto

/-- Every usable range ends at or below the highest end, which is one of the ends or the value the
loop begins with. -/
theorem highest_spec {acc bound : Nat} (hacc : acc ≤ bound) (hstops : ∀ e ∈ bi, e.stop ≤ bound) :
    let top := bi.foldl (fun stop e => if e.usable ∧ stop < e.stop then e.stop else stop) acc
    acc ≤ top ∧ top ≤ bound ∧ ∀ e ∈ bi, e.usable = true → e.stop ≤ top := by
  induction bi generalizing acc with
  | nil => exact ⟨le_refl _, hacc, fun e he => absurd he not_mem_nil⟩
  | cons e bi ih =>
    have hrest : ∀ d ∈ bi, d.stop ≤ bound := fun d hd => hstops d (mem_cons_of_mem e hd)
    have he := hstops e mem_cons_self
    have hnext : acc ≤ (if e.usable ∧ acc < e.stop then e.stop else acc) ∧
        (if e.usable ∧ acc < e.stop then e.stop else acc) ≤ bound ∧
        (e.usable = true → e.stop ≤ if e.usable ∧ acc < e.stop then e.stop else acc) := by
      split
      · omega
      · rename_i hno
        exact ⟨le_refl _, hacc, fun hu => Nat.le_of_not_lt fun hlt => hno ⟨hu, hlt⟩⟩
    obtain ⟨h1, h2, h3⟩ := ih hnext.2.1 hrest
    refine ⟨hnext.1.trans h1, h2, fun d hd hu => ?_⟩
    rcases mem_cons.mp hd with rfl | hd
    · exact (hnext.2.2 hu).trans h1
    · exact h3 d hd hu

theorem highestUsableEnd_spec (hfit : ∀ e ∈ bi, e.Fits) :
    highestUsableEnd bi ≤ 2 ^ 64 - 4096 ∧
      ∀ e ∈ bi, e.usable = true → e.base.toNat + e.len.toNat ≤ highestUsableEnd bi := by
  have hstops : ∀ e ∈ bi, e.stop ≤ 2 ^ 64 - 4096 := fun e he => by
    rw [(hfit e he).stop_eq]
    exact hfit e he
  obtain ⟨-, htop, hbelow⟩ := highest_spec (Nat.zero_le _) hstops
  refine ⟨htop, fun e he hu => ?_⟩
  rw [← (hfit e he).stop_eq]
  exact hbelow e he hu

/-- A byte of the bitmap lies in the frame. -/
def Booted.InBitmap (b : Booted) (f : Nat) : Prop :=
  ∃ i < pmmCoreBitmapSize b.pmm.nframes, (b.bitmapPhysAddr + i) / 4096 = f

theorem isFree_iff : pmmCoreIsFree p f = true ↔ f ∈ p.freeSet := by
  rw [Pmm.mem_freeSet]
  unfold pmmCoreIsFree
  by_cases hf : p.nframes ≤ f
  · rw [if_pos hf]
    simp only [Bool.false_eq_true, false_iff, not_and]
    omega
  · rw [if_neg hf, Bool.not_eq_true']
    exact (and_iff_right (Nat.lt_of_not_le hf)).symm

/-- The four passes over a fresh allocator, with the kernel's end and the bitmap below
`BOOT_MAPPED_LIMIT`. -/
theorem marked_bootMarks (hfit : ∀ e ∈ bi, e.Fits) (h : Exact p) (hnone : p.freeSet = ∅)
    {kend size : Nat} (hkend : kend ≤ bootMappedLimit) (hplace : place % 4096 = 0)
    (hroom : place + size ≤ bootMappedLimit) : Marked p (bootMarks bi kend place size p) fun f =>
      (f < p.nframes ∧ ∃ e ∈ bi, e.Holds f) ∧ (∀ e ∈ bi, ¬(e.Touches f ∨ e.Grazes f)) ∧
        (kend + 4095) / 4096 ≤ f ∧ ¬(place ≤ f * 4096 ∧ f * 4096 < place + size) := by
  unfold bootMappedLimit at hkend hroom
  obtain ⟨hx1, hn1, hfree⟩ := marked_freePass hfit h
  obtain ⟨hx2, hn2, hreserved⟩ := marked_reservePass hfit hx1
  have hkernel : pageUp kend / 4096 = (kend + 4095) / 4096 := by
    rw [pageUp_of_le (by omega), Nat.mul_div_cancel _ (by decide)]
  have hbitmap : pageUp size / 4096 = (size + 4095) / 4096 := by
    rw [pageUp_of_le (by omega), Nat.mul_div_cancel _ (by decide)]
  have hfit3 : 0 + (kend + 4095) / 4096 < 2 ^ 64 := by omega
  have hfit4 : place / 4096 + (size + 4095) / 4096 < 2 ^ 64 := by omega
  obtain ⟨hx3, hn3, hkept⟩ := marked_used hx2 hfit3
  have hlast := marked_used hx3 hfit4
  unfold bootMarks
  simp only [hkernel, hbitmap]
  refine (hlast.trans (hn3.trans (hn2.trans hn1))).congr fun f => ?_
  have hlow : ¬(0 ≤ f ∧ f < 0 + (kend + 4095) / 4096) ↔ (kend + 4095) / 4096 ≤ f := by omega
  have hown : place / 4096 ≤ f ∧ f < place / 4096 + (size + 4095) / 4096 ↔
      place ≤ f * 4096 ∧ f * 4096 < place + size := by omega
  rw [hkept f, hreserved f, hfree f, hnone, hlow, hown]
  simp only [Finset.notMem_empty, false_or, and_assoc]

/-- What `pmm_init` has found when it does not panic. -/
theorem pmmInit_ok (h : pmmInit mem kernelEnd bi = .ok b) :
    ∃ place, place = placeBitmap bi (pmmCoreBitmapSize (pageUp (highestUsableEnd bi) / 4096))
          (kernelEndPhys kernelEnd) ∧ place ≠ 0 ∧
      b = { pmm := bootMarks bi (kernelEndPhys kernelEnd) place
              (pmmCoreBitmapSize (pageUp (highestUsableEnd bi) / 4096))
              (pmmCoreInit (fun i => mem (place + i)) (pageUp (highestUsableEnd bi) / 4096))
            bitmapPhysAddr := place } := by
  unfold pmmInit at h
  simp only at h
  split at h
  · exact absurd h (by simp)
  · split at h
    · exact absurd h (by simp)
    · rename_i hne
      exact ⟨_, rfl, hne, (Except.ok.inj h).symm⟩

/-- With usable memory and a place for the bitmap, `pmm_init` does not panic. -/
theorem pmmInit_returns (mem : Bytes) (hmem : highestUsableEnd bi ≠ 0)
    (hplace : placeBitmap bi (pmmCoreBitmapSize (pageUp (highestUsableEnd bi) / 4096))
      (kernelEndPhys kernelEnd) = place) (hne : place ≠ 0) :
    ∃ b, pmmInit mem kernelEnd bi = .ok b ∧ b.bitmapPhysAddr = place := by
  unfold pmmInit
  rw [if_neg hmem]
  simp only [hplace]
  rw [if_neg hne]
  exact ⟨_, rfl, rfl⟩

/-- The state that `pmm_init` leaves. -/
theorem pmmInit_marked (hfit : ∀ e ∈ bi, e.Fits) (h : pmmInit mem kernelEnd bi = .ok b) :
    b.bitmapPhysAddr % 4096 = 0 ∧ b.pmm.nframes = (highestUsableEnd bi + 4095) / 4096 ∧
      Exact b.pmm ∧ ∀ f, f ∈ b.pmm.freeSet ↔
        (f < b.pmm.nframes ∧ ∃ e ∈ bi, e.Holds f) ∧ (∀ e ∈ bi, ¬(e.Touches f ∨ e.Grazes f)) ∧
          (kernelEndPhys kernelEnd + 4095) / 4096 ≤ f ∧
          ¬(b.bitmapPhysAddr ≤ f * 4096 ∧
            f * 4096 < b.bitmapPhysAddr + pmmCoreBitmapSize b.pmm.nframes) := by
  obtain ⟨place, hplace, hne, rfl⟩ := pmmInit_ok h
  obtain ⟨htop, -⟩ := highestUsableEnd_spec hfit
  have hframes : pageUp (highestUsableEnd bi) / 4096 = (highestUsableEnd bi + 4095) / 4096 := by
    rw [pageUp_of_le (by omega), Nat.mul_div_cancel _ (by decide)]
  rw [hframes] at hplace ⊢
  generalize hn : (highestUsableEnd bi + 4095) / 4096 = nframes at hplace ⊢
  obtain ⟨e₀, he₀, hoffer⟩ := (placeBitmap_spec bi _ _).1 (hplace ▸ hne)
  rw [← hplace] at hoffer
  have hstop₀ : e₀.base.toNat + e₀.len.toNat < 2 ^ 64 := by
    have := hfit e₀ (standing_subset he₀)
    unfold E820Entry.Fits at this
    omega
  obtain ⟨habove, -, -⟩ := hoffer.room hstop₀ (Nat.mod_lt _ (by decide)) hne
  obtain ⟨-, hstart, hlow, hroom⟩ := hoffer
  have haligned : place % 4096 = 0 := by rw [hstart]; exact Nat.mul_mod_left _ _
  have hinit : Exact (pmmCoreInit (fun i => mem (place + i)) nframes) := Exact.init _ (by omega)
  have hnone : (pmmCoreInit (fun i => mem (place + i)) nframes).freeSet = ∅ :=
    Finset.card_eq_zero.mp hinit.count.symm
  obtain ⟨hexact, hsame, hfree⟩ := marked_bootMarks hfit hinit hnone
    (habove.trans (hlow.le.trans (Nat.min_le_right _ _))) haligned
    (hroom.trans (Nat.min_le_right _ _))
  refine ⟨haligned, hsame, hexact, fun f => ?_⟩
  simp only [hsame]
  exact hfree f

/-- **The boot map is exact**: a frame is free iff it lies in one usable range, no other range
touches it, not even an empty one that begins inside it, and it is neither the kernel's nor the
bitmap's; and `free_frames` counts these frames. -/
theorem pmm_init_exact (mem : Bytes) (kernelEnd : UInt64) {bi : List E820Entry}
    (hfit : ∀ e ∈ bi, e.Fits) {b : Booted} (h : pmmInit mem kernelEnd.toNat bi = .ok b) :
    (∀ f, pmmCoreIsFree b.pmm f = true ↔
      (∃ e ∈ bi, e.Holds f) ∧ (∀ e ∈ bi, ¬e.Touches f) ∧ (∀ e ∈ bi, ¬e.Grazes f) ∧
        (kernelEndPhys kernelEnd.toNat + 4095) / 4096 ≤ f ∧ ¬b.InBitmap f) ∧
      b.pmm.freeFrames = {f | pmmCoreIsFree b.pmm f = true}.ncard := by
  obtain ⟨haligned, hn, hexact, hfree⟩ := pmmInit_marked hfit h
  obtain ⟨-, hbelow⟩ := highestUsableEnd_spec hfit
  constructor
  · intro f
    have hheld : (∃ e ∈ bi, e.Holds f) → f < b.pmm.nframes := by
      rintro ⟨e, he, hu, -, hend⟩
      have := hbelow e he hu
      omega
    have hown : b.InBitmap f ↔ b.bitmapPhysAddr ≤ f * 4096 ∧
        f * 4096 < b.bitmapPhysAddr + pmmCoreBitmapSize b.pmm.nframes := by
      unfold Booted.InBitmap
      constructor
      · rintro ⟨i, hi, rfl⟩
        omega
      · intro hf
        exact ⟨f * 4096 - b.bitmapPhysAddr, by omega, by omega⟩
    rw [isFree_iff, hfree f, hown]
    simp only [not_or, forall_and, and_assoc]
    constructor
    · rintro ⟨-, hrest⟩
      exact hrest
    · intro hrest
      exact ⟨hheld hrest.1, hrest⟩
  · have hset : {f | pmmCoreIsFree b.pmm f = true} = (b.pmm.freeSet : Set Nat) := by
      ext f
      exact isFree_iff
    rw [hset, Set.ncard_coe_finset]
    exact hexact.count

/-- The memory of a small machine: 639 KiB of low memory, 3 MiB above it, and a page that the
firmware both gives and keeps. -/
def smallMap : List E820Entry :=
  [⟨0, 0x9fc00, 1⟩, ⟨0x9fc00, 0x400, 2⟩, ⟨0x100000, 0x300000, 1⟩, ⟨0x3ff800, 0x1000, 2⟩]

/-- With a kernel of 512 KiB the bitmap gets the next page; the frame above it is free, and the
last frame, of which the firmware keeps one half, is not. -/
theorem pmm_init_exact_smallMap :
    ∃ b, pmmInit (fun _ => 0) (0xffffffff80180000 : UInt64).toNat smallMap = .ok b ∧
      b.bitmapPhysAddr = 0x180000 ∧ pmmCoreIsFree b.pmm 0x181 = true ∧
      pmmCoreIsFree b.pmm 0x3ff = false := by
  have hplace : placeBitmap smallMap
      (pmmCoreBitmapSize (pageUp (highestUsableEnd smallMap) / 4096))
      (kernelEndPhys (0xffffffff80180000 : UInt64).toNat) = 0x180000 := by decide
  have hfit : ∀ e ∈ smallMap, e.Fits := by decide
  obtain ⟨b, hb, haddr⟩ := pmmInit_returns (fun _ => 0) (by decide) hplace (by decide)
  obtain ⟨hfree, -⟩ := pmm_init_exact (fun _ => 0) 0xffffffff80180000 hfit hb
  have hn : b.pmm.nframes = 0x400 := (pmmInit_marked hfit hb).2.1.trans (by decide)
  have hrounded : ∀ e ∈ smallMap, e.usable = false →
      ¬(pageDown e.base.toNat / 4096 ≤ 0x181 ∧ 0x181 < pageUp e.stop / 4096) := by decide
  refine ⟨b, hb, haddr, ?_, ?_⟩
  · rw [hfree]
    refine ⟨⟨⟨0x100000, 0x300000, 1⟩, by decide, rfl, by decide, by decide⟩, ?_, ?_, by decide, ?_⟩
    · intro e he ht
      exact hrounded e he ht.1 (((hfit e he).touches_iff ht.1).mp (Or.inl ht))
    · intro e he ht
      exact hrounded e he ht.1 (((hfit e he).touches_iff ht.1).mp (Or.inr ht))
    · rintro ⟨i, hi, hsame⟩
      rw [hn] at hi
      rw [haddr] at hsame
      change i < 128 at hi
      omega
  · rw [Bool.eq_false_iff]
    intro hf
    exact ((hfree _).mp hf).2.1 ⟨0x3ff800, 0x1000, 2⟩ (by decide)
      ⟨rfl, 0x3ff800, ⟨le_refl _, by decide⟩, rfl⟩

end Marks

end Hallucinate.Mm.Boot
