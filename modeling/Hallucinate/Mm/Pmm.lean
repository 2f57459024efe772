import Hallucinate.Lib.Bitmap
import Hallucinate.Lib.Trans
import Mathlib.Data.List.TakeWhile

/-!
# The frame allocator (`kernel/mm/pmm_core.c`)

A bitmap with one bit a frame, set while the frame is used, the number of free frames, and the place
where the next search begins. All arithmetic is that of `uint64_t`. The two searches are loops
over a 64-bit counter; they are given `2 ^ 64` passes, after which the counter has come back to a
value it had, so `none` is a search that does not end.

The abstract allocator is a finite set of free frames (`SetStep`). **`pmm_refines_set`**: with at
most `2 ^ 63` frames, so that a frame is an `int64_t` as `pmm_core_alloc` returns it, every call of
every run returns and does to the set of clear bits what the abstract allocator does, and
`free_frames` is the size of that set. `pmm_misses_frame`: with one frame more, the sum
`hint + scanned` can wrap around, and a search from a hint in the upper half passes over a free
frame.
-/

namespace Hallucinate.Mm

open Lib Finset

/-- `struct pmm`. -/
structure Pmm where
  bitmap : Bytes
  nframes : Nat
  freeFrames : Nat
  hint : Nat

/-- `test_bit`. -/
def Pmm.testBit (p : Pmm) (frame : Nat) : Bool := bitTest p.bitmap frame

/-- `pmm_core_bitmap_size`. -/
def pmmCoreBitmapSize (nframes : Nat) : Nat := (nframes + 7) % 2 ^ 64 / 8

/-- `pmm_core_init` over a bitmap that holds anything. -/
def pmmCoreInit (bitmap : Bytes) (nframes : Nat) : Pmm where
  bitmap := fill bitmap 0 (pmmCoreBitmapSize nframes) 0xFF
  nframes := nframes
  freeFrames := 0
  hint := 0

/-- Mark one frame used, if it is free. -/
def Pmm.take (p : Pmm) (f : Nat) : Pmm :=
  if p.testBit f then p
  else { p with bitmap := bitSet p.bitmap f, freeFrames := (p.freeFrames + (2 ^ 64 - 1)) % 2 ^ 64 }

/-- Mark one frame free, if it is used. -/
def Pmm.give (p : Pmm) (f : Nat) : Pmm :=
  if p.testBit f then
    { p with bitmap := bitClr p.bitmap f, freeFrames := (p.freeFrames + 1) % 2 ^ 64 }
  else p

/-- The frames from `first` on that the loops of `pmm_core_mark_used` and `pmm_core_mark_free`
visit. -/
def Pmm.range (p : Pmm) (first count : Nat) : List Nat :=
  List.range' first (min ((first + count) % 2 ^ 64) p.nframes - first)

/-- `pmm_core_mark_used`. -/
def pmmCoreMarkUsed (p : Pmm) (first count : Nat) : Pmm := (p.range first count).foldl Pmm.take p

/-- `pmm_core_mark_free`. -/
def pmmCoreMarkFree (p : Pmm) (first count : Nat) : Pmm := (p.range first count).foldl Pmm.give p

/-- `pmm_core_is_free`. -/
def pmmCoreIsFree (p : Pmm) (frame : Nat) : Bool :=
  if p.nframes ≤ frame then false else !p.testBit frame

/-- A loop over a 64-bit counter has come back to an earlier value after so many passes. -/
def passes : Nat := 2 ^ 64

/-- The loop of `pmm_core_alloc` from `scanned` on: the free frame it stops at, if any. -/
def scan (p : Pmm) : Nat → Nat → Option (Option Nat)
  | 0, _ => none
  | fuel + 1, scanned =>
    if scanned < p.nframes then
      let f := (p.hint + scanned) % 2 ^ 64 % p.nframes
      -- a byte whose eight frames are all used is skipped
      if f % 8 = 0 ∧ p.bitmap (f / 8) = 0xFF ∧ (f + 8) % 2 ^ 64 ≤ p.nframes then
        scan p fuel ((scanned + 8) % 2 ^ 64)
      else if p.testBit f then scan p fuel ((scanned + 1) % 2 ^ 64)
      else some (some f)
    else some none

/-- The conversion of a `uint64_t` to `int64_t`. -/
def toInt64 (x : Nat) : Int := if x < 2 ^ 63 then x else x - 2 ^ 64

/-- `pmm_core_alloc`; `none` if it does not return. -/
def pmmCoreAlloc (p : Pmm) : Option (Int × Pmm) :=
  if p.freeFrames = 0 then some (-1, p)
  else match scan p passes 0 with
    | none => none
    | some none => some (-1, p)
    | some (some f) =>
      some (toInt64 f,
        { p with
          bitmap := bitSet p.bitmap f
          freeFrames := (p.freeFrames + (2 ^ 64 - 1)) % 2 ^ 64
          hint := (f + 1) % 2 ^ 64 % p.nframes })

/-- `run` after the inner loop of `pmm_core_alloc_run` at `base`. -/
def runLength (p : Pmm) (base count : Nat) : Nat :=
  ((List.range count).takeWhile fun run => !p.testBit ((base + run) % 2 ^ 64)).length

/-- The outer loop of `pmm_core_alloc_run` from `base` on. -/
def findRun (p : Pmm) (count align : Nat) : Nat → Nat → Option (Option Nat)
  | 0, _ => none
  | fuel + 1, base =>
    if (base + count) % 2 ^ 64 ≤ p.nframes then
      if runLength p base count = count then some (some base)
      else findRun p count align fuel ((base + align) % 2 ^ 64)
    else some none

/-- `pmm_core_alloc_run`; `none` if it does not return. -/
def pmmCoreAllocRun (p : Pmm) (count align : Nat) : Option (Int × Pmm) :=
  if count = 0 ∨ align = 0 ∨ align &&& (align - 1) ≠ 0 ∨ p.freeFrames < count then some (-1, p)
  else match findRun p count align passes 0 with
    | none => none
    | some none => some (-1, p)
    | some (some base) => some (toInt64 base, pmmCoreMarkUsed p base count)

/-- `pmm_core_free`. -/
def pmmCoreFree (p : Pmm) (frame : Nat) : Int × Pmm :=
  if p.nframes ≤ frame ∨ p.testBit frame = false then (-1, p)
  else (0, { p with bitmap := bitClr p.bitmap frame, freeFrames := (p.freeFrames + 1) % 2 ^ 64 })

/-! ## The abstract allocator -/

/-- The calls. -/
inductive Call
  | markUsed (first count : UInt64)
  | markFree (first count : UInt64)
  | alloc
  | allocRun (count align : UInt64)
  | free (frame : UInt64)

/-- A call on the allocator: its result (0 where the source returns nothing) and the new state. -/
def exec (p : Pmm) : Call → Option (Int × Pmm)
  | .markUsed first count => some (0, pmmCoreMarkUsed p first.toNat count.toNat)
  | .markFree first count => some (0, pmmCoreMarkFree p first.toNat count.toNat)
  | .alloc => pmmCoreAlloc p
  | .allocRun count align => pmmCoreAllocRun p count.toNat align.toNat
  | .free frame => some (pmmCoreFree p frame.toNat)

/-- The ranges of a call do not wrap around. -/
def Call.Fits : Call → Prop
  | .markUsed first count => first.toNat + count.toNat < 2 ^ 64
  | .markFree first count => first.toNat + count.toNat < 2 ^ 64
  | _ => True

instance : (c : Call) → Decidable c.Fits
  | .markUsed first count => inferInstanceAs (Decidable (first.toNat + count.toNat < 2 ^ 64))
  | .markFree first count => inferInstanceAs (Decidable (first.toNat + count.toNat < 2 ^ 64))
  | .alloc => inferInstanceAs (Decidable True)
  | .allocRun _ _ => inferInstanceAs (Decidable True)
  | .free _ => inferInstanceAs (Decidable True)

/-- `count` free frames from `base` on, which is a multiple of `align`. -/
def RunAt (free : Finset Nat) (count align base : Nat) : Prop :=
  align ∣ base ∧ ∀ i < count, base + i ∈ free

/-- `count` and `align` are arguments that `pmm_core_alloc_run` takes. -/
def ValidRun (count align : Nat) : Prop := count ≠ 0 ∧ align.isPowerOfTwo

/-- One call on a set of free frames out of `n`. -/
def SetStep (n : Nat) (free : Finset Nat) : Call → Int → Finset Nat → Prop
  | .markUsed first count, _, free' =>
    ∀ f, f ∈ free' ↔ f ∈ free ∧ ¬(first.toNat ≤ f ∧ f < first.toNat + count.toNat)
  | .markFree first count, _, free' =>
    ∀ f, f ∈ free' ↔ f ∈ free ∨ f < n ∧ first.toNat ≤ f ∧ f < first.toNat + count.toNat
  | .alloc, r, free' =>
    (free = ∅ ∧ r = -1 ∧ free' = free) ∨ ∃ f ∈ free, r = (f : Int) ∧ free' = free.erase f
  | .allocRun count align, r, free' =>
    ((¬ValidRun count.toNat align.toNat ∨ ∀ b, ¬RunAt free count.toNat align.toNat b) ∧
        r = -1 ∧ free' = free) ∨
      ∃ b, ValidRun count.toNat align.toNat ∧ RunAt free count.toNat align.toNat b ∧
        (∀ b' < b, ¬RunAt free count.toNat align.toNat b') ∧ r = (b : Int) ∧
        ∀ f, f ∈ free' ↔ f ∈ free ∧ ¬(b ≤ f ∧ f < b + count.toNat)
  | .free frame, r, free' =>
    (frame.toNat < n ∧ frame.toNat ∉ free ∧ r = 0 ∧ free' = insert frame.toNat free) ∨
      ((n ≤ frame.toNat ∨ frame.toNat ∈ free) ∧ r = -1 ∧ free' = free)

/-- The frames whose bits are clear. -/
def Pmm.freeSet (p : Pmm) : Finset Nat :=
  (Finset.range p.nframes).filter fun f => p.testBit f = false

variable {p q : Pmm} {f : Nat}

theorem Pmm.mem_freeSet : f ∈ p.freeSet ↔ f < p.nframes ∧ p.testBit f = false := by
  unfold Pmm.freeSet
  rw [mem_filter, Finset.mem_range]

theorem Pmm.card_freeSet_le (p : Pmm) : p.freeSet.card ≤ p.nframes := by
  have h := card_filter_le (Finset.range p.nframes) fun f => p.testBit f = false
  rwa [Finset.card_range] at h

theorem Pmm.card_freeSet (p : Pmm) : p.freeSet.card = countClear p.nframes p.bitmap := by
  unfold countClear
  rw [List.countP_eq_length_filter]
  have hpred : (fun f => decide (p.testBit f = false)) = fun f => !bitTest p.bitmap f := by
    funext f
    show decide (bitTest p.bitmap f = false) = _
    cases bitTest p.bitmap f <;> rfl
  show ((List.range p.nframes).filter fun f => decide (p.testBit f = false)).length = _
  rw [hpred]

/-- The bookkeeping is exact. -/
structure Exact (p : Pmm) : Prop where
  wide : p.nframes < 2 ^ 64
  count : p.freeFrames = p.freeSet.card
  hint : p.nframes ≠ 0 → p.hint < p.nframes

/-! ## Single frames -/

/-- A frame of which the bit is set leaves the set. -/
theorem freeSet_bitSet (h : q.nframes = p.nframes) (hb : q.bitmap = bitSet p.bitmap f) :
    q.freeSet = p.freeSet.erase f := by
  ext g
  rw [Pmm.mem_freeSet, mem_erase, Pmm.mem_freeSet, h]
  unfold Pmm.testBit
  rw [hb, bitTest_bitSet]
  by_cases hg : g = f <;> simp [hg]

/-- A frame of which the bit is cleared joins the set. -/
theorem freeSet_bitClr (h : q.nframes = p.nframes) (hb : q.bitmap = bitClr p.bitmap f)
    (hf : f < p.nframes) : q.freeSet = insert f p.freeSet := by
  ext g
  rw [Pmm.mem_freeSet, mem_insert, Pmm.mem_freeSet, h]
  unfold Pmm.testBit
  rw [hb, bitTest_bitClr]
  by_cases hg : g = f
  · simp [hg, hf]
  · simp [hg]

/-- The count after a free frame was taken. -/
theorem Exact.pred (h : Exact p) (hf : f ∈ p.freeSet) :
    (p.freeFrames + (2 ^ 64 - 1)) % 2 ^ 64 = (p.freeSet.erase f).card := by
  have hpos : 0 < p.freeSet.card := card_pos.mpr ⟨f, hf⟩
  have hle := p.card_freeSet_le
  have hwide := h.wide
  rw [card_erase_of_mem hf, h.count]
  omega

section

variable (h : Exact p) (hf : f < p.nframes)
include h hf

/-- The count after a used frame was given back. -/
theorem Exact.succ (hused : f ∉ p.freeSet) :
    (p.freeFrames + 1) % 2 ^ 64 = (insert f p.freeSet).card := by
  have hsub : insert f p.freeSet ⊆ Finset.range p.nframes := by
    intro g hg
    rw [mem_insert] at hg
    rw [Finset.mem_range]
    rcases hg with rfl | hg
    · exact hf
    · exact (Pmm.mem_freeSet.mp hg).1
  have hle := Finset.card_le_card hsub
  have hwide := h.wide
  rw [Finset.card_range, card_insert_of_notMem hused] at hle
  rw [card_insert_of_notMem hused, h.count]
  omega

/-- `q` manages the same frames and searches from the same place. -/
structure SameFrames (p q : Pmm) : Prop where
  nframes : q.nframes = p.nframes
  hint : q.hint = p.hint

theorem Exact.take :
    Exact (p.take f) ∧ (p.take f).freeSet = p.freeSet.erase f ∧ SameFrames p (p.take f) := by
  unfold Pmm.take
  split
  · rename_i hb
    have hnot : f ∉ p.freeSet := fun hm => by
      rw [(Pmm.mem_freeSet.mp hm).2] at hb
      exact absurd hb (by decide)
    exact ⟨h, (erase_eq_of_notMem hnot).symm, rfl, rfl⟩
  · rename_i hb
    have hm : f ∈ p.freeSet := Pmm.mem_freeSet.mpr ⟨hf, by simpa using hb⟩
    have hset := freeSet_bitSet (p := p) (f := f) (q := { p with
      bitmap := bitSet p.bitmap f, freeFrames := (p.freeFrames + (2 ^ 64 - 1)) % 2 ^ 64 }) rfl rfl
    exact ⟨⟨h.wide, (h.pred hm).trans (congrArg Finset.card hset.symm), h.hint⟩, hset, rfl, rfl⟩

theorem Exact.give :
    Exact (p.give f) ∧ (p.give f).freeSet = insert f p.freeSet ∧ SameFrames p (p.give f) := by
  unfold Pmm.give
  split
  · rename_i hb
    have hnot : f ∉ p.freeSet := fun hm => by
      rw [(Pmm.mem_freeSet.mp hm).2] at hb
      exact absurd hb (by decide)
    have hset := freeSet_bitClr (p := p) (f := f) (q := { p with
      bitmap := bitClr p.bitmap f, freeFrames := (p.freeFrames + 1) % 2 ^ 64 }) rfl rfl hf
    exact ⟨⟨h.wide, (h.succ hf hnot).trans (congrArg Finset.card hset.symm), h.hint⟩, hset, rfl,
      rfl⟩
  · rename_i hb
    have hm : f ∈ p.freeSet := Pmm.mem_freeSet.mpr ⟨hf, by simpa using hb⟩
    exact ⟨h, (insert_eq_of_mem hm).symm, rfl, rfl⟩

end

/-! ## Ranges -/

variable {first count : Nat}

theorem mem_range (h : first + count < 2 ^ 64) :
    f ∈ p.range first count ↔ (first ≤ f ∧ f < first + count) ∧ f < p.nframes := by
  unfold Pmm.range
  rw [Nat.mod_eq_of_lt h, List.mem_range'_1]
  omega

section

-- a step that changes the set at its own frame as `b` says
variable {step : Pmm → Nat → Pmm} {b : Bool} {u : Nat → Finset Nat → Finset Nat}
  (hstep : ∀ {p : Pmm} {f : Nat}, Exact p → f < p.nframes → Exact (step p f) ∧
    (step p f).freeSet = u f p.freeSet ∧ SameFrames p (step p f))
  (hset : ∀ f (s : Finset Nat) g, g ∈ u f s ↔ if g = f then b = true else g ∈ s)
include hstep hset

/-- A pass over frames changes the set at these frames only. -/
theorem Exact.foldl : ∀ {l : List Nat} {p : Pmm}, Exact p → (∀ f ∈ l, f < p.nframes) →
    Exact (l.foldl step p) ∧ SameFrames p (l.foldl step p) ∧
    ∀ g, g ∈ (l.foldl step p).freeSet ↔ if g ∈ l then b = true else g ∈ p.freeSet
  | [], p, h, _ => ⟨h, ⟨rfl, rfl⟩, fun g => by simp⟩
  | f :: l, p, h, hl => by
    obtain ⟨h1, hm1, hs1⟩ := hstep h (hl f List.mem_cons_self)
    obtain ⟨h2, hs2, hm2⟩ := Exact.foldl (l := l) h1 fun g hg => by
      rw [hs1.nframes]
      exact hl g (List.mem_cons_of_mem f hg)
    refine ⟨h2, ⟨hs2.nframes.trans hs1.nframes, hs2.hint.trans hs1.hint⟩, fun g => ?_⟩
    rw [List.foldl_cons, hm2 g, hm1, hset]
    by_cases hg : g ∈ l
    · simp [hg]
    · by_cases hgf : g = f <;> simp [hg, hgf]

theorem Exact.marks (h : Exact p) (hfit : first + count < 2 ^ 64) :
    Exact ((p.range first count).foldl step p) ∧
      SameFrames p ((p.range first count).foldl step p) ∧
      ∀ g, g ∈ ((p.range first count).foldl step p).freeSet ↔
        if (first ≤ g ∧ g < first + count) ∧ g < p.nframes then b = true else g ∈ p.freeSet := by
  simp only [← mem_range hfit]
  exact Exact.foldl hstep hset h fun f hf => ((mem_range hfit).mp hf).2

end

theorem Exact.markUsed (h : Exact p) (hfit : first + count < 2 ^ 64) :
    Exact (pmmCoreMarkUsed p first count) ∧ SameFrames p (pmmCoreMarkUsed p first count) ∧
      ∀ g, g ∈ (pmmCoreMarkUsed p first count).freeSet ↔
        g ∈ p.freeSet ∧ ¬(first ≤ g ∧ g < first + count) := by
  obtain ⟨h1, h2, h3⟩ := Exact.marks (b := false) (u := fun f s => s.erase f) Exact.take
    (fun f s g => by simp [mem_erase]) h hfit
  refine ⟨h1, h2, fun g => (h3 g).trans ?_⟩
  by_cases hin : (first ≤ g ∧ g < first + count) ∧ g < p.nframes
  · simp [hin]
  · rw [if_neg hin]
    exact ⟨fun hg => ⟨hg, fun hr => hin ⟨hr, (Pmm.mem_freeSet.mp hg).1⟩⟩, And.left⟩

theorem Exact.markFree (h : Exact p) (hfit : first + count < 2 ^ 64) :
    Exact (pmmCoreMarkFree p first count) ∧ SameFrames p (pmmCoreMarkFree p first count) ∧
      ∀ g, g ∈ (pmmCoreMarkFree p first count).freeSet ↔
        g ∈ p.freeSet ∨ g < p.nframes ∧ first ≤ g ∧ g < first + count := by
  obtain ⟨h1, h2, h3⟩ := Exact.marks (b := true) (u := insert) Exact.give
    (fun f s g => by by_cases hg : g = f <;> simp [hg]) h hfit
  refine ⟨h1, h2, fun g => (h3 g).trans ?_⟩
  by_cases hin : (first ≤ g ∧ g < first + count) ∧ g < p.nframes
  · simp [hin]
  · rw [if_neg hin]
    exact ⟨.inl, fun h => h.resolve_right fun hr => hin ⟨hr.2, hr.1⟩⟩

/-! ## The search for one frame -/

/-- The frame that the search tests after `k` others. -/
def visited (p : Pmm) (k : Nat) : Nat := (p.hint + k) % 2 ^ 64 % p.nframes

variable {fuel scanned : Nat}

/-- The search only stops at a free frame that it visits. -/
theorem scan_sound (h : scan p fuel scanned = some (some f)) :
    ∃ k < p.nframes, f = visited p k ∧ p.testBit f = false := by
  induction fuel generalizing scanned with
  | zero => exact absurd h (by simp [scan])
  | succ fuel ih =>
    rw [scan] at h
    split at h
    · rename_i hlt
      simp only at h
      split at h
      · exact ih h
      · split at h
        · exact ih h
        · rename_i hb
          simp only [Option.some.injEq] at h
          exact ⟨scanned, hlt, h.symm, by rw [← h]; simpa using hb⟩
    · exact absurd h (by simp)

/-- The search ends: its counter goes up and does not wrap around. -/
theorem scan_ne_none (hn : p.nframes + 8 ≤ 2 ^ 64) (hfuel : p.nframes - scanned < fuel) :
    scan p fuel scanned ≠ none := by
  induction fuel generalizing scanned with
  | zero => exact absurd hfuel (Nat.not_lt_zero _)
  | succ fuel ih =>
    rw [scan]
    split
    · rename_i hlt
      have hskip : (scanned + 8) % 2 ^ 64 = scanned + 8 := Nat.mod_eq_of_lt (by omega)
      have hnext : (scanned + 1) % 2 ^ 64 = scanned + 1 := Nat.mod_eq_of_lt (by omega)
      simp only [hskip, hnext]
      split
      · exact ih (by omega)
      · split
        · exact ih (by omega)
        · simp
    · simp

/-- A byte of the bitmap with all bits set holds eight used frames. -/
theorem testBit_of_byte {d : Nat} (hf : f % 8 = 0) (hbyte : p.bitmap (f / 8) = 0xFF) (hd : d < 8) :
    p.testBit (f + d) = true := by
  have hdiv : (f + d) / 8 = f / 8 := by omega
  have hmod : (f + d) % 8 = d := by omega
  unfold Pmm.testBit bitTest
  rw [hdiv, hmod, hbyte]
  exact (by decide : ∀ d < 8, (0xFF : UInt8).toNat.testBit d = true) d hd

/-- A search that ends without a frame has found every frame from there on used, where the sum
`hint + scanned` does not wrap around. -/
theorem scan_complete (hn : p.nframes + 8 ≤ 2 ^ 64) (hsum : p.hint + p.nframes ≤ 2 ^ 64)
    (h : scan p fuel scanned = some none) {k : Nat} (hk : scanned ≤ k) (hkn : k < p.nframes) :
    p.testBit ((p.hint + k) % p.nframes) = true := by
  induction fuel generalizing scanned with
  | zero => exact absurd h (by simp [scan])
  | succ fuel ih =>
    rw [scan, if_pos (lt_of_le_of_lt hk hkn)] at h
    have hskip : (scanned + 8) % 2 ^ 64 = scanned + 8 := Nat.mod_eq_of_lt (by omega)
    have hnext : (scanned + 1) % 2 ^ 64 = scanned + 1 := Nat.mod_eq_of_lt (by omega)
    have hsum' : (p.hint + scanned) % 2 ^ 64 = p.hint + scanned := Nat.mod_eq_of_lt (by omega)
    have hpos : 0 < p.nframes := by omega
    simp only [hskip, hnext, hsum'] at h
    have hlt : (p.hint + scanned) % p.nframes < p.nframes := Nat.mod_lt _ hpos
    generalize hf : (p.hint + scanned) % p.nframes = f at h hlt
    split at h
    · rename_i hbyte
      obtain ⟨h8, hff, hend⟩ := hbyte
      rw [Nat.mod_eq_of_lt (show f + 8 < 2 ^ 64 by omega)] at hend
      by_cases hk8 : scanned + 8 ≤ k
      · exact ih h hk8
      · -- one of the eight frames of the byte
        have hvis : (p.hint + k) % p.nframes = f + (k - scanned) := by
          have hsplit : p.hint + k = p.hint + scanned + (k - scanned) := by omega
          rw [hsplit, Nat.add_mod, hf, Nat.add_mod_mod, Nat.mod_eq_of_lt (by omega)]
        rw [hvis]
        exact testBit_of_byte h8 hff (by omega)
    · split at h
      · rename_i hb
        rcases Nat.eq_or_lt_of_le hk with rfl | hlt'
        · rw [hf]
          exact hb
        · exact ih h hlt'
      · exact absurd h (by simp)

/-- Every frame is at some distance from the hint. -/
theorem exists_visited (hhint : p.hint < p.nframes) (hf : f < p.nframes) :
    ∃ k < p.nframes, (p.hint + k) % p.nframes = f := by
  by_cases h : p.hint ≤ f
  · exact ⟨f - p.hint, by omega, by rw [Nat.add_sub_cancel' h]; exact Nat.mod_eq_of_lt hf⟩
  · refine ⟨f + p.nframes - p.hint, by omega, ?_⟩
    rw [show p.hint + (f + p.nframes - p.hint) = f + p.nframes by omega, Nat.add_mod_right]
    exact Nat.mod_eq_of_lt hf

theorem toInt64_of_lt {x : Nat} (h : x < 2 ^ 63) : toInt64 x = x := if_pos h

/-- The allocator after it has handed out frame `f`. -/
def Pmm.handed (p : Pmm) (f : Nat) : Pmm :=
  { p with
    bitmap := bitSet p.bitmap f
    freeFrames := (p.freeFrames + (2 ^ 64 - 1)) % 2 ^ 64
    hint := (f + 1) % 2 ^ 64 % p.nframes }

theorem freeSet_handed (p : Pmm) (f : Nat) : (p.handed f).freeSet = p.freeSet.erase f :=
  freeSet_bitSet rfl rfl

theorem Exact.handed (h : Exact p) (hf : f ∈ p.freeSet) : Exact (p.handed f) := by
  refine ⟨h.wide, ?_, fun hn => Nat.mod_lt _ (Nat.pos_of_ne_zero hn)⟩
  rw [freeSet_handed]
  exact h.pred hf

/-- `pmm_core_alloc` hands out a free frame, or there is none; the sum of the hint and the distance
from it must not wrap around. -/
theorem Exact.alloc (h : Exact p) (hn : p.nframes + 8 ≤ 2 ^ 64)
    (hsum : p.nframes ≠ 0 → p.hint + p.nframes ≤ 2 ^ 64) :
    (p.freeSet = ∅ ∧ pmmCoreAlloc p = some (-1, p)) ∨
      ∃ f ∈ p.freeSet, pmmCoreAlloc p = some (toInt64 f, p.handed f) := by
  unfold pmmCoreAlloc
  by_cases hz : p.freeFrames = 0
  · rw [if_pos hz]
    rw [h.count, card_eq_zero] at hz
    exact Or.inl ⟨hz, rfl⟩
  · rw [if_neg hz]
    have hfuel : p.nframes - 0 < passes := h.wide
    cases hs : scan p passes 0 with
    | none => exact absurd hs (scan_ne_none hn hfuel)
    | some r =>
      cases r with
      | none =>
        refine Or.inl ⟨eq_empty_of_forall_notMem fun f hf => ?_, rfl⟩
        obtain ⟨hlt, hb⟩ := Pmm.mem_freeSet.mp hf
        have hne : p.nframes ≠ 0 := by omega
        obtain ⟨k, hk, hvis⟩ := exists_visited (h.hint hne) hlt
        have hused := scan_complete hn (hsum hne) hs (Nat.zero_le k) hk
        rw [hvis, hb] at hused
        exact absurd hused (by decide)
      | some f =>
        obtain ⟨k, hk, hvis, hb⟩ := scan_sound hs
        have hlt : f < p.nframes := hvis ▸ Nat.mod_lt _ (by omega)
        exact Or.inr ⟨f, Pmm.mem_freeSet.mpr ⟨hlt, hb⟩, rfl⟩

/-! ## The search for a run -/

variable {base : Nat}

theorem runLength_eq_iff (h : base + count ≤ 2 ^ 64) :
    runLength p base count = count ↔ ∀ i < count, p.testBit (base + i) = false := by
  have hlen : runLength p base count = count ↔
      ((List.range count).takeWhile fun run => !p.testBit ((base + run) % 2 ^ 64))
        = List.range count := by
    refine ⟨fun he => ?_, fun he => ?_⟩
    · refine (List.takeWhile_sublist _).eq_of_length ?_
      rw [List.length_range]
      exact he
    · unfold runLength
      rw [he, List.length_range]
  rw [hlen, List.takeWhile_eq_self_iff]
  refine forall_congr' fun i => ?_
  rw [List.mem_range]
  refine forall_congr' fun hi => ?_
  rw [Nat.mod_eq_of_lt (show base + i < 2 ^ 64 by omega)]
  simp

variable {align : Nat}

/-- A base with a run of free frames, in terms of the bits. -/
theorem runAt_iff (hc : count ≠ 0) : RunAt p.freeSet count align base ↔
      align ∣ base ∧ base + count ≤ p.nframes ∧ ∀ i < count, p.testBit (base + i) = false := by
  unfold RunAt
  refine and_congr_right fun _ => ⟨fun h => ⟨?_, ?_⟩, fun h i hi => ?_⟩
  · have := (Pmm.mem_freeSet.mp (h (count - 1) (by omega))).1
    omega
  · exact fun i hi => (Pmm.mem_freeSet.mp (h i hi)).2
  · exact Pmm.mem_freeSet.mpr ⟨by omega, h.2 i hi⟩

/-- What the search finds from `base` on. -/
def FoundRun (p : Pmm) (count align base : Nat) : Option Nat → Prop
  | some b => base ≤ b ∧ RunAt p.freeSet count align b ∧
      ∀ b', base ≤ b' → b' < b → ¬RunAt p.freeSet count align b'
  | none => ∀ b', base ≤ b' → ¬RunAt p.freeSet count align b'

/-- No multiple of `align` lies strictly between two neighbours. -/
theorem eq_or_add_le {b : Nat} (h1 : align ∣ base) (h2 : align ∣ b) (h : base ≤ b) :
    b = base ∨ base + align ≤ b := by
  obtain ⟨d, rfl⟩ := Nat.exists_eq_add_of_le h
  have hd : align ∣ d := (Nat.dvd_add_right h1).mp h2
  rcases Nat.eq_zero_or_pos d with rfl | hpos
  · exact Or.inl rfl
  · exact Or.inr (Nat.add_le_add_left (Nat.le_of_dvd hpos hd) base)

/-- With at most `2 ^ 63` frames neither sum of the loop wraps around, and it ends with the lowest
run. The one case in which `base + count` would wrap is a run of all frames with `align = 2 ^ 63`:
then `count` free frames are all frames, and the first pass has found them. -/
theorem findRun_spec (hn : p.nframes ≤ 2 ^ 63) (hc : count ≠ 0) (ha : 0 < align ∧ align ≤ 2 ^ 63)
    (hall : count = p.nframes → ∀ f < p.nframes, p.testBit f = false)
    (hfuel : p.nframes - base < fuel) (hbase : align ∣ base) (hfit : base + count < 2 ^ 64) :
    ∃ r, findRun p count align fuel base = some r ∧ FoundRun p count align base r := by
  induction fuel generalizing base with
  | zero => exact absurd hfuel (Nat.not_lt_zero _)
  | succ fuel ih =>
    rw [findRun, Nat.mod_eq_of_lt hfit]
    by_cases hend : base + count ≤ p.nframes
    · rw [if_pos hend]
      by_cases hrun : runLength p base count = count
      · rw [if_pos hrun]
        rw [runLength_eq_iff hfit.le] at hrun
        exact ⟨some base, rfl, le_rfl, (runAt_iff hc).mpr ⟨hbase, hend, hrun⟩, fun b' h1 h2 =>
          absurd h1 (Nat.not_le.mpr h2)⟩
      · rw [if_neg hrun, Nat.mod_eq_of_lt (show base + align < 2 ^ 64 by omega)]
        rw [runLength_eq_iff hfit.le] at hrun
        have hnot : ¬RunAt p.freeSet count align base := fun hr => hrun ((runAt_iff hc).mp hr).2.2
        have hfit' : base + align + count < 2 ^ 64 := by
          by_contra hwrap
          have hbz : base = 0 := Nat.eq_zero_of_dvd_of_lt hbase (by omega)
          refine hrun fun i hi => hall (by omega) _ (by omega)
        obtain ⟨r, hr, hfound⟩ := ih
          (show p.nframes - (base + align) < fuel by omega)
          ((Nat.dvd_add_right hbase).mpr dvd_rfl) hfit'
        refine ⟨r, hr, ?_⟩
        -- the bases skipped are no multiples of `align`, and `base` has no run
        have hskip : ∀ b', base ≤ b' → RunAt p.freeSet count align b' → base + align ≤ b' :=
          fun b' h1 h2 => (eq_or_add_le hbase h2.1 h1).resolve_left fun he => hnot (he ▸ h2)
        cases r with
        | none => exact fun b' h1 h2 => hfound b' (hskip b' h1 h2) h2
        | some b =>
          obtain ⟨h1, h2, h3⟩ := hfound
          exact ⟨by omega, h2, fun b' h4 h5 h6 => h3 b' (hskip b' h4 h6) h5 h6⟩
    · rw [if_neg hend]
      refine ⟨none, rfl, fun b' h1 h2 => ?_⟩
      have := ((runAt_iff hc).mp h2).2.1
      omega

theorem validRun_iff :
    ValidRun count align ↔ ¬(count = 0 ∨ align = 0 ∨ align &&& (align - 1) ≠ 0) := by
  unfold ValidRun
  rw [← Nat.ne_zero_and_sub_one_eq_zero_iff_isPowerOfTwo]
  tauto

/-- `pmm_core_alloc_run` takes the lowest run, or there is none. -/
theorem Exact.allocRun (h : Exact p) (hn : p.nframes ≤ 2 ^ 63) (count : Nat)
    (halign : align < 2 ^ 64) : ((¬ValidRun count align ∨ ∀ b, ¬RunAt p.freeSet count align b) ∧
        pmmCoreAllocRun p count align = some (-1, p)) ∨
      ∃ b, ValidRun count align ∧ RunAt p.freeSet count align b ∧
        (∀ b' < b, ¬RunAt p.freeSet count align b') ∧
        pmmCoreAllocRun p count align = some (toInt64 b, pmmCoreMarkUsed p b count) := by
  unfold pmmCoreAllocRun
  by_cases hvalid : ValidRun count align
  · have hpos : 0 < align := Nat.pos_of_isPowerOfTwo hvalid.2
    have hle : align ≤ 2 ^ 63 := by
      obtain ⟨k, rfl⟩ := hvalid.2
      exact Nat.pow_le_pow_right (by decide) (Nat.lt_succ_iff.mp ((Nat.pow_lt_pow_iff_right
        (by decide)).mp halign))
    have hcard := p.card_freeSet_le
    have hcount := h.count
    by_cases hfew : p.freeFrames < count
    · rw [if_pos (Or.inr (Or.inr (Or.inr hfew)))]
      refine Or.inl ⟨Or.inr fun b hb => ?_, rfl⟩
      -- a run would be a set of `count` free frames
      have hsub : (Finset.range count).image (b + ·) ⊆ p.freeSet := by
        intro f hf
        obtain ⟨i, hi, rfl⟩ := mem_image.mp hf
        exact hb.2 i (Finset.mem_range.mp hi)
      have := Finset.card_le_card hsub
      rw [Finset.card_image_of_injective _ (add_right_injective b), Finset.card_range] at this
      omega
    · have hguard : ¬(count = 0 ∨ align = 0 ∨ align &&& (align - 1) ≠ 0 ∨ p.freeFrames < count) := by
        have := validRun_iff.mp hvalid
        tauto
      have hall : count = p.nframes → ∀ f < p.nframes, p.testBit f = false := by
        intro he f hf
        have hfull : p.freeSet = Finset.range p.nframes :=
          eq_of_subset_of_card_le (filter_subset _ _) (by
            rw [Finset.card_range]
            omega)
        exact (Pmm.mem_freeSet.mp (hfull ▸ Finset.mem_range.mpr hf)).2
      have hfuel : p.nframes - 0 < passes := h.wide
      obtain ⟨r, hr, hfound⟩ := findRun_spec hn hvalid.1 ⟨hpos, hle⟩ hall hfuel (dvd_zero _)
        (show 0 + count < 2 ^ 64 by omega)
      rw [if_neg hguard, hr]
      cases r with
      | none => exact Or.inl ⟨Or.inr fun b => hfound b (Nat.zero_le b), rfl⟩
      | some b =>
        obtain ⟨-, h2, h3⟩ := hfound
        exact Or.inr ⟨b, hvalid, h2, fun b' => h3 b' (Nat.zero_le b'), rfl⟩
  · rw [if_pos (by have := mt validRun_iff.mpr hvalid; tauto)]
    exact Or.inl ⟨Or.inl hvalid, rfl⟩

/-- `pmm_core_free` fails on a frame that is free or out of range; on a used one it is the step of
`pmm_core_mark_free`. -/
theorem pmmCoreFree_cases (p : Pmm) (f : Nat) :
    (f < p.nframes ∧ f ∉ p.freeSet ∧ pmmCoreFree p f = (0, p.give f)) ∨
      ((p.nframes ≤ f ∨ f ∈ p.freeSet) ∧ pmmCoreFree p f = (-1, p)) := by
  by_cases hf : p.nframes ≤ f ∨ p.testBit f = false
  · refine Or.inr ⟨?_, if_pos hf⟩
    by_cases hlt : p.nframes ≤ f
    · exact Or.inl hlt
    · exact Or.inr (Pmm.mem_freeSet.mpr ⟨Nat.lt_of_not_le hlt, hf.resolve_left hlt⟩)
  · have hlt : f < p.nframes := Nat.lt_of_not_le fun hle => hf (Or.inl hle)
    have hused : p.testBit f = true := by simpa using fun hb => hf (Or.inr hb)
    have hnot : f ∉ p.freeSet := fun hm => hf (Or.inr (Pmm.mem_freeSet.mp hm).2)
    refine Or.inl ⟨hlt, hnot, ?_⟩
    unfold pmmCoreFree Pmm.give
    rw [if_neg hf, if_pos hused]

/-! ## Runs -/

variable {nframes : Nat}

/-- The allocator of at most `2 ^ 64 - 8` frames starts with all of them used. -/
theorem Exact.init (bitmap : Bytes) (hn : nframes + 8 ≤ 2 ^ 64) :
    Exact (pmmCoreInit bitmap nframes) := by
  have hempty : (pmmCoreInit bitmap nframes).freeSet = ∅ := by
    refine eq_empty_of_forall_notMem fun f hf => ?_
    obtain ⟨hlt, hb⟩ := Pmm.mem_freeSet.mp hf
    have hsize : f / 8 < 0 + pmmCoreBitmapSize nframes := by
      have hlt' : f < nframes := hlt
      unfold pmmCoreBitmapSize
      rw [Nat.mod_eq_of_lt (by omega)]
      omega
    have hbyte : (pmmCoreInit bitmap nframes).bitmap (f / 8) = 0xFF :=
      fill_of_mem (Nat.zero_le _) hsize
    have hused := testBit_of_byte (p := pmmCoreInit bitmap nframes) (f := f / 8 * 8) (d := f % 8)
      (by omega) (by rw [Nat.mul_div_cancel _ (by decide)]; exact hbyte) (by omega)
    rw [Nat.div_add_mod'] at hused
    rw [hused] at hb
    exact absurd hb (by decide)
  refine ⟨show nframes < 2 ^ 64 by omega, ?_, fun hne => Nat.pos_of_ne_zero hne⟩
  rw [hempty]
  rfl

/-- One call, its ranges in bounds. -/
def PmmStep (p : Pmm) (c : Call) (q : Pmm) : Prop := c.Fits ∧ ∃ r, exec p c = some (r, q)

/-- **A call on the allocator is a call on the set of free frames.** -/
theorem Exact.exec (h : Exact p) (hn : p.nframes ≤ 2 ^ 63) {c : Call} (hfit : c.Fits) :
    ∃ r q, exec p c = some (r, q) ∧ Exact q ∧ q.nframes = p.nframes ∧
      SetStep p.nframes p.freeSet c r q.freeSet ∧ (r = -1 → q = p) := by
  cases c with
  | markUsed first count =>
    obtain ⟨h1, h2, h3⟩ := h.markUsed hfit
    exact ⟨_, _, rfl, h1, h2.nframes, h3, fun hr => absurd hr (by decide)⟩
  | markFree first count =>
    obtain ⟨h1, h2, h3⟩ := h.markFree hfit
    exact ⟨_, _, rfl, h1, h2.nframes, h3, fun hr => absurd hr (by decide)⟩
  | alloc =>
    have hsum : p.nframes ≠ 0 → p.hint + p.nframes ≤ 2 ^ 64 := fun hne => by
      have := h.hint hne
      omega
    rcases h.alloc (by omega) hsum with ⟨he, hex⟩ | ⟨f, hf, hex⟩
    · exact ⟨_, _, hex, h, rfl, Or.inl ⟨he, rfl, rfl⟩, fun _ => rfl⟩
    · have hlt : f < 2 ^ 63 := lt_of_lt_of_le (Pmm.mem_freeSet.mp hf).1 hn
      rw [toInt64_of_lt hlt] at hex
      exact ⟨_, _, hex, h.handed hf, rfl, Or.inr ⟨f, hf, rfl, freeSet_handed p f⟩,
        fun hr => absurd hr (by omega)⟩
  | allocRun count align =>
    rcases h.allocRun hn count.toNat align.toNat_lt with ⟨hno, hex⟩ | ⟨b, h1, h2, h3, hex⟩
    · exact ⟨_, _, hex, h, rfl, Or.inl ⟨hno, rfl, rfl⟩, fun _ => rfl⟩
    · have hend := ((runAt_iff h1.1).mp h2).2.1
      have hpos := Nat.pos_of_ne_zero h1.1
      rw [toInt64_of_lt (by omega)] at hex
      obtain ⟨h4, h5, h6⟩ := h.markUsed (show b + count.toNat < 2 ^ 64 by omega)
      exact ⟨_, _, hex, h4, h5.nframes, Or.inr ⟨b, h1, h2, h3, rfl, h6⟩,
        fun hr => absurd hr (by omega)⟩
  | free frame =>
    rcases pmmCoreFree_cases p frame.toNat with ⟨hlt, hnot, hex⟩ | ⟨hno, hex⟩
    · obtain ⟨h1, h2, h3⟩ := h.give hlt
      exact ⟨0, _, congrArg some hex, h1, h3.nframes, Or.inl ⟨hlt, hnot, rfl, h2⟩,
        fun hr => absurd hr (by decide)⟩
    · exact ⟨-1, p, congrArg some hex, h, rfl, Or.inr ⟨hno, rfl, rfl⟩, fun _ => rfl⟩

theorem PmmStep.exact {bitmap : Bytes} (hn : nframes ≤ 2 ^ 63) {cs : List Call}
    (hrun : Run PmmStep (pmmCoreInit bitmap nframes) cs p) : Exact p ∧ p.nframes = nframes := by
  refine hrun.invariant (P := fun _ p => Exact p ∧ p.nframes = nframes)
    ⟨Exact.init bitmap (by omega), rfl⟩ fun {cs p c q} h hs => ?_
  obtain ⟨hfit, r, hex⟩ := hs
  obtain ⟨r', q', hex', h1, h2, -⟩ := h.1.exec (h.2 ▸ hn) hfit
  rw [hex] at hex'
  simp only [Option.some.injEq, Prod.mk.injEq] at hex'
  rw [hex'.2]
  exact ⟨h1, h2.trans h.2⟩

/-- **The frame allocator refines a set of free frames.** After any calls on an allocator of at most
`2 ^ 63` frames, over any memory given to it for the bitmap, `free_frames` is the number of clear
bits, and the next call returns and does to the set of clear bits what it does to the abstract set;
a call that returns -1 changes nothing. -/
theorem pmm_refines_set (bitmap : Bytes) (nframes : UInt64) (hn : nframes.toNat ≤ 2 ^ 63)
    {cs : List Call} (hrun : Run PmmStep (pmmCoreInit bitmap nframes.toNat) cs p) :
    p.freeFrames = countClear nframes.toNat p.bitmap ∧
      ∀ c : Call, c.Fits → ∃ r q, exec p c = some (r, q) ∧
        SetStep nframes.toNat p.freeSet c r q.freeSet ∧ (r = -1 → q = p) := by
  obtain ⟨h, he⟩ := PmmStep.exact hn hrun
  refine ⟨?_, fun c hfit => ?_⟩
  · rw [h.count, ← he]
    exact p.card_freeSet
  · obtain ⟨r, q, hex, -, -, hset, hno⟩ := h.exec (he ▸ hn) hfit
    exact ⟨r, q, hex, he ▸ hset, hno⟩

/-- Ten frames, of which three are free: the next one handed out is one of them. -/
theorem pmm_refines_set_three :
    let p := pmmCoreMarkFree (pmmCoreInit (fun _ => 0) 10) 7 3
    p.freeFrames = countClear 10 p.bitmap ∧ p.freeSet = {7, 8, 9} ∧
      ∃ r q, exec p .alloc = some (r, q) ∧ SetStep 10 p.freeSet .alloc r q.freeSet := by
  have hstep : PmmStep (pmmCoreInit (fun _ => 0) (10 : UInt64).toNat) (.markFree 7 3)
      (pmmCoreMarkFree (pmmCoreInit (fun _ => 0) 10) 7 3) := ⟨by decide, 0, rfl⟩
  obtain ⟨h1, h2⟩ := pmm_refines_set (fun _ => 0) 10 (by decide) (Run.nil.snoc hstep)
  obtain ⟨r, q, hex, hset, -⟩ := h2 .alloc trivial
  exact ⟨h1, by decide, r, q, hex, hset⟩

/-! ## One frame too many -/

/-- An allocator of `2 ^ 63 + 1` frames whose only free frame is `2 ^ 63 - 1` and which searches
from `2 ^ 63` does not find it: the distance to it is `2 ^ 63`, and the sum wraps around to 0. -/
theorem Exact.alloc_misses (h : Exact p) (hn : p.nframes = 2 ^ 63 + 1) (hh : p.hint = 2 ^ 63)
    (hfree : p.freeSet = {2 ^ 63 - 1}) : pmmCoreAlloc p = some (-1, p) := by
  unfold pmmCoreAlloc
  have hfuel : p.nframes - 0 < passes := h.wide
  have hone : p.freeFrames ≠ 0 := by
    rw [h.count, hfree, card_singleton]
    decide
  rw [if_neg hone]
  cases hs : scan p passes 0 with
  | none => exact absurd hs (scan_ne_none (by omega) hfuel)
  | some r =>
    cases r with
    | none => rfl
    | some f =>
      obtain ⟨k, hk, hvis, hb⟩ := scan_sound hs
      have hlt : f < p.nframes := hvis ▸ Nat.mod_lt _ (by omega)
      have hf : f ∈ p.freeSet := Pmm.mem_freeSet.mpr ⟨hlt, hb⟩
      rw [hfree, mem_singleton] at hf
      unfold visited at hvis
      rw [hh, hn, hf] at hvis
      omega

/-- The only free frame is found, where no sum wraps around. -/
theorem Exact.alloc_only (h : Exact p) (hn : p.nframes + 8 ≤ 2 ^ 64)
    (hsum : p.hint + p.nframes ≤ 2 ^ 64) (hfree : p.freeSet = {f}) :
    pmmCoreAlloc p = some (toInt64 f, p.handed f) := by
  rcases h.alloc hn fun _ => hsum with ⟨he, -⟩ | ⟨g, hg, hex⟩
  · rw [hfree] at he
    exact absurd he (singleton_ne_empty f)
  · rw [hfree, mem_singleton] at hg
    rw [hex, hg]

/-- Frame `2 ^ 63 - 1` is freed, allocated and freed again; then the allocator says that no frame
is free. -/
theorem pmm_misses_frame :
    ∃ p, Run PmmStep (pmmCoreInit (fun _ => 0) (0x8000000000000001 : UInt64).toNat)
        [.markFree 0x7fffffffffffffff 1, .alloc, .free 0x7fffffffffffffff] p ∧
      p.freeSet = {2 ^ 63 - 1} ∧ pmmCoreAlloc p = some (-1, p) := by
  have h0 := Exact.init (fun _ => 0) (show 2 ^ 63 + 1 + 8 ≤ 2 ^ 64 by omega)
  have hfree0 : (pmmCoreInit (fun _ => 0) (2 ^ 63 + 1)).freeSet = ∅ :=
    card_eq_zero.mp h0.count.symm
  obtain ⟨h1, hs1, hm1⟩ := h0.markFree (show 2 ^ 63 - 1 + 1 < 2 ^ 64 by omega)
  generalize hp1 : pmmCoreMarkFree (pmmCoreInit (fun _ => 0) (2 ^ 63 + 1)) (2 ^ 63 - 1) 1 = p₁
    at h1 hs1 hm1
  have hn1 : p₁.nframes = 2 ^ 63 + 1 := hs1.nframes
  have hhint1 : p₁.hint = 0 := hs1.hint
  have hfree1 : p₁.freeSet = {2 ^ 63 - 1} := by
    ext f
    rw [hm1 f, hfree0, mem_singleton, ← hs1.nframes, hn1]
    simp only [notMem_empty, false_or]
    omega
  have hstep1 : PmmStep (pmmCoreInit (fun _ => 0) (0x8000000000000001 : UInt64).toNat)
      (.markFree 0x7fffffffffffffff 1) p₁ := ⟨by decide, 0, congrArg (fun q => some (0, q)) hp1⟩
  -- the search from 0 finds the frame and leaves the hint behind it
  have hex2 := h1.alloc_only (by omega) (by omega) hfree1
  have hstep2 : PmmStep p₁ .alloc (p₁.handed (2 ^ 63 - 1)) := ⟨trivial, _, hex2⟩
  have h2 := h1.handed (f := 2 ^ 63 - 1) (by rw [hfree1]; exact mem_singleton_self _)
  have hhint2 : (p₁.handed (2 ^ 63 - 1)).hint = 2 ^ 63 := by
    show (2 ^ 63 - 1 + 1) % 2 ^ 64 % p₁.nframes = 2 ^ 63
    rw [hn1]
    decide
  have hfree2 : (p₁.handed (2 ^ 63 - 1)).freeSet = ∅ := by
    rw [freeSet_handed, hfree1]
    exact erase_singleton _
  have hn2 : (p₁.handed (2 ^ 63 - 1)).nframes = 2 ^ 63 + 1 := hn1
  generalize p₁.handed (2 ^ 63 - 1) = p₂ at hstep2 h2 hhint2 hfree2 hn2
  obtain ⟨h3, hfree3, hs3⟩ := h2.give (f := 2 ^ 63 - 1) (by rw [hn2]; decide)
  have hstep3 : PmmStep p₂ (.free 0x7fffffffffffffff) (p₂.give (2 ^ 63 - 1)) := by
    rcases pmmCoreFree_cases p₂ (2 ^ 63 - 1) with ⟨-, -, hex⟩ | ⟨hle | hm, -⟩
    · exact ⟨trivial, 0, congrArg some hex⟩
    · omega
    · rw [hfree2] at hm
      exact absurd hm (notMem_empty _)
  rw [hfree2] at hfree3
  exact ⟨_, ((Run.nil.snoc hstep1).snoc hstep2).snoc hstep3, hfree3,
    h3.alloc_misses (hs3.nframes.trans hn2) (hs3.hint.trans hhint2) hfree3⟩

end Hallucinate.Mm
