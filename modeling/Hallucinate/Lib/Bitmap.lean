import Hallucinate.Lib.Bytes
import Mathlib.Algebra.BigOperators.Group.Finset.Piecewise
import Mathlib.Algebra.Order.BigOperators.Group.Finset
import Mathlib.Data.Finset.Card
import Mathlib.Data.Multiset.AddSub
import Mathlib.Tactic.Abel

/-!
# Allocation bitmaps

A bitmap is a byte array with eight entries to the byte. `bitTest`, `bitSet` and `bitClr` work on
one entry, `countClear` counts the clear ones.

`Marks lo hi held w` is the accounting of an allocator over such a bitmap: below `hi`, the marked
entries are exactly the reserved ones below `lo` and the held ones, and no entry is held twice.

Results: setting and clearing entries move `held` by one (`Marks.set`, `Marks.clr`);
the clear entries are the rest (`Marks.countClear`); and an allocator that needs an entry clear in
two bitmaps only runs out when the second has marked as many new entries as the first has clear ones
(`countClear_le_fresh`).
-/

namespace Hallucinate.Lib

open Function Multiset

/-- Entry `i` of a bitmap. -/
def bitTest (bm : Bytes) (i : Nat) : Bool := (bm (i / 8)).toNat.testBit (i % 8)

/-- `bm` with entry `i` set. -/
def bitSet (bm : Bytes) (i : Nat) : Bytes :=
  update bm (i / 8) (bm (i / 8) ||| (1 <<< UInt8.ofNat (i % 8)))

/-- `bm` with entry `i` clear. -/
def bitClr (bm : Bytes) (i : Nat) : Bytes :=
  update bm (i / 8) (bm (i / 8) &&& ~~~(1 <<< UInt8.ofNat (i % 8)))

private theorem mask_testBit (s r : Fin 8) :
    ((1 : UInt8) <<< UInt8.ofNat s).toNat.testBit r = decide (r = s) := by
  decide +revert

private theorem notMask_testBit (s r : Fin 8) :
    (~~~((1 : UInt8) <<< UInt8.ofNat s)).toNat.testBit r = decide (r ≠ s) := by
  decide +revert

variable {bm : Bytes} {i j : Nat}

/-- Two entries are one exactly when byte and position agree. -/
private theorem index_eq_iff : j = i ↔ j / 8 = i / 8 ∧ j % 8 = i % 8 := by omega

theorem bitTest_bitSet (bm : Bytes) (i j : Nat) :
    bitTest (bitSet bm i) j = (decide (j = i) || bitTest bm j) := by
  unfold bitTest bitSet
  by_cases h : j / 8 = i / 8
  · rw [h, update_self, UInt8.toNat_or, Nat.testBit_or,
      mask_testBit ⟨i % 8, by omega⟩ ⟨j % 8, by omega⟩, Bool.or_comm]
    congr 1
    simp only [Fin.mk.injEq, index_eq_iff (i := i) (j := j), h, true_and]
  · rw [update_of_ne h]
    have hne : j ≠ i := fun e => h (by rw [e])
    simp [hne]

theorem bitTest_bitClr (bm : Bytes) (i j : Nat) :
    bitTest (bitClr bm i) j = (decide (j ≠ i) && bitTest bm j) := by
  unfold bitTest bitClr
  by_cases h : j / 8 = i / 8
  · rw [h, update_self, UInt8.toNat_and, Nat.testBit_and,
      notMask_testBit ⟨i % 8, by omega⟩ ⟨j % 8, by omega⟩, Bool.and_comm]
    congr 1
    simp only [Fin.mk.injEq, ne_eq, index_eq_iff (i := i) (j := j), h, true_and]
  · rw [update_of_ne h]
    have hne : j ≠ i := fun e => h (by rw [e])
    simp [hne]

/-- Setting an entry changes only its byte. -/
theorem bitSet_of_ne {k : Nat} (h : k ≠ i / 8) : bitSet bm i k = bm k := update_of_ne h _ _

theorem bitClr_of_ne {k : Nat} (h : k ≠ i / 8) : bitClr bm i k = bm k := update_of_ne h _ _

/-- The number of clear entries below `hi`. -/
def countClear (hi : Nat) (bm : Bytes) : Nat := (List.range hi).countP fun i => !bitTest bm i

/-- The number of entries below `hi` marked in `w` and not in `c`. -/
def freshCount (hi : Nat) (c w : Bytes) : Nat :=
  (List.range hi).countP fun i => bitTest w i && !bitTest c i

theorem freshCount_self (hi : Nat) (c : Bytes) : freshCount hi c c = 0 := by
  simp [freshCount]

theorem freshCount_bitSet (hi : Nat) (c w : Bytes) (i : Nat) :
    freshCount hi c (bitSet w i) ≤ freshCount hi c w + 1 := by
  have hsub : freshCount hi c (bitSet w i)
      ≤ (List.range hi).countP fun j => (bitTest w j && !bitTest c j) || j == i := by
    apply List.countP_mono_left
    intro j _ hj
    rw [bitTest_bitSet] at hj
    by_cases h : j = i <;> simp_all
  have hone : (List.range hi).countP (fun j => j == i) ≤ 1 := by
    have := List.nodup_iff_count_le_one.mp (List.nodup_range (n := hi)) i
    rwa [List.count] at this
  have hor : ∀ l : List Nat, l.countP (fun j => (bitTest w j && !bitTest c j) || j == i)
      ≤ l.countP (fun j => bitTest w j && !bitTest c j) + l.countP fun j => j == i := by
    intro l
    induction l with
    | nil => simp
    | cons a l ih =>
      simp only [List.countP_cons]
      cases h1 : (bitTest w a && !bitTest c a) <;> cases h2 : (a == i) <;> simp <;> omega
  have := hor (List.range hi)
  unfold freshCount at *
  omega

theorem freshCount_bitClr (hi : Nat) (c w : Bytes) (i : Nat) :
    freshCount hi c (bitClr w i) ≤ freshCount hi c w := by
  apply List.countP_mono_left
  intro j _ hj
  rw [bitTest_bitClr] at hj
  simp_all

/-- **When no entry from `lo` on is clear in both bitmaps**, the entries clear in `c` are all newly
marked in `w`. -/
theorem countClear_le_fresh {lo hi : Nat} {c w : Bytes} (hlo : ∀ i < lo, bitTest c i = true)
    (h : ∀ i, lo ≤ i → i < hi → bitTest c i = true ∨ bitTest w i = true) :
    countClear hi c ≤ freshCount hi c w := by
  apply List.countP_mono_left
  intro i hi' hc
  have hlt := List.mem_range.mp hi'
  have hge : lo ≤ i := by
    by_contra hlt'
    simp [hlo i (by omega)] at hc
  rcases h i hge hlt with h1 | h1 <;> simp_all

/-! ## Accounting -/

/-- Below `hi` the marked entries are those below `lo` and the held ones, each held once. -/
structure Marks (lo hi : Nat) (held : Multiset Nat) (w : Bytes) : Prop where
  nodup : held.Nodup
  range : ∀ b ∈ held, lo ≤ b ∧ b < hi
  mem_iff : ∀ b < hi, bitTest w b = true ↔ b < lo ∨ b ∈ held

namespace Marks

variable {lo hi b : Nat} {held : Multiset Nat} {w : Bytes}

section

variable (h : Marks lo hi held w)
include h

theorem bitTest_of_mem (hb : b ∈ held) : bitTest w b = true :=
  (h.mem_iff b (h.range b hb).2).mpr (Or.inr hb)

theorem not_mem_of_clear (hb : bitTest w b = false) : b ∉ held := by
  intro hm
  rw [h.bitTest_of_mem hm] at hb
  cases hb

/-- Setting a clear entry makes it held. -/
theorem set (h1 : lo ≤ b) (h2 : b < hi) (hb : bitTest w b = false) :
    Marks lo hi (b ::ₘ held) (bitSet w b) := by
  refine ⟨nodup_cons.mpr ⟨h.not_mem_of_clear hb, h.nodup⟩, ?_, fun c hc => ?_⟩
  · intro c hc
    rcases mem_cons.mp hc with rfl | hc
    · exact ⟨h1, h2⟩
    · exact h.range c hc
  · rw [bitTest_bitSet, Bool.or_eq_true, decide_eq_true_eq, h.mem_iff c hc, mem_cons]
    tauto

/-- Clearing an entry releases it if it was held, and does nothing to the accounting if not. -/
theorem clr (h1 : lo ≤ b) : Marks lo hi (held.erase b) (bitClr w b) := by
  refine ⟨h.nodup.erase b, fun c hc => h.range c (mem_of_mem_erase hc), fun c hc => ?_⟩
  rw [bitTest_bitClr, Bool.and_eq_true, decide_eq_true_eq, h.mem_iff c hc, h.nodup.mem_erase_iff]
  constructor
  · rintro ⟨h2, h3 | h3⟩
    · exact Or.inl h3
    · exact Or.inr ⟨h2, h3⟩
  · rintro (h3 | ⟨h2, h3⟩)
    · exact ⟨by omega, Or.inl h3⟩
    · exact ⟨h2, Or.inr h3⟩

/-- **The clear entries are the ones neither reserved nor held.** -/
theorem countClear (hlo : lo ≤ hi) : Lib.countClear hi w + held.card + lo = hi := by
  classical
  have hset : (List.range hi).countP (bitTest w) = lo + held.card := by
    have hfin : (List.range hi).countP (bitTest w)
        = ((Finset.range hi).filter fun b => bitTest w b = true).card := by
      rw [List.countP_eq_length_filter, Finset.card_def, Finset.filter_val, Finset.range_val,
        ← coe_range, filter_coe, coe_card]
      simp
    have hun : (Finset.range hi).filter (fun b => bitTest w b = true)
        = Finset.range lo ∪ held.toFinset := by
      ext b
      simp only [Finset.mem_filter, Finset.mem_range, Finset.mem_union, mem_toFinset]
      constructor
      · rintro ⟨hb, ht⟩
        exact (h.mem_iff b hb).mp ht
      · rintro (hb | hb)
        · exact ⟨by omega, (h.mem_iff b (by omega)).mpr (Or.inl hb)⟩
        · exact ⟨(h.range b hb).2, h.bitTest_of_mem hb⟩
    have hdis : Disjoint (Finset.range lo) held.toFinset := by
      rw [Finset.disjoint_left]
      intro b hb hb'
      have := (h.range b (mem_toFinset.mp hb')).1
      rw [Finset.mem_range] at hb
      omega
    rw [hfin, hun, Finset.card_union_of_disjoint hdis, Finset.card_range,
      toFinset_card_of_nodup h.nodup]
  have hsplit := List.length_eq_countP_add_countP (bitTest w) (l := List.range hi)
  rw [List.length_range] at hsplit
  unfold Lib.countClear
  have hneg : (List.range hi).countP (fun i => !bitTest w i)
      = (List.range hi).countP fun i => decide ¬bitTest w i = true := by
    congr 1
    funext i
    cases bitTest w i <;> rfl
  omega

end

end Marks

/-- Replacing one term of a sum, without subtraction. -/
theorem sum_update_add {ι M : Type*} [DecidableEq ι] [AddCommMonoid M] {t : Finset ι} {i : ι}
    (hi : i ∈ t) (f : ι → M) (x : M) :
    ∑ j ∈ t, update f i x j + f i = ∑ j ∈ t, f j + x := by
  rw [Finset.sum_update_of_mem hi, ← Finset.sum_sdiff (Finset.singleton_subset_iff.mpr hi),
    Finset.sum_singleton]
  abel

end Hallucinate.Lib
