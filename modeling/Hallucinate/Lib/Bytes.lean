import Mathlib.Data.List.Basic
import Mathlib.Tactic.Ring

/-!
# Arrays as maps from offsets

An array is a map from offsets to cells. `slice` is a straight run of cells, `copyIn` overwrites
one with a list and `fill` with one value. On byte arrays `rd` and `wr` are little-endian scalars
of a given width, and `writeFields` stores a record field by field.

Results: a slice reads back what was copied (`slice_copyIn`) and does not see a copy elsewhere
(`slice_congr`); `rd_wr` and `rd_wr_of_disjoint` are the same for scalars; and every field of a
record with disjoint fields reads back (`rd_writeFields`).
-/

namespace Hallucinate.Lib

open List

variable {i : Nat}

section Cells

variable {α : Type*}

/-- The `n` cells from `off` on. -/
def slice (buf : Nat → α) (off n : Nat) : List α :=
  (List.range n).map fun i => buf (off + i)

/-- `buf` with the cells from `off` on replaced by `src`. -/
def copyIn (buf : Nat → α) (off : Nat) (src : List α) : Nat → α :=
  fun i => if off ≤ i then (src[i - off]?).getD (buf i) else buf i

/-- `buf` with the `n` cells from `off` on set to `v`. -/
def fill (buf : Nat → α) (off n : Nat) (v : α) : Nat → α :=
  fun i => if off ≤ i ∧ i < off + n then v else buf i

variable {buf buf' : Nat → α} {off off' n : Nat} {src : List α}

@[simp] theorem slice_length (buf : Nat → α) (off n : Nat) : (slice buf off n).length = n := by
  simp [slice]

@[simp] theorem slice_zero (buf : Nat → α) (off : Nat) : slice buf off 0 = [] := rfl

theorem slice_getElem (h : i < (slice buf off n).length) :
    (slice buf off n)[i] = buf (off + i) := by
  simp [slice]

/-- A slice reads only its own cells. -/
theorem slice_congr (h : ∀ i, off ≤ i → i < off + n → buf i = buf' i) :
    slice buf off n = slice buf' off n := by
  apply map_congr_left
  intro i hi
  have hlt := mem_range.mp hi
  exact h (off + i) (by omega) (by omega)

/-- Equal slices have equal cells. -/
theorem eq_of_slice_eq (h : slice buf off n = slice buf' off' n) (hi : i < n) :
    buf (off + i) = buf' (off' + i) := by
  have h1 : (slice buf off n)[i]? = (slice buf' off' n)[i]? := by rw [h]
  simpa [slice, hi] using h1

theorem slice_add (buf : Nat → α) (off m n : Nat) :
    slice buf off (m + n) = slice buf off m ++ slice buf (off + m) n := by
  unfold slice
  rw [range_add, map_append, map_map]
  congr 1
  apply map_congr_left
  intro i _
  simp only [Function.comp_apply, Nat.add_assoc]

theorem copyIn_of_not_mem (h : i < off ∨ off + src.length ≤ i) : copyIn buf off src i = buf i := by
  unfold copyIn
  split
  · rw [getElem?_eq_none (by omega), Option.getD_none]
  · rfl

theorem copyIn_of_mem (h : i < src.length) : copyIn buf off src (off + i) = src[i] := by
  simp [copyIn, h]

theorem slice_copyIn (buf : Nat → α) (off : Nat) (src : List α) :
    slice (copyIn buf off src) off src.length = src := by
  apply ext_getElem
  · rw [slice_length]
  · intro i h1 h2
    rw [slice_getElem, copyIn_of_mem h2]

theorem slice_copyIn_of_disjoint (h : off' + n ≤ off ∨ off + src.length ≤ off') :
    slice (copyIn buf off src) off' n = slice buf off' n :=
  slice_congr fun _ _ _ => copyIn_of_not_mem (by omega)

theorem fill_of_not_mem {v : α} (h : i < off ∨ off + n ≤ i) : fill buf off n v i = buf i :=
  if_neg (by omega)

theorem fill_of_mem {v : α} (h : off ≤ i) (h' : i < off + n) : fill buf off n v i = v :=
  if_pos ⟨h, h'⟩

end Cells

/-! ## Little-endian scalars -/

abbrev Bytes := Nat → UInt8

/-- The value of a list of digits to base 256, least significant first. -/
def leNat : List UInt8 → Nat
  | [] => 0
  | b :: bs => b.toNat + 256 * leNat bs

/-- The `w` lowest digits of `v` to base 256. -/
def leBytes : Nat → Nat → List UInt8
  | 0, _ => []
  | w + 1, v => UInt8.ofNat (v % 256) :: leBytes w (v / 256)

@[simp] theorem leBytes_length (w v : Nat) : (leBytes w v).length = w := by
  induction w generalizing v with
  | zero => rfl
  | succ w ih => rw [leBytes, length_cons, ih]

theorem leNat_leBytes (w v : Nat) : leNat (leBytes w v) = v % 256 ^ w := by
  induction w generalizing v with
  | zero => rw [pow_zero, Nat.mod_one]; rfl
  | succ w ih =>
    have hb : (UInt8.ofNat (v % 256)).toNat = v % 256 := by
      rw [UInt8.toNat_ofNat']
      exact Nat.mod_mod_of_dvd _ (by decide)
    rw [leBytes, leNat, ih, hb, pow_succ', Nat.mod_mul]

theorem leNat_lt (bs : List UInt8) : leNat bs < 256 ^ bs.length := by
  induction bs with
  | nil => simp [leNat]
  | cons b bs ih =>
    have hb : b.toNat < 256 := b.toNat_lt
    rw [leNat, length_cons, pow_succ']
    omega

/-- The scalar of `w` bytes at `off`. -/
def rd (m : Bytes) (off w : Nat) : Nat := leNat (slice m off w)

/-- `m` with the scalar of `w` bytes at `off` set to `v`. -/
def wr (m : Bytes) (off w v : Nat) : Bytes := copyIn m off (leBytes w v)

variable {m m' : Bytes} {off off' w w' v : Nat}

theorem rd_lt (m : Bytes) (off w : Nat) : rd m off w < 256 ^ w := by
  have h := leNat_lt (slice m off w)
  rwa [slice_length] at h

theorem rd_congr (h : ∀ i, off ≤ i → i < off + w → m i = m' i) : rd m off w = rd m' off w := by
  unfold rd
  rw [slice_congr h]

theorem rd_zero (m : Bytes) (off w : Nat) (h : ∀ i, off ≤ i → i < off + w → m i = 0) :
    rd m off w = 0 := by
  induction w generalizing off with
  | zero => rfl
  | succ w ih =>
    have hstep : rd m off (w + 1) = (m off).toNat + 256 * rd m (off + 1) w := by
      unfold rd
      rw [show w + 1 = 1 + w from Nat.add_comm .., slice_add]
      simp [slice, leNat]
    rw [hstep, h off le_rfl (by omega), ih (off + 1) fun i h1 h2 => h i (by omega) (by omega)]
    rfl

theorem rd_wr (m : Bytes) (off w v : Nat) : rd (wr m off w v) off w = v % 256 ^ w := by
  unfold rd wr
  rw [← leNat_leBytes]
  congr 1
  have h := slice_copyIn m off (leBytes w v)
  rwa [leBytes_length] at h

theorem wr_of_not_mem (h : i < off ∨ off + w ≤ i) : wr m off w v i = m i :=
  copyIn_of_not_mem (by rwa [leBytes_length])

theorem rd_wr_of_disjoint (h : off' + w' ≤ off ∨ off + w ≤ off') :
    rd (wr m off w v) off' w' = rd m off' w' :=
  rd_congr fun _ _ _ => wr_of_not_mem (by omega)

/-- A second write of the same scalar replaces the first. -/
theorem wr_wr (m : Bytes) (off w v v' : Nat) : wr (wr m off w v) off w v' = wr m off w v' := by
  funext i
  by_cases h : i < off ∨ off + w ≤ i
  · rw [wr_of_not_mem h, wr_of_not_mem h, wr_of_not_mem h]
  · obtain ⟨k, rfl⟩ := Nat.exists_eq_add_of_le (show off ≤ i by omega)
    have hk : k < w := by omega
    unfold wr
    rw [copyIn_of_mem (by rwa [leBytes_length]), copyIn_of_mem (by rwa [leBytes_length])]

/-! ## Records -/

/-- One scalar field of a record: where, how wide, which value. -/
structure Field where
  off : Nat
  width : Nat
  val : Nat

/-- Two fields that share no byte. -/
def Field.Disjoint (f g : Field) : Prop := f.off + f.width ≤ g.off ∨ g.off + g.width ≤ f.off

instance : DecidableRel Field.Disjoint := fun f g =>
  inferInstanceAs (Decidable (f.off + f.width ≤ g.off ∨ g.off + g.width ≤ f.off))

/-- `m` with the fields of a record at `b` stored in order. -/
def writeFields (m : Bytes) (b : Nat) : List Field → Bytes
  | [] => m
  | f :: fs => writeFields (wr m (b + f.off) f.width f.val) b fs

variable {b : Nat}

/-- A record is only written where its fields are. -/
theorem writeFields_of_not_mem : ∀ {fs : List Field} {m : Bytes},
    (∀ f ∈ fs, i < b + f.off ∨ b + f.off + f.width ≤ i) → writeFields m b fs i = m i
  | [], _, _ => rfl
  | f :: fs, m, h => by
    rw [writeFields, writeFields_of_not_mem fun g hg => h g (mem_cons_of_mem f hg),
      wr_of_not_mem (h f mem_cons_self)]

variable {fs : List Field}

theorem rd_writeFields_of_disjoint {m : Bytes} {off w : Nat}
    (h : ∀ f ∈ fs, off + w ≤ b + f.off ∨ b + f.off + f.width ≤ off) :
    rd (writeFields m b fs) off w = rd m off w :=
  rd_congr fun _ _ _ => writeFields_of_not_mem fun f hf => by have := h f hf; omega

/-- **Every field of a record with disjoint fields reads back.** -/
theorem rd_writeFields {m : Bytes} {off w v : Nat} (hd : fs.Pairwise Field.Disjoint)
    (hf : (⟨off, w, v⟩ : Field) ∈ fs) (hv : v < 256 ^ w) :
    rd (writeFields m b fs) (b + off) w = v := by
  induction fs generalizing m with
  | nil => cases hf
  | cons g fs ih =>
    obtain ⟨hg, hfs⟩ := pairwise_cons.mp hd
    rw [writeFields]
    rcases mem_cons.mp hf with rfl | hf
    · -- the fields stored after this one leave it alone
      rw [rd_writeFields_of_disjoint, rd_wr, Nat.mod_eq_of_lt hv]
      intro g' hg'
      have hdis := hg g' hg'
      simp only [Field.Disjoint] at hdis ⊢
      omega
    · exact ih hfs hf

end Hallucinate.Lib
