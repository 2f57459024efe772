import Hallucinate.Lib.Bytes

/-!
# Circular windows of an array

`window` is a run of cells of an array that wraps at `cap`, where `slice` is a straight one, and
`copyInWrap` overwrites such a run as `copyIn` does a straight one.

Results: a window is at most two slices (`window_eq_slices`), it splits at any point
(`window_add`), a wrapping copy reads back as its source (`window_copyInWrap`) and leaves the
window before it alone (`window_copyInWrap_behind`), and what is past the array
(`copyInWrap_of_le`).
-/

namespace Hallucinate.Lib

open List

variable {α : Type*}

/-- The `n` cells from `head` on, indices taken modulo `cap`. -/
def window (buf : Nat → α) (cap head n : Nat) : List α :=
  (List.range n).map fun i => buf ((head + i) % cap)

section

variable (buf : Nat → α)

@[simp] theorem window_length (cap head n : Nat) : (window buf cap head n).length = n := by
  simp [window]

/-- **A window splits at any point.** -/
theorem window_add (cap head m n : Nat) : window buf cap head (m + n)
      = window buf cap head m ++ window buf cap ((head + m) % cap) n := by
  unfold window
  rw [range_add, map_append, map_map]
  congr 1
  apply map_congr_left
  intro i _
  simp only [Function.comp_apply, Nat.mod_add_mod, Nat.add_assoc]

variable {cap head n : Nat}

/-- A window that does not reach the end of the array is a slice. -/
theorem window_eq_slice (h : head + n ≤ cap) : window buf cap head n = slice buf head n := by
  apply map_congr_left
  intro i hi
  have hlt := mem_range.mp hi
  rw [Nat.mod_eq_of_lt (by omega)]

/-- **A window is the slice up to the end of the array, then one from its start.** -/
theorem window_eq_slices (hh : head < cap) (hn : n ≤ cap) : window buf cap head n
      = slice buf head (min n (cap - head)) ++ slice buf 0 (n - min n (cap - head)) := by
  by_cases hfit : head + n ≤ cap
  · rw [window_eq_slice buf hfit, Nat.min_eq_left (by omega), Nat.sub_self, slice_zero,
      append_nil]
  · rw [Nat.min_eq_right (by omega)]
    have hsplit : n = (cap - head) + (n - (cap - head)) := by omega
    have hwrap : (head + (cap - head)) % cap = 0 := by
      rw [Nat.add_sub_cancel' (by omega), Nat.mod_self]
    calc window buf cap head n
        = window buf cap head ((cap - head) + (n - (cap - head))) := by rw [← hsplit]
      _ = window buf cap head (cap - head) ++ window buf cap 0 (n - (cap - head)) := by
          rw [window_add, hwrap]
      _ = _ := by
          rw [window_eq_slice buf (by omega), window_eq_slice buf (by omega)]

variable {m : Nat}

theorem window_take (cap head : Nat) (h : m ≤ n) :
    (window buf cap head n).take m = window buf cap head m := by
  obtain ⟨k, rfl⟩ := Nat.exists_eq_add_of_le h
  rw [window_add, take_append_of_le_length (by simp), take_of_length_le (by simp)]

theorem window_drop (cap head : Nat) (h : m ≤ n) :
    (window buf cap head n).drop m = window buf cap ((head + m) % cap) (n - m) := by
  obtain ⟨k, rfl⟩ := Nat.exists_eq_add_of_le h
  rw [window_add, drop_append_of_le_length (by simp), drop_of_length_le (by simp),
    nil_append, Nat.add_sub_cancel_left]

/-- `src` copied in from `tail` on, going on at the start of the array when it reaches `cap`. -/
def copyInWrap (buf : Nat → α) (cap tail : Nat) (src : List α) : Nat → α :=
  let first := min src.length (cap - tail)
  copyIn (copyIn buf tail (src.take first)) 0 (src.drop first)

variable {tail : Nat} {src : List α}

/-- **What a wrapping copy leaves `j` cells past `tail`**: byte `j` of the source, and past the
source's end the old cell. -/
theorem copyInWrap_apply {j : Nat} (ht : tail < cap) (hsrc : src.length ≤ cap) (hj : j < cap) :
    copyInWrap buf cap tail src ((tail + j) % cap) = (src[j]?).getD (buf ((tail + j) % cap)) := by
  unfold copyInWrap copyIn
  by_cases hw : tail + j < cap
  · -- before the wrap: the chunk at the start ends below `tail`
    rw [Nat.mod_eq_of_lt hw, getElem?_drop, getElem?_eq_none (by omega),
      getElem?_take]
    simp only [Nat.zero_le, if_true, Option.getD_none, Nat.le_add_right, Nat.add_sub_cancel_left]
    split
    · rfl
    · rw [getElem?_eq_none (by omega)]
  · have hmod : (tail + j) % cap = tail + j - cap := by
      rw [Nat.mod_eq_sub_mod (by omega), Nat.mod_eq_of_lt (by omega)]
    rw [hmod, if_pos (Nat.zero_le _), if_neg (by omega), getElem?_drop]
    by_cases hlt : cap - tail ≤ src.length
    · rw [Nat.min_eq_right hlt, show cap - tail + (tail + j - cap - 0) = j by omega]
    · rw [getElem?_eq_none (by omega), getElem?_eq_none (by omega)]

/-- The copied cells read back as the source. -/
theorem window_copyInWrap (ht : tail < cap) (hsrc : src.length ≤ cap) :
    window (copyInWrap buf cap tail src) cap tail src.length = src := by
  apply ext_getElem
  · rw [window_length]
  · intro i h1 h2
    simp only [window, getElem_map, getElem_range]
    rw [copyInWrap_apply buf ht hsrc (by omega), getElem?_eq_getElem h2, Option.getD_some]

/-- A copy behind the `m` cells from `head` on, with room for it before they start again, leaves
them alone. -/
theorem copyInWrap_behind {i : Nat} (hh : head < cap) (hsrc : m + src.length ≤ cap) (hlt : i < m) :
    copyInWrap buf cap ((head + m) % cap) src ((head + i) % cap) = buf ((head + i) % cap) := by
  have hidx : (head + i) % cap = ((head + m) % cap + (cap - m + i)) % cap := by
    rw [Nat.mod_add_mod, show head + m + (cap - m + i) = head + i + cap by omega,
      Nat.add_mod_right]
  rw [hidx, copyInWrap_apply buf (Nat.mod_lt _ (by omega)) (by omega) (by omega),
    getElem?_eq_none (by omega), Option.getD_none]

theorem window_copyInWrap_behind (hh : head < cap) (hsrc : m + src.length ≤ cap) :
    window (copyInWrap buf cap ((head + m) % cap) src) cap head m = window buf cap head m :=
  map_congr_left fun _ hi => copyInWrap_behind buf hh hsrc (mem_range.mp hi)

/-- Nothing is written past the end of the array. -/
theorem copyInWrap_of_le {i : Nat} (ht : tail < cap) (hsrc : src.length ≤ cap) (hi : cap ≤ i) :
    copyInWrap buf cap tail src i = buf i := by
  unfold copyInWrap
  rw [copyIn_of_not_mem, copyIn_of_not_mem]
  · rw [length_take]
    omega
  · rw [length_drop]
    omega

end

end Hallucinate.Lib
