import Hallucinate.Gfs.Ops
import Mathlib.Data.List.SplitOn

/-!
# Where the scanner of `gfs_resolve` cuts a path

`gfs_resolve` goes over the bytes of a path with two nested loops: it skips slashes, copies bytes up
to the next slash, and gives up at the 256th. `components` says what a path means: the texts between
slashes, without the empty ones.

* `components_slash`: a slash cuts a path in two.
* `scanComponent_eq`: the inner loop takes the bytes before the next slash, unless they are too many.
* **`resolveLoop_eq`**: the loops go through the components one after the other.
-/

namespace Hallucinate.Gfs

open List

variable {b : UInt8} {p q name : List UInt8}

/-! ## Components -/

theorem components_nil : components [] = [] := by
  unfold components
  rw [splitOn_nil]
  rfl

/-- **A slash cuts a path in two.** -/
theorem components_slash (p q : List UInt8) : components (p ++ 47 :: q) = components p ++ components q := by
  have hsplit : (p ++ 47 :: q).splitOnP (· == 47) = p.splitOnP (· == 47) ++ q.splitOnP (· == 47) :=
    splitOnP_append_cons p q (by decide)
  unfold components
  rw [splitOn_eq_splitOnP, splitOn_eq_splitOnP, splitOn_eq_splitOnP, hsplit,
    filter_append]

/-- A text without slashes. -/
theorem components_name (hne : name ≠ []) (hslash : 47 ∉ name) : components name = [name] := by
  have hname : name.splitOnP (· == 47) = [name] :=
    splitOnP_eq_singleton fun x hx => by
      have hx47 : x ≠ 47 := fun he => hslash (he ▸ hx)
      simpa using hx47
  unfold components
  rw [splitOn_eq_splitOnP, hname]
  simp [hne]

/-- Leading slashes do not count. -/
theorem components_skip (p : List UInt8) : components (p.dropWhile (· = 47)) = components p := by
  induction p with
  | nil => rfl
  | cons b p ih =>
    by_cases hb : b = 47
    · rw [dropWhile_cons_of_pos (by simpa using hb), ih, hb]
      have hcut := components_slash [] p
      rw [components_nil] at hcut
      exact hcut.symm
    · rw [dropWhile_cons_of_neg (by simpa using hb)]

/-- The first component of a path that does not start with a slash. -/
theorem components_cons (hb : b ≠ 47) (p : List UInt8) :
    components (b :: p) = (b :: p).takeWhile (· ≠ 47) :: components ((b :: p).dropWhile (· ≠ 47)) := by
  have hne : (b :: p).takeWhile (· ≠ 47) ≠ [] := by
    rw [takeWhile_cons_of_pos (by simpa using hb)]
    exact cons_ne_nil _ _
  have hslash : 47 ∉ (b :: p).takeWhile (· ≠ 47) := fun hm => by
    simpa using all_eq_true.mp all_takeWhile 47 hm
  have happ := takeWhile_append_dropWhile (p := (· ≠ (47 : UInt8))) (l := b :: p)
  generalize (b :: p).takeWhile (· ≠ 47) = w at hne hslash happ
  cases hrest : (b :: p).dropWhile (· ≠ 47) with
  | nil =>
    rw [hrest, append_nil] at happ
    rw [← happ, components_name hne hslash, components_nil]
  | cons c rest =>
    obtain rfl : c = 47 := by
      have hhead := head?_dropWhile_not (· ≠ (47 : UInt8)) (b :: p)
      rw [hrest] at hhead
      simpa using hhead
    rw [hrest] at happ
    have hcut := components_slash [] rest
    rw [components_nil] at hcut
    rw [← happ, components_slash, components_name hne hslash]
    exact congrArg ([w] ++ ·) hcut.symm

/-! ## The loops -/

/-- **The inner loop takes what stands before the next slash**, unless it is too long. -/
theorem scanComponent_eq (p : List UInt8) {n : Nat} (hn : n ≤ 255) :
    scanComponent n p = if 255 < n + (p.takeWhile (· ≠ 47)).length then .error .enametoolong
      else .ok (p.takeWhile (· ≠ 47), p.dropWhile (· ≠ 47)) := by
  induction p generalizing n with
  | nil =>
    rw [if_neg (by simpa using hn)]
    rfl
  | cons b p ih =>
    rw [scanComponent]
    by_cases hb : b = 47
    · rw [if_pos hb, takeWhile_cons_of_neg (by simpa using hb),
        dropWhile_cons_of_neg (by simpa using hb), if_neg (by simpa using hn)]
    · rw [if_neg hb, takeWhile_cons_of_pos (by simpa using hb),
        dropWhile_cons_of_pos (by simpa using hb), length_cons]
      by_cases hfull : 255 ≤ n
      · rw [if_pos hfull, if_pos (by omega)]
      · rw [if_neg hfull, ih (by omega), Nat.add_right_comm n 1, Nat.add_assoc n]
        by_cases hlong : 255 < n + ((p.takeWhile (· ≠ 47)).length + 1)
        · rw [if_pos hlong, if_pos hlong]
        · rw [if_neg hlong, if_neg hlong]

/-- **The loops of `gfs_resolve` go through the components.** -/
theorem resolveLoop_eq (p : List UInt8) (cur : Nat) :
    resolveLoop p cur = resolveWalk (components p) cur := by
  induction hlen : p.length using Nat.strongRecOn generalizing p cur with
  | ind len ih =>
    rw [resolveLoop, ← components_skip p]
    split
    · rename_i hp
      rw [hp, components_nil, resolveWalk]
    · rename_i b p' hp
      obtain ⟨hb, hle⟩ := skip_slashes hp
      rw [hp, components_cons hb, resolveWalk]
      split
      · rename_i e hs
        rw [scanComponent_eq _ (Nat.zero_le 255), Nat.zero_add] at hs
        split at hs
        · rename_i hlong
          cases hs
          rw [if_pos hlong]
        · cases hs
      · rename_i comp rest hs
        have hrest := scanComponent_length hb hs
        rw [scanComponent_eq _ (Nat.zero_le 255), Nat.zero_add] at hs
        split at hs
        · cases hs
        · rename_i hshort
          cases hs
          rw [if_neg hshort]
          refine congrArg (resolveStep cur _ >>= ·) (funext fun cur' => ?_)
          exact ih _ (by omega) _ cur' rfl

end Hallucinate.Gfs
