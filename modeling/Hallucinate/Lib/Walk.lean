import Mathlib.Data.Finset.Card
import Mathlib.Data.Fintype.Card

/-!
# Walks along a chain of pointers

A walk follows a step function `f : α → Option α` until it is undefined. `follow f n a` is the place
after `n` steps, and `Leaves f a i x` says that the walk from `a` is at `x` after `i` steps and goes
on from there.

Result: a walk whose places have keys out of a finite range ends exactly if it never leaves two
places with one key (`follow_ends_iff`); it then ends after as many steps as there are keys
(`follow_bound`).
-/

namespace Hallucinate.Lib

variable {α : Type} {f : α → Option α} {a x y : α} {i j m n N : Nat} {key : α → Nat}

/-- The place after `n` steps. -/
def follow (f : α → Option α) : Nat → α → Option α
  | 0, a => some a
  | n + 1, a => (f a).bind (follow f n)

/-- The walk from `a` goes on from `x` after `i` steps. -/
def Leaves (f : α → Option α) (a : α) (i : Nat) (x : α) : Prop :=
  follow f i a = some x ∧ (f x).isSome

theorem follow_add (f : α → Option α) (m n : Nat) (a : α) :
    follow f (m + n) a = (follow f m a).bind (follow f n) := by
  induction m generalizing a with
  | zero => rw [Nat.zero_add]; rfl
  | succ m ih =>
    rw [Nat.succ_add, follow, follow, Option.bind_assoc]
    exact congrArg _ (funext ih)

/-- A walk that has ended stays so. -/
theorem follow_none_mono (h : follow f m a = none) (hmn : m ≤ n) : follow f n a = none := by
  obtain ⟨k, rfl⟩ := Nat.exists_eq_add_of_le hmn
  rw [follow_add, h]
  rfl

/-- A walk that lasts leaves a place at each step before. -/
theorem exists_leaves (h : follow f n a ≠ none) (hi : i < n) : ∃ x, Leaves f a i x := by
  have hnext : follow f (i + 1) a ≠ none := fun hn => h (follow_none_mono hn hi)
  rw [follow_add] at hnext
  cases hx : follow f i a with
  | none =>
    rw [hx] at hnext
    exact absurd rfl hnext
  | some x =>
    rw [hx] at hnext
    refine ⟨x, hx, Option.isSome_iff_ne_none.mpr fun hf => hnext ?_⟩
    show (f x).bind _ = none
    rw [hf]
    rfl

/-- A walk that comes back to a place comes back again and again. -/
theorem follow_period (hx : follow f i a = some x) (hp : follow f n x = some x) (k : Nat) :
    follow f (i + k * n) a = some x := by
  induction k with
  | zero => rwa [Nat.zero_mul]
  | succ k ih =>
    rw [Nat.succ_mul, ← Nat.add_assoc, follow_add, ih]
    exact hp

/-- **A walk that leaves no key twice ends** within as many steps as there are keys. -/
theorem follow_bound (hkey : ∀ x, (f x).isSome → key x < N)
    (h : ∀ i j x y, Leaves f a i x → Leaves f a j y → key x = key y → i = j) :
    follow f (N + 1) a = none := by
  by_contra hlast
  -- otherwise `N + 1` places with different keys are left
  choose p hp using fun i : Fin (N + 1) => exists_leaves hlast i.isLt
  have hinj : Function.Injective fun i : Fin (N + 1) => (⟨key (p i), hkey _ (hp i).2⟩ : Fin N) :=
    fun i j hij => Fin.ext (h i j _ _ (hp i) (hp j) (Fin.mk.inj hij))
  have hcard := Fintype.card_le_of_injective _ hinj
  rw [Fintype.card_fin, Fintype.card_fin] at hcard
  omega

/-- **A walk ends exactly if it leaves no key twice.** -/
theorem follow_ends_iff (hkey : ∀ x, (f x).isSome → key x < N)
    (hinj : ∀ x y, (f x).isSome → (f y).isSome → key x = key y → x = y) :
    (∃ n, follow f n a = none) ↔
      ∀ i j x y, Leaves f a i x → Leaves f a j y → key x = key y → i = j := by
  refine ⟨?_, fun h => ⟨N + 1, follow_bound hkey h⟩⟩
  rintro ⟨n, hn⟩
  -- two steps at one place, the first before the second
  have hlt : ∀ i j x, i < j → follow f i a = some x → follow f j a = some x → False := by
    intro i j x hij hi hj
    obtain ⟨k, rfl⟩ := Nat.exists_eq_add_of_lt hij
    rw [Nat.add_assoc, follow_add, hi] at hj
    have hlong := follow_period hi hj n
    rw [follow_none_mono hn] at hlong
    · cases hlong
    · calc n ≤ n * (k + 1) := Nat.le_mul_of_pos_right n (Nat.succ_pos k)
        _ ≤ i + n * (k + 1) := Nat.le_add_left _ _
  intro i j x y hx hy hxy
  obtain rfl := hinj x y hx.2 hy.2 hxy
  rcases Nat.lt_trichotomy i j with h | h | h
  · exact (hlt i j x h hx.1 hy.1).elim
  · exact h
  · exact (hlt j i x h hy.1 hx.1).elim

end Hallucinate.Lib
