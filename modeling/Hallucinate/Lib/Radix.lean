import Mathlib.Data.List.Infix

/-!
# Radix trees in memory

A memory of nodes, each an array of entries. What an entry is depends on the height of its node:
`dec h` reads it as empty, as a leaf, or as a link to a child, a node one step lower. A path is the
list of the indices on the way from the root, the last one first. `walk` follows a path: it ends at a
node, at a leaf, or finds nothing.

In a tree the paths to nodes are unique (`Distinct`). Results: what a walk sees depends on the entries
of the nodes only (`walk_congr`); a write to one entry changes the walks through that entry only
(`walk_of_not_suffix`); a new leaf is found by the walks through its entry (`walk_leaf`), and a new
child without entries by its own path (`walk_child`, `walk_below`), which keeps the paths unique
(`Distinct.child`).
-/

namespace Hallucinate.Lib.Radix

/-- What an entry is. -/
inductive Slot (N : Type)
  | empty
  | leaf
  | child (n : N)

/-- Where a walk ends. -/
inductive Found (N E : Type)
  | node (n : N)
  | leaf (h : Nat) (e : E)
  | nothing

variable {N I E : Type}

/-- One step of a walk, from a node of height `h`. -/
def step (dec : Nat → E → Slot N) (get : N → I → E) (h : Nat) (i : I) : Found N E → Found N E
  | .node n =>
    match dec h (get n i) with
    | .empty => .nothing
    | .leaf => .leaf h (get n i)
    | .child m => .node m
  | r => r

/-- The walk along a path from the root, a node of height `top`. -/
def walk (dec : Nat → E → Slot N) (get : N → I → E) (top : Nat) (root : N) : List I → Found N E
  | [] => .node root
  | i :: p => step dec get (top - p.length) i (walk dec get top root p)

/-- No node is on two paths. -/
def Distinct (dec : Nat → E → Slot N) (get : N → I → E) (top : Nat) (root : N) : Prop :=
  ∀ p q n, walk dec get top root p = .node n → walk dec get top root q = .node n → p = q

variable {p q : List I}

section

variable {dec : Nat → E → Slot N} {get get' : N → I → E} {top : Nat} {root n₀ : N} {i₀ : I}
  {p₀ : List I}

/-- A walk that has ended stays where it is. -/
theorem walk_append_of_leaf {h : Nat} {e : E} (hp : walk dec get top root p = .leaf h e)
    (r : List I) : walk dec get top root (r ++ p) = .leaf h e := by
  induction r with
  | nil => exact hp
  | cons i r ih =>
    rw [List.cons_append, walk, ih]
    rfl

theorem walk_append_of_nothing (hp : walk dec get top root p = .nothing) (r : List I) :
    walk dec get top root (r ++ p) = .nothing := by
  induction r with
  | nil => exact hp
  | cons i r ih =>
    rw [List.cons_append, walk, ih]
    rfl

/-- The way to a node is along nodes. -/
theorem walk_tail {i : I} {n : N} (h : walk dec get top root (i :: p) = .node n) :
    ∃ m, walk dec get top root p = .node m ∧ dec (top - p.length) (get m i) = .child n := by
  rw [walk] at h
  cases hp : walk dec get top root p with
  | node m =>
    rw [hp, step] at h
    cases hd : dec (top - p.length) (get m i) with
    | child m' =>
      rw [hd] at h
      cases h
      exact ⟨m, rfl, hd⟩
    | empty =>
      rw [hd] at h
      cases h
    | leaf =>
      rw [hd] at h
      cases h
  | leaf h' e =>
    rw [hp] at h
    cases h
  | nothing =>
    rw [hp] at h
    cases h

/-- A walk sees the steps from nodes only. -/
theorem walk_congr (h : ∀ p n i, walk dec get top root p = .node n →
    step dec get' (top - p.length) i (.node n) = step dec get (top - p.length) i (.node n))
    (q : List I) : walk dec get' top root q = walk dec get top root q := by
  induction q with
  | nil => rfl
  | cons i p ih =>
    rw [walk, walk, ih]
    cases hp : walk dec get top root p with
    | node n => exact h p n i hp
    | leaf => rfl
    | nothing => rfl

theorem not_suffix_self (i : I) (p : List I) : ¬(i :: p) <:+ p := fun h => by
  have hle := h.length_le
  rw [List.length_cons] at hle
  omega

/-- Below a node without entries there is nothing. -/
theorem walk_below {m : N} (hp : walk dec get top root p = .node m)
    (hempty : ∀ h i, dec h (get m i) = .empty) (hq : p <:+ q) (hne : q ≠ p) :
    walk dec get top root q = .nothing := by
  obtain ⟨r, rfl⟩ := hq
  rcases List.eq_nil_or_concat r with rfl | ⟨r, i, rfl⟩
  · exact absurd rfl hne
  · rw [List.concat_eq_append, List.append_assoc]
    refine walk_append_of_nothing ?_ r
    rw [List.singleton_append, walk, hp, step, hempty]

section Write

variable (hd : Distinct dec get top root) (hp₀ : walk dec get top root p₀ = .node n₀)
  (hget : ∀ p n i, walk dec get top root p = .node n → ¬(n = n₀ ∧ i = i₀) → get' n i = get n i)

include hd hp₀ hget

/-- **A write to one entry** does not change the walks that avoid it. -/
theorem walk_of_not_suffix (hq : ¬(i₀ :: p₀) <:+ q) :
    walk dec get' top root q = walk dec get top root q := by
  induction q with
  | nil => rfl
  | cons i p ih =>
    have hp : ¬(i₀ :: p₀) <:+ p := fun h => hq (h.trans (List.suffix_cons i p))
    rw [walk, walk, ih hp]
    cases hw : walk dec get top root p with
    | node n =>
      rw [step, step, hget p n i hw]
      rintro ⟨rfl, rfl⟩
      exact hq (hd p p₀ n hw hp₀ ▸ List.suffix_rfl)
    | leaf => rfl
    | nothing => rfl

/-- **A new leaf** is found by the walks through its entry. -/
theorem walk_leaf (hleaf : dec (top - p₀.length) (get' n₀ i₀) = .leaf) (hq : (i₀ :: p₀) <:+ q) :
    walk dec get' top root q = .leaf (top - p₀.length) (get' n₀ i₀) := by
  obtain ⟨r, rfl⟩ := hq
  refine walk_append_of_leaf ?_ r
  rw [walk, walk_of_not_suffix hd hp₀ hget (not_suffix_self i₀ p₀), hp₀, step, hleaf]

variable {m : N} (hchild : dec (top - p₀.length) (get' n₀ i₀) = .child m)

include hchild

/-- **A new child** is found by its path. -/
theorem walk_child : walk dec get' top root (i₀ :: p₀) = .node m := by
  rw [walk, walk_of_not_suffix hd hp₀ hget (not_suffix_self i₀ p₀), hp₀, step, hchild]

/-- After a new child without entries, a path to a node is the child's or an old one. -/
theorem walk_node_child {n : N} (hempty : ∀ h i, dec h (get' m i) = .empty)
    (hq : walk dec get' top root q = .node n) :
    q = i₀ :: p₀ ∧ n = m ∨ walk dec get top root q = .node n := by
  by_cases hs : (i₀ :: p₀) <:+ q
  · by_cases heq : q = i₀ :: p₀
    · rw [heq, walk_child hd hp₀ hget hchild] at hq
      cases hq
      exact .inl ⟨heq, rfl⟩
    · rw [walk_below (walk_child hd hp₀ hget hchild) hempty hs heq] at hq
      cases hq
  · rw [walk_of_not_suffix hd hp₀ hget hs] at hq
    exact .inr hq

/-- A child that was not a node yet keeps the paths unique, where there was nothing before. -/
theorem Distinct.child (hempty : ∀ h i, dec h (get' m i) = .empty)
    (hnew : ∀ p, walk dec get top root p ≠ .node m) : Distinct dec get' top root := by
  intro p q n hp hq
  rcases walk_node_child hd hp₀ hget hchild hempty hp with ⟨rfl, rfl⟩ | hp'
  · rcases walk_node_child hd hp₀ hget hchild hempty hq with ⟨rfl, -⟩ | hq'
    · rfl
    · exact absurd hq' (hnew q)
  · rcases walk_node_child hd hp₀ hget hchild hempty hq with ⟨-, rfl⟩ | hq'
    · exact absurd hp' (hnew p)
    · exact hd p q n hp' hq'

end Write

end

end Hallucinate.Lib.Radix
