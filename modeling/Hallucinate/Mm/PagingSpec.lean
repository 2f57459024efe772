import Hallucinate.Lib.Radix
import Hallucinate.Mm.Paging
import Mathlib

/-!
# What mapping a page does

The page tables of an address space are a radix tree in memory (`find`, an instance of
`Lib.Radix.walk`): the nodes are frames, and the leaves are page table entries or 2 MiB page directory
entries. `find top` sees the first `top` entries of the PML4 only, so that `top = 256` is the user half.
-/

namespace Hallucinate.Mm

open Lib Lib.Radix List

variable {s s' : Machine} {top root : Nat}

/-! ## The frame allocator -/

/-- The frame at the address of a frame. -/
theorem frame_div (n : Nat) : n * 4096 / 4096 = n := Nat.mul_div_cancel n (by decide)

/-- An allocator whose frames fit page table entries and that does not hand out frame 0, which
`pmm_init` reserves and `pmm_alloc_frame` uses for failure. -/
structure Ready (p : Pmm) : Prop where
  exact : Exact p
  small : p.nframes ≤ 2 ^ 40
  zero : 0 ∉ p.freeSet

theorem Ready.lt (h : Ready s.pmm) {f : Nat} (hf : f ∈ s.pmm.freeSet) : f < 2 ^ 40 :=
  lt_of_lt_of_le (Pmm.mem_freeSet.mp hf).1 h.small

/-- **`pmm_alloc_frame`** takes a free frame, if there is one. -/
theorem pmmAllocFrame_spec (h : Ready s.pmm) :
    (s.pmm.freeSet = ∅ ∧ pmmAllocFrame s = (0, s)) ∨
      ∃ f ∈ s.pmm.freeSet, f ≠ 0 ∧ ∃ p, pmmAllocFrame s = (f * 4096, { s with pmm := p }) ∧ Ready p ∧
        p.nframes = s.pmm.nframes ∧ p.freeSet = s.pmm.freeSet.erase f := by
  have hn := h.small
  have hhint := h.exact.hint
  unfold pmmAllocFrame
  rcases h.exact.alloc (by omega) (fun hne => by have := hhint hne; omega) with ⟨he, hex⟩ | ⟨f, hf, hex⟩
  · rw [hex]
    exact .inl ⟨he, rfl⟩
  · have hlt := h.lt hf
    have hset := freeSet_handed s.pmm f
    rw [hex, toInt64_of_lt (by omega)]
    refine .inr ⟨f, hf, fun h0 => h.zero (h0 ▸ hf), s.pmm.handed f, ?_,
      ⟨h.exact.handed hf, h.small, ?_⟩, rfl, hset⟩
    · show (if (f : Int) < 0 then 0 else (f : Int).toNat * 4096 % 2 ^ 64, _) = _
      rw [if_neg (by omega), Int.toNat_natCast, Nat.mod_eq_of_lt (by omega)]
    · rw [hset]
      exact fun h0 => h.zero (Finset.mem_of_mem_erase h0)

/-! ## Bits -/

theorem has_two_pow (e k : Nat) : has e (2 ^ k) = e.testBit k := by
  unfold has
  rw [Nat.and_two_pow]
  cases e.testBit k <;> simp

theorem testBit_mask (k : Nat) : pteAddrMask.testBit k = (decide (12 ≤ k) && decide (k < 52)) := by
  rw [show pteAddrMask = (2 ^ 40 - 1) * 2 ^ 12 from rfl, Nat.testBit_mul_two_pow,
    Nat.testBit_two_pow_sub_one]
  by_cases h : 12 ≤ k
  · simp only [h, decide_true, Bool.true_and, decide_eq_decide]
    omega
  · simp [h]

theorem testBit_pteAddr (e k : Nat) :
    (pteAddr e).testBit k = (e.testBit k && (decide (12 ≤ k) && decide (k < 52))) := by
  rw [pteAddr, Nat.testBit_and, testBit_mask]

theorem pteAddr_or (a b : Nat) : pteAddr (a ||| b) = pteAddr a ||| pteAddr b := by
  unfold pteAddr
  exact Nat.and_or_distrib_right a b pteAddrMask

/-- A physical address of at most 52 bits, of a page, is its own address field. -/
theorem pteAddr_of_lt {f : Nat} (h : f < 2 ^ 40) : pteAddr (f * 4096) = f * 4096 := by
  refine Nat.eq_of_testBit_eq fun k => ?_
  rw [testBit_pteAddr, show 4096 = 2 ^ 12 from rfl, Nat.testBit_mul_two_pow]
  by_cases hk : 12 ≤ k
  · by_cases hlt : k < 52
    · simp [hk, hlt]
    · have hbit : f.testBit (k - 12) = false := Nat.testBit_lt_two_pow
        (lt_of_lt_of_le h (Nat.pow_le_pow_right (by decide) (by omega)))
      simp [hk, hlt, hbit]
  · simp [hk]

theorem pteAddr_aligned (e : Nat) : pteAddr e / 4096 * 4096 = pteAddr e := by
  refine Nat.eq_of_testBit_eq fun k => ?_
  rw [show 4096 = 2 ^ 12 from rfl, Nat.testBit_mul_two_pow, Nat.testBit_div_two_pow, testBit_pteAddr,
    testBit_pteAddr]
  by_cases hk : 12 ≤ k
  · rw [Nat.sub_add_cancel hk]
    simp [hk]
  · simp [hk]

theorem pteAddr_lt (e : Nat) : pteAddr e < 2 ^ 52 := by
  refine Nat.lt_pow_two_of_testBit _ fun k hk => ?_
  rw [testBit_pteAddr]
  simp [show ¬k < 52 by omega]

/-- What an entry of a table of height `h` is: a table of height 0 holds pages, one of height 1 may
hold 2 MiB pages. -/
def decode : Nat → Nat → Slot Nat
  | 0, e => if has e pteP then .leaf else .empty
  | 1, e => if has e pteP then if has e ptePS then .leaf else .child (pteAddr e / 4096) else .empty
  | _, e => if has e pteP then .child (pteAddr e / 4096) else .empty

theorem decode_zero (h : Nat) : decode h 0 = .empty := by
  match h with
  | 0 => rfl
  | 1 => rfl
  | _ + 2 => rfl

variable {h e : Nat}

theorem decode_absent (he : has e pteP = false) : decode h e = .empty := by
  match h with
  | 0 => simp [decode, he]
  | 1 => simp [decode, he]
  | _ + 2 => simp [decode, he]

theorem decode_eq_empty (hd : decode h e = .empty) : has e pteP = false := by
  cases hP : has e pteP with
  | false => rfl
  | true =>
    match h with
    | 0 => simp [decode, hP] at hd
    | 1 => cases hPS : has e ptePS <;> simp [decode, hP, hPS] at hd
    | _ + 2 => simp [decode, hP] at hd

variable {m : Nat}

theorem decode_eq_child (hd : decode h e = .child m) : m = pteAddr e / 4096 := by
  cases hP : has e pteP with
  | false =>
    rw [decode_absent hP] at hd
    cases hd
  | true =>
    match h with
    | 0 => simp [decode, hP] at hd
    | 1 =>
      cases hPS : has e ptePS with
      | false => simpa [decode, hP, hPS, eq_comm] using hd
      | true => simp [decode, hP, hPS] at hd
    | _ + 2 => simpa [decode, hP, eq_comm] using hd

theorem decode_eq_leaf (hP : has e pteP = true) (hl : h = 0 ∨ h = 1 ∧ has e ptePS = true) :
    decode h e = .leaf := by
  rcases hl with rfl | ⟨rfl, hPS⟩
  · simp [decode, hP]
  · simp [decode, hP, hPS]

theorem decode_eq_link (hP : has e pteP = true) (hl : ¬(h = 0 ∨ h = 1 ∧ has e ptePS = true)) :
    decode h e = .child (pteAddr e / 4096) := by
  match h with
  | 0 => exact absurd (.inl rfl) hl
  | 1 =>
    have hPS : has e ptePS = false := Bool.not_eq_true _ ▸ fun hPS => hl (.inr ⟨rfl, hPS⟩)
    simp [decode, hP, hPS]
  | _ + 2 => simp [decode, hP]

variable {user : Nat}

/-- A link to a table. -/
theorem decode_table {f : Nat} (hh : 1 ≤ h) (hf : f < 2 ^ 40) (hu : user = 0 ∨ user = pteUS) :
    decode h (f * 4096 ||| (pteP ||| pteW) ||| user) = .child f := by
  have hbit : ∀ k, k < 12 → (f * 4096).testBit k = false := fun k hk => by
    rw [show 4096 = 2 ^ 12 from rfl, Nat.testBit_mul_two_pow]
    simp [show ¬12 ≤ k by omega]
  have hP : has (f * 4096 ||| (pteP ||| pteW) ||| user) pteP = true := by
    rw [pteP, has_two_pow, Nat.testBit_or, Nat.testBit_or]
    simp [pteW]
  have hPS : has (f * 4096 ||| (pteP ||| pteW) ||| user) ptePS = false := by
    rw [ptePS, has_two_pow, Nat.testBit_or, Nat.testBit_or, hbit 7 (by decide)]
    rcases hu with rfl | rfl <;> decide
  have hlow : pteAddr (pteP ||| pteW) = 0 ∧ pteAddr user = 0 := by
    rcases hu with rfl | rfl <;> decide
  have haddr : pteAddr (f * 4096 ||| (pteP ||| pteW) ||| user) / 4096 = f := by
    rw [pteAddr_or, pteAddr_or, hlow.1, hlow.2, Nat.or_zero, Nat.or_zero, pteAddr_of_lt hf,
      frame_div]
  match h with
  | 1 => simp [decode, hP, hPS, haddr]
  | _ + 2 => simp [decode, hP, haddr]

/-- The user bit of a link does not matter. -/
theorem decode_user (e : Nat) (hh : 1 ≤ h) : decode h (e ||| pteUS) = decode h e := by
  have hP : has (e ||| pteUS) pteP = has e pteP := by
    rw [pteP, has_two_pow, has_two_pow, Nat.testBit_or, show pteUS.testBit 0 = false by decide,
      Bool.or_false]
  have hPS : has (e ||| pteUS) ptePS = has e ptePS := by
    rw [ptePS, has_two_pow, has_two_pow, Nat.testBit_or, show pteUS.testBit 7 = false by decide,
      Bool.or_false]
  have haddr : pteAddr (e ||| pteUS) = pteAddr e := by
    rw [pteAddr_or, show pteAddr pteUS = 0 by decide, Nat.or_zero]
  match h with
  | 1 => simp [decode, hP, hPS, haddr]
  | _ + 2 => simp [decode, hP, haddr]

/-! ## Words of memory -/

/-- Word `i` of frame `n`. -/
def Machine.word (s : Machine) (n i : Nat) : Nat := rd (s.mem n) (8 * i) 8

theorem Machine.entry_frame (s : Machine) (n i : Nat) : s.entry (n * 4096) i = s.word n i := by
  rw [Machine.entry, frame_div, Machine.word]

variable {n : Nat}

theorem Machine.setPage_mem_ne {paddr : Nat} {page : Bytes} (h : n ≠ paddr / 4096) :
    (s.setPage paddr page).mem n = s.mem n := Function.update_of_ne h ..

theorem Machine.setFrame_ne {page : Bytes} (h : n ≠ m) :
    (s.setPage (m * 4096) page).mem n = s.mem n := Machine.setPage_mem_ne (by rwa [frame_div])

theorem Machine.setFrame_self (n : Nat) (page : Bytes) : (s.setPage (n * 4096) page).mem n = page := by
  rw [Machine.setPage, frame_div]
  exact Function.update_self ..

theorem Machine.word_congr (h : s'.mem n = s.mem n) (i : Nat) : s'.word n i = s.word n i := by
  rw [Machine.word, h, Machine.word]

variable {i : Nat}

variable {v : Nat}

theorem Machine.word_setEntry (hv : v < 2 ^ 64) (m j : Nat) :
    (s.setEntry (n * 4096) i v).word m j = if m = n ∧ j = i then v else s.word m j := by
  by_cases hm : m = n
  · subst hm
    rw [Machine.word, Machine.setEntry, Machine.setFrame_self, frame_div]
    by_cases hj : j = i
    · rw [if_pos ⟨rfl, hj⟩, hj, rd_wr]
      exact Nat.mod_eq_of_lt hv
    · rw [if_neg fun h => hj h.2, rd_wr_of_disjoint (by omega), Machine.word]
  · rw [if_neg fun h => hm h.1]
    exact Machine.word_congr (Machine.setFrame_ne hm) j

theorem Machine.word_zeroPage (hi : i < 512) : (s.zeroPage (n * 4096)).word n i = 0 := by
  rw [Machine.word, Machine.zeroPage, Machine.setFrame_self]
  exact rd_zero _ _ _ fun j h1 h2 => fill_of_mem (Nat.zero_le j) (by omega)

/-! ## The tree of tables -/

/-- The entries of the tables; of the PML4 the first `top`. -/
def view (top root : Nat) (s : Machine) (n i : Nat) : Nat :=
  if 512 ≤ i ∨ n = root ∧ top ≤ i then 0 else s.word n i

/-- Where the walk along a path ends. -/
def find (top root : Nat) (s : Machine) : List Nat → Found Nat Nat :=
  walk decode (view top root s) 3 root

/-- Entry `i` of the table `n` is one of the view. -/
def Seen (top root n i : Nat) : Prop := i < 512 ∧ (n = root → i < top)

theorem view_of_seen (h : Seen top root n i) : view top root s n i = s.word n i := by
  refine if_neg ?_
  rintro (hi | ⟨hn, ht⟩)
  · exact absurd h.1 (by omega)
  · exact absurd (h.2 hn) (by omega)

theorem view_congr (h : s'.word n i = s.word n i) : view top root s' n i = view top root s n i := by
  unfold view
  rw [h]

theorem view_setEntry_self (h : Seen top root n i) (hv : v < 2 ^ 64) :
    view top root (s.setEntry (n * 4096) i v) n i = v := by
  rw [view_of_seen h, Machine.word_setEntry hv, if_pos ⟨rfl, rfl⟩]

theorem view_setEntry_ne (hv : v < 2 ^ 64) {j : Nat} (hne : ¬(m = n ∧ j = i)) :
    view top root (s.setEntry (n * 4096) i v) m j = view top root s m j :=
  view_congr (by rw [Machine.word_setEntry hv, if_neg hne])

variable {p : List Nat}

theorem find_cons (hp : find top root s p = .node n) :
    find top root s (i :: p) = step decode (view top root s) (3 - p.length) i (.node n) := by
  have hw : Radix.walk decode (view top root s) 3 root p = .node n := hp
  rw [find, Radix.walk, hw]

/-- Tables are three steps from the PML4 at most. -/
theorem find_length (hp : find top root s p = .node n) : p.length ≤ 3 := by
  cases p with
  | nil => exact Nat.zero_le 3
  | cons i p =>
    obtain ⟨m, -, hd⟩ := walk_tail hp
    by_contra hlong
    rw [length_cons] at hlong
    rw [show 3 - p.length = 0 by omega, decode] at hd
    split at hd <;> cases hd

variable {q : List Nat}

/-- Past the end of a walk there is what ended it. -/
theorem find_nothing (hpq : p <:+ q) (hp : find top root s p = .nothing) :
    find top root s q = .nothing := by
  obtain ⟨r, rfl⟩ := hpq
  exact walk_append_of_nothing hp r

theorem find_leaf (hpq : p <:+ q) {h e : Nat} (hp : find top root s p = .leaf h e) :
    find top root s q = .leaf h e := by
  obtain ⟨r, rfl⟩ := hpq
  exact walk_append_of_leaf hp r

/-- A leaf is a present entry of the table before it, or was passed before. -/
theorem find_cons_leaf {h e : Nat} (hp : find top root s (i :: p) = .leaf h e) :
    (∃ n, find top root s p = .node n ∧ h = 3 - p.length ∧ has e pteP = true) ∨
      find top root s p = .leaf h e := by
  cases hq : find top root s p with
  | node n =>
    rw [find_cons hq, step] at hp
    cases hd : decode (3 - p.length) (view top root s n i) with
    | empty => rw [hd] at hp; cases hp
    | child m => rw [hd] at hp; cases hp
    | leaf =>
      rw [hd] at hp
      cases hp
      refine .inl ⟨n, rfl, rfl, ?_⟩
      by_contra hP
      rw [decode_absent (Bool.not_eq_true _ ▸ hP)] at hd
      cases hd
  | leaf k e' => exact .inr ((find_leaf (suffix_cons i p) hq).symm.trans hp)
  | nothing =>
    rw [find_nothing (suffix_cons i p) hq] at hp
    cases hp

/-- There is nothing behind an entry outside the view. -/
theorem find_outside (hp : find top root s p = .node n) (hi : ¬Seen top root n i) :
    find top root s (i :: p) = .nothing := by
  have hview : view top root s n i = 0 := by
    rw [view, if_pos]
    by_contra hin
    rw [not_or, not_and, not_le, not_le] at hin
    exact hi hin
  rw [find_cons hp, step, hview, decode_zero]

/-- **An address space**: its tables are distinct frames that are in use. -/
structure Space (top root : Nat) (s : Machine) : Prop where
  distinct : ∀ p q n, find top root s p = .node n → find top root s q = .node n → p = q
  used : ∀ p n, find top root s p = .node n → n ≠ 0 ∧ n < s.pmm.nframes ∧ n ∉ s.pmm.freeSet

section Bare

variable {f : Nat}

/-- In a PML4 without entries nothing is found. -/
theorem find_of_zero (hzero : ∀ i < 512, i < top → s.word f i = 0) (p : List Nat) (hp : p ≠ []) :
    find top f s p = .nothing := by
  have hempty : ∀ k i, decode k (view top f s f i) = .empty := fun k i => by
    have hview : view top f s f i = 0 := by
      unfold view
      by_cases hi : 512 ≤ i ∨ f = f ∧ top ≤ i
      · rw [if_pos hi]
      · rw [if_neg hi, hzero i (by omega) (by omega)]
    rw [hview, decode_zero]
  have hroot : find top f s [] = .node f := rfl
  exact walk_below hroot hempty nil_suffix hp

variable (hbare : ∀ p, p ≠ [] → find top f s p = .nothing)

include hbare

theorem node_of_bare (hp : find top f s p = .node n) : p = [] ∧ n = f := by
  by_cases hne : p = []
  · subst hne
    cases hp
    exact ⟨rfl, rfl⟩
  · rw [hbare p hne] at hp
    cases hp

theorem not_leaf_of_bare (p : List Nat) (h e : Nat) : find top f s p ≠ .leaf h e := fun hp => by
  by_cases hne : p = []
  · subst hne
    cases hp
  · rw [hbare p hne] at hp
    cases hp

theorem Space.of_bare (hf : f ≠ 0 ∧ f < s.pmm.nframes ∧ f ∉ s.pmm.freeSet) : Space top f s := by
  refine ⟨fun p q n hp hq => ?_, fun p n hp => ?_⟩
  · rw [(node_of_bare hbare hp).1, (node_of_bare hbare hq).1]
  · rw [(node_of_bare hbare hp).2]
    exact hf

end Bare

/-- The address space after tables were added to it: nothing else has changed. -/
structure Grew (top root : Nat) (s s' : Machine) : Prop where
  space : Space top root s'
  ready : Ready s'.pmm
  nframes : s'.pmm.nframes = s.pmm.nframes
  nodes : ∀ p n, find top root s p = .node n → find top root s' p = .node n
  leaves : ∀ p h e, find top root s' p = .leaf h e ↔ find top root s p = .leaf h e
  mem : ∀ f, (∀ p, find top root s' p ≠ .node f) → s'.mem f = s.mem f
  free : ∀ f, f ∈ s'.pmm.freeSet ↔ f ∈ s.pmm.freeSet ∧ ∀ p, find top root s' p ≠ .node f
  taken : ∀ p f, find top root s' p = .node f → find top root s p = .node f ∨ f ∈ s.pmm.freeSet

theorem Grew.of_find (h : Space top root s) (hr : Ready s.pmm) (hpmm : s'.pmm = s.pmm)
    (hfind : ∀ p, find top root s' p = find top root s p)
    (hmem : ∀ f, (∀ p, find top root s p ≠ .node f) → s'.mem f = s.mem f) : Grew top root s s' := by
  refine ⟨⟨fun p q n hp hq => ?_, fun p n hp => ?_⟩, hpmm ▸ hr, by rw [hpmm], fun p n hp => ?_,
    fun p h e => by rw [hfind], fun f hf => hmem f fun p => by rw [← hfind]; exact hf p, fun f => ?_,
    fun p f hp => .inl (by rw [← hfind]; exact hp)⟩
  · rw [hfind] at hp hq
    exact h.distinct p q n hp hq
  · rw [hfind] at hp
    rw [hpmm]
    exact h.used p n hp
  · rw [hfind]
    exact hp
  · rw [hpmm]
    refine ⟨fun hf => ⟨hf, fun p hp => ?_⟩, And.left⟩
    rw [hfind] at hp
    exact (h.used p f hp).2.2 hf

theorem Grew.refl (h : Space top root s) (hr : Ready s.pmm) : Grew top root s s :=
  Grew.of_find h hr rfl (fun _ => rfl) fun _ _ => rfl

theorem Grew.trans {s'' : Machine} (h : Grew top root s s') (h' : Grew top root s' s'') :
    Grew top root s s'' := by
  refine ⟨h'.space, h'.ready, h'.nframes.trans h.nframes, fun p n hp => h'.nodes p n (h.nodes p n hp),
    fun p k e => (h'.leaves p k e).trans (h.leaves p k e), fun f hf => ?_, fun f => ?_,
    fun p f hp => ?_⟩
  · rw [h'.mem f hf, h.mem f fun p hp => hf p (h'.nodes p f hp)]
  · rw [h'.free, h.free]
    exact ⟨fun hf => ⟨hf.1.1, hf.2⟩, fun hf => ⟨⟨hf.1, fun p hp => hf.2 p (h'.nodes p f hp)⟩, hf.2⟩⟩
  · rcases h'.taken p f hp with hp' | hf
    · exact h.taken p f hp'
    · exact .inr ((h.free f).mp hf).1

/-- What is found afterwards was not there, or is found where it was. -/
theorem Grew.nothing (h : Grew top root s s') (hp : find top root s' p = .nothing) :
    find top root s p = .nothing := by
  cases hq : find top root s p with
  | node n =>
    rw [h.nodes p n hq] at hp
    cases hp
  | leaf k e =>
    rw [(h.leaves p k e).mpr hq] at hp
    cases hp
  | nothing => rfl

/-! ## `next_table` -/

/-- A present entry that is no leaf is a link. -/
theorem find_present (hp : find top root s p = .node n) (hseen : Seen top root n i)
    (hhas : has (s.word n i) pteP = true) (hleaf : ∀ h e, find top root s (i :: p) ≠ .leaf h e) :
    find top root s (i :: p) = .node (pteAddr (s.word n i) / 4096) := by
  have hcons := find_cons (i := i) hp
  rw [step, view_of_seen hseen] at hcons
  cases hd : decode (3 - p.length) (s.word n i) with
  | empty =>
    rw [decode_eq_empty hd] at hhas
    cases hhas
  | leaf =>
    rw [hd] at hcons
    exact absurd hcons (hleaf _ _)
  | child m =>
    rw [hd] at hcons
    rw [hcons, decode_eq_child hd]

theorem find_absent (hp : find top root s p = .node n) (hseen : Seen top root n i)
    (hhas : has (s.word n i) pteP = false) : find top root s (i :: p) = .nothing := by
  rw [find_cons hp, step, view_of_seen hseen, decode_absent hhas]

/-- Marking a link for user access changes no walk. -/
theorem Space.grew_user (h : Space top root s) (hr : Ready s.pmm) (hp : find top root s p = .node n)
    (hlen : p.length < 3) (hseen : Seen top root n i)
    (hleaf : ∀ k e, find top root s (i :: p) ≠ .leaf k e) :
    Grew top root s (s.setEntry (n * 4096) i (s.word n i ||| pteUS)) := by
  have hv : s.word n i ||| pteUS < 2 ^ 64 := Nat.or_lt_two_pow (rd_lt ..) (by decide)
  refine Grew.of_find h hr rfl (fun q => walk_congr (fun p' n' i' hp' => ?_) q) fun f hf => ?_
  · by_cases heq : n' = n ∧ i' = i
    · obtain ⟨rfl, rfl⟩ := heq
      obtain rfl := h.distinct p' p n' hp' hp
      have hd := decode_user (s.word n' i') (show 1 ≤ 3 - p'.length by omega)
      rw [step, step, view_setEntry_self hseen hv, view_of_seen hseen, hd]
      cases hslot : decode (3 - p'.length) (s.word n' i') with
      | empty => rfl
      | child m => rfl
      | leaf =>
        refine absurd ?_ (hleaf (3 - p'.length) (s.word n' i'))
        rw [find_cons hp', step, view_of_seen hseen, hslot]
    · rw [step, step, view_setEntry_ne hv heq]
  · exact Machine.setFrame_ne fun hfn => hf p (hfn ▸ hp)

theorem Ready.tableEntry_lt (hr : Ready s.pmm) {f : Nat} (hf : f ∈ s.pmm.freeSet)
    (hu : user = 0 ∨ user = pteUS) : f * 4096 ||| (pteP ||| pteW) ||| user < 2 ^ 64 := by
  have hf40 := hr.lt hf
  refine Nat.or_lt_two_pow (Nat.or_lt_two_pow (by omega) (by decide)) ?_
  rcases hu with rfl | rfl <;> decide

/-- A fresh, empty table in an absent entry. -/
theorem Space.grew_table (h : Space top root s) (hr : Ready s.pmm) {f : Nat} {pmm : Pmm}
    (hp : find top root s p = .node n) (hlen : p.length < 3) (hseen : Seen top root n i)
    (hhas : has (s.word n i) pteP = false) (hu : user = 0 ∨ user = pteUS) (hf : f ∈ s.pmm.freeSet)
    (hf0 : f ≠ 0) (hready : Ready pmm) (hn : pmm.nframes = s.pmm.nframes)
    (hset : pmm.freeSet = s.pmm.freeSet.erase f) :
    let s' := (({ s with pmm := pmm } : Machine).zeroPage (f * 4096)).setEntry (n * 4096) i
      (f * 4096 ||| (pteP ||| pteW) ||| user)
    Grew top root s s' ∧ find top root s' (i :: p) = .node f := by
  intro s'
  have hnew : ∀ q, find top root s q ≠ .node f := fun q hq => (h.used q f hq).2.2 hf
  have hnf : n ≠ f := fun hnf => hnew p (hnf ▸ hp)
  have hv := hr.tableEntry_lt hf hu
  have hget : ∀ q m j, find top root s q = .node m → ¬(m = n ∧ j = i) →
      view top root s' m j = view top root s m j := fun q m j hq hne =>
    (view_setEntry_ne hv hne).trans (view_congr (Machine.word_congr
      (Machine.setFrame_ne fun hmf : m = f => hnew q (hmf ▸ hq)) j))
  have hchild : decode (3 - p.length) (view top root s' n i) = .child f := by
    rw [view_setEntry_self hseen hv]
    exact decode_table (by omega) (hr.lt hf) hu
  have hempty : ∀ k j, decode k (view top root s' f j) = .empty := fun k j => by
    have hzero : view top root s' f j = 0 := by
      rw [view_setEntry_ne hv fun hfn => hnf hfn.1.symm, view]
      split
      · rfl
      · exact Machine.word_zeroPage (by omega)
    rw [hzero, decode_zero]
  have hfound : find top root s' (i :: p) = .node f := walk_child h.distinct hp hget hchild
  have hback : ∀ q m, find top root s' q = .node m →
      q = i :: p ∧ m = f ∨ find top root s q = .node m :=
    fun q m hq => walk_node_child h.distinct hp hget hchild hempty hq
  have hnone := find_absent hp hseen hhas
  have hsame : ∀ q, ¬(i :: p) <:+ q → find top root s' q = find top root s q :=
    fun q hq => walk_of_not_suffix h.distinct hp hget hq
  -- below the entry there was nothing, and now there is one table
  have hold : ∀ q, (i :: p) <:+ q → find top root s q = .nothing := fun q hq => find_nothing hq hnone
  have hnodes : ∀ q m, find top root s q = .node m → find top root s' q = .node m := fun q m hq => by
    rw [hsame q fun hs => by rw [hold q hs] at hq; cases hq]
    exact hq
  have hfree : ∀ g, g ∈ pmm.freeSet ↔ g ∈ s.pmm.freeSet ∧ ∀ q, find top root s' q ≠ .node g := by
    intro g
    rw [hset, Finset.mem_erase]
    constructor
    · rintro ⟨hgf, hg⟩
      refine ⟨hg, fun q hq => ?_⟩
      rcases hback q g hq with ⟨-, rfl⟩ | hq'
      · exact hgf rfl
      · exact (h.used q g hq').2.2 hg
    · rintro ⟨hg, hno⟩
      exact ⟨fun hgf => hno (i :: p) (hgf ▸ hfound), hg⟩
  refine ⟨⟨⟨?_, fun q m hq => ?_⟩, hready, hn, hnodes, fun q k e => ?_, fun g hg => ?_, hfree,
    fun q m hq => ?_⟩, hfound⟩
  · exact Distinct.child h.distinct hp hget hchild hempty hnew
  · refine ⟨?_, ?_, fun hm => ((hfree m).mp hm).2 q hq⟩
    · rcases hback q m hq with ⟨-, rfl⟩ | hq'
      · exact hf0
      · exact (h.used q m hq').1
    · show m < pmm.nframes
      rw [hn]
      rcases hback q m hq with ⟨-, rfl⟩ | hq'
      · exact (Pmm.mem_freeSet.mp hf).1
      · exact (h.used q m hq').2.1
  · by_cases hs : (i :: p) <:+ q
    · rw [hold q hs]
      refine ⟨fun hq => ?_, fun hq => nomatch hq⟩
      by_cases heq : q = i :: p
      · rw [heq, hfound] at hq
        cases hq
      · have hbelow : find top root s' q = .nothing := walk_below hfound hempty hs heq
        rw [hbelow] at hq
        cases hq
    · rw [hsame q hs]
  · exact (Machine.setFrame_ne fun hgn : g = n => hg p (hnodes p g (hgn ▸ hp))).trans
      (Machine.setFrame_ne fun hgf => hg (i :: p) (hgf ▸ hfound))
  · rcases hback q m hq with ⟨-, rfl⟩ | hq'
    · exact .inr hf
    · exact .inl hq'

/-- **`next_table`**, at an entry that is no leaf: it finds or adds the table below, or memory has run
out and nothing has changed. -/
theorem nextTable_spec (h : Space top root s) (hr : Ready s.pmm) (hp : find top root s p = .node n)
    (hlen : p.length < 3) (hseen : Seen top root n i) (hu : user = 0 ∨ user = pteUS)
    (hleaf : ∀ k e, find top root s (i :: p) ≠ .leaf k e) :
    (nextTable (n * 4096) i user s = (0, s) ∧ find top root s (i :: p) = .nothing ∧
        s.pmm.freeSet = ∅) ∨
      ∃ m s', nextTable (n * 4096) i user s = (m * 4096, s') ∧ m ≠ 0 ∧ Grew top root s s' ∧
        find top root s' (i :: p) = .node m := by
  rw [nextTable, Machine.entry_frame]
  by_cases hhas : has (s.word n i) pteP = true
  · have hfound := find_present hp hseen hhas hleaf
    have hused := h.used _ _ hfound
    rw [if_pos hhas]
    refine .inr ⟨pteAddr (s.word n i) / 4096, _, by rw [pteAddr_aligned], hused.1, ?_⟩
    by_cases hmark : user ≠ 0 ∧ has (s.word n i) pteUS = false
    · rw [if_pos hmark]
      have hgrew := h.grew_user hr hp hlen hseen hleaf
      exact ⟨hgrew, hgrew.nodes _ _ hfound⟩
    · rw [if_neg hmark]
      exact ⟨Grew.refl h hr, hfound⟩
  · rw [if_neg hhas]
    have habsent : has (s.word n i) pteP = false := Bool.not_eq_true _ ▸ hhas
    rcases pmmAllocFrame_spec hr with ⟨hempty, halloc⟩ | ⟨f, hf, hf0, pmm, halloc, hready, hn, hset⟩
    · rw [halloc]
      exact .inl ⟨rfl, find_absent hp hseen habsent, hempty⟩
    · rw [halloc]
      show ((if f * 4096 = 0 then _ else _) = _ ∧ _) ∨
        ∃ m s', (if f * 4096 = 0 then _ else _) = _ ∧ _
      rw [if_neg (by omega)]
      obtain ⟨hgrew, hfound⟩ := h.grew_table hr hp hlen hseen habsent hu hf hf0 hready hn hset
      exact .inr ⟨f, _, rfl, hf0, hgrew, hfound⟩

/-! ## `map_common` -/

/-- The first `k` indices of an address, the last one first. -/
def vpath (virt : Nat) : Nat → List Nat
  | 0 => []
  | k + 1 => indexAt virt (4 - k) :: vpath virt k

@[simp] theorem vpath_length (virt k : Nat) : (vpath virt k).length = k := by
  induction k with
  | zero => rfl
  | succ k ih => rw [vpath, length_cons, ih]

theorem vpath_suffix (virt : Nat) {j k : Nat} (h : j ≤ k) : vpath virt j <:+ vpath virt k := by
  induction k with
  | zero => rw [Nat.le_zero.mp h]
  | succ k ih =>
    rcases Nat.lt_or_eq_of_le h with hlt | rfl
    · exact (ih (by omega)).trans (suffix_cons ..)
    · exact suffix_rfl

/-- A walk that is no leaf has passed none. -/
theorem not_leaf_of_suffix (hpq : p <:+ q) (hq : ∀ h e, find top root s q ≠ .leaf h e) (h e : Nat) :
    find top root s p ≠ .leaf h e :=
  fun hp => hq h e (find_leaf hpq hp)

variable {virt : Nat}

/-- The entries an address selects are those of the view. -/
theorem Space.seen (hs : Space top root s) {k : Nat} (htop : indexAt virt 4 < top)
    (hp : find top root s (vpath virt k) = .node n) : Seen top root n (indexAt virt (4 - k)) := by
  refine ⟨Nat.mod_lt _ (by decide), ?_⟩
  rintro rfl
  have hnil : vpath virt k = [] := hs.distinct _ [] n hp rfl
  have hk : k = 0 := by rw [← vpath_length virt k, hnil, length_nil]
  rw [hk]
  exact htop

/-- **The descent** adds the tables on the way, where no leaf is in it. -/
theorem descend_spec (htop : indexAt virt 4 < top) (hu : user = 0 ∨ user = pteUS) (j : Nat) :
    ∀ {s : Machine} {k n : Nat}, Space top root s → Ready s.pmm → k + j ≤ 3 → n ≠ 0 →
      find top root s (vpath virt k) = .node n →
      (∀ h e, find top root s (vpath virt (k + j)) ≠ .leaf h e) →
      ∃ s', Grew top root s s' ∧
        ((descend virt user ((List.range' k j).map (4 - ·)) (n * 4096) s = (0, s') ∧
            find top root s (vpath virt (k + j)) = .nothing ∧ s'.pmm.freeSet = ∅) ∨
          ∃ m, m ≠ 0 ∧ find top root s' (vpath virt (k + j)) = .node m ∧
            descend virt user ((List.range' k j).map (4 - ·)) (n * 4096) s = (m * 4096, s')) := by
  induction j with
  | zero =>
    intro s k n hs hr _ hn hp _
    exact ⟨s, Grew.refl hs hr, .inr ⟨n, hn, hp, rfl⟩⟩
  | succ j ih =>
    intro s k n hs hr hkj hn hp hleaf
    have hstep : vpath virt (k + 1) <:+ vpath virt (k + (j + 1)) := vpath_suffix virt (by omega)
    have hspec := nextTable_spec hs hr hp (by rw [vpath_length]; omega) (hs.seen htop hp) hu
      (not_leaf_of_suffix hstep hleaf)
    rw [range'_succ, map_cons, descend]
    rcases hspec with ⟨hzero, hnone, hempty⟩ | ⟨m, s₁, hnext, hm, hgrew, hfound⟩
    · rw [hzero]
      exact ⟨s, Grew.refl hs hr, .inl ⟨rfl, find_nothing hstep hnone, hempty⟩⟩
    · rw [hnext]
      show ∃ s', _ ∧ (((if m * 4096 = 0 then _ else _) = _ ∧ _) ∨
        ∃ m', _ ∧ _ ∧ (if m * 4096 = 0 then _ else _) = _)
      rw [if_neg (by omega)]
      have hleaf' : ∀ h e, find top root s₁ (vpath virt (k + 1 + j)) ≠ .leaf h e := fun h e hq => by
        rw [show k + 1 + j = k + (j + 1) by omega] at hq
        exact hleaf h e ((hgrew.leaves _ h e).mp hq)
      have hfound' : find top root s₁ (vpath virt (k + 1)) = .node m := hfound
      obtain ⟨s', hgrew', hrest⟩ := ih hgrew.space hgrew.ready (by omega) hm hfound' hleaf'
      rw [show k + 1 + j = k + (j + 1) by omega] at hrest
      refine ⟨s', hgrew.trans hgrew', ?_⟩
      rcases hrest with ⟨hzero, hnone, hempty⟩ | hfound''
      · exact .inl ⟨hzero, hgrew.nothing hnone, hempty⟩
      · exact .inr hfound''

/-- The entry that `map_common` writes. -/
def leafEntry (phys flags leafLevel : Nat) : Nat :=
  pteAddr phys ||| flags ||| (if leafLevel = 2 then ptePS else 0) ||| pteP

theorem has_leafEntry (phys flags leafLevel : Nat) : has (leafEntry phys flags leafLevel) pteP = true := by
  rw [leafEntry, pteP, has_two_pow, Nat.testBit_or]
  simp

variable {flags : Nat}

theorem leafEntry_lt (hf : flags < 2 ^ 64) (phys leafLevel : Nat) :
    leafEntry phys flags leafLevel < 2 ^ 64 := by
  have haddr : pteAddr phys < 2 ^ 64 := (pteAddr_lt phys).trans (by decide)
  refine Nat.or_lt_two_pow (Nat.or_lt_two_pow (Nat.or_lt_two_pow haddr hf) ?_) (by decide)
  split <;> decide

theorem decode_leafEntry {leafLevel : Nat} (hl : leafLevel = 1 ∨ leafLevel = 2) (phys flags : Nat) :
    decode (leafLevel - 1) (leafEntry phys flags leafLevel) = .leaf := by
  have hP := has_leafEntry phys flags leafLevel
  rcases hl with rfl | rfl
  · simp [decode, hP]
  · have hPS : has (leafEntry phys flags 2) ptePS = true := by
      rw [leafEntry, if_pos rfl, ptePS, has_two_pow, Nat.testBit_or, Nat.testBit_or,
        Nat.testBit_two_pow_self, Bool.or_true, Bool.true_or]
    simp [decode, hP, hPS]

/-- The address space after a page was mapped at a path. -/
structure Mapped (top root : Nat) (s s' : Machine) (p : List Nat) (h e : Nat) : Prop where
  space : Space top root s'
  pmm : s'.pmm = s.pmm
  free : find top root s p = .nothing
  leaf : ∀ q, p <:+ q → find top root s' q = .leaf h e
  same : ∀ q, ¬p <:+ q → find top root s' q = find top root s q
  mem : ∀ f, (∀ q, find top root s' q ≠ .node f) → s'.mem f = s.mem f

/-- The tables after a page was mapped are those of before. -/
theorem Mapped.node_iff {h e : Nat} (hmap : Mapped top root s s' p h e) (q : List Nat) (m : Nat) :
    find top root s' q = .node m ↔ find top root s q = .node m := by
  by_cases hs : p <:+ q
  · rw [hmap.leaf q hs, find_nothing hs hmap.free]
    exact ⟨fun h => (nomatch h), fun h => (nomatch h)⟩
  · rw [hmap.same q hs]

/-- The leaves are those of before and the new one. -/
theorem Mapped.leaf_iff {h e : Nat} (hmap : Mapped top root s s' p h e) (q : List Nat) (k e' : Nat) :
    find top root s' q = .leaf k e' ↔
      p <:+ q ∧ k = h ∧ e' = e ∨ find top root s q = .leaf k e' := by
  by_cases hs : p <:+ q
  · rw [hmap.leaf q hs, find_nothing hs hmap.free]
    simp [hs, eq_comm]
  · rw [hmap.same q hs]
    simp [hs]

section

variable (hs : Space top root s)
include hs

/-- **A leaf written to an absent entry.** -/
theorem Space.mapped (hp : find top root s p = .node n) (hseen : Seen top root n i)
    (hhas : has (s.word n i) pteP = false) (hv : v < 2 ^ 64)
    (hdec : decode (3 - p.length) v = .leaf) :
    Mapped top root s (s.setEntry (n * 4096) i v) (i :: p) (3 - p.length) v := by
  have hget : ∀ q m j, find top root s q = .node m → ¬(m = n ∧ j = i) →
      view top root (s.setEntry (n * 4096) i v) m j = view top root s m j := fun _ _ _ _ hne =>
    view_setEntry_ne hv hne
  have hval : view top root (s.setEntry (n * 4096) i v) n i = v := view_setEntry_self hseen hv
  have hleaf : ∀ q, (i :: p) <:+ q → find top root (s.setEntry (n * 4096) i v) q =
      .leaf (3 - p.length) v := fun q hq => by
    have hwalk := walk_leaf hs.distinct hp hget (by rw [hval]; exact hdec) hq
    rw [hval] at hwalk
    exact hwalk
  have hsame : ∀ q, ¬(i :: p) <:+ q → find top root (s.setEntry (n * 4096) i v) q =
      find top root s q := fun q hq => walk_of_not_suffix hs.distinct hp hget hq
  -- the tables are those of before
  have hnode : ∀ q m, find top root (s.setEntry (n * 4096) i v) q = .node m →
      find top root s q = .node m := fun q m hq => by
    by_cases hsuf : (i :: p) <:+ q
    · rw [hleaf q hsuf] at hq
      cases hq
    · rwa [hsame q hsuf] at hq
  refine ⟨⟨fun q r m hq hr => hs.distinct q r m (hnode q m hq) (hnode r m hr),
    fun q m hq => hs.used q m (hnode q m hq)⟩, rfl, find_absent hp hseen hhas, hleaf, hsame,
    fun f hno => Machine.setFrame_ne fun hfn => hno p ?_⟩
  rw [hfn, hsame p (not_suffix_self i p)]
  exact hp

variable {l : Nat}

/-- The path to the entry that `map_common` writes, and the entry. -/
theorem Space.seen_leaf (hl : l = 1 ∨ l = 2) (htop : indexAt virt 4 < top)
    (hp : find top root s (vpath virt (4 - l)) = .node n) :
    vpath virt (5 - l) = indexAt virt l :: vpath virt (4 - l) ∧ Seen top root n (indexAt virt l) := by
  have hseen := hs.seen htop hp
  rw [show 4 - (4 - l) = l by omega] at hseen
  exact ⟨by rcases hl with rfl | rfl <;> rfl, hseen⟩

/-- The end of `map_common`, at the table that holds the entry. -/
theorem writeLeaf_spec {phys : Nat} (hl : l = 1 ∨ l = 2) (hf : flags < 2 ^ 64)
    (htop : indexAt virt 4 < top) (hp : find top root s (vpath virt (4 - l)) = .node n) :
    (writeLeaf (n * 4096) virt phys flags l s = (.eexist, s) ∧
        find top root s (vpath virt (5 - l)) ≠ .nothing) ∨
      ∃ s', writeLeaf (n * 4096) virt phys flags l s = (.ok, s') ∧
        Mapped top root s s' (vpath virt (5 - l)) (l - 1) (leafEntry phys flags l) := by
  obtain ⟨hpath, hseen⟩ := hs.seen_leaf hl htop hp
  have hheight : 3 - (vpath virt (4 - l)).length = l - 1 := by
    rw [vpath_length]
    omega
  rw [writeLeaf, Machine.entry_frame, hpath]
  by_cases hhas : has (s.word n (indexAt virt l)) pteP = true
  · rw [if_pos hhas]
    refine .inl ⟨rfl, fun hnone => ?_⟩
    have hfound := find_present hp hseen hhas fun h e hq => by rw [hnone] at hq; cases hq
    rw [hnone] at hfound
    cases hfound
  · rw [if_neg hhas]
    have hmap := hs.mapped hp hseen (Bool.not_eq_true _ ▸ hhas) (leafEntry_lt hf phys l)
      (by rw [hheight]; exact decode_leafEntry hl phys flags)
    rw [hheight] at hmap
    exact .inr ⟨_, rfl, hmap⟩

/-- **`map_common`**, where no leaf is above the entry: it fails with tables added at most, or maps the
page at an entry that was empty. -/
theorem mapCommon_spec (hr : Ready s.pmm) {phys size : Nat} (hl : l = 1 ∨ l = 2)
    (hf : flags < 2 ^ 64) (htop : indexAt virt 4 < top) (hv : virt % size = 0)
    (hph : phys % size = 0) (hleaf : ∀ h e, find top root s (vpath virt (4 - l)) ≠ .leaf h e) :
    ∃ s₁, Grew top root s s₁ ∧
      ((mapCommon (root * 4096) virt phys flags l size s = (.enomem, s₁) ∧
          find top root s (vpath virt (4 - l)) = .nothing ∧ s₁.pmm.freeSet = ∅) ∨
        (mapCommon (root * 4096) virt phys flags l size s = (.eexist, s₁) ∧
          find top root s₁ (vpath virt (5 - l)) ≠ .nothing) ∨
        ∃ s', mapCommon (root * 4096) virt phys flags l size s = (.ok, s') ∧
          Mapped top root s₁ s' (vpath virt (5 - l)) (l - 1) (leafEntry phys flags l)) := by
  have hu : flags &&& pteUS = 0 ∨ flags &&& pteUS = pteUS := by
    rw [pteUS, Nat.and_two_pow]
    cases flags.testBit 2 <;> simp
  have hroot : root ≠ 0 := (hs.used [] root rfl).1
  obtain ⟨s₁, hgrew, hdesc⟩ := descend_spec htop hu (4 - l) hs hr (by omega) hroot
    (show find top root s (vpath virt 0) = .node root from rfl)
    (by rw [Nat.zero_add]; exact hleaf)
  rw [← range_eq_range', Nat.zero_add] at hdesc
  refine ⟨s₁, hgrew, ?_⟩
  rw [mapCommon, if_neg (by rw [hv, hph]; simp)]
  rcases hdesc with ⟨hzero, hnone, hempty⟩ | ⟨m, hm, hfound, hdesc⟩
  · rw [hzero]
    exact .inl ⟨rfl, hnone, hempty⟩
  · rw [hdesc]
    show ((if m * 4096 = 0 then _ else _) = _ ∧ _) ∨ ((if m * 4096 = 0 then _ else _) = _ ∧ _) ∨
      ∃ s', (if m * 4096 = 0 then _ else _) = _ ∧ _
    rw [if_neg (by omega)]
    exact .inr (writeLeaf_spec hgrew.space hl hf htop hfound)

end

/-! ## `paging_lookup` -/

/-- The size of the pages that a table of height `h` holds. -/
def pageSize (h : Nat) : Nat := if h = 1 then 0x200000 else 0x1000

/-- What `paging_lookup` makes of the end of the walk. -/
def answer (virt : Nat) : Found Nat Nat → Nat × Option Nat
  | .leaf h e => (e, some (pteAddr e / pageSize h * pageSize h ||| virt % pageSize h))
  | _ => (0, none)

variable {level : Nat}

/-- The path to the next level. -/
theorem vpath_level (hlevel : level + 1 ≤ 4) :
    vpath virt (4 - level) = indexAt virt (level + 1) :: vpath virt (4 - (level + 1)) := by
  rw [show 4 - level = 4 - (level + 1) + 1 by omega, vpath,
    show 4 - (4 - (level + 1)) = level + 1 by omega]

section

variable (hs : Space top root s) (htop : indexAt virt 4 < top)
include hs htop

theorem Space.seen_level (hlevel : level + 1 ≤ 4)
    (hp : find top root s (vpath virt (4 - (level + 1))) = .node n) :
    Seen top root n (indexAt virt (level + 1)) := by
  have hseen := hs.seen htop hp
  rwa [show 4 - (4 - (level + 1)) = level + 1 by omega] at hseen

/-- **One level of the walk** along the indices of an address: behind the entry there is nothing, a
page, or the next table. -/
theorem Space.level_cases (hlevel : level + 1 ≤ 4)
    (hp : find top root s (vpath virt (4 - (level + 1))) = .node n) :
    let e := s.word n (indexAt virt (level + 1))
    (has e pteP = false ∧ find top root s (vpath virt 4) = .nothing) ∨
      (has e pteP = true ∧ (level = 0 ∨ level = 1 ∧ has e ptePS = true) ∧
        find top root s (vpath virt 4) = .leaf level e) ∨
      (has e pteP = true ∧ ¬(level = 0 ∨ level = 1 ∧ has e ptePS = true) ∧
        find top root s (vpath virt (4 - level)) = .node (pteAddr e / 4096)) := by
  intro e
  have hcons := find_cons (i := indexAt virt (level + 1)) hp
  rw [step, view_of_seen (hs.seen_level htop hlevel hp), vpath_length,
    show 3 - (4 - (level + 1)) = level by omega, ← vpath_level hlevel] at hcons
  have hend := vpath_suffix virt (show 4 - level ≤ 4 by omega)
  cases hP : has e pteP with
  | false =>
    rw [decode_absent hP] at hcons
    exact .inl ⟨rfl, find_nothing hend hcons⟩
  | true =>
    by_cases hl : level = 0 ∨ level = 1 ∧ has e ptePS = true
    · rw [decode_eq_leaf hP hl] at hcons
      exact .inr (.inl ⟨rfl, hl, find_leaf hend hcons⟩)
    · rw [decode_eq_link hP hl] at hcons
      exact .inr (.inr ⟨rfl, hl, hcons⟩)

theorem lookupFrom_spec (level : Nat) :
    ∀ {n : Nat}, level ≤ 4 → find top root s (vpath virt (4 - level)) = .node n →
      lookupFrom s virt level (n * 4096) = answer virt (find top root s (vpath virt 4)) := by
  induction level with
  | zero =>
    intro n _ hp
    rw [hp]
    rfl
  | succ level ih =>
    intro n hlevel hp
    rw [lookupFrom, Machine.entry_frame]
    rcases hs.level_cases htop hlevel hp with ⟨hP, hend⟩ | ⟨hP, hl, hend⟩ | ⟨hP, hl, hnext⟩
    · rw [hend, if_pos hP]
      rfl
    · rw [hend, if_neg (by rw [hP]; decide), if_pos hl]
      rfl
    · rw [if_neg (by rw [hP]; decide), if_neg hl, ← pteAddr_aligned]
      exact ih (by omega) hnext

/-- **`paging_lookup`** answers by the walk along the four indices of the address. -/
theorem pagingLookup_spec :
    pagingLookup s (root * 4096) virt = answer virt (find top root s (vpath virt 4)) :=
  lookupFrom_spec hs htop 4 le_rfl rfl

end

end Hallucinate.Mm
