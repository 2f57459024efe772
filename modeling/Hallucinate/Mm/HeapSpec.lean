import Hallucinate.Mm.Heap
import Mathlib.Data.List.Perm.Basic

/-!
# Slabs and their lists

A slab is a page whose header and objects are bytes of one memory.

* `SlabOk`: one slab. Its objects are the free ones, in the order of the free list, and the live ones.
* `Lists`: the partial lists, by the link fields of the headers. These fields belong to the lists and
  the rest of a header to the slab, so what is done to the one leaves the other alone.
-/

namespace Hallucinate.Mm.Heap

open Lib Function List

variable {m m' : Bytes} {b c o : Nat}

/-! ## Geometry -/

/-- What the size classes have in common. -/
theorem classSize_spec (hc : c < 7) :
    16 ≤ classSize c ∧ classSize c % 16 = 0 ∧ 64 + objectsPerSlab c * classSize c ≤ 4096 ∧
      2 ≤ objectsPerSlab c ∧ objectsPerSlab c ≤ 252 := by
  revert c
  decide

/-- The objects of a slab, first object first. -/
def objects (b c : Nat) : List Nat :=
  (List.range (objectsPerSlab c)).map fun i => b + 64 + i * classSize c

theorem mem_objects : o ∈ objects b c ↔ ∃ i < objectsPerSlab c, o = b + 64 + i * classSize c := by
  simp only [objects, mem_map, mem_range]
  exact exists_congr fun i => and_congr_right fun _ => eq_comm

/-- An object is in its page, behind the header. -/
theorem object_bounds (hc : c < 7) (ho : o ∈ objects b c) :
    b + 64 ≤ o ∧ o + classSize c ≤ b + 4096 := by
  obtain ⟨i, hi, rfl⟩ := mem_objects.mp ho
  obtain ⟨-, -, hfit, -⟩ := classSize_spec hc
  have hle : (i + 1) * classSize c ≤ objectsPerSlab c * classSize c := Nat.mul_le_mul_right _ hi
  rw [Nat.succ_mul] at hle
  omega

theorem object_page (hc : c < 7) (hb : b % 4096 = 0) (ho : o ∈ objects b c) : o / 4096 * 4096 = b := by
  obtain ⟨h1, h2⟩ := object_bounds hc ho
  have hsize := (classSize_spec hc).1
  omega

theorem object_aligned (hc : c < 7) (hb : b % 4096 = 0) (ho : o ∈ objects b c) : o % 16 = 0 := by
  obtain ⟨i, -, rfl⟩ := mem_objects.mp ho
  have hmul : i * classSize c % 16 = 0 := by
    rw [Nat.mul_mod, (classSize_spec hc).2.1, Nat.mul_zero]
  omega

/-- Objects do not overlap. -/
theorem objects_apart {o' : Nat} (ho : o ∈ objects b c) (ho' : o' ∈ objects b c)
    (hne : o ≠ o') : o + classSize c ≤ o' ∨ o' + classSize c ≤ o := by
  obtain ⟨i, -, rfl⟩ := mem_objects.mp ho
  obtain ⟨j, -, rfl⟩ := mem_objects.mp ho'
  rcases Nat.lt_trichotomy i j with hij | rfl | hij
  · have hle : (i + 1) * classSize c ≤ j * classSize c := Nat.mul_le_mul_right _ hij
    rw [Nat.succ_mul] at hle
    omega
  · exact absurd rfl hne
  · have hle : (j + 1) * classSize c ≤ i * classSize c := Nat.mul_le_mul_right _ hij
    rw [Nat.succ_mul] at hle
    omega

theorem objects_nodup (hc : c < 7) (b : Nat) : (objects b c).Nodup := by
  refine List.Nodup.map (fun i j hij => ?_) nodup_range
  have hsize := (classSize_spec hc).1
  have hmul : i * classSize c = j * classSize c := by
    omega
  exact Nat.eq_of_mul_eq_mul_right (by omega) hmul

theorem length_objects (b c : Nat) : (objects b c).length = objectsPerSlab c := by
  rw [objects, length_map, length_range]

/-! ## Pointers in memory -/

/-- A pointer as a link. -/
def toLink (v : Nat) : Option Nat := if v = 0 then none else some v

theorem toLink_eq_none {v : Nat} : toLink v = none ↔ v = 0 := by
  unfold toLink
  split <;> simp [*]

theorem toLink_eq_some {v t : Nat} : toLink v = some t ↔ v = t ∧ t ≠ 0 := by
  unfold toLink
  split
  · rename_i hv
    simp only [reduceCtorEq, false_iff, not_and, not_not]
    exact fun ht => ht ▸ hv
  · rename_i hv
    rw [Option.some.injEq]
    exact ⟨fun ht => ⟨ht, ht ▸ hv⟩, And.left⟩

theorem toLink_of_ne {v : Nat} (hv : v ≠ 0) : toLink v = some v := if_neg hv

/-- The link of an object. -/
def link (m : Bytes) (o : Nat) : Option Nat := toLink (objNext m o)

def next (m : Bytes) (b : Nat) : Option Nat := toLink (nextSlab m b)

def prev (m : Bytes) (b : Nat) : Option Nat := toLink (prevSlab m b)

theorem link_congr (h : ∀ a, o ≤ a → a < o + 8 → m' a = m a) : link m' o = link m o := by
  rw [link, objNext, rd_congr h]
  rfl

/-! ## One slab -/

/-- **A slab** at `b` of class `c`, with its free and its live objects. -/
structure SlabOk (m : Bytes) (b c : Nat) (free live : List Nat) : Prop where
  lt : c < 7
  isSlab : magic m b = slabMagic
  ofClass : classIdx m b = c
  counted : inuse m b = live.length
  chain : Seg (link m) (toLink (freeList m b)) free none
  objs : (free ++ live).Perm (objects b c)

variable {free live : List Nat}

section

variable (h : SlabOk m b c free live)
include h

/-- A slab is the first 16 bytes of its header and the links of its free objects. -/
theorem SlabOk.congr (hhdr : ∀ a, b ≤ a → a < b + 16 → m' a = m a)
    (hlink : ∀ o ∈ free, ∀ a, o ≤ a → a < o + 8 → m' a = m a) : SlabOk m' b c free live := by
  have hfield : ∀ off w, off + w ≤ 16 → rd m' (b + off) w = rd m (b + off) w := fun off w hw =>
    rd_congr fun a h1 h2 => hhdr a (by omega) (by omega)
  refine ⟨h.lt, (hfield 0 4 (by omega)).trans h.isSlab, (hfield 4 2 (by omega)).trans h.ofClass,
    (hfield 6 2 (by omega)).trans h.counted, ?_, h.objs⟩
  rw [show freeList m' b = freeList m b from hfield 8 8 (by omega)]
  exact h.chain.congr fun o ho => link_congr (hlink o ho)

theorem SlabOk.mem_free (ho : o ∈ free) : o ∈ objects b c :=
  h.objs.subset (mem_append_left _ ho)

theorem SlabOk.mem_live (ho : o ∈ live) : o ∈ objects b c :=
  h.objs.subset (mem_append_right _ ho)

theorem SlabOk.nodup : (free ++ live).Nodup :=
  h.objs.nodup_iff.mpr (objects_nodup h.lt b)

theorem SlabOk.length : free.length + live.length ≤ 252 := by
  have hlen := h.objs.length_eq
  rw [length_append, length_objects] at hlen
  have hcount := (classSize_spec h.lt).2.2.2.2
  omega

/-- The live objects, in any order. -/
theorem SlabOk.perm {live' : List Nat} (hp : live.Perm live') : SlabOk m b c free live' :=
  ⟨h.lt, h.isSlab, h.ofClass, h.counted.trans hp.length_eq, h.chain,
    (hp.append_left free).symm.trans h.objs⟩

theorem SlabOk.link_words (ho : o ∈ free) : b + 64 ≤ o ∧ o + 8 ≤ b + 4096 := by
  obtain ⟨h1, h2⟩ := object_bounds h.lt (h.mem_free ho)
  have hsize := (classSize_spec h.lt).1
  omega

end

/-- The end of `heap_core_alloc`: the first free object is live. -/
theorem SlabOk.take (h : SlabOk m b c (o :: free) live) :
    freeList m b = o ∧ SlabOk (wr (wr m (b + 8) 8 (objNext m o)) (b + 6) 2 (inuse m b + 1)) b c free
      (o :: live) := by
  obtain ⟨hhead, hrest⟩ := h.chain
  obtain ⟨hfree, -⟩ := toLink_eq_some.mp hhead
  have hlen := h.length
  have hlt : objNext m o < 256 ^ 8 := rd_lt ..
  refine ⟨hfree, h.lt, ?_, ?_, ?_, ?_, ?_⟩
  · rw [magic, rd_wr_of_disjoint (.inl (by omega)), rd_wr_of_disjoint (.inl (by omega))]
    exact h.isSlab
  · rw [classIdx, rd_wr_of_disjoint (.inl (by omega)), rd_wr_of_disjoint (.inl (by omega))]
    exact h.ofClass
  · rw [inuse, rd_wr, h.counted, length_cons, Nat.mod_eq_of_lt]
    omega
  · rw [freeList, rd_wr_of_disjoint (.inr (by omega)), rd_wr, Nat.mod_eq_of_lt hlt]
    refine Seg.congr hrest fun t ht => link_congr fun a h1 h2 => ?_
    have hword := h.link_words (mem_cons_of_mem o ht)
    rw [wr_of_not_mem (.inr (by omega)), wr_of_not_mem (.inr (by omega))]
  · exact perm_middle.trans h.objs

/-- The end of `heap_core_free`: the object is the first free one. -/
theorem SlabOk.give (h : SlabOk m b c free (o :: live)) (hb : b + 4096 ≤ 2 ^ 64) :
    SlabOk (wr (wr (wr m o 8 (freeList m b)) (b + 8) 8 o) (b + 6) 2 (inuse m b + 2 ^ 16 - 1)) b c
      (o :: free) live := by
  have ho := h.mem_live mem_cons_self
  obtain ⟨hlo, hhi⟩ := object_bounds h.lt ho
  have hsize := (classSize_spec h.lt).1
  have hlen := h.length
  have hlt : freeList m b < 256 ^ 8 := rd_lt ..
  have hword : link (wr (wr (wr m o 8 (freeList m b)) (b + 8) 8 o) (b + 6) 2
      (inuse m b + 2 ^ 16 - 1)) o = toLink (freeList m b) := by
    rw [link, objNext, rd_wr_of_disjoint (.inr (by omega)), rd_wr_of_disjoint (.inr (by omega)), rd_wr,
      Nat.mod_eq_of_lt hlt]
  have hfree : freeList (wr (wr (wr m o 8 (freeList m b)) (b + 8) 8 o) (b + 6) 2
      (inuse m b + 2 ^ 16 - 1)) b = o := by
    rw [freeList, rd_wr_of_disjoint (.inr (by omega)), rd_wr, Nat.mod_eq_of_lt]
    omega
  refine ⟨h.lt, ?_, ?_, ?_, ⟨?_, ?_⟩, ?_⟩
  · rw [magic, rd_wr_of_disjoint (.inl (by omega)), rd_wr_of_disjoint (.inl (by omega)),
      rd_wr_of_disjoint (.inl (by omega))]
    exact h.isSlab
  · rw [classIdx, rd_wr_of_disjoint (.inl (by omega)), rd_wr_of_disjoint (.inl (by omega)),
      rd_wr_of_disjoint (.inl (by omega))]
    exact h.ofClass
  · rw [length_cons] at hlen
    rw [inuse, rd_wr, h.counted, length_cons]
    omega
  · rw [hfree]
    exact toLink_of_ne (by omega)
  · rw [hword]
    refine Seg.congr h.chain fun t ht => link_congr fun a h1 h2 => ?_
    have hne : o ≠ t := fun hot =>
      (nodup_append.mp h.nodup).2.2 t ht o mem_cons_self hot.symm
    have hwords := h.link_words ht
    have hapart := objects_apart ho (h.mem_free ht) hne
    rw [wr_of_not_mem (.inr (by omega)), wr_of_not_mem (.inr (by omega)), wr_of_not_mem (by omega)]
  · exact perm_middle.symm.trans h.objs

/-! ## A new slab -/

variable {size a : Nat}

/-- The loop of `slab_create` writes the free list and the objects before `n`. -/
theorem linkObjects_of_not_mem {n : Nat} (ha : a < b + 8 ∨ b + 16 ≤ a)
    (ha' : a < b + 64 ∨ b + 64 + n * size ≤ a) (hsize : 16 ≤ size) : ∀ {m : Bytes},
    linkObjects b size n m a = m a := by
  induction n with
  | zero => exact rfl
  | succ n ih =>
    intro m
    rw [Nat.succ_mul] at ha'
    rw [linkObjects, ih (by omega), wr_of_not_mem (by omega), wr_of_not_mem (by omega)]

/-- The loop of `slab_create` chains the objects before `n` in front of the list. -/
theorem linkObjects_chain (hsize : 16 ≤ size) (n : Nat) (hfit : 64 + n * size ≤ 4096)
    (hb : b + 4096 ≤ 2 ^ 64) : ∀ {m : Bytes} {l : List Nat},
    Seg (link m) (toLink (freeList m b)) l none → (∀ o ∈ l, b + 64 + n * size ≤ o) →
    Seg (link (linkObjects b size n m)) (toLink (freeList (linkObjects b size n m) b))
      ((List.range n).map (fun i => b + 64 + i * size) ++ l) none := by
  induction n with
  | zero =>
    intro m l h _
    exact h
  | succ n ih =>
    intro m l h hl
    rw [Nat.succ_mul] at hfit hl
    have hlt : freeList m b < 256 ^ 8 := rd_lt ..
    rw [linkObjects, range_succ, map_append, append_assoc]
    show Seg _ _ (_ ++ (b + 64 + n * size) :: l) none
    refine ih (by omega) ⟨?_, ?_⟩ fun o ho => ?_
    · rw [freeList, rd_wr, Nat.mod_eq_of_lt (by omega)]
      exact toLink_of_ne (by omega)
    · rw [link, objNext, rd_wr_of_disjoint (.inr (by omega)), rd_wr, Nat.mod_eq_of_lt hlt]
      refine Seg.congr h fun t ht => link_congr fun a h1 h2 => ?_
      have hword := hl t ht
      rw [wr_of_not_mem (.inr (by omega)), wr_of_not_mem (.inr (by omega))]
    · rcases mem_cons.mp ho with rfl | ho
      · exact Nat.le_refl _
      · have hword := hl o ho
        omega

/-- The memory after `slab_create`. -/
def created (m : Bytes) (b c : Nat) : Bytes :=
  linkObjects b (classSize c) (objectsPerSlab c) (wr (wr (fill m b 64 0) b 4 slabMagic) (b + 4) 2 c)

theorem created_of_not_mem (hc : c < 7) (ha : a < b ∨ b + 4096 ≤ a) : created m b c a = m a := by
  obtain ⟨hsize, -, hfit, -⟩ := classSize_spec hc
  rw [created, linkObjects_of_not_mem (by omega) (by omega) hsize, wr_of_not_mem (by omega),
    wr_of_not_mem (by omega), fill_of_not_mem (by omega)]

/-- **`slab_create`** makes a slab whose objects are all free. -/
theorem slabOk_created (m : Bytes) (hc : c < 7) (hb : b + 4096 ≤ 2 ^ 64) :
    SlabOk (created m b c) b c (objects b c) [] := by
  obtain ⟨hsize, -, hfit, -⟩ := classSize_spec hc
  have hhdr : ∀ off w, off + w ≤ 8 → rd (created m b c) (b + off) w =
      rd (wr (wr (fill m b 64 0) b 4 slabMagic) (b + 4) 2 c) (b + off) w := fun off w hw =>
    rd_congr fun a h1 h2 => linkObjects_of_not_mem (.inl (by omega)) (.inl (by omega)) hsize
  have hzero : ∀ off w, 6 ≤ off → off + w ≤ 64 →
      rd (wr (wr (fill m b 64 0) b 4 slabMagic) (b + 4) 2 c) (b + off) w = 0 := fun off w h1 h2 => by
    rw [rd_wr_of_disjoint (.inr (by omega)), rd_wr_of_disjoint (.inr (by omega))]
    exact rd_zero _ _ _ fun a h3 h4 => fill_of_mem (by omega) (by omega)
  refine ⟨hc, ?_, ?_, ?_, ?_, ?_⟩
  · refine (hhdr 0 4 (by omega)).trans ?_
    rw [rd_wr_of_disjoint (.inl (by omega)), Nat.add_zero, rd_wr]
    decide
  · refine (hhdr 4 2 (by omega)).trans ?_
    rw [rd_wr, Nat.mod_eq_of_lt (by omega)]
  · exact (hhdr 6 2 (by omega)).trans (hzero 6 2 (by omega) (by omega))
  · have hnil : Seg (link (wr (wr (fill m b 64 0) b 4 slabMagic) (b + 4) 2 c))
        (toLink (freeList (wr (wr (fill m b 64 0) b 4 slabMagic) (b + 4) 2 c) b)) [] none := by
      rw [show freeList _ b = 0 from hzero 8 8 (by omega) (by omega)]
      rfl
    have hchain := linkObjects_chain hsize (objectsPerSlab c) hfit hb hnil nofun
    rwa [append_nil] at hchain
  · rw [append_nil]

/-! ## The link fields -/

/-- `p->next = v`, unless `p` is NULL. -/
def setNext (m : Bytes) (p v : Nat) : Bytes := if p ≠ 0 then wr m (p + 16) 8 v else m

/-- `p->prev = v`, unless `p` is NULL. -/
def setPrev (m : Bytes) (p v : Nat) : Bytes := if p ≠ 0 then wr m (p + 24) 8 v else m

variable {p v x : Nat}

section

variable (hp : p % 4096 = 0) (hx : x % 4096 = 0)
include hp hx

/-- The pointer field at `o`, written in the page of `p` unless `p` is NULL. -/
theorem field_set {o : Nat} (hv : v < 2 ^ 64) :
    toLink (rd (if p ≠ 0 then wr m (p + o) 8 v else m) (x + o) 8) =
      setLink (fun x => toLink (rd m (x + o) 8)) (toLink p) (toLink v) x := by
  by_cases hp0 : p = 0
  · rw [if_neg (not_not.mpr hp0), toLink_eq_none.mpr hp0]
    rfl
  rw [if_pos hp0, toLink_of_ne hp0, setLink]
  by_cases hxp : x = p
  · rw [hxp, update_self, rd_wr, Nat.mod_eq_of_lt (by omega)]
  · rw [update_of_ne hxp, rd_wr_of_disjoint (by omega)]

theorem next_setNext (hv : v < 2 ^ 64) :
    next (setNext m p v) x = setLink (next m) (toLink p) (toLink v) x :=
  field_set hp hx hv

theorem prev_setPrev (hv : v < 2 ^ 64) :
    prev (setPrev m p v) x = setLink (prev m) (toLink p) (toLink v) x :=
  field_set hp hx hv

theorem prevSlab_setNext : prevSlab (setNext m p v) x = prevSlab m x := by
  unfold setNext
  split
  · exact rd_wr_of_disjoint (by omega)
  · rfl

theorem nextSlab_setPrev : nextSlab (setPrev m p v) x = nextSlab m x := by
  unfold setPrev
  split
  · exact rd_wr_of_disjoint (by omega)
  · rfl

theorem prev_setNext : prev (setNext m p v) x = prev m x := by
  rw [prev, prevSlab_setNext hp hx]
  rfl

theorem next_setPrev : next (setPrev m p v) x = next m x := by
  rw [next, nextSlab_setPrev hp hx]
  rfl

end

/-- Only link fields differ. -/
def OffLinks (m m' : Bytes) : Prop := ∀ a, a % 4096 < 16 ∨ 32 ≤ a % 4096 → m' a = m a

theorem OffLinks.trans {m'' : Bytes} (h : OffLinks m m') (h' : OffLinks m' m'') : OffLinks m m'' :=
  fun a ha => (h' a ha).trans (h a ha)

theorem offLinks_setNext (hp : p % 4096 = 0) : OffLinks m (setNext m p v) := fun a ha => by
  unfold setNext
  split
  · exact wr_of_not_mem (by omega)
  · rfl

theorem offLinks_setPrev (hp : p % 4096 = 0) : OffLinks m (setPrev m p v) := fun a ha => by
  unfold setPrev
  split
  · exact wr_of_not_mem (by omega)
  · rfl

/-- A slab does not have the link fields. -/
theorem SlabOk.offLinks (h : SlabOk m b c free live) (hb : b % 4096 = 0) (ho : OffLinks m m') :
    SlabOk m' b c free live := by
  refine h.congr (fun a h1 h2 => ho a (by omega)) fun o hin a h1 h2 => ho a ?_
  have hword := h.link_words hin
  omega

/-! ## The partial lists -/

/-- Where slabs may be. -/
structure Page (b : Nat) : Prop where
  ne : b ≠ 0
  aligned : b % 4096 = 0
  fits : b + 4096 ≤ 2 ^ 64

variable {h : Heap} {l : List Nat}

theorem partials_bound (hl : DList (next h.mem) (prev h.mem) (toLink (h.partials c)) l)
    (hpages : ∀ x ∈ l, Page x) : h.partials c % 4096 = 0 ∧ h.partials c < 2 ^ 64 := by
  have hhead := hl.head_eq
  by_cases h0 : h.partials c = 0
  · rw [h0]
    decide
  · rw [toLink_of_ne h0] at hhead
    have hpage := hpages _ (mem_of_head? hhead.symm)
    exact ⟨hpage.aligned, by have := hpage.fits; omega⟩

/-- **`partial_insert`** puts the slab in front of the list. -/
theorem partialInsert_spec (hl : DList (next h.mem) (prev h.mem) (toLink (h.partials c)) l)
    (hpages : ∀ x ∈ l, Page x) (hb : Page b) (hnot : b ∉ l) (hnd : l.Nodup) :
    ∃ m', partialInsert c b h = { h with mem := m', partials := update h.partials c b } ∧
      OffLinks h.mem m' ∧ DList (next m') (prev m') (some b) (b :: l) ∧
      ∀ x, x % 4096 = 0 → x ∉ b :: l → next m' x = next h.mem x ∧ prev m' x = prev h.mem x := by
  obtain ⟨hal, hlt⟩ := partials_bound hl hpages
  have hblt : b < 2 ^ 64 := by have := hb.fits; omega
  have hal' := hb.aligned
  have hfirst : wr h.mem (b + 24) 8 0 = setPrev h.mem b 0 := (if_pos hb.ne).symm
  have hsecond : wr (setPrev h.mem b 0) (b + 16) 8 (h.partials c) =
      setNext (setPrev h.mem b 0) b (h.partials c) := (if_pos hb.ne).symm
  have hnextb : nextSlab (setNext (setPrev h.mem b 0) b (h.partials c)) b = h.partials c := by
    rw [setNext, if_pos hb.ne, nextSlab, rd_wr, Nat.mod_eq_of_lt (by omega)]
  have hmem : partialInsert c b h =
      { h with mem := setPrev (setNext (setPrev h.mem b 0) b (h.partials c)) (h.partials c) b,
               partials := update h.partials c b } := by
    simp only [partialInsert, store, hfirst, hsecond, hnextb]
    by_cases h0 : h.partials c = 0
    · simp only [h0, setPrev, ne_eq, not_true_eq_false, if_false]
    · simp only [h0, setPrev, ne_eq, not_false_eq_true, if_true]
  -- the links afterwards
  have hnext : ∀ x, x % 4096 = 0 →
      next (setPrev (setNext (setPrev h.mem b 0) b (h.partials c)) (h.partials c) b) x =
        setLink (next h.mem) (some b) (toLink (h.partials c)) x := fun x hx => by
    rw [next_setPrev hal hx, next_setNext hal' hx hlt, toLink_of_ne hb.ne]
    exact setLink_congr (next_setPrev hal' hx) _ _
  have hprev : ∀ x, x % 4096 = 0 →
      prev (setPrev (setNext (setPrev h.mem b 0) b (h.partials c)) (h.partials c) b) x =
        setLink (setLink (prev h.mem) (some b) none) (toLink (h.partials c)) (some b) x :=
    fun x hx => by
      rw [prev_setPrev hal hx hblt, toLink_of_ne hb.ne]
      refine setLink_congr ?_ _ _
      rw [prev_setNext hal' hx, prev_setPrev hal' hx (by decide), toLink_of_ne hb.ne]
      rfl
  have hmembers : ∀ x ∈ b :: l, x % 4096 = 0 := fun x hx => by
    rcases mem_cons.mp hx with rfl | hx
    · exact hal'
    · exact (hpages x hx).aligned
  refine ⟨_, hmem, ?_, ?_, fun x hx hxl => ⟨?_, ?_⟩⟩
  · exact ((offLinks_setPrev hal').trans (offLinks_setNext hal')).trans (offLinks_setPrev hal)
  · exact (hl.pushFront hnot hnd).congr (fun x hx => hnext x (hmembers x hx))
      fun x hx => hprev x (hmembers x hx)
  · rw [hnext x hx, setLink_of_ne fun hbx => hxl (by cases hbx; exact mem_cons_self)]
  · rw [hprev x hx, setLink_of_ne, setLink_of_ne]
    · exact fun hbx => hxl (by cases hbx; exact mem_cons_self)
    · intro hhead
      rw [hl.head_eq] at hhead
      exact hxl (mem_cons_of_mem b (mem_of_head? hhead))

/-- The memory after `partial_remove`. -/
def unlinked (m : Bytes) (b : Nat) : Bytes :=
  setPrev (setNext (setPrev (setNext m (prevSlab m b) (nextSlab m b)) (nextSlab m b) (prevSlab m b)) b 0)
    b 0

/-- What is copied from the `next` field to another one is still in it. -/
theorem nextSlab_setNext_self (hp : p % 4096 = 0) (hb : b % 4096 = 0) :
    nextSlab (setNext m p (nextSlab m b)) b = nextSlab m b := by
  have hlt : nextSlab m b < 256 ^ 8 := rd_lt ..
  unfold setNext
  split
  · by_cases hpb : b = p
    · rw [nextSlab, ← hpb, rd_wr, Nat.mod_eq_of_lt hlt]
    · rw [nextSlab, rd_wr_of_disjoint (by omega)]
      rfl
  · rfl

/-- **`partial_remove`** takes the slab out of the list. -/
theorem partialRemove_spec {l' : List Nat}
    (hl : DList (next h.mem) (prev h.mem) (toLink (h.partials c)) (l ++ b :: l'))
    (hpages : ∀ x ∈ l ++ b :: l', Page x) (hnd : (l ++ b :: l').Nodup) :
    ∃ m' head, partialRemove c b h =
        { h with mem := m', partials := update h.partials c head } ∧
      OffLinks h.mem m' ∧ DList (next m') (prev m') (toLink head) (l ++ l') ∧
      ∀ x, x % 4096 = 0 → x ∉ l ++ b :: l' → next m' x = next h.mem x ∧ prev m' x = prev h.mem x := by
  have hb := hpages b (mem_append_right _ mem_cons_self)
  have hal' := hb.aligned
  obtain ⟨hnextb, hprevb⟩ := hl.links
  -- the neighbours are slabs, or NULL
  have hneigh : ∀ {v : Nat} {t : Option Nat}, toLink v = t → (∀ x, t = some x → x ∈ l ++ b :: l') →
      v % 4096 = 0 ∧ v < 2 ^ 64 := fun {v t} hv hin => by
    by_cases h0 : v = 0
    · rw [h0]
      decide
    · have hpage := hpages v (hin v (hv.symm.trans (toLink_of_ne h0)))
      exact ⟨hpage.aligned, by have := hpage.fits; omega⟩
  have hN := hneigh hnextb fun x hx =>
    mem_append_right _ (mem_cons_of_mem b (mem_of_head? hx))
  have hP := hneigh hprevb fun x hx => mem_append_left _ (mem_of_getLast? hx)
  have hmem : partialRemove c b h =
      { h with mem := unlinked h.mem b,
               partials := update h.partials c
                 (if prevSlab h.mem b = 0 then nextSlab h.mem b else h.partials c) } := by
    have hsecond := nextSlab_setNext_self (m := h.mem) hP.1 hal'
    have hthird := prevSlab_setNext (m := h.mem) (v := nextSlab h.mem b) hP.1 hal'
    by_cases h0 : prevSlab h.mem b = 0
    · simp only [partialRemove, store, unlinked, h0, setNext, setPrev, hb.ne, ne_eq,
        not_true_eq_false, not_false_eq_true, if_true, if_false]
      by_cases h1 : nextSlab h.mem b = 0
      · simp only [h1, not_true_eq_false, if_false]
      · simp only [h1, not_false_eq_true, if_true]
    · rw [setNext, if_pos h0] at hsecond hthird
      simp only [partialRemove, store, unlinked, h0, setNext, setPrev, hb.ne, ne_eq,
        not_false_eq_true, if_true, if_false, update_eq_self, hsecond, hthird]
      by_cases h1 : nextSlab h.mem b = 0
      · simp only [h1, not_true_eq_false, if_false]
      · simp only [h1, not_false_eq_true, if_true]
  have hbl : ∀ x ∈ l ++ l', x ≠ b := by
    rintro x hx rfl
    exact (nodup_cons.mp (perm_middle.nodup_iff.mp hnd)).1 hx
  have hsub : ∀ x ∈ l ++ l', x ∈ l ++ b :: l' := fun x hx =>
    perm_middle.mem_iff.mpr (mem_cons_of_mem b hx)
  -- the links afterwards
  have hnext : ∀ x, x % 4096 = 0 → x ≠ b → next (unlinked h.mem b) x =
      setLink (next h.mem) (prev h.mem b) (next h.mem b) x := fun x hx hxb => by
    rw [unlinked, next_setPrev hal' hx, next_setNext hal' hx (by decide), toLink_of_ne hb.ne,
      setLink_of_ne fun hbx => hxb (by cases hbx; rfl), next_setPrev hN.1 hx, next_setNext hP.1 hx hN.2]
    rfl
  have hprev : ∀ x, x % 4096 = 0 → x ≠ b → prev (unlinked h.mem b) x =
      setLink (prev h.mem) (next h.mem b) (prev h.mem b) x := fun x hx hxb => by
    rw [unlinked, prev_setPrev hal' hx (by decide), toLink_of_ne hb.ne,
      setLink_of_ne fun hbx => hxb (by cases hbx; rfl), prev_setNext hal' hx, prev_setPrev hN.1 hx hP.2]
    exact setLink_congr (prev_setNext hP.1 hx) _ _
  refine ⟨_, _, hmem, ?_, ?_, fun x hx hxl => ?_⟩
  · exact (((offLinks_setNext hP.1).trans (offLinks_setPrev hN.1)).trans (offLinks_setNext hal')).trans
      (offLinks_setPrev hal')
  · have hhead : toLink (if prevSlab h.mem b = 0 then nextSlab h.mem b else h.partials c) =
        if prev h.mem b = none then next h.mem b else toLink (h.partials c) := by
      by_cases h0 : prevSlab h.mem b = 0
      · have hnone : prev h.mem b = none := toLink_eq_none.mpr h0
        rw [if_pos h0, if_pos hnone]
        rfl
      · have hsome : prev h.mem b ≠ none := fun hnone => h0 (toLink_eq_none.mp hnone)
        rw [if_neg h0, if_neg hsome]
    rw [hhead]
    refine (hl.remove hnd).congr (fun x hx => ?_) fun x hx => ?_
    · exact hnext x (hpages x (hsub x hx)).aligned (hbl x hx)
    · exact hprev x (hpages x (hsub x hx)).aligned (hbl x hx)
  · have hxb : x ≠ b := fun hxb => hxl (hxb ▸ mem_append_right _ mem_cons_self)
    refine ⟨(hnext x hx hxb).trans (setLink_of_ne (fun hpx => hxl ?_) _),
      (hprev x hx hxb).trans (setLink_of_ne (fun hnx => hxl ?_) _)⟩
    · exact mem_append_left _ (mem_of_getLast? (hprevb.symm.trans hpx))
    · exact mem_append_right _ (mem_cons_of_mem b (mem_of_head? (hnextb.symm.trans hnx)))

end Hallucinate.Mm.Heap
