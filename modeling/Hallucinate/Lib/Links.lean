import Mathlib.Data.List.Nodup
import Mathlib.Logic.Function.Basic

/-!
# Lists threaded through link fields

A record that is on a list holds the link to the next one, so a list is a pointer and a link function
`next : ι → Option ι`. `Seg next p l q`: following the links from `p` goes through the records `l`
and arrives at `q`; a list that ends in a null link is a segment to `none`.

* Segments compose (`Seg.append`, `Seg.of_append`), depend only on the links of their own records
  (`Seg.congr`), and are found by following links (`Seg.walk_eq`, `Seg.walk_list`).
* `Queue next head tail l` is the queue with a tail pointer; `pushBack` and `popFront` are the usual
  code for pushing at the tail and popping the head (`Queue.pushBack`, `Queue.popFront`).
* `DList next prev head l` is the list linked both ways, a segment in either direction, with the code
  for pushing at the head and for unlinking a record (`DList.pushFront`, `DList.remove`).
-/

namespace Hallucinate.Lib

open Function List

variable {ι : Type}

/-- Following `next` from `p` goes through `l` and arrives at `q`. -/
def Seg (next : ι → Option ι) : Option ι → List ι → Option ι → Prop
  | p, [], q => p = q
  | p, t :: l, q => p = some t ∧ Seg next (next t) l q

/-- The first `n` records from `p` on. -/
def walk (next : ι → Option ι) : Nat → Option ι → List ι
  | 0, _ => []
  | _ + 1, none => []
  | n + 1, some t => t :: walk next n (next t)

variable {next next' : ι → Option ι} {p q r : Option ι} {l l' : List ι} {t : ι}

theorem Seg.congr (h : Seg next p l q) (hn : ∀ t ∈ l, next' t = next t) : Seg next' p l q := by
  induction l generalizing p with
  | nil => exact h
  | cons t l ih =>
    refine ⟨h.1, ih ?_ fun u hu => hn u (mem_cons_of_mem _ hu)⟩
    rw [hn t mem_cons_self]
    exact h.2

theorem Seg.append (h : Seg next p l q) (h' : Seg next q l' r) : Seg next p (l ++ l') r := by
  induction l generalizing p with
  | nil =>
    obtain rfl : p = q := h
    exact h'
  | cons t l ih => exact ⟨h.1, ih h.2⟩

theorem Seg.of_append (h : Seg next p (l ++ l') r) : ∃ q, Seg next p l q ∧ Seg next q l' r := by
  induction l generalizing p with
  | nil => exact ⟨p, rfl, h⟩
  | cons t l ih =>
    obtain ⟨q, h1, h2⟩ := ih h.2
    exact ⟨q, ⟨h.1, h1⟩, h2⟩

/-- A segment is what following as many links finds. -/
theorem Seg.walk_eq (h : Seg next p l q) : walk next l.length p = l := by
  induction l generalizing p with
  | nil => rfl
  | cons t l ih =>
    obtain ⟨rfl, h⟩ := h
    rw [length_cons, walk, ih h]

/-- A list that ends in a null link is what following links finds, however many are asked for. -/
theorem Seg.walk_list (h : Seg next p l none) {n : Nat} (hn : l.length ≤ n) : walk next n p = l := by
  induction l generalizing p n with
  | nil =>
    obtain rfl : p = none := h
    cases n <;> rfl
  | cons t l ih =>
    obtain ⟨rfl, h⟩ := h
    obtain ⟨n, rfl⟩ : ∃ m, n = m + 1 := ⟨n - 1, by simp at hn; omega⟩
    rw [walk, ih h (by simp at hn; omega)]

theorem walk_length_le (n : Nat) (p : Option ι) : (walk next n p).length ≤ n := by
  induction n generalizing p with
  | zero => exact Nat.le_refl 0
  | succ n ih =>
    cases p with
    | none => exact Nat.zero_le _
    | some t =>
      rw [walk, length_cons]
      exact Nat.succ_le_succ (ih _)

theorem Seg.nil_iff (h : Seg next p l none) : p = none ↔ l = [] := by
  cases l with
  | nil => exact ⟨fun _ => rfl, fun _ => h⟩
  | cons t l => simp [h.1]

/-- The link of the last record leads to the end of the segment. -/
theorem Seg.next_last (h : Seg next p (l ++ [t]) q) : next t = q := by
  obtain ⟨r, -, h2⟩ := h.of_append
  exact h2.2

variable {u : ι}

section Update

variable [DecidableEq ι]

/-- The link of a record outside the segment may change. -/
theorem Seg.set (h : Seg next p l q) (ht : t ∉ l) (v : Option ι) :
    Seg (update next t v) p l q := by
  refine h.congr fun u hu => ?_
  have hne : u ≠ t := fun e => ht (e ▸ hu)
  rw [update_of_ne hne]

/-- The link of the last record may be turned elsewhere. -/
theorem Seg.relink (h : Seg next p (l ++ [t]) q) (ht : t ∉ l) (v : Option ι) :
    Seg (update next t v) p (l ++ [t]) v := by
  obtain ⟨r, h1, h2⟩ := h.of_append
  have hv : update next t v t = v := update_self ..
  exact (h1.set ht v).append ⟨h2.1, hv⟩

/-- Inserting a record into a list, behind the record `l.getLast?` or in front of all. -/
theorem Seg.insert {r : List ι}
    (h : Seg next p (l ++ r) none) (ht : t ∉ l ++ r) (hnd : (l ++ r).Nodup) :
    (l = [] → Seg (update next t r.head?) (some t) (t :: r) none) ∧
    ∀ u, l.getLast? = some u →
      Seg (update (update next t r.head?) u (some t)) p (l ++ t :: r) none := by
  obtain ⟨q, hl, hr⟩ := h.of_append
  have hq : q = r.head? := by
    cases r with
    | nil => exact hr
    | cons x r => exact hr.1
  have htl : t ∉ l := fun hm => ht (mem_append_left _ hm)
  have htr : t ∉ r := fun hm => ht (mem_append_right _ hm)
  have hself : update next t r.head? t = r.head? := update_self ..
  have hr' : Seg (update next t r.head?) r.head? r none := hq ▸ hr.set htr _
  refine ⟨fun _ => ⟨rfl, hself.symm ▸ hr'⟩, fun u hu => ?_⟩
  obtain ⟨l, rfl⟩ := getLast?_eq_some_iff.mp hu
  have hul : u ∉ l := fun hm =>
    (nodup_append.mp (nodup_append.mp hnd).1).2.2 u hm u mem_cons_self rfl
  have hur : u ∉ r := fun hm =>
    (nodup_append.mp hnd).2.2 u (mem_append_right _ mem_cons_self) u hm rfl
  have htu : t ≠ u := fun e => htl (e ▸ mem_append_right _ mem_cons_self)
  have hself' : update (update next t r.head?) u (some t) t = r.head? := by
    rw [update_of_ne htu, hself]
  exact ((hl.set htl r.head?).relink hul (some t)).append
    ⟨rfl, hself'.symm ▸ hr'.set hur (some t)⟩

/-! ## Queues with a tail pointer -/

/-- The queue `l` from `head`, with `tail` at its last record. -/
structure Queue (next : ι → Option ι) (head tail : Option ι) (l : List ι) : Prop where
  list : Seg next head l none
  last : tail = l.getLast?

variable {head tail : Option ι}

omit [DecidableEq ι] in
theorem Queue.congr (h : Queue next head tail l) (hn : ∀ t ∈ l, next' t = next t) :
    Queue next' head tail l :=
  ⟨h.list.congr hn, h.last⟩

omit [DecidableEq ι] in
theorem Queue.empty : Queue next none none [] := ⟨rfl, rfl⟩

omit [DecidableEq ι] in
theorem Queue.head_eq (h : Queue next head tail l) : head = l.head? := by
  have hl := h.list
  cases l with
  | nil => exact hl
  | cons t l => exact hl.1

/-- Pushing onto an empty queue. -/
theorem Queue.push_empty (h : Queue next head none l) :
    Queue (update next t none) (some t) (some t) (l ++ [t]) := by
  have hl := h.last
  obtain rfl : l = [] := getLast?_eq_none_iff.mp hl.symm
  have hv : update next t none t = none := update_self ..
  exact ⟨⟨rfl, hv⟩, rfl⟩

/-- **Pushing behind the tail**: the new record gets a null link, and the old tail a link to it. -/
theorem Queue.push (h : Queue next head (some u) l) (ht : t ∉ l) (hnd : l.Nodup) :
    Queue (update (update next t none) u (some t)) head (some t) (l ++ [t]) := by
  have hl := h.last
  obtain ⟨l, rfl⟩ : ∃ l', l = l' ++ [u] := by
    obtain ⟨ys, rfl⟩ := getLast?_eq_some_iff.mp hl.symm
    exact ⟨ys, rfl⟩
  have hu : u ∉ l := by
    have := (nodup_append.mp hnd).2.2
    exact fun hin => this u hin u (mem_singleton_self u) rfl
  have htu : t ≠ u := fun e => ht (by rw [e]; exact mem_append_right _ mem_cons_self)
  refine ⟨((h.list.set ht none).relink hu (some t)).append ⟨rfl, ?_⟩, ?_⟩
  · show update (update next t none) u (some t) t = none
    rw [update_of_ne htu, update_self]
  · rw [getLast?_append_of_ne_nil _ (by simp)]
    rfl

omit [DecidableEq ι] in
/-- Popping the head; the tail pointer is cleared with the last record. -/
theorem Queue.pop (h : Queue next head tail (t :: l)) :
    head = some t ∧ Queue next (next t) (if next t = none then none else tail) l := by
  refine ⟨h.list.1, h.list.2, ?_⟩
  cases l with
  | nil =>
    have hn : next t = none := h.list.2
    rw [if_pos hn]
    rfl
  | cons u l =>
    have hn : next t = some u := h.list.2.1
    rw [if_neg (by rw [hn]; exact Option.some_ne_none u), h.last, getLast?_cons_cons]

/-- Push `t` at the tail: links, head and tail afterwards. -/
def pushBack (next : ι → Option ι) (head tail : Option ι) (t : ι) :
    (ι → Option ι) × Option ι × Option ι :=
  match tail with
  | some u => (update (update next t none) u (some t), head, some t)
  | none => (update next t none, some t, some t)

/-- Pop the head `t`: links, head and tail afterwards. -/
def popFront (next : ι → Option ι) (tail : Option ι) (t : ι) : (ι → Option ι) × Option ι × Option ι :=
  (update next t none, next t, if next t = none then none else tail)

theorem Queue.pushBack (h : Queue next head tail l) (ht : t ∉ l) (hnd : l.Nodup) :
    Queue (pushBack next head tail t).1 (Lib.pushBack next head tail t).2.1
      (Lib.pushBack next head tail t).2.2 (l ++ [t]) := by
  cases tail with
  | none => exact h.push_empty
  | some u => exact h.push ht hnd

/-- Pushing writes the links of the new record and of the old tail only. -/
theorem Queue.pushBack_next (h : Queue next head tail l) (hu : u ≠ t) (hul : u ∉ l) :
    (Lib.pushBack next head tail t).1 u = next u := by
  have hl := h.last
  cases tail with
  | none => exact update_of_ne hu _ _
  | some v =>
    have hv : u ≠ v := fun e => hul (e ▸ mem_of_getLast? hl.symm)
    exact (update_of_ne hv _ _).trans (update_of_ne hu _ _)

theorem Queue.popFront (h : Queue next head tail (t :: l)) (hnd : (t :: l).Nodup) :
    head = some t ∧ Queue (popFront next tail t).1 (Lib.popFront next tail t).2.1
      (Lib.popFront next tail t).2.2 l := by
  obtain ⟨hhead, hq⟩ := h.pop
  have ht : t ∉ l := (nodup_cons.mp hnd).1
  exact ⟨hhead, hq.list.set ht none, hq.last⟩

/-! ## Lists linked both ways -/

/-- The list `l` from `head`, by its links forth and back. -/
structure DList (next prev : ι → Option ι) (head : Option ι) (l : List ι) : Prop where
  fwd : Seg next head l none
  bwd : Seg prev l.getLast? l.reverse none

/-- The link of a record set, if there is the record. -/
def setLink (next : ι → Option ι) (p v : Option ι) : ι → Option ι :=
  match p with
  | none => next
  | some t => update next t v

variable {prev prev' : ι → Option ι} {a b : List ι}

theorem setLink_of_ne (h : p ≠ some u) (v : Option ι) : setLink next p v u = next u := by
  cases p with
  | none => rfl
  | some t => exact update_of_ne (fun e => h (congrArg some e.symm)) _ _

theorem setLink_congr (h : next' u = next u) (p v : Option ι) :
    setLink next' p v u = setLink next p v u := by
  cases p with
  | none => exact h
  | some t =>
    by_cases hut : u = t
    · rw [setLink, setLink, hut, update_self, update_self]
    · rw [setLink, setLink, update_of_ne hut, update_of_ne hut, h]

omit [DecidableEq ι] in
theorem DList.congr (h : DList next prev head l) (hn : ∀ t ∈ l, next' t = next t)
    (hp : ∀ t ∈ l, prev' t = prev t) : DList next' prev' head l :=
  ⟨h.fwd.congr hn, h.bwd.congr fun t ht => hp t (mem_reverse.mp ht)⟩

omit [DecidableEq ι] in
theorem DList.empty : DList next prev none [] := ⟨rfl, rfl⟩

omit [DecidableEq ι] in
theorem DList.head_eq (h : DList next prev head l) : head = l.head? := by
  have hl := h.fwd
  cases l with
  | nil => exact hl
  | cons t l => exact hl.1

omit [DecidableEq ι] in
/-- The links of a record lead to its neighbours. -/
theorem DList.links (h : DList next prev head (a ++ t :: b)) :
    next t = b.head? ∧ prev t = a.getLast? := by
  have hhead : ∀ {next : ι → Option ι} {p : Option ι} {a b : List ι}, Seg next p (a ++ t :: b) none →
      next t = b.head? := fun {next p a b} hs => by
    obtain ⟨q, -, hq⟩ := hs.of_append
    cases b with
    | nil => exact hq.2
    | cons u b => exact hq.2.1
  have hbwd := h.bwd
  rw [reverse_append, reverse_cons, append_assoc] at hbwd
  refine ⟨hhead h.fwd, ?_⟩
  rw [← head?_reverse]
  exact hhead hbwd

/-- **Pushing in front of the head.** -/
theorem DList.pushFront (h : DList next prev head l) (ht : t ∉ l) (hnd : l.Nodup) :
    DList (update next t head) (setLink (update prev t none) head (some t)) (some t)
      (t :: l) := by
  have hself : update next t head t = head := update_self ..
  refine ⟨⟨rfl, hself.symm ▸ h.fwd.set ht head⟩, ?_⟩
  have hnone : update prev t none t = none := update_self ..
  cases l with
  | nil =>
    obtain rfl : head = none := h.fwd
    exact ⟨rfl, hnone⟩
  | cons u l =>
    obtain rfl : head = some u := h.fwd.1
    have hbwd := h.bwd
    have hut : t ≠ u := fun e => ht (e ▸ mem_cons_self)
    have hul : u ∉ l.reverse := fun hu => (nodup_cons.mp hnd).1 (mem_reverse.mp hu)
    have htl : t ∉ (u :: l).reverse := fun hin => ht (mem_reverse.mp hin)
    have hstop : setLink (update prev t none) (some u) (some t) t = none := by
      rw [setLink, update_of_ne hut, hnone]
    rw [getLast?_cons_cons, reverse_cons, reverse_cons]
    rw [reverse_cons] at hbwd htl
    exact ((hbwd.set htl none).relink hul (some t)).append ⟨rfl, hstop⟩

/-- Unlinking a record from a list that is followed in one direction. -/
theorem Seg.unlink (h : Seg next p (a ++ t :: b) none) (hnd : (a ++ t :: b).Nodup) :
    Seg (setLink next a.getLast? (next t)) (if a.getLast? = none then next t else p) (a ++ b) none := by
  obtain ⟨q, ha, hb⟩ := h.of_append
  obtain ⟨-, hb⟩ := hb
  cases hlast : a.getLast? with
  | none =>
    rw [getLast?_eq_none_iff.mp hlast]
    exact hb
  | some u =>
    obtain ⟨a, rfl⟩ := getLast?_eq_some_iff.mp hlast
    obtain ⟨hnda, hndb, hdisj⟩ := nodup_append.mp hnd
    have hua : u ∉ a := fun hu =>
      (nodup_append.mp hnda).2.2 u hu u mem_cons_self rfl
    have hub : u ∉ b := fun hu =>
      hdisj u (mem_append_right _ mem_cons_self) u (mem_cons_of_mem t hu) rfl
    rw [if_neg (Option.some_ne_none u)]
    exact (ha.relink hua _).append (hb.set hub _)

/-- **Unlinking a record.** -/
theorem DList.remove (h : DList next prev head (a ++ t :: b)) (hnd : (a ++ t :: b).Nodup) :
    DList (setLink next (prev t) (next t)) (setLink prev (next t) (prev t))
      (if prev t = none then next t else head) (a ++ b) := by
  obtain ⟨hnext, hprev⟩ := h.links
  have hbwd := h.bwd
  have hnd' : (b.reverse ++ t :: a.reverse).Nodup := by
    have hrev := nodup_reverse.mpr hnd
    rwa [reverse_append, reverse_cons, append_assoc] at hrev
  rw [reverse_append, reverse_cons, append_assoc, singleton_append] at hbwd
  have hback := hbwd.unlink hnd'
  rw [getLast?_reverse, ← reverse_append, ← hnext] at hback
  refine ⟨?_, ?_⟩
  · have hforth := h.fwd.unlink hnd
    rwa [← hprev] at hforth
  · cases b with
    | nil =>
      rw [hnext, head?_nil, if_pos rfl, hprev] at hback
      rw [append_nil, hnext, head?_nil, hprev]
      rwa [append_nil] at hback
    | cons u b =>
      rw [hnext, head?_cons, if_neg (Option.some_ne_none u)] at hback
      rw [hnext, head?_cons, getLast?_append_of_ne_nil _ (cons_ne_nil u b)]
      rwa [getLast?_append_of_ne_nil _ (cons_ne_nil t _), getLast?_cons_cons] at hback

end Update

end Hallucinate.Lib
