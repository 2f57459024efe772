import Hallucinate.Lib.Links
import Hallucinate.Lib.Trans
import Mathlib.Data.List.Perm.Basic
import Mathlib.Data.List.Perm.Subperm
import Mathlib.Data.Nat.Bitwise
import Mathlib.Data.Nat.ModEq

/-!
# The split virtqueue (`kernel/drivers/virtq_core.c`)

A descriptor table, the available ring that the driver writes and the used ring that the device
writes. Free descriptors are linked by their `next` fields from `free_head` on, and only the first
`num_free` of them count: behind those, stale links stay in memory. A request is a chain of
descriptors, each but the last with the NEXT flag. Table and rings are memory, so they are functions
of the index; the ring indices are 16 bits wide.

`Sys` is the queue with the chains added and not yet taken (`chains`), and with the completions that
the device has put on the used ring and the driver has not taken (`done`). The device completes an
outstanding chain at most once, in any order.

Results: every step keeps `Inv`, and `virtq_conserves` reads off it that no descriptor is lost or held
twice, that outstanding chains keep their buffers, and that completions are taken in ring order.
`take_used_detects` is about a device that writes any id: it is cut to 16 bits before it is checked.
-/

namespace Hallucinate.Drivers

open Lib Function List

/-! ## The queue -/

/-- `VIRTQ_DESC_F_NEXT`. -/
def fNext : UInt16 := 1
/-- `VIRTQ_DESC_F_WRITE`. -/
def fWrite : UInt16 := 2

/-- `struct virtq_desc`. -/
structure VirtqDesc where
  addr : UInt64
  len : UInt32
  flags : UInt16
  next : Nat

/-- `struct virtq_sg`. -/
structure VirtqSg where
  addr : UInt64
  len : UInt32
  deriving DecidableEq

/-- `struct virtq_used_elem`. -/
structure VirtqUsedElem where
  id : Nat
  len : UInt32
  deriving DecidableEq

/-- `struct virtq`, with the fields of its two rings. -/
structure Virtq where
  size : Nat
  desc : Nat → VirtqDesc
  availIdx : Nat
  availRing : Nat → Nat
  usedIdx : Nat
  usedRing : Nat → VirtqUsedElem
  freeHead : Nat
  numFree : Nat
  lastUsed : Nat

/-- `virtq_init` on rings that the caller has zeroed; `mem` is what the table's memory held. -/
def virtqInit (size : Nat) (mem : Nat → VirtqDesc) : Virtq where
  size := size
  desc := fun i =>
    if i < size then
      ⟨0, 0, if i + 1 < size then fNext else 0, if i + 1 < size then i + 1 else 0⟩
    else mem i
  availIdx := 0
  availRing := fun _ => 0
  usedIdx := 0
  usedRing := fun _ => ⟨0, 0⟩
  freeHead := 0
  numFree := size
  lastUsed := 0

/-- The loop of `virtq_add` from buffer `i` on: the table, the descriptor after the last one written,
and the last one written. -/
def addLoop (out total : Nat) : Nat → List VirtqSg → (Nat → VirtqDesc) → Nat → Nat →
    (Nat → VirtqDesc) × Nat × Nat
  | _, [], desc, idx, prev => (desc, idx, prev)
  | i, sg :: sgs, desc, idx, _ =>
    let flags := if out ≤ i then fWrite else 0
    let flags := if i + 1 < total then flags ||| fNext else flags
    addLoop out total (i + 1) sgs
      (update desc idx { desc idx with addr := sg.addr, len := sg.len, flags := flags })
      (desc idx).next idx

/-- `virtq_add`: the head of the new chain, or -1. -/
def virtqAdd (vq : Virtq) (sgs : List VirtqSg) (out inn : Nat) : Int × Virtq :=
  let total := (out + inn) % 2 ^ 16
  if total = 0 ∨ vq.numFree < total then (-1, vq)
  else
    let head := vq.freeHead
    let (desc, idx, prev) := addLoop out total 0 (sgs.take total) vq.desc head head
    (head, { vq with
      desc := update desc prev
        { desc prev with flags := (desc prev).flags &&& ~~~fNext }
      freeHead := idx
      numFree := vq.numFree - total
      availRing := update vq.availRing (vq.availIdx &&& (vq.size - 1)) head
      availIdx := (vq.availIdx + 1) % 2 ^ 16 })

/-- What `virtq_take_used` returns: -1 for an empty ring, -2 for a bad id, or a head and its
length. -/
inductive Taken
  | empty
  | broken
  | chain (id : Nat) (len : UInt32)
  deriving DecidableEq

/-- The walk of `virtq_take_used` to the tail of a chain; at most `fuel` links are followed. -/
def tailWalk (desc : Nat → VirtqDesc) : Nat → Nat → Nat → Nat × Nat
  | 0, tail, count => (tail, count)
  | fuel + 1, tail, count =>
    if (desc tail).flags &&& fNext ≠ 0 then tailWalk desc fuel (desc tail).next (count + 1)
    else (tail, count)

/-- `virtq_take_used`. -/
def virtqTakeUsed (vq : Virtq) : Taken × Virtq :=
  if vq.lastUsed = vq.usedIdx then (.empty, vq)
  else
    let e := vq.usedRing (vq.lastUsed &&& (vq.size - 1))
    let vq := { vq with lastUsed := (vq.lastUsed + 1) % 2 ^ 16 }
    let id := e.id % 2 ^ 16
    if vq.size ≤ id then (.broken, vq)
    else
      let (tail, count) := tailWalk vq.desc (vq.size - 1) id 1
      (.chain id e.len, { vq with
        desc := update vq.desc tail
          { vq.desc tail with flags := fNext, next := vq.freeHead }
        freeHead := id
        numFree := (vq.numFree + count) % 2 ^ 16 })

/-! ## Driver and device -/

/-- A buffer of a request, as the device sees it. -/
structure Buffer where
  addr : UInt64
  len : UInt32
  write : Bool
  deriving DecidableEq

/-- The buffers of a request from the `i`-th on: the first `out` are readable, the others writable. -/
def requestFrom (out : Nat) : Nat → List VirtqSg → List Buffer
  | _, [] => []
  | i, sg :: sgs => ⟨sg.addr, sg.len, decide (out ≤ i)⟩ :: requestFrom out (i + 1) sgs

/-- The buffer of a descriptor. -/
def VirtqDesc.buffer (d : VirtqDesc) : Buffer := ⟨d.addr, d.len, d.flags &&& fWrite ≠ 0⟩

/-- The link of a descriptor on the free list, where the flag is not looked at. -/
def linkNext (desc : Nat → VirtqDesc) (i : Nat) : Option Nat := some (desc i).next

/-- The link of a descriptor in a chain. -/
def chainNext (desc : Nat → VirtqDesc) (i : Nat) : Option Nat :=
  if (desc i).flags &&& fNext ≠ 0 then some (desc i).next else none

/-- The first `num_free` descriptors from `free_head` on. -/
def freeList (vq : Virtq) : List Nat := walk (linkNext vq.desc) vq.numFree (some vq.freeHead)

/-- The descriptors of the chain at `head`, by NEXT flags. -/
def chainDescs (vq : Virtq) (head : Nat) : List Nat :=
  walk (chainNext vq.desc) vq.size (some head)

/-- A request that was added. -/
structure Chain where
  head : Nat
  bufs : List Buffer

structure Sys where
  vq : Virtq
  chains : List Chain
  done : List (Nat × UInt32)

/-- The device completes the chain at `head`. -/
def Virtq.complete (vq : Virtq) (head : Nat) (len : UInt32) : Virtq :=
  { vq with
    usedRing := update vq.usedRing (vq.usedIdx &&& (vq.size - 1)) ⟨head, len⟩
    usedIdx := (vq.usedIdx + 1) % 2 ^ 16 }

inductive Ev
  | add (sgs : List VirtqSg) (out inn : Nat) (r : Int)
  | complete (head : Nat) (len : UInt32)
  | take (r : Taken)

/-- The chains after a call of `virtq_add` that returned `r`. -/
def chainsAdded (chains : List Chain) (sgs : List VirtqSg) (out : Nat) (r : Int) : List Chain :=
  if r = -1 then chains else chains ++ [⟨r.toNat, requestFrom out 0 sgs⟩]

/-- The state after a call of `virtq_take_used` that returned `r`. -/
def Sys.taken (s : Sys) (r : Taken) (vq : Virtq) : Sys :=
  match r with
  | .chain id _ => ⟨vq, s.chains.eraseP fun c => c.head == id, s.done.tail⟩
  | _ => { s with vq := vq }

inductive Step : Sys → Ev → Sys → Prop
  | add (s : Sys) (sgs : List VirtqSg) (out inn : Nat) (hlen : sgs.length = out + inn)
      (hsmall : out + inn < 2 ^ 16) :
      Step s (.add sgs out inn (virtqAdd s.vq sgs out inn).1)
        { s with
          vq := (virtqAdd s.vq sgs out inn).2
          chains := chainsAdded s.chains sgs out (virtqAdd s.vq sgs out inn).1 }
  | complete (s : Sys) (c : Chain) (len : UInt32) (hc : c ∈ s.chains)
      (honce : c.head ∉ s.done.map Prod.fst) :
      Step s (.complete c.head len)
        { s with vq := s.vq.complete c.head len, done := s.done ++ [(c.head, len)] }
  | take (s : Sys) :
      Step s (.take (virtqTakeUsed s.vq).1)
        (s.taken (virtqTakeUsed s.vq).1 (virtqTakeUsed s.vq).2)

/-- A queue with nothing in flight. -/
def Sys.start (size : Nat) (mem : Nat → VirtqDesc) : Sys := ⟨virtqInit size mem, [], []⟩

/-- The chains completed in a run, in time order. -/
def completedIn (evs : List Ev) : List (Nat × UInt32) :=
  evs.filterMap fun
    | .complete head len => some (head, len)
    | _ => none

/-- The chains that `virtq_take_used` returned in a run, in time order. -/
def takenIn (evs : List Ev) : List (Nat × UInt32) :=
  evs.filterMap fun
    | .take (.chain id len) => some (id, len)
    | _ => none

/-! ## Adding a request -/

variable {i idx : Nat}

section Add

variable {desc : Nat → VirtqDesc} {out total : Nat}

/-- The flags `virtq_add` gives to buffer `i`. -/
theorem addFlags_next (out total i : Nat) :
    ((if i + 1 < total then (if out ≤ i then fWrite else 0) ||| fNext
      else if out ≤ i then fWrite else 0) &&& fNext ≠ 0) ↔ i + 1 < total := by
  by_cases h1 : i + 1 < total <;> by_cases h2 : out ≤ i <;> simp [h1, h2] <;> decide

theorem addFlags_write (out total i : Nat) :
    ((if i + 1 < total then (if out ≤ i then fWrite else 0) ||| fNext
      else if out ≤ i then fWrite else 0) &&& fWrite ≠ 0) ↔ out ≤ i := by
  by_cases h1 : i + 1 < total <;> by_cases h2 : out ≤ i <;> simp [h1, h2] <;> decide

/-- What the loop of `virtq_add` has done: the descriptors `ds` of the free list are a chain with the
buffers, links are unchanged, and so is every other descriptor. -/
structure Filled (desc desc' : Nat → VirtqDesc) (idx : Nat) (ds : List Nat) (bufs : List Buffer)
    (last : Nat) : Prop where
  chain : Seg (chainNext desc') (some idx) ds none
  bufs : ds.map (fun i => (desc' i).buffer) = bufs
  links : ∀ i, (desc' i).next = (desc i).next
  other : ∀ i ∉ ds, desc' i = desc i
  last : ds.getLast? = some last

theorem addLoop_spec (out prev : Nat) {sgs : List VirtqSg} {q : Nat} {ds : List Nat}
    (htotal : i + sgs.length = total) (hne : sgs ≠ [])
    (hseg : Seg (linkNext desc) (some idx) ds (some q)) (hlen : ds.length = sgs.length)
    (hnd : ds.Nodup) :
    Filled desc (addLoop out total i sgs desc idx prev).1 idx ds (requestFrom out i sgs)
      (addLoop out total i sgs desc idx prev).2.2 ∧
    (addLoop out total i sgs desc idx prev).2.1 = q := by
  induction sgs generalizing i idx prev ds desc with
  | nil => exact absurd rfl hne
  | cons sg sgs ih =>
    obtain ⟨d, ds, rfl⟩ : ∃ d ds', ds = d :: ds' := by
      cases ds with
      | nil => simp at hlen
      | cons d ds => exact ⟨d, ds, rfl⟩
    obtain ⟨hidx, hseg⟩ := hseg
    obtain rfl : idx = d := by simpa using hidx
    obtain ⟨hd, hnd⟩ := nodup_cons.mp hnd
    rw [addLoop]
    generalize hfl : (if i + 1 < total then (if out ≤ i then fWrite else 0) ||| fNext
      else if out ≤ i then fWrite else 0) = flags
    have hnext := addFlags_next out total i
    have hwrite := addFlags_write out total i
    rw [hfl] at hnext hwrite
    generalize hdesc : update desc idx
      { desc idx with addr := sg.addr, len := sg.len, flags := flags } = desc₁
    have hself : desc₁ idx = { desc idx with addr := sg.addr, len := sg.len, flags := flags } := by
      rw [← hdesc, update_self]
    have hother : ∀ j, j ≠ idx → desc₁ j = desc j := fun j hj => by
      rw [← hdesc, update_of_ne hj]
    have hlinks : ∀ j, (desc₁ j).next = (desc j).next := fun j => by
      by_cases hj : j = idx
      · rw [hj, hself]
      · rw [hother j hj]
    have hbuf : (desc₁ idx).buffer = ⟨sg.addr, sg.len, decide (out ≤ i)⟩ := by
      rw [hself, VirtqDesc.buffer]
      simp only [Buffer.mk.injEq, true_and, decide_eq_decide]
      exact hwrite
    have hcn : chainNext desc₁ idx = if i + 1 < total then some (desc idx).next else none := by
      unfold chainNext
      rw [hself]
      simp only [hnext]
    cases sgs with
    | nil =>
      obtain rfl : ds = [] := by simpa using hlen
      have hq : some (desc idx).next = some q := hseg
      have hlast : ¬i + 1 < total := by simp at htotal; omega
      rw [if_neg hlast] at hcn
      exact ⟨⟨⟨rfl, hcn⟩, by simp [addLoop, requestFrom, hbuf], hlinks,
        fun j hj => hother j (by simpa using hj), rfl⟩, by simpa [addLoop] using hq⟩
    | cons sg' sgs =>
      have hmore : i + 1 < total := by simp at htotal; omega
      rw [if_pos hmore] at hcn
      have hseg₁ : Seg (linkNext desc₁) (some (desc idx).next) ds (some q) :=
        Seg.congr hseg fun j _ => congrArg some (hlinks j)
      have htotal₁ : i + 1 + (sg' :: sgs).length = total := by simp at htotal ⊢; omega
      obtain ⟨hf, hq⟩ : Filled desc₁ (addLoop out total (i + 1) (sg' :: sgs) desc₁ (desc idx).next
            idx).1 (desc idx).next ds (requestFrom out (i + 1) (sg' :: sgs))
            (addLoop out total (i + 1) (sg' :: sgs) desc₁ (desc idx).next idx).2.2 ∧
          (addLoop out total (i + 1) (sg' :: sgs) desc₁ (desc idx).next idx).2.1 = q :=
        ih idx htotal₁ (by simp) hseg₁ (by simpa using hlen) hnd
      refine ⟨⟨⟨rfl, ?_⟩, ?_, fun j => (hf.links j).trans (hlinks j), fun j hj => ?_, ?_⟩, hq⟩
      · have hcn' : chainNext (addLoop out total (i + 1) (sg' :: sgs) desc₁ (desc idx).next idx).1 idx
            = some (desc idx).next := by
          rw [← hcn]
          unfold chainNext
          rw [hf.other idx hd]
        rw [hcn']
        exact hf.chain
      · rw [map_cons, hf.other idx hd, hbuf, hf.bufs]
        rfl
      · have hj' := not_mem_of_not_mem_cons hj
        rw [hf.other j hj', hother j (ne_of_not_mem_cons hj)]
      · rw [getLast?_cons, hf.last]
        rfl

/-- Clearing the NEXT flag of the last descriptor, which has none. -/
theorem Filled.mask {desc' : Nat → VirtqDesc} {last : Nat} {ds : List Nat} {bufs : List Buffer}
    (h : Filled desc desc' idx ds bufs last) : Filled desc (update desc' last
      { desc' last with flags := (desc' last).flags &&& ~~~fNext }) idx ds bufs last := by
  obtain ⟨l, rfl⟩ := getLast?_eq_some_iff.mp h.last
  have hlast : chainNext desc' last = none := h.chain.next_last
  have hmem : last ∈ l ++ [last] := mem_append_right _ mem_cons_self
  generalize hm : update desc' last
    { desc' last with flags := (desc' last).flags &&& ~~~fNext } = desc''
  have hself : desc'' last = { desc' last with flags := (desc' last).flags &&& ~~~fNext } := by
    rw [← hm, update_self]
  have hother : ∀ j, j ≠ last → desc'' j = desc' j := fun j hj => by
    rw [← hm, update_of_ne hj]
  have hnext : chainNext desc'' = chainNext desc' := by
    funext j
    by_cases hj : j = last
    · have hzero : (desc' last).flags &&& ~~~fNext &&& fNext = 0 := by
        rw [UInt16.and_assoc, show ~~~fNext &&& fNext = (0 : UInt16) by decide, UInt16.and_zero]
      rw [hj, hlast, chainNext, hself, if_neg (by simpa using hzero)]
    · unfold chainNext
      rw [hother j hj]
  have hbuf : ∀ j, (desc'' j).buffer = (desc' j).buffer := fun j => by
    by_cases hj : j = last
    · have hkeep : (desc' last).flags &&& ~~~fNext &&& fWrite = (desc' last).flags &&& fWrite := by
        rw [UInt16.and_assoc, show ~~~fNext &&& fWrite = fWrite by decide]
      rw [hj, VirtqDesc.buffer, hself, VirtqDesc.buffer]
      simp only [hkeep]
    · rw [hother j hj]
  refine ⟨hnext ▸ h.chain, ?_, fun j => ?_, fun j hj => ?_, h.last⟩
  · rw [← h.bufs]
    exact map_congr_left fun j _ => hbuf j
  · rw [← h.links j]
    by_cases hj : j = last
    · rw [hj, hself]
    · rw [hother j hj]
  · rw [hother j fun e => hj (e ▸ hmem)]
    exact h.other j hj

/-- Following links from a descriptor never ends. -/
theorem seg_walk (desc : Nat → VirtqDesc) (n h : Nat) :
    ∃ q, Seg (linkNext desc) (some h) (walk (linkNext desc) n (some h)) (some q) := by
  induction n generalizing h with
  | zero => exact ⟨h, rfl⟩
  | succ n ih =>
    obtain ⟨q, hq⟩ := ih (desc h).next
    exact ⟨q, rfl, hq⟩

theorem walk_length (desc : Nat → VirtqDesc) (n h : Nat) :
    (walk (linkNext desc) n (some h)).length = n := by
  induction n generalizing h with
  | zero => rfl
  | succ n ih => rw [walk, length_cons]; exact congrArg (· + 1) (ih _)

variable {vq : Virtq} {sgs : List VirtqSg} {inn : Nat}

/-- A request that is refused changes nothing. -/
theorem virtqAdd_rejected (hsmall : out + inn < 2 ^ 16)
    (h : out + inn = 0 ∨ vq.numFree < out + inn) : virtqAdd vq sgs out inn = (-1, vq) := by
  unfold virtqAdd
  rw [Nat.mod_eq_of_lt hsmall, if_pos h]

/-- The queue `vq'` after `virtq_add` has moved the descriptors `ds` off the front of the free list
into a chain. -/
structure Accepted (vq vq' : Virtq) (ds : List Nat) (bufs : List Buffer) : Prop where
  free : freeList vq = ds ++ freeList vq'
  chain : Seg (chainNext vq'.desc) (some vq.freeHead) ds none
  bufs : ds.map (fun i => (vq'.desc i).buffer) = bufs
  other : ∀ i ∉ ds, vq'.desc i = vq.desc i
  size : vq'.size = vq.size
  used : vq'.usedIdx = vq.usedIdx ∧ vq'.usedRing = vq.usedRing ∧ vq'.lastUsed = vq.lastUsed

theorem virtqAdd_accepted (hsmall : out + inn < 2 ^ 16) (hlen : sgs.length = out + inn)
    (h0 : out + inn ≠ 0) (hle : out + inn ≤ vq.numFree) (hnd : (freeList vq).Nodup) :
    (virtqAdd vq sgs out inn).1 = vq.freeHead ∧ ∃ ds, ds.length = out + inn ∧
      Accepted vq (virtqAdd vq sgs out inn).2 ds (requestFrom out 0 sgs) := by
  obtain ⟨q, hq⟩ := seg_walk vq.desc vq.numFree vq.freeHead
  have hfl : (freeList vq).length = vq.numFree := walk_length vq.desc vq.numFree vq.freeHead
  generalize hds : (freeList vq).take (out + inn) = ds
  generalize hrest : (freeList vq).drop (out + inn) = rest
  have hsplit : freeList vq = ds ++ rest := by rw [← hds, ← hrest, take_append_drop]
  have hdlen : ds.length = out + inn := by rw [← hds, length_take]; omega
  have hrlen : rest.length = vq.numFree - (out + inn) := by rw [← hrest, length_drop, hfl]
  have hdnd : ds.Nodup := by rw [hsplit] at hnd; exact (nodup_append.mp hnd).1
  change Seg (linkNext vq.desc) (some vq.freeHead) (freeList vq) (some q) at hq
  rw [hsplit] at hq
  obtain ⟨r, hseg, hsegr⟩ := hq.of_append
  obtain ⟨r, rfl⟩ : ∃ r', r = some r' := by
    cases rest with
    | nil => exact ⟨q, hsegr⟩
    | cons x xs => exact ⟨x, hsegr.1⟩
  have hne : sgs ≠ [] := by
    rintro rfl
    exact h0 hlen.symm
  obtain ⟨hf, hidx⟩ := addLoop_spec out vq.freeHead (show 0 + sgs.length = out + inn by omega) hne
    hseg (by omega) hdnd
  have hf' := hf.mask
  unfold virtqAdd
  rw [Nat.mod_eq_of_lt hsmall, if_neg (by omega), take_of_length_le (by omega)]
  refine ⟨rfl, ds, hdlen, ?_, hf'.chain, hf'.bufs, hf'.other, rfl, rfl, rfl, rfl⟩
  rw [hsplit]
  congr 1
  have hsegr' := Seg.congr hsegr fun j _ => congrArg some (hf'.links j)
  have hw := hsegr'.walk_eq
  rw [hrlen, ← hidx] at hw
  exact hw.symm

end Add

/-! ## Taking a completion -/

section Take

variable {vq : Virtq} {desc : Nat → VirtqDesc} {l : List Nat} {u id : Nat}

theorem tailWalk_spec {fuel t : Nat} (count : Nat) (h : Seg (chainNext desc) (some t) (l ++ [u]) none)
    (hfuel : l.length ≤ fuel) : tailWalk desc fuel t count = (u, count + l.length) := by
  induction l generalizing fuel t count with
  | nil =>
    obtain rfl : t = u := by simpa using h.1
    have hlast : ¬(desc t).flags &&& fNext ≠ 0 := by
      intro hn
      have hnone : chainNext desc t = none := h.2
      rw [chainNext, if_pos hn] at hnone
      exact Option.some_ne_none _ hnone
    cases fuel with
    | zero => rfl
    | succ fuel => rw [tailWalk, if_neg hlast]; rfl
  | cons a l ih =>
    obtain rfl : t = a := by simpa using h.1
    obtain ⟨fuel, rfl⟩ : ∃ m, fuel = m + 1 := ⟨fuel - 1, by simp at hfuel; omega⟩
    have htail : Seg (chainNext desc) (chainNext desc t) (l ++ [u]) none := h.2
    by_cases hn : (desc t).flags &&& fNext ≠ 0
    · rw [chainNext, if_pos hn] at htail
      rw [tailWalk, if_pos hn, ih (count + 1) htail (by simpa using hfuel), length_cons]
      congr 1
      omega
    · rw [chainNext, if_neg hn] at htail
      exact absurd (htail.nil_iff.mp rfl) (by simp)

/-- A chain is linked by `next` fields up to its last descriptor. -/
theorem seg_linkNext (h : Seg (chainNext desc) (some id) (l ++ [u]) none) :
    ∃ q, Seg (linkNext desc) (some id) (l ++ [u]) (some q) := by
  induction l generalizing id with
  | nil => exact ⟨_, h.1, rfl⟩
  | cons a l ih =>
    obtain rfl : id = a := by simpa using h.1
    have htail : Seg (chainNext desc) (chainNext desc id) (l ++ [u]) none := h.2
    by_cases hn : (desc id).flags &&& fNext ≠ 0
    · rw [chainNext, if_pos hn] at htail
      obtain ⟨q, hq⟩ := ih htail
      exact ⟨q, rfl, hq⟩
    · rw [chainNext, if_neg hn] at htail
      exact absurd (htail.nil_iff.mp rfl) (by simp)

/-- The queue `vq'` after `virtq_take_used` has put the chain `ds` in front of the free list. -/
structure Recycled (vq vq' : Virtq) (ds : List Nat) : Prop where
  free : freeList vq' = ds ++ freeList vq
  other : ∀ i ∉ ds, vq'.desc i = vq.desc i
  size : vq'.size = vq.size
  used : vq'.usedIdx = vq.usedIdx ∧ vq'.usedRing = vq.usedRing ∧
    vq'.lastUsed = (vq.lastUsed + 1) % 2 ^ 16

theorem virtqTakeUsed_empty (h : vq.lastUsed = vq.usedIdx) : virtqTakeUsed vq = (.empty, vq) :=
  if_pos h

theorem virtqTakeUsed_chain {ds : List Nat} {len : UInt32} (hne : vq.lastUsed ≠ vq.usedIdx)
    (hring : vq.usedRing (vq.lastUsed &&& (vq.size - 1)) = ⟨id, len⟩) (hid : id < vq.size)
    (hchain : Seg (chainNext vq.desc) (some id) ds none) (hdisj : (freeList vq ++ ds).Nodup)
    (hfit : vq.numFree + ds.length ≤ vq.size) (hsize : vq.size < 2 ^ 16) :
    (virtqTakeUsed vq).1 = .chain id len ∧ Recycled vq (virtqTakeUsed vq).2 ds := by
  obtain ⟨l, u, rfl⟩ : ∃ l u, ds = l ++ [u] := by
    rcases eq_nil_or_concat ds with rfl | ⟨l, u, rfl⟩
    · exact absurd hchain (Option.some_ne_none _)
    · exact ⟨l, u, concat_eq_append⟩
  rw [List.length_append, List.length_singleton] at hfit
  have hwalk := tailWalk_spec 1 hchain (show l.length ≤ vq.size - 1 by omega)
  obtain ⟨hfl, hds, hcross⟩ := nodup_append.mp hdisj
  have hul : u ∉ l := fun hu => (nodup_append.mp hds).2.2 u hu u mem_cons_self rfl
  have huf : u ∉ freeList vq := fun hu =>
    hcross u hu u (mem_append_right _ mem_cons_self) rfl
  unfold virtqTakeUsed
  rw [if_neg hne]
  simp only [hring, Nat.mod_eq_of_lt (hid.trans hsize), if_neg (Nat.not_le.mpr hid), hwalk]
  refine ⟨trivial, ?_, fun i hi => ?_, rfl, rfl, rfl, rfl⟩
  · obtain ⟨q, hq⟩ := seg_walk vq.desc vq.numFree vq.freeHead
    obtain ⟨q', hq'⟩ := seg_linkNext hchain
    generalize hdesc : update vq.desc u
      { vq.desc u with flags := fNext, next := vq.freeHead } = desc'
    have hlink : linkNext desc' = update (linkNext vq.desc) u (some vq.freeHead) := by
      funext j
      rw [linkNext, ← hdesc]
      by_cases hj : j = u
      · rw [hj, update_self, update_self]
      · rw [update_of_ne hj, update_of_ne hj, linkNext]
    have hseg := (hq'.relink hul (some vq.freeHead)).append (hq.set huf (some vq.freeHead))
    rw [← hlink] at hseg
    have hlen := hseg.walk_eq
    rw [List.length_append, List.length_append, walk_length, List.length_singleton] at hlen
    have hnum : (vq.numFree + (1 + l.length)) % 2 ^ 16 = l.length + 1 + vq.numFree := by
      rw [Nat.mod_eq_of_lt (by omega)]
      omega
    rw [freeList]
    simp only [hnum]
    exact hlen
  · exact update_of_ne (fun e => hi (by rw [e]; simp)) _ _

end Take

/-! ## The invariant -/

/-- The chain of the request `c` is in the table, with the buffers of `c`. -/
def Holds (vq : Virtq) (c : Chain) : Prop :=
  Seg (chainNext vq.desc) (some c.head) (chainDescs vq c.head) none ∧
    (chainDescs vq c.head).map (fun i => (vq.desc i).buffer) = c.bufs

/-- The descriptors of all outstanding chains. -/
def heldDescs (vq : Virtq) (chains : List Chain) : List Nat :=
  chains.flatMap fun c => chainDescs vq c.head

structure Inv (size : Nat) (s : Sys) : Prop where
  sized : s.vq.size = size
  perm : (freeList s.vq ++ heldDescs s.vq s.chains).Perm (List.range size)
  holds : ∀ c ∈ s.chains, Holds s.vq c
  lastUsed : s.vq.lastUsed < 2 ^ 16
  usedIdx : s.vq.usedIdx = (s.vq.lastUsed + s.done.length) % 2 ^ 16
  ring : ∀ j e, s.done[j]? = some e →
    s.vq.usedRing ((s.vq.lastUsed + j) % size) = ⟨e.1, e.2⟩
  once : (s.done.map Prod.fst).Nodup
  known : ∀ h ∈ s.done.map Prod.fst, h ∈ s.chains.map Chain.head

section Keep

variable {vq vq' : Virtq} {c : Chain} {ds : List Nat}

theorem Holds.of_seg (hseg : Seg (chainNext vq.desc) (some c.head) ds none)
    (hlen : ds.length ≤ vq.size) (hbufs : ds.map (fun i => (vq.desc i).buffer) = c.bufs) :
    chainDescs vq c.head = ds ∧ Holds vq c := by
  have hds : chainDescs vq c.head = ds := hseg.walk_list hlen
  rw [Holds, hds]
  exact ⟨rfl, hseg, hbufs⟩

theorem Holds.head_mem (h : Holds vq c) : c.head ∈ chainDescs vq c.head := by
  have hseg := h.1
  cases hd : chainDescs vq c.head with
  | nil =>
    rw [hd] at hseg
    exact absurd hseg (Option.some_ne_none _)
  | cons i l =>
    rw [hd] at hseg
    rw [Option.some.inj hseg.1]
    exact mem_cons_self

/-- A chain depends on its own descriptors only. -/
theorem Holds.congr (h : Holds vq c) (hsize : vq'.size = vq.size)
    (hd : ∀ i ∈ chainDescs vq c.head, vq'.desc i = vq.desc i) :
    chainDescs vq' c.head = chainDescs vq c.head ∧ Holds vq' c := by
  have hlen : (chainDescs vq c.head).length ≤ vq'.size := by
    rw [hsize]
    exact walk_length_le _ _
  refine Holds.of_seg (h.1.congr fun i hi => ?_) hlen ?_
  · rw [chainNext, hd i hi, chainNext]
  · rw [← h.2]
    exact map_congr_left fun i hi => by rw [hd i hi]

theorem heldDescs_congr {chains : List Chain} (h : ∀ c ∈ chains, Holds vq c)
    (hsize : vq'.size = vq.size) (hd : ∀ i ∈ heldDescs vq chains, vq'.desc i = vq.desc i) :
    heldDescs vq' chains = heldDescs vq chains ∧ ∀ c ∈ chains, Holds vq' c := by
  have hone : ∀ c ∈ chains, chainDescs vq' c.head = chainDescs vq c.head ∧ Holds vq' c :=
    fun c hc => (h c hc).congr hsize fun i hi => hd i (mem_flatMap.mpr ⟨c, hc, hi⟩)
  refine ⟨?_, fun c hc => (hone c hc).2⟩
  unfold heldDescs
  rw [flatMap_congr fun c hc => (hone c hc).1]

end Keep

section Inv

variable {size : Nat} {s : Sys}

section

variable (h : Inv size s)
include h

theorem Inv.nodup : (freeList s.vq ++ heldDescs s.vq s.chains).Nodup :=
  h.perm.nodup_iff.mpr nodup_range

theorem Inv.lt (hi : i ∈ freeList s.vq ++ heldDescs s.vq s.chains) : i < size :=
  mem_range.mp (h.perm.mem_iff.mp hi)

theorem Inv.head_lt {c : Chain} (hc : c ∈ s.chains) : c.head < size :=
  h.lt (mem_append_right _ (mem_flatMap.mpr ⟨c, hc, (h.holds c hc).head_mem⟩))

theorem Inv.count : s.vq.numFree + (heldDescs s.vq s.chains).length = size := by
  have hlen := h.perm.length_eq
  rw [List.length_append, length_range, freeList, walk_length] at hlen
  exact hlen

/-- Completions are of different chains, so there are at most as many as descriptors. -/
theorem Inv.done_le {heads : List Nat} (hnd : heads.Nodup)
    (hsub : ∀ i ∈ heads, i ∈ s.chains.map Chain.head) : heads.length ≤ size := by
  have hsub' : heads ⊆ List.range size := fun i hi => by
    obtain ⟨c, hc, rfl⟩ := mem_map.mp (hsub i hi)
    exact mem_range.mpr (h.head_lt hc)
  simpa using (hnd.subperm hsub').length_le

end

theorem inv_start (mem : Nat → VirtqDesc) (size : Nat) : Inv size (Sys.start size mem) := by
  refine ⟨rfl, ?_, ?_, Nat.two_pow_pos 16, rfl, ?_, nodup_nil, ?_⟩
  · have hfree : ∀ n i, i + n = size →
        walk (linkNext (virtqInit size mem).desc) n (some i) = List.range' i n := by
      intro n
      induction n with
      | zero => exact fun _ _ => rfl
      | succ n ih =>
        intro i hi
        rw [walk, range'_succ]
        cases n with
        | zero => rfl
        | succ n =>
          have hnext : linkNext (virtqInit size mem).desc i = some (i + 1) := by
            simp only [linkNext, virtqInit, if_pos (show i < size by omega),
              if_pos (show i + 1 < size by omega)]
          rw [hnext, ih (i + 1) (by omega)]
    have hall : freeList (virtqInit size mem) = List.range size := by
      rw [range_eq_range']
      exact hfree size 0 (Nat.zero_add size)
    simp [Sys.start, heldDescs, hall]
  all_goals simp [Sys.start]

end Inv

/-! ## Runs -/

variable {e : Ev} {evs : List Ev}

section Runs

variable {k : Nat} {s s' : Sys}

theorem Inv.add (h : Inv (2 ^ k) s) {sgs : List VirtqSg} {out inn : Nat}
    (hlen : sgs.length = out + inn) (hsmall : out + inn < 2 ^ 16) :
    Inv (2 ^ k) { s with
      vq := (virtqAdd s.vq sgs out inn).2
      chains := chainsAdded s.chains sgs out (virtqAdd s.vq sgs out inn).1 } := by
  by_cases hrej : out + inn = 0 ∨ s.vq.numFree < out + inn
  · rw [virtqAdd_rejected hsmall hrej]
    exact h
  obtain ⟨h0, hle⟩ := not_or.mp hrej
  obtain ⟨hfl, -, hcross⟩ := nodup_append.mp h.nodup
  obtain ⟨hhead, ds, hdlen, ha⟩ := virtqAdd_accepted hsmall hlen h0 (Nat.le_of_not_lt hle) hfl
  generalize (virtqAdd s.vq sgs out inn).2 = vq' at ha
  have hchains : chainsAdded s.chains sgs out (virtqAdd s.vq sgs out inn).1 =
      s.chains ++ [⟨s.vq.freeHead, requestFrom out 0 sgs⟩] := by
    rw [hhead, chainsAdded, if_neg (by omega)]
    rfl
  rw [hchains]
  have hcount := h.count
  -- the new chain was free, so the old chains have other descriptors
  obtain ⟨hheld, hholds⟩ := heldDescs_congr h.holds ha.size fun i hi => ha.other i fun hds =>
    hcross i (by rw [ha.free]; exact mem_append_left _ hds) i hi rfl
  obtain ⟨hnew, hnewHolds⟩ := Holds.of_seg (c := ⟨s.vq.freeHead, requestFrom out 0 sgs⟩) ha.chain
    (by rw [ha.size, h.sized]; omega) ha.bufs
  obtain ⟨hidx, hring, hlast⟩ := ha.used
  refine ⟨ha.size.trans h.sized, ?_, fun c hc => ?_, ?_, ?_, ?_, h.once, fun i hi => ?_⟩
  · have hsplit : heldDescs vq' (s.chains ++ [⟨s.vq.freeHead, requestFrom out 0 sgs⟩]) =
        heldDescs s.vq s.chains ++ ds := by
      rw [← hheld, ← hnew]
      simp [heldDescs]
    have hperm := h.perm
    rw [ha.free, append_assoc] at hperm
    simp only [hsplit, ← append_assoc]
    exact perm_append_comm.trans hperm
  · rcases mem_append.mp hc with hc | hc
    · exact hholds c hc
    · obtain rfl := mem_singleton.mp hc
      exact hnewHolds
  · simpa only [hlast] using h.lastUsed
  · simpa only [hlast, hidx] using h.usedIdx
  · simpa only [hlast, hring] using h.ring
  · rw [map_append]
    exact mem_append_left _ (h.known i hi)

/-- A ring of `2 ^ k` slots indexed by a 16-bit counter. -/
theorem ring_index (hk : k ≤ 15) (x : Nat) : (x % 2 ^ 16) &&& (2 ^ k - 1) = x % 2 ^ k := by
  rw [Nat.and_two_pow_sub_one_eq_mod]
  exact Nat.mod_mod_of_dvd x (Nat.pow_dvd_pow 2 (by omega))

theorem ring_ne {n j : Nat} (a : Nat) (hi : i < j) (hj : j < n) : (a + i) % n ≠ (a + j) % n := by
  intro he
  have hmod : i ≡ j [MOD n] := Nat.ModEq.add_left_cancel' a he
  exact absurd (hmod.eq_of_lt_of_lt (hi.trans hj) hj) (Nat.ne_of_lt hi)

section

variable (hk : k ≤ 15) (h : Inv (2 ^ k) s)
include hk h

theorem Inv.complete {c : Chain} (hc : c ∈ s.chains) (honce : c.head ∉ s.done.map Prod.fst)
    (len : UInt32) : Inv (2 ^ k)
      { s with vq := s.vq.complete c.head len, done := s.done ++ [(c.head, len)] } := by
  have hheads : ∀ i ∈ c.head :: s.done.map Prod.fst, i ∈ s.chains.map Chain.head := by
    intro i hi
    rcases mem_cons.mp hi with rfl | hi
    · exact mem_map_of_mem hc
    · exact h.known i hi
  have hroom : s.done.length < 2 ^ k := by
    have hle := h.done_le (nodup_cons.mpr ⟨honce, h.once⟩) hheads
    rwa [length_cons, length_map] at hle
  have hslot : s.vq.usedIdx &&& (s.vq.size - 1) = (s.vq.lastUsed + s.done.length) % 2 ^ k := by
    rw [h.usedIdx, h.sized, ring_index hk]
  refine ⟨h.sized, h.perm, h.holds, h.lastUsed, ?_, fun j e hj => ?_, ?_, fun i hi => ?_⟩
  · simp only [Virtq.complete, h.usedIdx, List.length_append, List.length_singleton]
    omega
  · simp only [Virtq.complete, hslot]
    rcases Nat.lt_or_ge j s.done.length with hlt | hge
    · rw [getElem?_append_left hlt] at hj
      rw [update_of_ne (ring_ne _ hlt hroom)]
      exact h.ring j e hj
    · have hlt' := (List.getElem?_eq_some_iff.mp hj).1
      obtain rfl : j = s.done.length := by
        simp only [List.length_append, List.length_singleton] at hlt'
        omega
      simp only [getElem?_concat_length, Option.some.injEq] at hj
      rw [update_self, ← hj]
  · simp only [map_append, map_cons, map_nil]
    exact nodup_append.mpr ⟨h.once, nodup_singleton _, fun a ha b hb => by
      rw [mem_singleton.mp hb]
      exact fun e => honce (e ▸ ha)⟩
  · simp only [map_append, map_cons, map_nil, mem_append,
      mem_singleton] at hi
    exact hheads i (by rw [mem_cons]; exact hi.symm)

theorem Inv.empty_iff : s.vq.lastUsed = s.vq.usedIdx ↔ s.done = [] := by
  have hle : s.done.length ≤ 2 ^ k := by
    simpa using h.done_le h.once h.known
  have hpow : 2 ^ k ≤ 2 ^ 15 := Nat.pow_le_pow_right (by decide) hk
  have hlast := h.lastUsed
  rw [h.usedIdx, ← length_eq_zero_iff]
  omega

/-- What `virtq_take_used` returns and does in a queue that is in order. -/
theorem Inv.take : (s.done = [] ∧ virtqTakeUsed s.vq = (.empty, s.vq)) ∨
    ∃ id len rest, s.done = (id, len) :: rest ∧ (virtqTakeUsed s.vq).1 = .chain id len ∧
      Inv (2 ^ k) (s.taken (.chain id len) (virtqTakeUsed s.vq).2) := by
  rcases hd : s.done with _ | ⟨⟨id, len⟩, rest⟩
  · exact .inl ⟨rfl, virtqTakeUsed_empty ((h.empty_iff hk).mpr hd)⟩
  refine .inr ⟨id, len, rest, rfl, ?_⟩
  have hne : s.vq.lastUsed ≠ s.vq.usedIdx := fun e => by
    rw [(h.empty_iff hk).mp e] at hd
    exact absurd hd (by simp)
  have hslot : s.vq.usedRing (s.vq.lastUsed &&& (s.vq.size - 1)) = ⟨id, len⟩ := by
    rw [← Nat.mod_eq_of_lt h.lastUsed, h.sized, ring_index hk]
    exact h.ring 0 (id, len) (by rw [hd]; rfl)
  -- the chain that is given back
  obtain ⟨c, hc, hcid⟩ := mem_map.mp (h.known id (by rw [hd]; exact mem_cons_self))
  obtain ⟨c, l₁, l₂, hl₁, hchead, hsplit, herase⟩ :=
    exists_of_eraseP (p := fun c : Chain => c.head == id) hc (by simpa using hcid)
  obtain rfl : c.head = id := by simpa using hchead
  have hcmem : c ∈ s.chains := by rw [hsplit]; simp
  have hheld : (freeList s.vq ++ heldDescs s.vq s.chains).Perm
      (freeList s.vq ++ chainDescs s.vq c.head ++ heldDescs s.vq (l₁ ++ l₂)) := by
    rw [append_assoc, hsplit]
    refine List.Perm.append_left _ ?_
    simp only [heldDescs, flatMap_append, flatMap_cons, ← append_assoc]
    exact List.Perm.append_right _ perm_append_comm
  have hnd := hheld.nodup_iff.mp h.nodup
  obtain ⟨hfree, -, hcross⟩ := nodup_append.mp hnd
  have hcount := hheld.length_eq.symm.trans h.perm.length_eq
  simp only [List.length_append, length_range, freeList, walk_length] at hcount
  have hpow : 2 ^ k ≤ 2 ^ 15 := Nat.pow_le_pow_right (by decide) hk
  obtain ⟨hret, hr⟩ := virtqTakeUsed_chain hne hslot (by rw [h.sized]; exact h.head_lt hcmem)
    (h.holds c hcmem).1 hfree (by rw [h.sized]; omega) (by rw [h.sized]; omega)
  generalize (virtqTakeUsed s.vq).2 = vq' at hr
  have hrest : ∀ c ∈ l₁ ++ l₂, Holds s.vq c := fun c' hc' =>
    h.holds c' (mem_of_mem_eraseP (by rw [herase]; exact hc'))
  obtain ⟨hkeep, hholds⟩ := heldDescs_congr hrest hr.size fun i hi => hr.other i fun hds =>
    hcross i (mem_append_right _ hds) i hi rfl
  obtain ⟨hidx, hring, hlast⟩ := hr.used
  have honce := h.once
  rw [hd, map_cons, nodup_cons] at honce
  refine ⟨hret, ?_⟩
  simp only [Sys.taken, herase, hd, tail_cons]
  refine ⟨hr.size.trans h.sized, ?_, hholds, ?_, ?_, fun j e hj => ?_, honce.2, fun i hi => ?_⟩
  · rw [hr.free, hkeep]
    refine List.Perm.trans ?_ (hheld.symm.trans h.perm)
    exact List.Perm.append_right _ perm_append_comm
  · rw [hlast]
    exact Nat.mod_lt _ (by decide)
  · rw [hidx, hlast, h.usedIdx, hd, length_cons, Nat.mod_add_mod, Nat.add_right_comm]
    rfl
  · have hold := h.ring (j + 1) e (by rw [hd]; exact hj)
    simp only [hring, hlast]
    rw [← hold, ← Nat.mod_mod_of_dvd _ (Nat.pow_dvd_pow 2 (show k ≤ 16 by omega)),
      Nat.mod_add_mod, Nat.mod_mod_of_dvd _ (Nat.pow_dvd_pow 2 (show k ≤ 16 by omega))]
    congr 2
    omega
  · have hin := h.known i (by rw [hd]; exact mem_cons_of_mem _ hi)
    have hne : i ≠ c.head := fun e => honce.1 (e ▸ hi)
    rw [hsplit] at hin
    simp only [map_append, map_cons, mem_append, mem_cons] at hin ⊢
    tauto

theorem Step.inv (hs : Step s e s') : Inv (2 ^ k) s' := by
  cases hs with
  | add sgs out inn hlen hsmall => exact h.add hlen hsmall
  | complete c len hc honce => exact h.complete hk hc honce len
  | take =>
    rcases h.take hk with ⟨-, he⟩ | ⟨id, len, rest, -, he, hinv⟩
    · rw [he]
      exact h
    · rw [he]
      exact hinv

/-- The completions taken, followed by those still on the ring, are those the device made. -/
theorem Step.order (hs : Step s e s') (ho : takenIn evs ++ s.done = completedIn evs) :
    takenIn (evs ++ [e]) ++ s'.done = completedIn (evs ++ [e]) := by
  rw [takenIn, completedIn, filterMap_append, filterMap_append, ← takenIn, ← completedIn,
    ← ho]
  cases hs with
  | add sgs out inn hlen hsmall => simp [takenIn]
  | complete c len hc honce => simp [takenIn]
  | take =>
    rcases h.take hk with ⟨-, he⟩ | ⟨id, len, rest, hd, he, -⟩
    · simp [takenIn, he, Sys.taken]
    · simp [takenIn, he, Sys.taken, hd]

end

theorem run_inv (hk : k ≤ 15) {mem : Nat → VirtqDesc} (hr : Run Step (Sys.start (2 ^ k) mem) evs s) :
    
    Inv (2 ^ k) s ∧ takenIn evs ++ s.done = completedIn evs :=
  Run.invariant (P := fun evs s => Inv (2 ^ k) s ∧ takenIn evs ++ s.done = completedIn evs)
    ⟨inv_start mem _, rfl⟩ (fun hp hs => ⟨hs.inv hk hp.1, hs.order hk hp.1 hp.2⟩) hr

/-- **Descriptors are conserved.** In every run of a queue of size `2 ^ k`, up to 32768: the free
descriptors and those of the outstanding chains are all descriptors, each once; `virtq_add` refuses
exactly the empty requests and those for more than `num_free` descriptors; an outstanding chain ends
and lists the buffers it was added with; and completions are taken in the order they were made, the
next one being the oldest on the ring. -/
theorem virtq_conserves (hk : k ≤ 15) {mem : Nat → VirtqDesc} {evs : List Ev}
    (hr : Run Step (Sys.start (2 ^ k) mem) evs s) :
    (freeList s.vq ++ s.chains.flatMap fun c => chainDescs s.vq c.head).Perm (List.range (2 ^ k)) ∧
    (∀ sgs out inn, sgs.length = out + inn → out + inn < 2 ^ 16 →
      ((virtqAdd s.vq sgs out inn).1 = -1 ↔ out + inn = 0 ∨ s.vq.numFree < out + inn)) ∧
    (∀ c ∈ s.chains, Seg (chainNext s.vq.desc) (some c.head) (chainDescs s.vq c.head) none ∧
      (chainDescs s.vq c.head).map (fun i => (s.vq.desc i).buffer) = c.bufs) ∧
    takenIn evs ++ s.done = completedIn evs ∧
    (virtqTakeUsed s.vq).1 = (match s.done with
      | [] => .empty
      | (id, len) :: _ => .chain id len) := by
  obtain ⟨h, ho⟩ := run_inv hk hr
  refine ⟨h.perm, fun sgs out inn hlen hsmall => ?_, h.holds, ho, ?_⟩
  · constructor
    · intro hret
      by_contra hacc
      obtain ⟨h0, hle⟩ := not_or.mp hacc
      have hfl := (nodup_append.mp h.nodup).1
      have hhead := (virtqAdd_accepted hsmall hlen h0 (Nat.le_of_not_lt hle) hfl).1
      omega
    · intro hrej
      rw [virtqAdd_rejected hsmall hrej]
  · rcases h.take hk with ⟨hd, he⟩ | ⟨id, len, rest, hd, he, -⟩
    · rw [hd, he]
    · rw [hd, he]

/-- A queue of two descriptors, after one request was added, completed and taken. -/
theorem virtq_conserves_two : ∃ s : Sys, s.chains = [] ∧
    (freeList s.vq ++ s.chains.flatMap fun c => chainDescs s.vq c.head).Perm (List.range 2) := by
  have h0 : Run Step (Sys.start (2 ^ 1) fun _ => ⟨0, 0, 0, 0⟩) [] _ := Run.nil
  have h1 := h0.snoc (Step.add _ [⟨4096, 16⟩, ⟨8192, 512⟩] 1 1 rfl (by decide))
  have h2 := h1.snoc (Step.complete _ ⟨0, [⟨4096, 16, false⟩, ⟨8192, 512, true⟩]⟩ 512
    (by simp [chainsAdded, virtqAdd, Sys.start, virtqInit, requestFrom]) (by simp [Sys.start]))
  have h3 := h2.snoc (Step.take _)
  exact ⟨_, by rfl, (virtq_conserves (by decide) h3).1⟩

end Runs

/-! ## Bad ids -/

section BadId

variable {vq : Virtq}

/-- The element of the used ring that is taken next. -/
def Virtq.nextUsed (vq : Virtq) : VirtqUsedElem := vq.usedRing (vq.lastUsed &&& (vq.size - 1))

/-- -2 and an untouched free list exactly for an id that is not below the queue size; every other id is
returned. -/
def Virtq.Detects (vq : Virtq) : Prop :=
  (((virtqTakeUsed vq).1 = .broken ∧ (virtqTakeUsed vq).2.freeHead = vq.freeHead ∧
      (virtqTakeUsed vq).2.numFree = vq.numFree ∧ (virtqTakeUsed vq).2.desc = vq.desc) ↔
    ¬ vq.nextUsed.id < vq.size) ∧
  (vq.nextUsed.id < vq.size → (virtqTakeUsed vq).1 = .chain vq.nextUsed.id vq.nextUsed.len)

/-- What `virtq_take_used` does with an id whose low half is out of range. -/
theorem take_broken (hnew : vq.lastUsed ≠ vq.usedIdx) (hid : vq.size ≤ vq.nextUsed.id % 2 ^ 16) :
    virtqTakeUsed vq = (.broken, { vq with lastUsed := (vq.lastUsed + 1) % 2 ^ 16 }) := by
  rw [virtqTakeUsed, if_neg hnew]
  exact if_pos hid

theorem take_chain (hnew : vq.lastUsed ≠ vq.usedIdx) (hid : vq.nextUsed.id % 2 ^ 16 < vq.size) :
    (virtqTakeUsed vq).1 = .chain (vq.nextUsed.id % 2 ^ 16) vq.nextUsed.len := by
  rw [virtqTakeUsed, if_neg hnew]
  show (if vq.size ≤ vq.nextUsed.id % 2 ^ 16 then _ else _ : Taken × Virtq).1 = _
  rw [if_neg (Nat.not_le.mpr hid)]
  rfl

/-- **`virtq_take_used` looks at the low half of an id only**: it detects the bad ids exactly when that
half is out of range too. -/
theorem take_used_detects (hsize : vq.size < 2 ^ 16) (hnew : vq.lastUsed ≠ vq.usedIdx) :
    vq.Detects ↔ vq.nextUsed.id < vq.size ∨ vq.size ≤ vq.nextUsed.id % 2 ^ 16 := by
  by_cases hlow : vq.size ≤ vq.nextUsed.id % 2 ^ 16
  · have hbad : ¬ vq.nextUsed.id < vq.size := fun hlt => by
      have hle := Nat.mod_le vq.nextUsed.id (2 ^ 16)
      omega
    refine ⟨fun _ => .inr hlow, fun _ => ?_⟩
    rw [Virtq.Detects, take_broken hnew hlow]
    exact ⟨⟨fun _ => hbad, fun _ => ⟨rfl, rfl, rfl, rfl⟩⟩, fun hlt => absurd hlt hbad⟩
  · have htaken := take_chain hnew (Nat.lt_of_not_le hlow)
    refine ⟨fun hd => .inl ?_, fun hok => ?_⟩
    · by_contra hbad
      have hbroken := (hd.1.mpr hbad).1
      rw [htaken] at hbroken
      cases hbroken
    · have hlt := hok.resolve_right hlow
      rw [Nat.mod_eq_of_lt (by omega)] at htaken
      rw [Virtq.Detects, htaken]
      exact ⟨⟨fun hbroken => Taken.noConfusion hbroken.1, fun hbad => absurd hlt hbad⟩, fun _ => rfl⟩

/-- A queue of eight descriptors whose used ring has one element. -/
def oneUsed (id : Nat) : Virtq :=
  { virtqInit 8 fun _ => ⟨0, 0, 0, 0⟩ with usedIdx := 1, usedRing := fun _ => ⟨id, 0⟩ }

theorem take_used_detects_eight : (oneUsed 8).Detects :=
  (take_used_detects (by decide) (by decide)).mpr (.inr (by decide))

/-- The id 65536 is taken for 0. -/
theorem bogus_id_taken : ¬ (oneUsed 65536).nextUsed.id < (oneUsed 65536).size ∧
    (virtqTakeUsed (oneUsed 65536)).1 = .chain 0 0 ∧ ¬ (oneUsed 65536).Detects := by
  refine ⟨by decide, by decide, fun hd => ?_⟩
  have hbroken := (hd.1.mpr (by decide)).1
  exact absurd hbroken (by decide)

end BadId

end Hallucinate.Drivers
