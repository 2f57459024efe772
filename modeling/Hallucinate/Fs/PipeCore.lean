import Hallucinate.Lib.Ring
import Hallucinate.Lib.Trans

/-!
# The pipe ring buffer (`kernel/fs/pipe_core.c`)

`buf` is the caller's byte array as a map from offsets; only offsets below `cap` are read or
written. `size_t` is `Nat`: every sum the C forms is below `2 * cap`.

`content` is the queue a ring stands for, `count` bytes from `head` on, wrapping. Results:
`pipeCoreRead` returns and removes its first `min len count` bytes (`pipeCoreRead_bytes`,
`content_pipeCoreRead`), `pipeCoreWrite` appends the first `min len (cap - count)` bytes of its
source (`content_pipeCoreWrite`), and both keep the bounds `RingOk`. `pipeCore_refines_queue`: over
any sequence of calls the ring answers as a bounded queue does, and no byte of its content is
overwritten.
-/

namespace Hallucinate.Fs

open Hallucinate.Lib

/-- `struct pipe_core`. -/
structure PipeCore where
  buf : Nat → UInt8
  cap : Nat
  head : Nat
  count : Nat

/-- `pipe_core_init`. -/
def pipeCoreInit (buf : Nat → UInt8) (cap : Nat) : PipeCore := ⟨buf, cap, 0, 0⟩

/-- `pipe_core_avail`. -/
def pipeCoreAvail (pc : PipeCore) : Nat := pc.count

/-- `pipe_core_space`. -/
def pipeCoreSpace (pc : PipeCore) : Nat := pc.cap - pc.count

/-- `pipe_core_read`: the bytes copied to `dst` (their number is the return value) and the ring
after. -/
def pipeCoreRead (pc : PipeCore) (len : Nat) : List UInt8 × PipeCore :=
  let n := if len < pc.count then len else pc.count
  let first := if pc.cap - pc.head > n then n else pc.cap - pc.head
  (slice pc.buf pc.head first ++ slice pc.buf 0 (n - first),
    { pc with head := (pc.head + n) % pc.cap, count := pc.count - n })

/-- `pipe_core_write`: the number of bytes taken from `src` and the ring after. -/
def pipeCoreWrite (pc : PipeCore) (src : List UInt8) : Nat × PipeCore :=
  let space := pc.cap - pc.count
  let n := if src.length < space then src.length else space
  let tail := (pc.head + pc.count) % pc.cap
  let first := if pc.cap - tail > n then n else pc.cap - tail
  (n, { pc with
    buf := copyIn (copyIn pc.buf tail (src.take first)) 0 ((src.drop first).take (n - first))
    count := pc.count + n })

/-- The bytes in the ring, oldest first. -/
def content (pc : PipeCore) : List UInt8 := window pc.buf pc.cap pc.head pc.count

/-- The ring's bounds. -/
structure RingOk (pc : PipeCore) : Prop where
  head_lt : pc.head < pc.cap
  count_le : pc.count ≤ pc.cap

variable {cap : Nat}

theorem ringOk_init (buf : Nat → UInt8) (h : 0 < cap) : RingOk (pipeCoreInit buf cap) :=
  ⟨h, Nat.zero_le _⟩

@[simp] theorem content_length (pc : PipeCore) : (content pc).length = pc.count :=
  window_length ..

theorem content_eq_nil_iff (pc : PipeCore) : content pc = [] ↔ pc.count = 0 := by
  rw [← List.length_eq_zero_iff, content_length]

/-- The C's `first = a; if (first > n) first = n`. -/
theorem clamp_eq_min (a n : Nat) : (if a > n then n else a) = min n a := by
  split <;> omega

/-- The C's `(a < b) ? a : b`. -/
theorem lesser_eq_min (a b : Nat) : (if a < b then a else b) = min a b := by
  split <;> omega

variable {pc : PipeCore}

/-! ## Reading -/

section

variable (pc : PipeCore) (len : Nat)

theorem pipeCoreRead_eq : pipeCoreRead pc len =
      (slice pc.buf pc.head (min (min len pc.count) (pc.cap - pc.head)) ++
          slice pc.buf 0 (min len pc.count - min (min len pc.count) (pc.cap - pc.head)),
        { pc with
          head := (pc.head + min len pc.count) % pc.cap, count := pc.count - min len pc.count }) := by
  simp only [pipeCoreRead, clamp_eq_min]

@[simp] theorem pipeCoreRead_cap : (pipeCoreRead pc len).2.cap = pc.cap := rfl

@[simp] theorem pipeCoreRead_count :
    (pipeCoreRead pc len).2.count = pc.count - min len pc.count := by
  rw [pipeCoreRead_eq]

end

/-- **A read returns the oldest bytes.** -/
theorem pipeCoreRead_bytes (h : RingOk pc) (len : Nat) :
    (pipeCoreRead pc len).1 = (content pc).take len := by
  have hn : min len pc.count ≤ pc.count := Nat.min_le_right _ _
  rw [List.take_eq_take_min, content_length, pipeCoreRead_eq, content, window_take _ _ _ hn,
    window_eq_slices _ h.head_lt (Nat.le_trans hn h.count_le)]

theorem content_pipeCoreRead (pc : PipeCore) (len : Nat) :
    content (pipeCoreRead pc len).2 = (content pc).drop len := by
  rw [List.drop_eq_drop_min, content_length, pipeCoreRead_eq, content, content,
    window_drop _ _ _ (Nat.min_le_right _ _)]

theorem ringOk_pipeCoreRead (h : RingOk pc) (len : Nat) : RingOk (pipeCoreRead pc len).2 := by
  have hh := h.head_lt
  have hc := h.count_le
  constructor
  · rw [pipeCoreRead_eq]
    exact Nat.mod_lt _ (by omega)
  · rw [pipeCoreRead_count, pipeCoreRead_cap]
    omega

/-! ## Writing -/

section

variable (pc : PipeCore) (src : List UInt8)

theorem pipeCoreWrite_fst : (pipeCoreWrite pc src).1 = min src.length (pc.cap - pc.count) := by
  simp only [pipeCoreWrite, lesser_eq_min]

@[simp] theorem pipeCoreWrite_cap : (pipeCoreWrite pc src).2.cap = pc.cap := rfl

@[simp] theorem pipeCoreWrite_head : (pipeCoreWrite pc src).2.head = pc.head := rfl

@[simp] theorem pipeCoreWrite_count :
    (pipeCoreWrite pc src).2.count = pc.count + (pipeCoreWrite pc src).1 := rfl

/-- The two chunks a write copies are one wrapping copy of what it accepts. -/
theorem pipeCoreWrite_buf :
    (pipeCoreWrite pc src).2.buf = copyInWrap pc.buf pc.cap ((pc.head + pc.count) % pc.cap)
      (src.take (pipeCoreWrite pc src).1) := by
  have hn : (pipeCoreWrite pc src).1 ≤ src.length := by
    rw [pipeCoreWrite_fst]; exact Nat.min_le_left _ _
  unfold copyInWrap
  rw [List.length_take_of_le hn]
  simp only [pipeCoreWrite, clamp_eq_min, List.take_take, List.drop_take]
  rw [Nat.min_eq_left (Nat.min_le_left _ _)]

end

/-- **A write appends what it accepts.** -/
theorem content_pipeCoreWrite (h : RingOk pc) (src : List UInt8) :
    content (pipeCoreWrite pc src).2 = content pc ++ src.take (pipeCoreWrite pc src).1 := by
  have hh := h.head_lt
  have hc := h.count_le
  have hfst := pipeCoreWrite_fst pc src
  have hlen : (src.take (pipeCoreWrite pc src).1).length = (pipeCoreWrite pc src).1 :=
    List.length_take_of_le (by omega)
  unfold content
  rw [pipeCoreWrite_count, pipeCoreWrite_cap, pipeCoreWrite_head, window_add, pipeCoreWrite_buf,
    window_copyInWrap_behind _ hh (by omega)]
  congr 1
  have htail : (pc.head + pc.count) % pc.cap < pc.cap := Nat.mod_lt _ (by omega)
  have hfit : (src.take (pipeCoreWrite pc src).1).length ≤ pc.cap := by omega
  have hnew := window_copyInWrap pc.buf htail hfit
  rwa [hlen] at hnew

theorem ringOk_pipeCoreWrite (h : RingOk pc) (src : List UInt8) :
    RingOk (pipeCoreWrite pc src).2 := by
  have hfst := pipeCoreWrite_fst pc src
  have hc := h.count_le
  refine ⟨h.head_lt, ?_⟩
  rw [pipeCoreWrite_count, pipeCoreWrite_cap]
  omega

/-- **A write changes only ring bytes outside the content.** -/
theorem pipeCoreWrite_overwrites (h : RingOk pc) {src : List UInt8} {i : Nat}
    (hi : (pipeCoreWrite pc src).2.buf i ≠ pc.buf i) :
    i < pc.cap ∧ ∀ j < pc.count, i ≠ (pc.head + j) % pc.cap := by
  have hh := h.head_lt
  have hc := h.count_le
  have hlen : (src.take (pipeCoreWrite pc src).1).length ≤ pc.cap - pc.count := by
    rw [pipeCoreWrite_fst, List.length_take]
    omega
  rw [pipeCoreWrite_buf] at hi
  refine ⟨?_, fun j hj e => hi ?_⟩
  · by_contra hge
    exact hi (copyInWrap_of_le _ (Nat.mod_lt _ (by omega)) (by omega) (by omega))
  · rw [e]
    exact copyInWrap_behind _ hh (by omega) hj

/-! ## The ring as a queue -/

/-- A call on a ring. -/
inductive RingCall
  | write (src : List UInt8)
  | read (len : Nat)

/-- What a call returns, the bytes it copies to `dst`, and the ring after. -/
def ringCall (pc : PipeCore) : RingCall → (Nat × List UInt8) × PipeCore
  | .write src => (((pipeCoreWrite pc src).1, []), (pipeCoreWrite pc src).2)
  | .read len =>
    (((pipeCoreRead pc len).1.length, (pipeCoreRead pc len).1), (pipeCoreRead pc len).2)

/-- The same of a queue of at most `cap` bytes. -/
def queueCall (cap : Nat) (q : List UInt8) : RingCall → (Nat × List UInt8) × List UInt8
  | .write src =>
    let n := min src.length (cap - q.length)
    ((n, []), q ++ src.take n)
  | .read len =>
    let n := min len q.length
    ((n, q.take n), q.drop n)

/-- The ring, of size `cap` and within its bounds, stands for the queue. -/
structure Stands (cap : Nat) (pc : PipeCore) (q : List UInt8) : Prop where
  cap_eq : pc.cap = cap
  ok : RingOk pc
  content_eq : content pc = q

theorem Stands.call {q : List UInt8} (c : RingCall) (h : Stands cap pc q) :
    (ringCall pc c).1 = (queueCall cap q c).1 ∧
      Stands cap (ringCall pc c).2 (queueCall cap q c).2 := by
  obtain ⟨rfl, hok, rfl⟩ := h
  cases c with
  | write src =>
    have hn := pipeCoreWrite_fst pc src
    simp only [ringCall, queueCall, content_length]
    refine ⟨by rw [hn], rfl, ringOk_pipeCoreWrite hok src, ?_⟩
    rw [content_pipeCoreWrite hok, hn]
  | read len =>
    simp only [ringCall, queueCall]
    rw [← List.take_eq_take_min, ← List.drop_eq_drop_min, pipeCoreRead_bytes hok,
      List.length_take]
    exact ⟨rfl, rfl, ringOk_pipeCoreRead hok len, content_pipeCoreRead pc len⟩

/-- **The ring buffer refines a bounded byte queue.** Over any sequence of calls the answers are
those of the queue, which at the end is the content; the ring is within its bounds; and the next call
overwrites ring bytes outside the content only. -/
theorem pipeCore_refines_queue (buf : Nat → UInt8) {cap : Nat} (hcap : 0 < cap)
    (calls : List RingCall) :
    ∃ rs pc, answers ringCall (pipeCoreInit buf cap) calls = (rs, pc) ∧
      answers (queueCall cap) [] calls = (rs, content pc) ∧
      pc.cap = cap ∧ pc.head < cap ∧ pc.count ≤ cap ∧
      ∀ c i, (ringCall pc c).2.buf i ≠ pc.buf i →
        i < cap ∧ ∀ j < pc.count, i ≠ (pc.head + j) % cap := by
  have hinit : Stands cap (pipeCoreInit buf cap) [] := ⟨rfl, ringOk_init buf hcap, rfl⟩
  obtain ⟨hans, hst⟩ := answers_sim (fun c h _ => h.call c) hinit
    (admits_of (fun _ _ => trivial) calls [])
  generalize answers ringCall (pipeCoreInit buf cap) calls = r at hans hst
  obtain ⟨rfl, hok, hcontent⟩ := hst
  refine ⟨r.1, r.2, rfl, ?_, rfl, hok.head_lt, hok.count_le, fun c i hi => ?_⟩
  · rw [hans, hcontent]
  · cases c with
    | write src => exact pipeCoreWrite_overwrites hok hi
    | read len => exact absurd rfl hi

theorem pipeCore_refines_queue_three :
    (answers ringCall (pipeCoreInit (fun _ => 0) 3) [.write [1, 2], .read 1, .write [3, 4, 5]]).1 =
      [(2, []), (1, [1]), (2, [])] ∧
    ∃ rs pc, answers ringCall (pipeCoreInit (fun _ => 0) 3)
        [.write [1, 2], .read 1, .write [3, 4, 5]] = (rs, pc) ∧
      answers (queueCall 3) [] [.write [1, 2], .read 1, .write [3, 4, 5]] = (rs, content pc) := by
  obtain ⟨rs, pc, h1, h2, -⟩ := pipeCore_refines_queue (fun _ => 0) (show 0 < 3 by decide)
    [.write [1, 2], .read 1, .write [3, 4, 5]]
  exact ⟨by decide, rs, pc, h1, h2⟩

end Hallucinate.Fs
