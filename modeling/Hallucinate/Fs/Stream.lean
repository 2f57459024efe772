import Hallucinate.Lib.Trans
import Mathlib.Logic.Function.Basic

/-!
# Byte streams

What a pipe, and each direction of a socket pair, is for: a bounded queue of bytes that threads
read from and write to through calls which may take several passes. `Stream.Step` is the
abstract system; the models of `pipe.c` and `socket.c` are shown to refine it, with `Event` as
the shared vocabulary of observable steps.

Results: in every run `received` followed by the queue is `accepted` (`Stream.Ok.fifo`), and every
value a call returns is justified (`ReturnOk`): **`stream_ok`** and **`stream_returnOk`**.
-/

namespace Hallucinate.Fs

open Hallucinate.Lib Function List

abbrev Tid := Nat

/-- `EPIPE` of `errno.h`. -/
def ePipe : Int := 32

/-- A call in progress: its arguments and, for a write, how many bytes are queued so far. -/
inductive Call
  | read (len : Nat)
  | write (src : List UInt8) (done : Nat)
  deriving DecidableEq, Repr

/-- What the system does, as seen from outside. A `pass` is a run of a call's code up to its
return or its next sleep: the bytes it moved, and the value if it returned. -/
inductive Event
  | start (t : Tid)
  | exit (t : Tid)
  | call (t : Tid) (c : Call)
  | pass (t : Tid) (c : Call) (moved : List UInt8) (ret : Option Int)
  | closeRead
  | closeWrite
  deriving DecidableEq, Repr

/-- The bytes an event hands to a reader. -/
def Event.taken : Event → List UInt8
  | .pass _ (.read _) bs _ => bs
  | _ => []

/-- The bytes an event accepts from a writer. -/
def Event.given : Event → List UInt8
  | .pass _ (.write _ _) bs _ => bs
  | _ => []

/-- The events that are neither a call nor part of one. -/
def Event.Outer : Event → Prop
  | .call _ _ | .pass _ _ _ _ => False
  | _ => True

/-- All bytes returned by reads, in time order. -/
def received (es : List Event) : List UInt8 := es.flatMap Event.taken

/-- All bytes accepted from writers, in time order. -/
def accepted (es : List Event) : List UInt8 := es.flatMap Event.given

/-- The bytes accepted so far from the call thread `t` is in (or made last). -/
def acceptedIn (t : Tid) (es : List Event) : List UInt8 :=
  es.foldl (fun acc e => match e with
    | .call t' _ => if t' = t then [] else acc
    | .pass t' (.write _ _) bs _ => if t' = t then acc ++ bs else acc
    | _ => acc) []

/-- What justifies the value `ret` of event `e` after the events `es`, in a state whose queue is
`queue`: a read returns the number of bytes it got, and 0 only for `len = 0` or at the end of the
stream; a write returns the number of its own bytes that were accepted, and `-EPIPE` only when no
reader is left and none of its bytes was accepted. -/
def ReturnOk (es : List Event) (queue : List UInt8) (readerGone writerGone : Prop) :
    Event → Prop
  | .pass _ (.read len) bs (some v) =>
    v = bs.length ∧ (0 < len → v = 0 → queue = [] ∧ writerGone)
  | .pass t (.write src done) bs (some v) =>
    let own := acceptedIn t (es ++ [.pass t (.write src done) bs (some v)])
    (v = own.length ∧ own = src.take own.length) ∨ (v = -ePipe ∧ readerGone ∧ own = [])
  | _ => True

/-! ## The abstract system -/

/-- A bounded byte queue, whether each side is gone, and the calls in progress. -/
structure Stream where
  queue : List UInt8
  cap : Nat
  readerGone : Bool
  writerGone : Bool
  calls : Tid → Option Call

/-- `s` with thread `t` in call `c`. -/
def Stream.setCall (s : Stream) (t : Tid) (c : Option Call) : Stream :=
  { s with calls := update s.calls t c }

/-- `s` with queue `q`. -/
def Stream.setQueue (s : Stream) (q : List UInt8) : Stream := { s with queue := q }

inductive Stream.Step : Stream → Event → Stream → Prop
  | outer (s e) (he : Event.Outer e) (rg wg) :
      Step s e { s with readerGone := rg, writerGone := wg }
  | callRead (s t len) : Step s (.call t (.read len)) (s.setCall t (some (.read len)))
  | callWrite (s t src) : Step s (.call t (.write src 0)) (s.setCall t (some (.write src 0)))
  | take (s t len) (h : s.calls t = some (.read len))
      (hend : 0 < len → s.queue = [] → s.writerGone = true) :
      Step s (.pass t (.read len) (s.queue.take len) (some (s.queue.take len).length))
        ((s.setQueue (s.queue.drop len)).setCall t none)
  | starve (s t len) (h : s.calls t = some (.read len)) (hq : s.queue = []) :
      Step s (.pass t (.read len) [] none) s
  | give (s t src done n) (h : s.calls t = some (.write src done)) (hall : done + n = src.length)
      (hn : s.queue.length + n ≤ s.cap) :
      Step s (.pass t (.write src done) ((src.drop done).take n) (some (done + n : Nat)))
        ((s.setQueue (s.queue ++ (src.drop done).take n)).setCall t none)
  | feed (s t src done n) (h : s.calls t = some (.write src done)) (hpart : done + n < src.length)
      (hn : s.queue.length + n ≤ s.cap) :
      Step s (.pass t (.write src done) ((src.drop done).take n) none)
        ((s.setQueue (s.queue ++ (src.drop done).take n)).setCall t (some (.write src (done + n))))
  | cut (s t src done) (h : s.calls t = some (.write src done)) (hg : s.readerGone = true)
      (hd : 0 < done) :
      Step s (.pass t (.write src done) [] (some done)) (s.setCall t none)
  | broken (s t src) (h : s.calls t = some (.write src 0)) (hg : s.readerGone = true) :
      Step s (.pass t (.write src 0) [] (some (-ePipe))) (s.setCall t none)

/-- What a run establishes: the stream is lossless and in order, the queue stays within its
bound, and a write in progress has had exactly the first `done` of its bytes accepted. -/
structure Stream.Ok (es : List Event) (s : Stream) : Prop where
  fifo : received es ++ s.queue = accepted es
  bound : s.queue.length ≤ s.cap
  own : ∀ t src done, s.calls t = some (.write src done) →
    acceptedIn t es = src.take done ∧ done ≤ src.length

variable {s s' : Stream} {e : Event} {es : List Event} {t : Tid}

@[simp] theorem received_snoc (es : List Event) (e : Event) :
    received (es ++ [e]) = received es ++ e.taken := by
  simp [received]

@[simp] theorem accepted_snoc (es : List Event) (e : Event) :
    accepted (es ++ [e]) = accepted es ++ e.given := by
  simp [accepted]

theorem acceptedIn_call (t t' : Tid) (es : List Event) (c : Call) :
    acceptedIn t (es ++ [.call t' c]) = if t' = t then [] else acceptedIn t es := by
  simp only [acceptedIn, foldl_append, foldl_cons, foldl_nil]

theorem acceptedIn_write (t t' : Tid) (es : List Event) (src : List UInt8) (done : Nat)
    (bs : List UInt8) (ret : Option Int) :
    acceptedIn t (es ++ [.pass t' (.write src done) bs ret]) =
      if t' = t then acceptedIn t es ++ bs else acceptedIn t es := by
  simp only [acceptedIn, foldl_append, foldl_cons, foldl_nil]

variable {src : List UInt8} {done : Nat} {ret : Option Int}

theorem acceptedIn_ne {t' : Tid} (ht : t ≠ t') {bs : List UInt8} :
    acceptedIn t (es ++ [.pass t' (.write src done) bs ret]) = acceptedIn t es := by
  rw [acceptedIn_write, if_neg ht.symm]

theorem acceptedIn_read (t t' : Tid) (es : List Event) (len : Nat) (bs : List UInt8)
    (ret : Option Int) :
    acceptedIn t (es ++ [.pass t' (.read len) bs ret]) = acceptedIn t es := by
  simp only [acceptedIn, foldl_append, foldl_cons, foldl_nil]

theorem acceptedIn_outer (t : Tid) (es : List Event) (he : e.Outer) :
    acceptedIn t (es ++ [e]) = acceptedIn t es := by
  cases e with
  | call t' c => exact he.elim
  | pass t' c bs ret => exact he.elim
  | _ => simp only [acceptedIn, foldl_append, foldl_cons, foldl_nil]

theorem outer_bytes (he : e.Outer) : e.taken = [] ∧ e.given = [] := by
  cases e with
  | call t' c => exact he.elim
  | pass t' c bs ret => exact he.elim
  | _ => exact ⟨rfl, rfl⟩

/-- After an event of thread `t` that leaves it in no write, the other threads' writes are as
before. -/
theorem own_of_other (h : s.Ok es) {c : Option Call}
    (hc : ∀ src done, c = some (.write src done) →
      acceptedIn t (es ++ [e]) = src.take done ∧ done ≤ src.length)
    (he : ∀ t', t' ≠ t → acceptedIn t' (es ++ [e]) = acceptedIn t' es) :
    ∀ t' src done, update s.calls t c t' = some (.write src done) →
      acceptedIn t' (es ++ [e]) = src.take done ∧ done ≤ src.length := by
  intro t' src done ht'
  by_cases htt : t' = t
  · subst htt
    rw [update_self] at ht'
    exact hc src done ht'
  · rw [update_of_ne htt] at ht'
    rw [he t' htt]
    exact h.own t' src done ht'

/-- The accepted bytes of a write grow along its source. -/
theorem own_grow (h : s.Ok es) {n : Nat} (hcall : s.calls t = some (.write src done)) :
    acceptedIn t (es ++ [.pass t (.write src done) ((src.drop done).take n) ret]) =
      src.take (done + n) := by
  rw [acceptedIn_write, if_pos rfl, (h.own t src done hcall).1, take_add]

/-- An event of thread `t` that takes its bytes from the front of the queue, or gives them to the end,
and leaves the thread in the call `c`. -/
theorem Stream.Ok.event (h : s.Ok es) {q : List UInt8} {c : Option Call}
    (hq : e.taken ++ q = s.queue ++ e.given) (hb : q.length ≤ s.cap)
    (hc : ∀ src done, c = some (.write src done) →
      acceptedIn t (es ++ [e]) = src.take done ∧ done ≤ src.length)
    (he : ∀ t', t' ≠ t → acceptedIn t' (es ++ [e]) = acceptedIn t' es) :
    ((s.setQueue q).setCall t c).Ok (es ++ [e]) := by
  refine ⟨?_, hb, own_of_other h hc he⟩
  show received (es ++ [e]) ++ q = _
  rw [received_snoc, accepted_snoc, append_assoc, hq, ← append_assoc, h.fifo]

theorem Stream.Ok.step (h : s.Ok es) (hs : Stream.Step s e s') : s'.Ok (es ++ [e]) := by
  cases hs with
  | outer _ he rg wg =>
    obtain ⟨htk, hgv⟩ := outer_bytes he
    refine ⟨?_, h.bound, fun t src done hc => ?_⟩
    · rw [received_snoc, accepted_snoc, htk, hgv, append_nil, append_nil]
      exact h.fifo
    · rw [acceptedIn_outer t es he]
      exact h.own t src done hc
  | callRead t len =>
    refine h.event (append_nil _).symm h.bound nofun fun t' ht' => ?_
    rw [acceptedIn_call, if_neg (Ne.symm ht')]
  | callWrite t src =>
    refine h.event (append_nil _).symm h.bound (fun src' done hc => ?_) fun t' ht' => ?_
    · cases hc
      exact ⟨by rw [acceptedIn_call, if_pos rfl, take_zero], Nat.zero_le _⟩
    · rw [acceptedIn_call, if_neg (Ne.symm ht')]
  | take t len hcall hend =>
    -- the bytes leave the queue for the reader
    refine h.event ?_ ?_ nofun fun t' _ => acceptedIn_read ..
    · exact (take_append_drop len s.queue).trans (append_nil _).symm
    · exact Nat.le_trans (drop_sublist len s.queue).length_le h.bound
  | starve t len hcall hq =>
    refine ⟨?_, h.bound, fun t' src done hc => ?_⟩
    · rw [received_snoc, accepted_snoc]
      simpa [Event.taken, Event.given] using h.fifo
    · rw [acceptedIn_read]
      exact h.own t' src done hc
  | give t src done n hcall hall hn =>
    refine h.event rfl ?_ nofun fun t' ht' => acceptedIn_ne ht'
    rw [length_append, length_take]
    omega
  | feed t src done n hcall hpart hn =>
    refine h.event rfl ?_ (fun src' done' hc => ?_) fun t' ht' => acceptedIn_ne ht'
    · rw [length_append, length_take]
      omega
    · cases hc
      exact ⟨own_grow h hcall, Nat.le_of_lt hpart⟩
  | cut t src done hcall hg hd =>
    exact h.event (append_nil _).symm h.bound nofun fun t' ht' => acceptedIn_ne ht'
  | broken t src hcall hg =>
    exact h.event (append_nil _).symm h.bound nofun fun t' ht' => acceptedIn_ne ht'

/-- **Every run of the abstract stream is lossless and in order.** -/
theorem stream_ok {s₀ : Stream} (hq : s₀.queue = []) (hc : ∀ t, s₀.calls t = none)
    (h : Run Stream.Step s₀ es s) : s.Ok es := by
  refine Run.invariant (P := fun es s => Stream.Ok es s) ?_ (fun h hs => h.step hs) h
  refine ⟨?_, ?_, fun t src done ht => ?_⟩
  · rw [hq]; rfl
  · rw [hq]; exact Nat.zero_le _
  · rw [hc t] at ht; cases ht

/-- **Every value returned is justified.** -/
theorem stream_returnOk (h : s.Ok es) (hs : Stream.Step s e s') :
    ReturnOk es s.queue (s.readerGone = true) (s.writerGone = true) e := by
  cases hs with
  | outer _ he rg wg =>
    cases e with
    | call t c => exact he.elim
    | pass t c bs ret => exact he.elim
    | _ => trivial
  | callRead t len => trivial
  | callWrite t src => trivial
  | starve t len hcall hq => trivial
  | feed t src done n hcall hpart hn => trivial
  | take t len hcall hend =>
    refine ⟨rfl, fun hlen hv => ?_⟩
    have hempty : s.queue = [] := by
      cases hq : s.queue with
      | nil => rfl
      | cons b q =>
        rw [hq, length_take, length_cons] at hv
        omega
    exact ⟨hempty, hend hlen hempty⟩
  | give t src done n hcall hall hn =>
    left
    have hown : acceptedIn t (es ++ [.pass t (.write src done) ((src.drop done).take n)
        (some ((done + n : Nat) : Int))]) = src := by
      rw [own_grow h hcall, hall, take_length]
    rw [hown]
    exact ⟨by rw [hall], by rw [take_length]⟩
  | cut t src done hcall hg hd =>
    left
    obtain ⟨hown, hle⟩ := h.own t src done hcall
    have hlen : (src.take done).length = done := length_take_of_le hle
    simp only [acceptedIn_write, if_true, append_nil, hown, hlen, and_self]
  | broken t src hcall hg =>
    right
    refine ⟨rfl, hg, ?_⟩
    rw [acceptedIn_write, if_pos rfl, (h.own t src 0 hcall).1, take_zero, append_nil]

end Hallucinate.Fs
