import Hallucinate.Gfs.Ops
import Hallucinate.Mm.Paging

/-!
# The first stack of a process (`stack_build` in `kernel/proc/process.c`)

`stack_build` lays out the arguments and the environment of a new program in a scratch page and
copies that over the top page of the stack. The strings are packed downwards from the end of the
page, each with its NUL. Below them, on a multiple of 16, stands a block of words: the number of
arguments, the address of each, 0, the address of each string of the environment, 0, and two words
of 0 that end the auxiliary vector. The stack pointer is the address of that block.

The scratch page is memory of its own here, and `kzalloc` is given by its outcome. An index outside
of `str_uaddr` ends a run with `outside`.

**`stack_build_layout`**: with at most 16 strings a vector, `stack_build` returns `-E2BIG` iff the
strings and words, rounded up to 16 bytes, leave less than the 64 bytes it keeps at the bottom of
the page; otherwise the page that it installs decodes to the two vectors (`StackLayout`).
-/

namespace Hallucinate.Proc

open Lib Mm List
open Gfs (CStr)

/-- `USER_STACK_TOP`. -/
def userStackTop : Nat := 0x00007FFFFFFFF000

/-- `page_va`, the address of the top page of the stack. -/
def stackPageVa : Nat := userStackTop - 4096

/-- `2 * ARG_MAX_COUNT`, the length of `str_uaddr`. -/
def strUaddrMax : Nat := 32

/-- How `stack_build` ends without a stack. -/
inductive StackStop
  | enomem | e2big
  /-- A `KASSERT` fails. -/
  | kassert
  /-- A cell outside of `str_uaddr` is written. -/
  | outside
  deriving DecidableEq, Repr

/-- The scratch page, `cursor`, and the cells of `str_uaddr` written so far. -/
structure Packing where
  page : Bytes
  cursor : Nat
  strUaddr : List Nat

/-- The bytes of a string with its NUL, `strlen(s) + 1` of them. -/
def stringBytes (str : CStr) : List UInt8 := str.bytes ++ [0]

/-- The body of the loop over the strings. -/
def packString (str : CStr) (p : Packing) : Except StackStop Packing :=
  let len := (stringBytes str).length
  if p.cursor < len then .error .e2big
  else if strUaddrMax ≤ p.strUaddr.length then .error .outside
  else
    .ok { page := copyIn p.page (p.cursor - len) (stringBytes str)
          cursor := p.cursor - len
          strUaddr := p.strUaddr ++ [stackPageVa + (p.cursor - len)] }

/-- The loop over the strings of one vector. -/
def packStrings : List CStr → Packing → Except StackStop Packing
  | [], p => .ok p
  | str :: strs, p =>
    match packString str p with
    | .ok p => packStrings strs p
    | .error stop => .error stop

/-- The words that are stored at `vec[0]`, `vec[1]` and so on. -/
def stackWords (argc envc : Nat) (strUaddr : List Nat) : List Nat :=
  argc :: (List.range argc).map (fun i => strUaddr.getD i 0) ++
    0 :: (List.range envc).map (fun i => strUaddr.getD (argc + i) 0) ++ [0, 0, 0]

/-- Words stored one after the other from `off` on. -/
def putWords (page : Bytes) (off : Nat) : List Nat → Bytes
  | [] => page
  | w :: ws => putWords (wr page off 8 w) (off + 8) ws

/-- The initial `rsp`, below the strings and the words. -/
def initialRsp (argc envc cursor : Nat) : Nat :=
  let nvec := 1 + argc + 1 + envc + 1 + 2
  (stackPageVa + cursor + (2 ^ 64 - nvec * 8 % 2 ^ 64)) % 2 ^ 64 / 16 * 16

/-- `stack_build` from the vector block on. -/
def stackInstall (pml4 argc envc : Nat) (p : Packing) (s : Machine) :
    Except StackStop (Nat × Machine) :=
  let rsp := initialRsp argc envc p.cursor
  if rsp < stackPageVa + 64 then .error .e2big
  else
    let page := putWords p.page (rsp - stackPageVa) (stackWords argc envc p.strUaddr)
    let (pte, phys) := pagingLookup s pml4 stackPageVa
    if has pte pteP = false then .error .kassert
    else
      let frame := pteAddr (phys.getD 0)
      .ok (rsp, s.setPage frame (copyIn (s.mem (frame / 4096)) 0 (slice page 0 4096)))

/-- `stack_build`: the stack pointer, or why there is none. `kzalloc` says whether the scratch page
could be allocated. -/
def stackBuild (kzalloc : Bool) (pml4 : Nat) (argv envp : List CStr) (s : Machine) :
    Except StackStop (Nat × Machine) :=
  if kzalloc then do
    let p ← packStrings argv ⟨fun _ => 0, 4096, []⟩
    let p ← packStrings envp p
    stackInstall pml4 argv.length envp.length p s
  else .error .enomem

/-! ## The layout -/

/-- The address of a string on the stack, and the string. -/
abbrev Placed := Nat × CStr

/-- The bytes that the string takes. -/
def Placed.span (x : Placed) : Nat × Nat := (x.1, (stringBytes x.2).length)

/-- Two runs of bytes share none. -/
def ApartRuns (x y : Nat × Nat) : Prop := x.1 + x.2 ≤ y.1 ∨ y.1 + y.2 ≤ x.1

/-- The string stands at its address in the stack page. -/
def Placed.In (page : Bytes) (x : Placed) : Prop :=
  stackPageVa ≤ x.1 ∧ x.1 + (stringBytes x.2).length ≤ stackPageVa + 4096 ∧
    slice page (x.1 - stackPageVa) (stringBytes x.2).length = stringBytes x.2

/-- The `n` words from the user address `addr` on. -/
def userWords (page : Bytes) (addr n : Nat) : List Nat :=
  (List.range n).map fun i => rd page (addr - stackPageVa + 8 * i) 8

/-- The number of words that a program with these vectors starts with. -/
def wordCount (argv envp : List CStr) : Nat := argv.length + envp.length + 5

/-- The contents of the stack page decode to the two vectors. -/
structure StackLayout (page : Bytes) (rsp : Nat) (argv envp : List CStr) : Prop where
  aligned : rsp % 16 = 0
  above : stackPageVa ≤ rsp
  below : rsp + 8 * wordCount argv envp ≤ stackPageVa + 4096
  decodes : ∃ args envs : List Placed, args.map Prod.snd = argv ∧ envs.map Prod.snd = envp ∧
    userWords page rsp (wordCount argv envp) =
      argv.length :: args.map Prod.fst ++ 0 :: envs.map Prod.fst ++ [0, 0, 0] ∧
    (∀ x ∈ args ++ envs, x.In page) ∧
    ((rsp, 8 * wordCount argv envp) :: (args ++ envs).map Placed.span).Pairwise ApartRuns

/-- The bytes of all strings. -/
def stringsSize (strs : List CStr) : Nat := (strs.map fun str => (stringBytes str).length).sum

/-- Strings and words, with the padding that makes the stack pointer a multiple of 16. -/
def stackBytes (argv envp : List CStr) : Nat :=
  (stringsSize (argv ++ envp) + 8 * wordCount argv envp + 15) / 16 * 16

/-! ## Packing -/

/-- The strings `strs` have been packed: each at its address, below the one before it. -/
structure Packed (strs : List CStr) (p : Packing) (placed : List Placed) : Prop where
  strings : placed.map Prod.snd = strs
  addrs : p.strUaddr = placed.map Prod.fst
  room : p.cursor + stringsSize strs = 4096
  above : ∀ x ∈ placed, stackPageVa + p.cursor ≤ x.1
  stands : ∀ x ∈ placed, x.In p.page
  falling : placed.Pairwise fun x y => y.1 + (stringBytes y.2).length ≤ x.1

theorem stringsSize_concat (strs : List CStr) (str : CStr) :
    stringsSize (strs ++ [str]) = stringsSize strs + (stringBytes str).length := by
  simp [stringsSize]

theorem stringsSize_append (strs strs' : List CStr) :
    stringsSize (strs ++ strs') = stringsSize strs + stringsSize strs' := by
  simp [stringsSize]

variable {strs : List CStr} {p : Packing} {placed : List Placed} {str : CStr}

variable {page : Bytes}

variable {off : Nat}

/-- A copy below a string leaves it. -/
theorem Placed.In.copyIn {x : Placed} (h : x.In page) {src : List UInt8}
    (hoff : stackPageVa + off + src.length ≤ x.1) : x.In (copyIn page off src) := by
  refine ⟨h.1, h.2.1, ?_⟩
  rw [slice_copyIn_of_disjoint (by omega)]
  exact h.2.2

/-- One more string, below the others. -/
theorem Packed.push (h : Packed strs p placed) (hroom : (stringBytes str).length ≤ p.cursor)
    (hmax : strs.length < strUaddrMax) :
    ∃ q x, packString str p = .ok q ∧ Packed (strs ++ [str]) q (placed ++ [x]) := by
  have hcount : p.strUaddr.length = strs.length := by
    rw [h.addrs, ← h.strings, length_map, length_map]
  have hcursor : p.cursor ≤ 4096 := by have := h.room; omega
  generalize hlen : (stringBytes str).length = len at *
  refine ⟨⟨copyIn p.page (p.cursor - len) (stringBytes str), p.cursor - len,
    p.strUaddr ++ [stackPageVa + (p.cursor - len)]⟩, (stackPageVa + (p.cursor - len), str), ?_, ?_⟩
  · unfold packString
    simp only [hlen]
    rw [if_neg (by omega), if_neg (by omega)]
  · have hbelow : ∀ x ∈ placed, stackPageVa + (p.cursor - len) + len ≤ x.1 := fun x hx => by
      have := h.above x hx
      omega
    refine ⟨?_, ?_, ?_, ?_, ?_, ?_⟩
    · rw [map_append, h.strings]
      rfl
    · rw [map_append, ← h.addrs]
      rfl
    · have := h.room
      rw [stringsSize_concat, hlen]
      show p.cursor - len + _ = _
      omega
    · intro x hx
      show stackPageVa + (p.cursor - len) ≤ _
      rcases mem_append.mp hx with hx | hx
      · have := h.above x hx
        omega
      · rw [mem_singleton.mp hx]
    · intro x hx
      rcases mem_append.mp hx with hx | hx
      · exact (h.stands x hx).copyIn (by rw [hlen]; exact hbelow x hx)
      · rw [mem_singleton.mp hx]
        refine ⟨Nat.le_add_right _ _, ?_, ?_⟩
        · show stackPageVa + (p.cursor - len) + (stringBytes str).length ≤ _
          omega
        · show slice _ (stackPageVa + (p.cursor - len) - stackPageVa) _ = _
          rw [Nat.add_sub_cancel_left]
          exact slice_copyIn _ _ _
    · refine pairwise_append.mpr ⟨h.falling, pairwise_singleton _ _, fun x hx y hy => ?_⟩
      rw [mem_singleton.mp hy]
      show stackPageVa + (p.cursor - len) + (stringBytes str).length ≤ x.1
      rw [hlen]
      exact hbelow x hx

/-- The loop over a vector packs it, or the strings are more than a page. -/
theorem Packed.pushAll (h : Packed strs p placed) {more : List CStr}
    (hmax : strs.length + more.length ≤ strUaddrMax) :
    (packStrings more p = .error .e2big ∧ 4096 < stringsSize (strs ++ more)) ∨
      ∃ q rest, packStrings more p = .ok q ∧ Packed (strs ++ more) q (placed ++ rest) := by
  induction more generalizing strs p placed with
  | nil => exact Or.inr ⟨p, [], rfl, by simpa using h⟩
  | cons str more ih =>
    rw [length_cons] at hmax
    by_cases hroom : (stringBytes str).length ≤ p.cursor
    · obtain ⟨q, x, hq, hpush⟩ := h.push hroom (by omega)
      have hsplit : strs ++ str :: more = strs ++ [str] ++ more := by simp
      rw [packStrings, hq, hsplit]
      rcases ih hpush (by rw [length_append, length_singleton]; omega) with
        hbig | ⟨r, rest, hr, hall⟩
      · exact Or.inl hbig
      · refine Or.inr ⟨r, x :: rest, hr, ?_⟩
        rwa [append_cons placed x rest]
    · refine Or.inl ⟨?_, ?_⟩
      · rw [packStrings, packString, if_pos (Nat.lt_of_not_le hroom)]
      · have hcons : stringsSize (str :: more) = (stringBytes str).length + stringsSize more := by
          simp [stringsSize]
        have := h.room
        rw [stringsSize_append, hcons]
        omega

/-! ## The block of words -/

variable {i : Nat} {ws : List Nat}

theorem putWords_of_not_mem (h : i < off ∨ off + 8 * ws.length ≤ i) :
    putWords page off ws i = page i := by
  induction ws generalizing page off with
  | nil => rfl
  | cons w ws ih =>
    rw [length_cons] at h
    rw [putWords, ih (by omega), wr_of_not_mem (by omega)]

/-- The words read back. -/
theorem words_putWords (page : Bytes) (off : Nat) (h : ∀ w ∈ ws, w < 2 ^ 64) :
    (List.range ws.length).map (fun i => rd (putWords page off ws) (off + 8 * i) 8) = ws := by
  induction ws generalizing page off with
  | nil => rfl
  | cons w ws ih =>
    obtain ⟨hw, hws⟩ := forall_mem_cons.mp h
    have hfirst : rd (putWords (wr page off 8 w) (off + 8) ws) off 8 = w := by
      rw [rd_congr fun i h1 h2 => putWords_of_not_mem (Or.inl h2), rd_wr]
      exact Nat.mod_eq_of_lt hw
    have hshift : ∀ i, off + 8 * (i + 1) = off + 8 + 8 * i := fun i => by omega
    rw [length_cons, range_succ_eq_map, map_cons, map_map, putWords]
    simp only [Function.comp_def, Nat.succ_eq_add_one, hshift, Nat.mul_zero, Nat.add_zero, hfirst]
    rw [ih (wr page off 8 w) (off + 8) hws]

theorem map_range_getD_left (l r : List Nat) :
    (List.range l.length).map (fun i => (l ++ r).getD i 0) = l := by
  apply ext_getElem
  · simp
  · intro i h1 h2
    simp [getElem?_append_left h2, h2]

theorem map_range_getD_right (l r : List Nat) :
    (List.range r.length).map (fun i => (l ++ r).getD (l.length + i) 0) = r := by
  apply ext_getElem
  · simp
  · intro i h1 h2
    simp [getElem?_append_right (Nat.le_add_right _ _), h2]

/-- The words point to the strings of the two vectors. -/
theorem stackWords_eq (args envs : List Placed) :
    stackWords args.length envs.length ((args ++ envs).map Prod.fst) =
      args.length :: args.map Prod.fst ++ 0 :: envs.map Prod.fst ++ [0, 0, 0] := by
  have hleft := map_range_getD_left (args.map Prod.fst) (envs.map Prod.fst)
  have hright := map_range_getD_right (args.map Prod.fst) (envs.map Prod.fst)
  rw [length_map] at hleft hright
  rw [length_map] at hright
  unfold stackWords
  rw [map_append, hleft, hright]

/-! ## The whole page -/

variable {argv envp : List CStr}

variable {rsp : Nat}

/-- The layout is a matter of the 4096 bytes of the page. -/
theorem StackLayout.congr {page' : Bytes} (h : StackLayout page rsp argv envp)
    (hsame : ∀ i < 4096, page' i = page i) : StackLayout page' rsp argv envp := by
  obtain ⟨aligned, above, below, args, envs, hargs, henvs, hwords, hin, hapart⟩ := h
  refine ⟨aligned, above, below, args, envs, hargs, henvs, ?_, fun x hx => ?_, hapart⟩
  · rw [← hwords]
    refine map_congr_left fun i hi => rd_congr fun j h1 h2 => hsame j ?_
    have := mem_range.mp hi
    omega
  · obtain ⟨h1, h2, h3⟩ := hin x hx
    refine ⟨h1, h2, ?_⟩
    rw [slice_congr fun i hi1 hi2 => hsame i (by omega)]
    exact h3

/-- Words stored below the strings complete the layout. -/
theorem Packed.layout {args envs : List Placed} (h : Packed (argv ++ envp) p (args ++ envs))
    (hargs : args.map Prod.snd = argv) (henvs : envs.map Prod.snd = envp) (haligned : rsp % 16 = 0)
    (habove : stackPageVa ≤ rsp) (hbelow : rsp + 8 * wordCount argv envp ≤ stackPageVa + p.cursor) :
    StackLayout (putWords p.page (rsp - stackPageVa)
      (stackWords argv.length envp.length p.strUaddr)) rsp argv envp := by
  have hargc : args.length = argv.length := by rw [← hargs, length_map]
  have henvc : envs.length = envp.length := by rw [← henvs, length_map]
  have hwords : stackWords argv.length envp.length p.strUaddr =
      argv.length :: args.map Prod.fst ++ 0 :: envs.map Prod.fst ++ [0, 0, 0] := by
    rw [h.addrs, ← hargc, ← henvc]
    exact stackWords_eq args envs
  have hcount : (stackWords argv.length envp.length p.strUaddr).length = wordCount argv envp := by
    rw [hwords, wordCount]
    simp only [length_append, length_cons, length_map, length_nil]
    omega
  have hcursor : p.cursor ≤ 4096 := by have := h.room; omega
  refine ⟨haligned, habove, by omega, args, envs, hargs, henvs, ?_, fun x hx => ?_, ?_⟩
  · have hptr : ∀ x ∈ args ++ envs, x.1 < 2 ^ 64 := fun x hx => by
      have := (h.stands x hx).2.1
      unfold stackPageVa userStackTop at this
      omega
    have hsmall : ∀ w ∈ stackWords argv.length envp.length p.strUaddr, w < 2 ^ 64 := by
      unfold wordCount at hbelow
      rw [hwords]
      simp only [mem_append, mem_cons, mem_map, not_mem_nil, or_false]
      rintro w (((rfl | ⟨x, hx, rfl⟩) | rfl | ⟨x, hx, rfl⟩) | rfl | rfl | rfl)
      · omega
      · exact hptr x (mem_append_left _ hx)
      · decide
      · exact hptr x (mem_append_right _ hx)
      all_goals decide
    have hread := words_putWords p.page (rsp - stackPageVa) hsmall
    rw [hcount] at hread
    rw [← hwords]
    exact hread
  · obtain ⟨h1, h2, h3⟩ := h.stands x hx
    have hx := h.above x hx
    refine ⟨h1, h2, ?_⟩
    rw [slice_congr fun i hi1 hi2 => putWords_of_not_mem (by rw [hcount]; omega)]
    exact h3
  · refine pairwise_cons.mpr ⟨fun y hy => ?_, ?_⟩
    · obtain ⟨x, hx, rfl⟩ := mem_map.mp hy
      exact Or.inl (hbelow.trans (h.above x hx))
    · exact pairwise_map.mpr (h.falling.imp fun hxy => Or.inr hxy)

theorem copyIn_slice_of_lt (buf page : Bytes) {n : Nat} (h : i < n) :
    copyIn buf 0 (slice page 0 n) i = page i := by
  have hread := slice_copyIn buf 0 (slice page 0 n)
  rw [slice_length] at hread
  have := eq_of_slice_eq hread h
  rwa [Nat.zero_add] at this

/-- The frame of the top page of the stack. -/
def stackFrame (pml4 : Nat) (s : Machine) : Nat :=
  pteAddr ((pagingLookup s pml4 stackPageVa).2.getD 0)

/-- The stack pointer leaves room for the words, and stands 64 bytes above the page iff everything
fits. -/
theorem initialRsp_spec {cursor : Nat} (hsize : cursor + stringsSize (argv ++ envp) = 4096)
    (hcount : wordCount argv envp ≤ 64) : initialRsp argv.length envp.length cursor % 16 = 0 ∧
      initialRsp argv.length envp.length cursor + 8 * wordCount argv envp ≤ stackPageVa + cursor ∧
      (initialRsp argv.length envp.length cursor < stackPageVa + 64 ↔
        4096 < stackBytes argv envp + 64) := by
  unfold wordCount at hcount
  unfold initialRsp stackBytes wordCount stackPageVa userStackTop
  generalize stringsSize (argv ++ envp) = size at *
  generalize argv.length = argc, envp.length = envc at *
  have hwords : (1 + argc + 1 + envc + 1 + 2) * 8 % 2 ^ 64 = 8 * (argc + envc + 5) := by omega
  simp only [hwords]
  omega

/-- The two passes over the vectors. -/
theorem packBoth (hmax : argv.length + envp.length ≤ strUaddrMax) :
    ((packStrings argv ⟨fun _ => 0, 4096, []⟩ >>= packStrings envp) = .error .e2big ∧
        4096 < stringsSize (argv ++ envp)) ∨
      ∃ p args envs, (packStrings argv ⟨fun _ => 0, 4096, []⟩ >>= packStrings envp) = .ok p ∧
        args.map Prod.snd = argv ∧ envs.map Prod.snd = envp ∧
        Packed (argv ++ envp) p (args ++ envs) := by
  have hstart : Packed [] ⟨fun _ => 0, 4096, []⟩ [] :=
    ⟨rfl, rfl, rfl, nofun, nofun, List.Pairwise.nil⟩
  have hfirst : ([] : List CStr).length + argv.length ≤ strUaddrMax := by
    rw [length_nil]
    omega
  rcases hstart.pushAll hfirst with ⟨herr, hbig⟩ | ⟨p₁, args, hp₁, h₁⟩
  · rw [nil_append] at hbig
    refine Or.inl ⟨by rw [herr]; rfl, ?_⟩
    rw [stringsSize_append]
    omega
  · rw [nil_append, nil_append] at h₁
    rcases h₁.pushAll hmax with ⟨herr, hbig⟩ | ⟨p₂, envs, hp₂, h₂⟩
    · exact Or.inl ⟨by rw [hp₁]; exact herr, hbig⟩
    · have hstrings := h₂.strings
      rw [map_append, h₁.strings] at hstrings
      exact Or.inr ⟨p₂, args, envs, by rw [hp₁]; exact hp₂, h₁.strings,
        append_cancel_left hstrings, h₂⟩

theorem stackBuild_eq (pml4 : Nat) (argv envp : List CStr) (s : Machine) :
    stackBuild true pml4 argv envp s =
      (packStrings argv ⟨fun _ => 0, 4096, []⟩ >>= packStrings envp) >>= fun p =>
        stackInstall pml4 argv.length envp.length p s := by
  unfold stackBuild
  rw [if_pos rfl, bind_assoc]

variable {pml4 : Nat} {s : Machine}

/-- The page is installed if the stack pointer is high enough. -/
theorem stackInstall_eq {argc envc : Nat} {p : Packing}
    (hmap : has (pagingLookup s pml4 stackPageVa).1 pteP = true) : stackInstall pml4 argc envc p s =
      if initialRsp argc envc p.cursor < stackPageVa + 64 then .error .e2big
      else .ok (initialRsp argc envc p.cursor, s.setPage (stackFrame pml4 s)
        (copyIn (s.mem (stackFrame pml4 s / 4096)) 0
          (slice (putWords p.page (initialRsp argc envc p.cursor - stackPageVa)
            (stackWords argc envc p.strUaddr)) 0 4096))) := by
  have hno : ¬(has (pagingLookup s pml4 stackPageVa).1 pteP = false) := by
    rw [hmap]
    decide
  unfold stackInstall
  simp only [if_neg hno]
  rfl

/-- **The stack decodes to the vectors**, or it does not fit and `-E2BIG` is returned. -/
theorem stack_build_layout (argv envp : List CStr) (hargc : argv.length ≤ 16)
    (henvc : envp.length ≤ 16) (pml4 : Nat) (s : Machine)
    (hmap : has (pagingLookup s pml4 stackPageVa).1 pteP = true) :
    (stackBuild true pml4 argv envp s = .error .e2big ∧ 4096 < stackBytes argv envp + 64) ∨
      ∃ rsp page, stackBuild true pml4 argv envp s =
          .ok (rsp, s.setPage (stackFrame pml4 s) page) ∧
        stackBytes argv envp + 64 ≤ 4096 ∧ StackLayout page rsp argv envp := by
  have hmax : argv.length + envp.length ≤ strUaddrMax := by
    unfold strUaddrMax
    omega
  rw [stackBuild_eq]
  rcases packBoth hmax with ⟨herr, hbig⟩ | ⟨p, args, envs, hp, hargs, henvs, h⟩
  · refine Or.inl ⟨by rw [herr]; rfl, ?_⟩
    unfold stackBytes
    omega
  · obtain ⟨haligned, hbelow, hfits⟩ :=
      initialRsp_spec h.room (show wordCount argv envp ≤ 64 by unfold wordCount; omega)
    have hgo : ∀ {ε α β : Type} (a : α) (f : α → Except ε β), (Except.ok a >>= f) = f a :=
      fun _ _ => rfl
    rw [hp, hgo, stackInstall_eq hmap]
    generalize initialRsp argv.length envp.length p.cursor = rsp at *
    by_cases hbig : rsp < stackPageVa + 64
    · rw [if_pos hbig]
      exact Or.inl ⟨rfl, hfits.mp hbig⟩
    · have hlayout := h.layout hargs henvs haligned (by omega) hbelow
      rw [if_neg hbig]
      refine Or.inr ⟨rsp, _, rfl, Nat.le_of_not_lt fun hlt => hbig (hfits.mpr hlt),
        hlayout.congr fun i hi => ?_⟩
      exact copyIn_slice_of_lt _ _ hi

/-- A memory in which every entry of the table in frame `f` maps frame `f + 1`, for the user and
writable. -/
def stairs : Machine where
  mem f i := if i % 8 = 0 then 7 else if i % 8 = 1 then UInt8.ofNat (16 * (f + 1)) else 0
  pmm := pmmCoreInit (fun _ => 0) 8

/-- One argument and no environment: the page of frame 5 gets the stack. -/
theorem stack_build_layout_init :
    ∃ rsp page, stackBuild true 0x1000 [⟨[105, 110, 105, 116], by decide⟩] [] stairs =
        .ok (rsp, stairs.setPage 0x5000 page) ∧
      StackLayout page rsp [⟨[105, 110, 105, 116], by decide⟩] [] := by
  have hmap : has (pagingLookup stairs 0x1000 stackPageVa).1 pteP = true := by decide
  have hframe : stackFrame 0x1000 stairs = 0x5000 := by decide
  rcases stack_build_layout [⟨[105, 110, 105, 116], by decide⟩] [] (by decide) (by decide) 0x1000
    stairs hmap with ⟨-, hbig⟩ | ⟨rsp, page, hok, -, hlayout⟩
  · exact absurd hbig (by decide)
  · rw [hframe] at hok
    exact ⟨rsp, page, hok, hlayout⟩

end Hallucinate.Proc
