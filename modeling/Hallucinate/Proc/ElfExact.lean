import Hallucinate.Proc.ElfSpec
import Mathlib

/-!
# The images that `elf64_validate` accepts

`Documented` is the contract of `elf64.h` over the integers: the fields are read where the format has
them, and sums and roundings are those of numbers that do not wrap. It does not know the order of the
checks, nor that overlaps are looked for against the segments seen so far.

* `checkPhdrs_iff`: the loop accepts the headers each of which is well formed and of which no two share
  a page.
* `validated`: what the loader knows of an accepted image.
* **`validate_exact`**: `elf64_validate` returns `ELF64_OK` exactly for the documented images, and reads
  no byte outside of any.
-/

namespace Hallucinate.Proc

open Lib Mm List

variable {im : Image} {vaMin vaLimit entry : Nat} {seen seen' : Spans}

/-! ## The fields of an image -/

/-- The ELF header. -/
def Image.ehdr (im : Image) : Ehdr where
  magic := slice im.bytes 0 4
  cls := rd im.bytes 4 1
  data := rd im.bytes 5 1
  identVersion := rd im.bytes 6 1
  type := rd im.bytes 16 2
  machine := rd im.bytes 18 2
  version := rd im.bytes 20 4
  entry := rd im.bytes 24 8
  phoff := rd im.bytes 32 8
  phentsize := rd im.bytes 54 2
  phnum := rd im.bytes 56 2

/-- The program header with an index. -/
def Image.phdr (im : Image) (i : Nat) : Phdr where
  type := rd im.bytes (im.ehdr.phoff + i * 56) 4
  flags := rd im.bytes (im.ehdr.phoff + i * 56 + 4) 4
  offset := rd im.bytes (im.ehdr.phoff + i * 56 + 8) 8
  vaddr := rd im.bytes (im.ehdr.phoff + i * 56 + 16) 8
  filesz := rd im.bytes (im.ehdr.phoff + i * 56 + 32) 8
  memsz := rd im.bytes (im.ehdr.phoff + i * 56 + 40) 8

variable {off w : Nat}

theorem slice_part (buf : Bytes) (base n : Nat) (h : off + w ≤ n) :
    ((slice buf base n).drop off).take w = slice buf (base + off) w := by
  have hsplit : n = off + (w + (n - off - w)) := by omega
  rw [hsplit, slice_add, slice_add, drop_left' (slice_length ..), take_left' (slice_length ..)]

theorem scalar_slice (buf : Bytes) (base n : Nat) (h : off + w ≤ n) :
    scalar (slice buf base n) off w = rd buf (base + off) w := by
  rw [scalar, slice_part buf base n h, rd]

theorem ehdrGet_eq (h : 64 ≤ im.size) : ehdrGet im = .ok im.ehdr := by
  have hmagic : (slice im.bytes 0 64).take 4 = slice im.bytes 0 4 :=
    slice_part im.bytes 0 64 (show 0 + 4 ≤ 64 by decide)
  unfold ehdrGet Image.ehdr
  rw [Image.fetch_of_le (by omega), ← hmagic]
  simp (disch := decide) only [bind, Except.bind, pure, Except.pure, scalar_slice, Nat.zero_add]

theorem phdrGet_eq {i : Nat} (h : 64 ≤ im.size) (hle : im.ehdr.phoff + i * 56 + 56 ≤ im.size) :
    elf64PhdrGet im i = .ok (im.phdr i) := by
  have hoff : (im.ehdr.phoff + i * 56) % 2 ^ 64 = im.ehdr.phoff + i * 56 := by
    have hfits := im.fits
    exact Nat.mod_eq_of_lt (by omega)
  unfold elf64PhdrGet Image.phdr
  rw [ehdrGet_eq h]
  simp only [bind, Except.bind]
  rw [hoff, Image.fetch_of_le hle]
  simp (disch := decide) only [pure, Except.pure, scalar_slice, Nat.add_zero]

/-! ## The contract -/

/-- The pages of a segment: addresses from the page of its first byte to the end of the page of its
last. -/
def Phdr.pages (ph : Phdr) : Set Nat :=
  {x | ph.vaddr / 4096 * 4096 ≤ x ∧ x < (ph.vaddr + ph.memsz + 4095) / 4096 * 4096}

/-- **A loadable executable** for the address range from `vaMin` to `vaLimit`. -/
structure Documented (im : Image) (vaMin vaLimit : Nat) : Prop where
  size : 64 ≤ im.size
  magic : im.ehdr.magic = [0x7F, 0x45, 0x4C, 0x46]
  cls : im.ehdr.cls = 2
  data : im.ehdr.data = 1
  identVersion : im.ehdr.identVersion = 1
  type : im.ehdr.type = 2
  machine : im.ehdr.machine = 62
  version : im.ehdr.version = 1
  phentsize : im.ehdr.phentsize = 56
  phnum : 1 ≤ im.ehdr.phnum ∧ im.ehdr.phnum ≤ 16
  table : im.ehdr.phoff + im.ehdr.phnum * 56 ≤ im.size
  notBoth : ∀ i < im.ehdr.phnum, (im.phdr i).type = ptLoad →
    ¬(has (im.phdr i).flags pfW = true ∧ has (im.phdr i).flags pfX = true)
  sizes : ∀ i < im.ehdr.phnum, (im.phdr i).type = ptLoad → (im.phdr i).filesz ≤ (im.phdr i).memsz
  inFile : ∀ i < im.ehdr.phnum, (im.phdr i).Loads → (im.phdr i).offset + (im.phdr i).filesz ≤ im.size
  inRange : ∀ i < im.ehdr.phnum, (im.phdr i).Loads →
    vaMin ≤ (im.phdr i).vaddr ∧ (im.phdr i).vaddr + (im.phdr i).memsz ≤ vaLimit
  congruent : ∀ i < im.ehdr.phnum, (im.phdr i).Loads →
    (im.phdr i).vaddr % 4096 = (im.phdr i).offset % 4096
  apart : ∀ i j, i < j → j < im.ehdr.phnum → (im.phdr i).Loads → (im.phdr j).Loads →
    Disjoint (im.phdr i).pages (im.phdr j).pages
  some : ∃ i < im.ehdr.phnum, (im.phdr i).Loads
  entry : ∃ i < im.ehdr.phnum, (im.phdr i).Loads ∧ (im.phdr i).HasEntry im.ehdr.entry

/-! ## The loop -/

/-- The loop over the program headers. -/
def Accepts (size vaMin vaLimit entry : Nat) : List Phdr → Spans → Prop
  | [], _ => True
  | ph :: phs, seen =>
    ph.Accepted size vaMin vaLimit seen.loads ∧ Accepts size vaMin vaLimit entry phs (seen.add entry ph)

theorem checkPhdrs_iff (hl : vaLimit < 2 ^ 64) (is : List Nat)
    (hget : ∀ i ∈ is, elf64PhdrGet im i = .ok (im.phdr i)) : ∀ {seen seen' : Spans},
    checkPhdrs im vaMin vaLimit entry is seen = .ok seen' ↔
      Accepts im.size vaMin vaLimit entry (is.map im.phdr) seen ∧
        seen' = (is.map im.phdr).foldl (Spans.add entry) seen := by
  induction is with
  | nil =>
    intro seen seen'
    rw [checkPhdrs, Except.ok.injEq, eq_comm]
    exact (and_iff_right trivial).symm
  | cons i is ih =>
    intro seen seen'
    have ih := @ih fun j hj => hget j (mem_cons_of_mem i hj)
    rw [checkPhdrs, hget i mem_cons_self]
    show (checkPhdr im.size vaMin vaLimit entry (im.phdr i) seen >>= _) = _ ↔ _
    rw [map_cons, foldl_cons]
    constructor
    · intro h
      obtain ⟨mid, hmid, h⟩ := bind_eq_ok h
      obtain ⟨hacc, rfl⟩ := (checkPhdr_iff hl).mp hmid
      obtain ⟨hrest, hfold⟩ := ih.mp h
      exact ⟨⟨hacc, hrest⟩, hfold⟩
    · rintro ⟨⟨hacc, hrest⟩, hfold⟩
      rw [(checkPhdr_iff hl).mpr ⟨hacc, rfl⟩]
      exact ih.mpr ⟨hrest, hfold⟩

variable {ph : Phdr}

variable {l : Nat × Nat}

/-- The spans seen are those of the segments. -/
theorem mem_loads_add :
    l ∈ (seen.add entry ph).loads ↔ l ∈ seen.loads ∨ ph.Loads ∧ l = ph.span := by
  unfold Spans.add
  by_cases hload : ph.Loads
  · rw [if_pos hload]
    simp only [mem_append, mem_singleton, hload, true_and]
  · rw [if_neg hload]
    simp only [hload, false_and, or_false]

theorem entryOk_add : (seen.add entry ph).entryOk = true ↔
    seen.entryOk = true ∨ ph.Loads ∧ ph.HasEntry entry := by
  unfold Spans.add
  by_cases hload : ph.Loads
  · rw [if_pos hload]
    simp only [decide_eq_true_eq, hload, true_and]
  · rw [if_neg hload]
    simp only [hload, false_and, or_false]

theorem mem_loads_foldl (phs : List Phdr) : ∀ {seen : Spans},
    l ∈ (phs.foldl (Spans.add entry) seen).loads ↔ l ∈ seen.loads ∨ ∃ ph ∈ phs, ph.Loads ∧ l = ph.span := by
  induction phs with
  | nil => simp
  | cons ph phs ih =>
    intro seen
    rw [foldl_cons, ih, mem_loads_add, or_assoc]
    simp only [mem_cons, exists_eq_or_imp]

theorem entryOk_foldl (phs : List Phdr) : ∀ {seen : Spans},
    (phs.foldl (Spans.add entry) seen).entryOk = true ↔
      seen.entryOk = true ∨ ∃ ph ∈ phs, ph.Loads ∧ ph.HasEntry entry := by
  induction phs with
  | nil => simp
  | cons ph phs ih =>
    intro seen
    rw [foldl_cons, ih, entryOk_add, or_assoc]
    simp only [mem_cons, exists_eq_or_imp]

/-- Two segments do not share a page, as the validator rounds. -/
def Phdr.Clear (ph ph' : Phdr) : Prop :=
  ph.Loads → ph'.Loads → ¬(ph'.span.1 < ph.span.2 ∧ ph.span.1 < ph'.span.2)

variable {size : Nat}

/-- **The loop without its order**: every header on its own, and every two. -/
theorem accepts_iff (phs : List Phdr) : ∀ {seen : Spans},
    Accepts size vaMin vaLimit entry phs seen ↔
      (∀ ph ∈ phs, ph.Accepted size vaMin vaLimit seen.loads) ∧ phs.Pairwise Phdr.Clear := by
  induction phs with
  | nil => exact ⟨fun _ => ⟨nofun, .nil⟩, fun _ => trivial⟩
  | cons ph phs ih =>
    intro seen
    rw [Accepts, ih, forall_mem_cons, pairwise_cons]
    constructor
    · rintro ⟨hacc, hrest, hpair⟩
      refine ⟨⟨hacc, fun ph' hin => ?_⟩, fun ph' hin hload hload' => ?_, hpair⟩
      · have hacc' := hrest ph' hin
        exact ⟨hacc'.notBoth, hacc'.sizes, hacc'.sound, fun hload l hl =>
          hacc'.apart hload l (mem_loads_add.mpr (.inl hl))⟩
      · exact (hrest ph' hin).apart hload' ph.span (mem_loads_add.mpr (.inr ⟨hload, rfl⟩))
    · rintro ⟨⟨hacc, hrest⟩, hclear, hpair⟩
      refine ⟨hacc, fun ph' hin => ?_, hpair⟩
      have hacc' := hrest ph' hin
      refine ⟨hacc'.notBoth, hacc'.sizes, hacc'.sound, fun hload l hl => ?_⟩
      rcases mem_loads_add.mp hl with hl | ⟨hload', rfl⟩
      · exact hacc'.apart hload l hl
      · exact hclear ph' hin hload' hload

/-! ## The validator -/

variable {α : Type}

variable {ε β : Type}

theorem ok_bind (a : α) (f : α → Except ε β) : (Except.ok a >>= f) = f a := rfl

theorem exists_bind_ok {x : Except ε α} {f : α → Except ε β} :
    (∃ b, (x >>= f) = .ok b) ↔ ∃ a, x = .ok a ∧ ∃ b, f a = .ok b := by
  constructor
  · rintro ⟨b, h⟩
    obtain ⟨a, hx, hf⟩ := bind_eq_ok h
    exact ⟨a, hx, b, hf⟩
  · rintro ⟨a, rfl, hf⟩
    exact hf

theorem exists_reject_bind_ok {c : Prop} [Decidable c] {rc : Elf64Rc}
    {f : Unit → Except Elf64Stop α} :
    (∃ b, (reject c rc >>= f) = .ok b) ↔ ¬c ∧ ∃ b, f () = .ok b := by
  unfold reject
  by_cases hc : c
  · rw [if_pos hc]
    exact ⟨nofun, fun h => absurd hc h.1⟩
  · rw [if_neg hc]
    exact (and_iff_right hc).symm

/-- The end of a segment is not rounded beyond the address space. -/
theorem Phdr.Sound.span_eq (hl : vaLimit < 2 ^ 64 - 4096) (h : ph.Sound size vaMin vaLimit) :
    ph.span =
      (ph.vaddr / 4096 * 4096, (ph.vaddr + ph.memsz + 4095) / 4096 * 4096) := by
  have hhigh := h.high
  rw [Phdr.span, pageDown, pageUp, Nat.mod_eq_of_lt (by omega)]

theorem page_lt (v : Nat) {n : Nat} (hn : 0 < n) : v / 4096 * 4096 < (v + n + 4095) / 4096 * 4096 := by
  omega

theorem Phdr.clear_iff {ph' : Phdr} (hl : vaLimit < 2 ^ 64 - 4096) (hload : ph.Loads)
    (hload' : ph'.Loads) (h : ph.Sound size vaMin vaLimit) (h' : ph'.Sound size vaMin vaLimit) :
    ph.Clear ph' ↔ Disjoint ph.pages ph'.pages := by
  have hpos := Nat.pos_of_ne_zero hload.2
  have hpos' := Nat.pos_of_ne_zero hload'.2
  rw [Phdr.Clear, imp_iff_right hload, imp_iff_right hload', h.span_eq hl, h'.span_eq hl,
    Set.disjoint_left]
  constructor
  · rintro hclear x ⟨h1, h2⟩ ⟨h3, h4⟩
    exact hclear ⟨by omega, by omega⟩
  · rintro hdisj ⟨h1, h2⟩
    -- the first page that both have
    exact hdisj (a := max (ph.vaddr / 4096 * 4096) (ph'.vaddr / 4096 * 4096))
      ⟨Nat.le_max_left .., max_lt (page_lt _ hpos) h1⟩ ⟨Nat.le_max_right .., max_lt h2 (page_lt _ hpos')⟩

/-- The headers of a table inside of the image are read. -/
theorem phdrGet_table (hsize : 64 ≤ im.size) (htable : im.ehdr.phoff + im.ehdr.phnum * 56 ≤ im.size) :
    ∀ i ∈ List.range im.ehdr.phnum, elf64PhdrGet im i = .ok (im.phdr i) := fun i hi => by
  have hi := List.mem_range.mp hi
  exact phdrGet_eq hsize (by omega)

/-- The loop over all headers of a table inside of the image. -/
theorem loop_ok_iff (hl : vaLimit < 2 ^ 64) (hsize : 64 ≤ im.size)
    (htable : im.ehdr.phoff + im.ehdr.phnum * 56 ≤ im.size) :
    (∃ seen, checkPhdrs im vaMin vaLimit im.ehdr.entry (List.range im.ehdr.phnum) ⟨[], false⟩ = .ok seen ∧
        seen.loads ≠ [] ∧ seen.entryOk = true) ↔
      Accepts im.size vaMin vaLimit im.ehdr.entry ((List.range im.ehdr.phnum).map im.phdr) ⟨[], false⟩ ∧
      (∃ i < im.ehdr.phnum, (im.phdr i).Loads) ∧
      ∃ i < im.ehdr.phnum, (im.phdr i).Loads ∧ (im.phdr i).HasEntry im.ehdr.entry := by
  have hmem : ∀ {P : Phdr → Prop}, (∃ ph ∈ (List.range im.ehdr.phnum).map im.phdr, P ph) ↔
      ∃ i < im.ehdr.phnum, P (im.phdr i) := by
    simp only [List.mem_map, List.mem_range, exists_exists_and_eq_and, implies_true]
  have hloads : ∀ phs : List Phdr, (phs.foldl (Spans.add im.ehdr.entry) ⟨[], false⟩).loads ≠ [] ↔
      ∃ ph ∈ phs, ph.Loads := fun phs => by
    constructor
    · intro hne
      obtain ⟨l, hin⟩ := exists_mem_of_ne_nil _ hne
      rcases (mem_loads_foldl phs).mp hin with hin | ⟨ph, hph, hload, -⟩
      · cases hin
      · exact ⟨ph, hph, hload⟩
    · rintro ⟨ph, hph, hload⟩
      exact ne_nil_of_mem ((mem_loads_foldl phs).mpr (.inr ⟨ph, hph, hload, rfl⟩))
  have hentry : ((List.range im.ehdr.phnum).map im.phdr |>.foldl (Spans.add im.ehdr.entry)
      ⟨[], false⟩).entryOk = true ↔ _ := entryOk_foldl _
  simp only [Bool.false_eq_true, false_or] at hentry
  simp only [checkPhdrs_iff hl _ (phdrGet_table hsize htable), and_assoc, exists_and_left,
    exists_eq_left]
  rw [hloads, hentry, hmem, hmem]

/-- **What an accepted image is.** -/
theorem validated {info : Info} (hl : vaLimit < 2 ^ 63)
    (h : elf64Validate im vaMin vaLimit = .ok info) :
    Checked im vaMin vaLimit (List.range info.phnum) [] ∧
      ∃ i < info.phnum, ∃ ph, elf64PhdrGet im i = .ok ph ∧ ph.Loads ∧ has ph.flags pfX = true ∧
        ph.vaddr ≤ info.entry ∧ info.entry < ph.vaddr + ph.filesz := by
  unfold elf64Validate at h
  obtain ⟨_, hsize, h⟩ := bind_eq_ok h
  have hsize := Nat.le_of_not_lt (reject_ok hsize)
  rw [ehdrGet_eq hsize, ok_bind] at h
  -- the checks of the header
  iterate 8 obtain ⟨_, -, h⟩ := bind_eq_ok h
  obtain ⟨_, htable, h⟩ := bind_eq_ok h
  have htable := reject_ok htable
  obtain ⟨seen, hseen, h⟩ := bind_eq_ok h
  obtain ⟨_, hloads, h⟩ := bind_eq_ok h
  obtain ⟨_, hentry, h⟩ := bind_eq_ok h
  cases h
  have htable : im.ehdr.phoff + im.ehdr.phnum * 56 ≤ im.size := by omega
  have hget := phdrGet_table hsize htable
  obtain ⟨hacc, -, i, hi, hload, hhas⟩ := (loop_ok_iff (by omega) hsize htable).mp
    ⟨seen, hseen, reject_ok hloads, Bool.not_eq_false _ ▸ reject_ok hentry⟩
  obtain ⟨hall, hclear⟩ := (accepts_iff _).mp hacc
  simp only [List.forall_mem_map] at hall
  rw [pairwise_map] at hclear
  -- a header that has been read is the one of the table
  have hone : ∀ {P : Phdr → Prop}, (∀ i ∈ List.range im.ehdr.phnum, P (im.phdr i)) →
      ∀ i ∈ List.range im.ehdr.phnum, ∀ ph, elf64PhdrGet im i = .ok ph → P ph := fun hP i hi ph hph => by
    rw [hget i hi] at hph
    cases hph
    exact hP i hi
  refine ⟨⟨fun i hi => ⟨_, hget i hi⟩, hone fun i hi => (hall i hi).sizes,
    hone fun i hi => (hall i hi).sound, fun _ _ _ _ _ => nofun, ?_⟩,
    i, hi, _, hget i (List.mem_range.mpr hi), hload, hhas⟩
  refine hclear.imp_of_mem fun {i j} hi hj hij ph ph' hph hph' => ?_
  rw [hget i hi] at hph
  rw [hget j hj] at hph'
  cases hph
  cases hph'
  exact hij

/-! ## The validator stays inside of the image -/

/-- **`elf64_validate` ends with a result or a code**, whatever the image is. -/
theorem validate_coded (im : Image) (vaMin vaLimit : Nat) :
    Coded (elf64Validate im vaMin vaLimit) := by
  unfold elf64Validate
  refine (reject_coded _ _).bind fun _ hsize => ?_
  have hsize := reject_ok hsize
  rw [ehdrGet_eq (Nat.le_of_not_lt hsize)]
  refine (Coded.ok im.ehdr).bind fun eh' heq => ?_
  cases heq
  -- the checks of the header
  iterate 8 refine (reject_coded _ _).bind fun _ _ => ?_
  refine (reject_coded _ _).bind fun _ htable => ?_
  have htable := reject_ok htable
  have hget := phdrGet_table (Nat.le_of_not_lt hsize) (by omega)
  refine (checkPhdrs_coded _ (fun i hi => ⟨_, hget i hi⟩) _).bind fun seen _ => ?_
  refine (reject_coded _ _).bind fun _ _ => ?_
  exact (reject_coded _ _).bind fun _ _ => Coded.ok _

/-- It reads no byte outside of the image. -/
theorem validate_ne_outside (im : Image) (vaMin vaLimit : Nat) :
    elf64Validate im vaMin vaLimit ≠ .error .outside := fun h => by
  obtain ⟨rc, hrc⟩ := validate_coded im vaMin vaLimit _ h
  cases hrc

/-! ## The documented images -/

/-- The checks of the header, and then those of the loop. -/
theorem validate_ok_iff (hsize : 64 ≤ im.size) :
    (∃ info, elf64Validate im vaMin vaLimit = .ok info) ↔
      im.ehdr.magic = [0x7F, 0x45, 0x4C, 0x46] ∧ im.ehdr.cls = 2 ∧ im.ehdr.data = 1 ∧
      (im.ehdr.identVersion = 1 ∧ im.ehdr.version = 1) ∧ im.ehdr.type = 2 ∧ im.ehdr.machine = 62 ∧
      im.ehdr.phentsize = 56 ∧ (1 ≤ im.ehdr.phnum ∧ im.ehdr.phnum ≤ 16) ∧
      im.ehdr.phoff + im.ehdr.phnum * 56 ≤ im.size ∧
      ∃ seen, checkPhdrs im vaMin vaLimit im.ehdr.entry (List.range im.ehdr.phnum) ⟨[], false⟩ = .ok seen ∧
        seen.loads ≠ [] ∧ seen.entryOk = true := by
  have hphnum : ¬(im.ehdr.phnum = 0 ∨ 16 < im.ehdr.phnum) ↔ 1 ≤ im.ehdr.phnum ∧ im.ehdr.phnum ≤ 16 := by
    omega
  have htable : ¬(im.size < im.ehdr.phoff ∨ im.size - im.ehdr.phoff < im.ehdr.phnum * 56) ↔
      im.ehdr.phoff + im.ehdr.phnum * 56 ≤ im.size := by
    omega
  unfold elf64Validate
  rw [exists_reject_bind_ok, ehdrGet_eq hsize, ok_bind, and_iff_right (Nat.not_lt.mpr hsize)]
  iterate 9 rw [exists_reject_bind_ok]
  rw [exists_bind_ok]
  refine and_congr not_not (and_congr not_not (and_congr not_not (and_congr ?_ (and_congr not_not
    (and_congr not_not (and_congr not_not (and_congr hphnum (and_congr htable (exists_congr fun seen =>
    and_congr_right fun _ => ?_)))))))))
  · rw [not_or, not_not, not_not]
  · rw [exists_reject_bind_ok, exists_reject_bind_ok, Bool.not_eq_false]
    exact and_congr_right fun _ => and_iff_left ⟨_, rfl⟩

theorem pairwise_range_map {R : α → α → Prop} (f : Nat → α) (n : Nat) :
    ((List.range n).map f).Pairwise R ↔ ∀ i j, i < j → j < n → R (f i) (f j) := by
  rw [pairwise_map, pairwise_iff_getElem]
  simp only [length_range, getElem_range]
  exact ⟨fun h i j hij hj => h i j (hij.trans hj) hj hij, fun h i j _ hj hij => h i j hij hj⟩

/-- A loop that accepts all headers of a documented image. -/
theorem accepts_iff_documented (hl : vaLimit < 2 ^ 64 - 4096) :
    Accepts im.size vaMin vaLimit im.ehdr.entry ((List.range im.ehdr.phnum).map im.phdr) ⟨[], false⟩ ↔
      (∀ i < im.ehdr.phnum, (im.phdr i).Accepted im.size vaMin vaLimit []) ∧
      ∀ i j, i < j → j < im.ehdr.phnum → (im.phdr i).Loads → (im.phdr j).Loads →
        Disjoint (im.phdr i).pages (im.phdr j).pages := by
  rw [accepts_iff, pairwise_range_map]
  simp only [List.forall_mem_map, List.mem_range]
  refine and_congr_right fun hall => forall_congr' fun i => forall_congr' fun j =>
    forall_congr' fun hij => forall_congr' fun hj => ?_
  have hsound := fun hload => (hall i (hij.trans hj)).sound hload
  have hsound' := fun hload => (hall j hj).sound hload
  constructor
  · exact fun hclear hload hload' =>
      (Phdr.clear_iff hl hload hload' (hsound hload) (hsound' hload')).mp hclear
  · exact fun hdisj hload hload' =>
      (Phdr.clear_iff hl hload hload' (hsound hload) (hsound' hload')).mpr (hdisj hload hload') hload hload'

/-- **`elf64_validate` accepts exactly the documented images**, and reads inside of every image. -/
theorem validate_exact (im : Image) (vaMin : Nat) (hl : vaLimit < 2 ^ 64 - 4096) :
    ((∃ info, elf64Validate im vaMin vaLimit = .ok info) ↔ Documented im vaMin vaLimit) ∧
      elf64Validate im vaMin vaLimit ≠ .error .outside := by
  refine ⟨?_, validate_ne_outside im vaMin vaLimit⟩
  have hl' : vaLimit < 2 ^ 64 := lt_of_lt_of_le hl (Nat.sub_le ..)
  by_cases hsize : 64 ≤ im.size
  · rw [validate_ok_iff hsize]
    constructor
    · rintro ⟨hmagic, hcls, hdata, ⟨hident, hversion⟩, htype, hmachine, hphentsize, hphnum, htable, hloop⟩
      obtain ⟨hacc, hsome, hentry⟩ := (loop_ok_iff hl' hsize htable).mp hloop
      obtain ⟨hall, hapart⟩ := (accepts_iff_documented hl).mp hacc
      exact ⟨hsize, hmagic, hcls, hdata, hident, htype, hmachine, hversion, hphentsize, hphnum, htable,
        fun i hi => (hall i hi).notBoth, fun i hi => (hall i hi).sizes,
        fun i hi hload => ((hall i hi).sound hload).inFile,
        fun i hi hload => ⟨((hall i hi).sound hload).low, ((hall i hi).sound hload).high⟩,
        fun i hi hload => ((hall i hi).sound hload).congruent, hapart, hsome, hentry⟩
    · intro h
      refine ⟨h.magic, h.cls, h.data, ⟨h.identVersion, h.version⟩, h.type, h.machine, h.phentsize,
        h.phnum, h.table, (loop_ok_iff hl' hsize h.table).mpr ⟨?_, h.some, h.entry⟩⟩
      refine (accepts_iff_documented hl).mpr ⟨fun i hi => ?_, h.apart⟩
      refine ⟨h.notBoth i hi, h.sizes i hi, fun hload => ?_, fun _ => nofun⟩
      exact ⟨h.notBoth i hi hload.1, h.sizes i hi hload.1, h.inFile i hi hload, (h.inRange i hi hload).1,
        (h.inRange i hi hload).2, h.congruent i hi hload⟩
  · refine ⟨fun hok => ?_, fun h => absurd h.size hsize⟩
    unfold elf64Validate at hok
    rw [exists_reject_bind_ok] at hok
    exact absurd (Nat.lt_of_not_le hsize) hok.1

theorem validate_exact_tinyImage : Documented tinyImage 4096 userVaLimit :=
  (validate_exact tinyImage 4096 (by decide)).1.mp ⟨⟨0x400078, 1⟩, by decide +kernel⟩

end Hallucinate.Proc
