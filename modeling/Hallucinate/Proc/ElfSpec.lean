import Hallucinate.Mm.CloneSpec
import Hallucinate.Proc.Elf

/-!
# What the validator checks

`Accepted` is what one round of the loop of `elf64_validate` checks of a program header
(`checkPhdr_iff`), `Checked` what the loop has checked of all of them: every program header is in the
image, every segment to be loaded is in the image and in the address range, no two of them share a
page, and none is writable and executable. The loader relies on nothing else but the entry point.
-/

namespace Hallucinate.Proc

open Lib Mm

variable {im : Image} {ph : Phdr} {vaMin vaLimit entry : Nat} {seen seen' : Spans}

variable {α : Type}

theorem bind_eq_ok {ε β : Type} {x : Except ε α} {f : α → Except ε β} {b : β}
    (h : (x >>= f) = .ok b) : ∃ a, x = .ok a ∧ f a = .ok b := by
  cases x with
  | error e => cases h
  | ok a => exact ⟨a, rfl, h⟩

theorem Image.fetch_of_le {off n : Nat} (h : off + n ≤ im.size) :
    im.fetch off n = .ok (slice im.bytes off n) := if_pos h

/-- The segment is one to be loaded. -/
def Phdr.Loads (ph : Phdr) : Prop := ph.type = ptLoad ∧ ph.memsz ≠ 0

instance (ph : Phdr) : Decidable ph.Loads := inferInstanceAs (Decidable (_ ∧ _))

/-- What is checked of a segment to be loaded. -/
structure Phdr.Sound (size vaMin vaLimit : Nat) (ph : Phdr) : Prop where
  notBoth : ¬(has ph.flags pfW = true ∧ has ph.flags pfX = true)
  filesz : ph.filesz ≤ ph.memsz
  inFile : ph.offset + ph.filesz ≤ size
  low : vaMin ≤ ph.vaddr
  high : ph.vaddr + ph.memsz ≤ vaLimit
  congruent : ph.vaddr % 4096 = ph.offset % 4096

/-- The pages from the first to the last of a segment, as the validator rounds them. -/
def Phdr.span (ph : Phdr) : Nat × Nat := (pageDown ph.vaddr, pageUp (ph.vaddr + ph.memsz))

theorem xor_mod_eq_zero {a b : Nat} (h : (a ^^^ b) % 4096 = 0) : a % 4096 = b % 4096 := by
  refine Nat.eq_of_testBit_eq fun k => ?_
  have hk := congrArg (Nat.testBit · k) h
  rw [show 4096 = 2 ^ 12 from rfl] at hk ⊢
  simp only [Nat.testBit_mod_two_pow, Nat.testBit_xor, Nat.zero_testBit] at hk ⊢
  cases hlt : decide (k < 12) with
  | false => simp
  | true => simpa [hlt] using hk

theorem xor_mod_eq_zero_iff {a b : Nat} : (a ^^^ b) % 4096 = 0 ↔ a % 4096 = b % 4096 := by
  refine ⟨xor_mod_eq_zero, fun h => ?_⟩
  rw [show 4096 = 2 ^ 12 from rfl, Nat.xor_mod_two_pow, h, Nat.xor_self]

/-- What is checked of a program header, with the spans `old` seen before. -/
structure Phdr.Accepted (size vaMin vaLimit : Nat) (old : List (Nat × Nat)) (ph : Phdr) : Prop where
  notBoth : ph.type = ptLoad → ¬(has ph.flags pfW = true ∧ has ph.flags pfX = true)
  sizes : ph.type = ptLoad → ph.filesz ≤ ph.memsz
  sound : ph.Loads → ph.Sound size vaMin vaLimit
  apart : ph.Loads → ∀ l ∈ old, ¬(ph.span.1 < l.2 ∧ l.1 < ph.span.2)

/-- The entry point is in the bytes of an executable segment. -/
def Phdr.HasEntry (entry : Nat) (ph : Phdr) : Prop :=
  has ph.flags pfX = true ∧ ph.vaddr ≤ entry ∧ entry < ph.vaddr + ph.filesz

instance (entry : Nat) (ph : Phdr) : Decidable (ph.HasEntry entry) :=
  inferInstanceAs (Decidable (_ ∧ _ ∧ _))

/-- What has been seen after one more program header. -/
def Spans.add (entry : Nat) (seen : Spans) (ph : Phdr) : Spans :=
  if ph.Loads then ⟨seen.loads ++ [ph.span], seen.entryOk ∨ ph.HasEntry entry⟩ else seen

/-- **One round of the loop over the program headers.** -/
theorem checkPhdr_iff (hl : vaLimit < 2 ^ 64) :
    checkPhdr im.size vaMin vaLimit entry ph seen = .ok seen' ↔
      ph.Accepted im.size vaMin vaLimit seen.loads ∧ seen' = seen.add entry ph := by
  unfold checkPhdr
  by_cases h1 : ph.type ≠ ptLoad
  · have hno : ¬ ph.Loads := fun hload => h1 hload.1
    rw [if_pos h1, Spans.add, if_neg hno, Except.ok.injEq, eq_comm]
    refine (and_iff_right ⟨fun h => absurd h h1, fun h => absurd h h1, fun h => absurd h hno,
      fun h => absurd h hno⟩).symm
  rw [if_neg h1]
  have htype : ph.type = ptLoad := not_not.mp h1
  by_cases h2 : has ph.flags pfW = true ∧ has ph.flags pfX = true
  · rw [if_pos h2]
    exact ⟨nofun, fun h => absurd h2 (h.1.notBoth htype)⟩
  rw [if_neg h2]
  by_cases h3 : ph.memsz < ph.filesz
  · rw [if_pos h3]
    exact ⟨nofun, fun h => absurd (h.1.sizes htype) (Nat.not_le.mpr h3)⟩
  rw [if_neg h3]
  by_cases h4 : ph.memsz = 0
  · have hno : ¬ ph.Loads := fun hload => hload.2 h4
    rw [if_pos h4, Spans.add, if_neg hno, Except.ok.injEq, eq_comm]
    refine (and_iff_right ⟨fun _ => h2, fun _ => Nat.le_of_not_lt h3, fun h => absurd h hno,
      fun h => absurd h hno⟩).symm
  rw [if_neg h4]
  have hload : ph.Loads := ⟨htype, h4⟩
  by_cases h5 : im.size < ph.offset ∨ im.size - ph.offset < ph.filesz
  · rw [if_pos h5]
    refine ⟨nofun, fun h => ?_⟩
    have hin := (h.1.sound hload).inFile
    omega
  rw [if_neg h5]
  by_cases h6 : ph.vaddr < vaMin ∨ vaLimit ≤ ph.vaddr
  · rw [if_pos h6]
    refine ⟨nofun, fun h => ?_⟩
    have hlow := (h.1.sound hload).low
    have hhigh := (h.1.sound hload).high
    omega
  rw [if_neg h6]
  by_cases h7 : vaLimit - ph.vaddr < ph.memsz
  · rw [if_pos h7]
    refine ⟨nofun, fun h => ?_⟩
    have hhigh := (h.1.sound hload).high
    omega
  rw [if_neg h7]
  by_cases h8 : (ph.vaddr ^^^ ph.offset) % 4096 ≠ 0
  · rw [if_pos h8]
    exact ⟨nofun, fun h => absurd (xor_mod_eq_zero_iff.mpr (h.1.sound hload).congruent) h8⟩
  rw [if_neg h8]
  have hsound : ph.Sound im.size vaMin vaLimit := ⟨h2, by omega, by omega, by omega, by omega,
    xor_mod_eq_zero (not_not.mp h8)⟩
  have hend : (ph.vaddr + ph.memsz) % 2 ^ 64 = ph.vaddr + ph.memsz := Nat.mod_eq_of_lt (by omega)
  have hfile : (ph.vaddr + ph.filesz) % 2 ^ 64 = ph.vaddr + ph.filesz := Nat.mod_eq_of_lt (by omega)
  rw [hend, hfile, Spans.add, if_pos hload]
  show (if (seen.loads.any fun l => ph.span.1 < l.2 ∧ l.1 < ph.span.2) = true then _ else _) = _ ↔ _
  by_cases h9 : (seen.loads.any fun l => ph.span.1 < l.2 ∧ l.1 < ph.span.2) = true
  · rw [if_pos h9]
    refine ⟨nofun, fun h => ?_⟩
    obtain ⟨l, hin, hover⟩ := List.any_eq_true.mp h9
    exact absurd (of_decide_eq_true hover) (h.1.apart hload l hin)
  · rw [if_neg h9, Except.ok.injEq, eq_comm]
    refine (and_iff_right ⟨fun _ => h2, fun _ => hsound.filesz, fun _ => hsound, fun _ l hin hover => ?_⟩).symm
    exact h9 (List.any_eq_true.mpr ⟨l, hin, decide_eq_true hover⟩)

/-- What the loop over the program headers `is` has checked, with the spans `old` seen before. -/
structure Checked (im : Image) (vaMin vaLimit : Nat) (is : List Nat) (old : List (Nat × Nat)) :
    Prop where
  get : ∀ i ∈ is, ∃ ph, elf64PhdrGet im i = .ok ph
  sizes : ∀ i ∈ is, ∀ ph, elf64PhdrGet im i = .ok ph → ph.type = ptLoad → ph.filesz ≤ ph.memsz
  sound : ∀ i ∈ is, ∀ ph, elf64PhdrGet im i = .ok ph → ph.Loads → ph.Sound im.size vaMin vaLimit
  old : ∀ i ∈ is, ∀ ph, elf64PhdrGet im i = .ok ph → ph.Loads →
    ∀ l ∈ old, ¬(ph.span.1 < l.2 ∧ l.1 < ph.span.2)
  apart : is.Pairwise fun i j => ∀ ph ph', elf64PhdrGet im i = .ok ph → elf64PhdrGet im j = .ok ph' →
    ph.Loads → ph'.Loads → ¬(ph'.span.1 < ph.span.2 ∧ ph.span.1 < ph'.span.2)

theorem reject_ok {c : Prop} [Decidable c] {rc : Elf64Rc} {u : Unit} (h : reject c rc = .ok u) :
    ¬c := by
  intro hc
  rw [reject, if_pos hc] at h
  cases h

/-! ## The validator stays inside of the image -/

/-- If there is no result, a code is returned. -/
def Coded {α : Type} (x : Except Elf64Stop α) : Prop := ∀ stop, x = .error stop → ∃ rc, stop = .rc rc

theorem Coded.ok (a : α) : Coded (.ok a : Except Elf64Stop α) := fun _ h => nomatch h

theorem Coded.code (rc : Elf64Rc) : Coded (.error (.rc rc) : Except Elf64Stop α) := by
  rintro stop h
  cases h
  exact ⟨rc, rfl⟩

theorem Coded.bind {β : Type} {x : Except Elf64Stop α} {f : α → Except Elf64Stop β} (hx : Coded x)
    (hf : ∀ a, x = .ok a → Coded (f a)) : Coded (x >>= f) := by
  cases x with
  | error e =>
    rintro stop h
    cases h
    exact hx e rfl
  | ok a => exact hf a rfl

theorem reject_coded (c : Prop) [Decidable c] (rc : Elf64Rc) : Coded (reject c rc) := by
  unfold reject
  split
  · exact Coded.code rc
  · exact Coded.ok ()

theorem checkPhdr_coded (size : Nat) (ph : Phdr) (seen : Spans) :
    Coded (checkPhdr size vaMin vaLimit entry ph seen) := by
  unfold checkPhdr
  dsimp only
  split_ifs <;> first | exact Coded.ok _ | exact Coded.code _

theorem checkPhdrs_coded (is : List Nat) (hget : ∀ i ∈ is, ∃ ph, elf64PhdrGet im i = .ok ph) :
    ∀ seen, Coded (checkPhdrs im vaMin vaLimit entry is seen) := by
  induction is with
  | nil => exact fun seen => Coded.ok seen
  | cons i is ih =>
    intro seen
    obtain ⟨ph, hph⟩ := hget i List.mem_cons_self
    rw [checkPhdrs]
    refine Coded.bind (by rw [hph]; exact Coded.ok ph) fun ph' _ =>
      (checkPhdr_coded _ _ _).bind fun seen' _ =>
        ih (fun j hj => hget j (List.mem_cons_of_mem i hj)) seen'

end Hallucinate.Proc
