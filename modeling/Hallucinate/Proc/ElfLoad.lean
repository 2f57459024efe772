import Hallucinate.Mm.Rights
import Hallucinate.Proc.ElfExact

/-!
# What the loader makes of an accepted image

* `fillPage_spec`, `loadPage_spec`: one page. It holds its part of the segment (`segByte`), and the
  copy stays inside of the image.
* `loadPages_spec`, `loadSegments_spec`: the loops. Segments share no page, so no page is mapped twice.
* `elf_load_faithful`: a process sees the segments of the image and nothing else, or memory has run
  out.
-/

namespace Hallucinate.Proc

open Lib Mm Lib.Radix List

variable {root va : Nat} {im : Image} {ph : Phdr} {s s' : Machine} {D : Set (Nat × Phdr)}

/-- The byte of a segment at an address of its pages: from the file, or zero. -/
def segByte (im : Image) (ph : Phdr) (virt : Nat) : UInt8 :=
  if ph.vaddr ≤ virt ∧ virt < ph.vaddr + ph.filesz then im.bytes (ph.offset + (virt - ph.vaddr)) else 0

/-- **`fill_page`** copies what the file has for the page. -/
theorem fillPage_spec (hsound : ph.Sound im.size 4096 userVaLimit) (hva : va < userVaLimit)
    (page : Bytes) (hzero : ∀ b < 4096, page b = 0) :
    ∃ page', fillPage im va ph page = .ok page' ∧ ∀ b < 4096, page' b = segByte im ph (va + b) := by
  have hfile := hsound.filesz
  have hin := hsound.inFile
  have hhigh := hsound.high
  have hfits := im.fits
  unfold userVaLimit at hva hhigh
  have hend : (ph.vaddr + ph.filesz) % 2 ^ 64 = ph.vaddr + ph.filesz := Nat.mod_eq_of_lt (by omega)
  have hnext : (va + 4096) % 2 ^ 64 = va + 4096 := Nat.mod_eq_of_lt (by omega)
  unfold fillPage
  rw [hend, hnext]
  dsimp only
  generalize hlo : (if ph.vaddr < va then va else ph.vaddr) = lo
  generalize hhi : (if va + 4096 < ph.vaddr + ph.filesz then va + 4096 else ph.vaddr + ph.filesz) = hi
  have hlo' : lo = max va ph.vaddr := by
    rw [← hlo]
    split <;> omega
  have hhi' : hi = min (va + 4096) (ph.vaddr + ph.filesz) := by
    rw [← hhi]
    split <;> omega
  by_cases hlt : lo < hi
  · rw [if_pos hlt, Nat.mod_eq_of_lt (by omega), Image.fetch_of_le (by omega)]
    refine ⟨_, rfl, fun b hb => ?_⟩
    unfold segByte
    by_cases hbyte : ph.vaddr ≤ va + b ∧ va + b < ph.vaddr + ph.filesz
    · have hb' : b = lo - va + (va + b - lo) := by omega
      have hidx : va + b - lo < (slice im.bytes (ph.offset + (lo - ph.vaddr)) (hi - lo)).length := by
        rw [slice_length]
        omega
      have hcopy : copyIn page (lo - va) _ (lo - va + (va + b - lo)) = _ := copyIn_of_mem hidx
      rw [slice_getElem, ← hb'] at hcopy
      rw [if_pos hbyte, hcopy]
      exact congrArg im.bytes (by omega)
    · rw [if_neg hbyte, copyIn_of_not_mem]
      · exact hzero b hb
      · rw [slice_length]
        omega
  · rw [if_neg hlt]
    refine ⟨page, rfl, fun b hb => ?_⟩
    rw [hzero b hb, segByte, if_neg (by omega)]

/-! ## The loops -/

/-- **The state of the load** when the pages `D` are done, each given by its address and the segment
that it is part of. -/
structure Loading (root : Nat) (im : Image) (s : Machine) (D : Set (Nat × Phdr)) : Prop where
  user : UserSpace root s
  ready : Ready s.pmm
  links : Links 256 root s
  addr : ∀ x ∈ D, x.1 % 4096 = 0 ∧ x.1 < userVaLimit
  page : ∀ x ∈ D, ∃ e, find 256 root s (vpath x.1 4) = .leaf 0 e ∧
    (∀ b < 4096, s.mem (pageOf e) b = segByte im x.2 (x.1 + b)) ∧
    has e pteUS = true ∧ has e pteW = has x.2.flags pfW ∧ has e pteNX = !has x.2.flags pfX
  way : ∀ x ∈ D, ∀ l, 0 < l → l ≤ 3 → has (linkEntry 256 root s (vpath x.1 l)) pteUS = true
  only : ∀ p k e, p.length = 4 → find 256 root s p = .leaf k e → ∃ x ∈ D, p = vpath x.1 4

/-- Memory has run out: at most the frame that was just given back is free. -/
def Exhausted (stop : Elf64Stop) (s : Machine) : Prop :=
  stop = .rc .enomem ∧ s.pmm.freeSet.card ≤ 1

theorem segPteFlags_spec (flags : Nat) :
    segPteFlags flags < 2 ^ 64 ∧ pteAddr (segPteFlags flags) = 0 ∧
      has (segPteFlags flags) pteUS = true ∧ has (segPteFlags flags) pteW = has flags pfW ∧
      has (segPteFlags flags) pteNX = !has flags pfX := by
  unfold segPteFlags
  cases has flags pfW <;> cases has flags pfX <;> decide

/-- The entry of a page has the bits of its flags. -/
theorem has_leafEntry_flags {f flags k : Nat} (hf : f < 2 ^ 40) (hk : k ≠ 0) (hk' : k < 12 ∨ 52 ≤ k) :
    has (leafEntry (f * 4096) flags 1) (2 ^ k) = has flags (2 ^ k) := by
  have hP : has pteP (2 ^ k) = false := by
    rw [pteP, has_two_pow, Nat.testBit_two_pow_of_ne hk.symm]
  rw [leafEntry, if_neg (by decide), pteAddr_of_lt hf, has_or, has_or, has_or, has_frame hf hk', hP,
    has_two_pow 0, Nat.zero_testBit, Bool.false_or, Bool.or_false, Bool.or_false]

/-- The pages of a segment from an address on. -/
def Phdr.pagesFrom (ph : Phdr) (va : Nat) : Set (Nat × Phdr) :=
  {x | x.2 = ph ∧ x.1 % 4096 = 0 ∧ va ≤ x.1 ∧ x.1 < ph.vaddr + ph.memsz}

theorem Phdr.pagesFrom_eq_empty (h : ph.vaddr + ph.memsz ≤ va) : ph.pagesFrom va = ∅ :=
  Set.eq_empty_of_forall_notMem fun _ ⟨_, _, h1, h2⟩ => absurd h1 (by omega)

/-- The pages of the segments with the indices given. -/
def segPages (im : Image) (is : List Nat) : Set (Nat × Phdr) :=
  {x | ∃ i ∈ is, elf64PhdrGet im i = .ok x.2 ∧ x.2.Loads ∧ x ∈ x.2.pagesFrom (pageDown x.2.vaddr)}

theorem Checked.tail {vaMin vaLimit i : Nat} {is : List Nat} {old : List (Nat × Nat)}
    (h : Checked im vaMin vaLimit (i :: is) old) : Checked im vaMin vaLimit is old :=
  ⟨fun j hj => h.get j (mem_cons_of_mem i hj), fun j hj => h.sizes j (mem_cons_of_mem i hj),
    fun j hj => h.sound j (mem_cons_of_mem i hj), fun j hj => h.old j (mem_cons_of_mem i hj),
    (pairwise_cons.mp h.apart).2⟩

/-- Segments whose spans are apart share no page. -/
theorem Phdr.pages_apart {ph' : Phdr} (hsound : ph.Sound im.size 4096 userVaLimit)
    (hsound' : ph'.Sound im.size 4096 userVaLimit)
    (hapart : ¬(ph'.span.1 < ph.span.2 ∧ ph.span.1 < ph'.span.2)) {x : Nat × Phdr}
    (hx : x ∈ ph.pagesFrom (pageDown ph.vaddr)) :
    ¬(pageDown ph'.vaddr ≤ x.1 ∧ x.1 < ph'.vaddr + ph'.memsz) := by
  rintro ⟨h1, h2⟩
  obtain ⟨-, hal, h3, h4⟩ := hx
  have hhigh := hsound.high
  have hhigh' := hsound'.high
  unfold userVaLimit at hhigh hhigh'
  refine hapart ⟨?_, ?_⟩ <;> simp only [Phdr.span, pageUp, pageDown] at h1 h3 ⊢ <;> omega

section Loops

-- what a caller wants to know of the frames is carried along
variable {I : Machine → Prop} (hI : ∀ {s s' : Machine}, I s → Within root s s' → I s')

include hI

/-- **The body of the loop over pages**: the page is loaded, or memory has run out. -/
theorem loadPage_spec (h : Loading root im s D) (hi : I s)
    (hsound : ph.Sound im.size 4096 userVaLimit) (hal : va % 4096 = 0) (hva : va < userVaLimit)
    (hnew : ∀ x ∈ D, x.1 ≠ va) :
    Ends (fun s' => Loading root im s' (insert (va, ph) D) ∧ I s')
      (fun stop s' => Exhausted stop s' ∧ I s') (loadPage (root * 4096) im ph va s) := by
  rw [loadPage]
  rcases pmmAllocFrame_spec h.ready with ⟨hnone, halloc⟩ | ⟨f, hf, hf0, pmm, halloc, hready, hn, hset⟩
  · rw [halloc]
    exact ⟨⟨rfl, by rw [hnone]; exact Nat.zero_le 1⟩, hi⟩
  rw [halloc]
  simp only [if_neg (show ¬f * 4096 = 0 by omega)]
  obtain ⟨page, hfill, hpage⟩ := fillPage_spec hsound hva
    (fill (s.mem (f * 4096 / 4096)) 0 4096 0) fun b hb => fill_of_mem (Nat.zero_le b) (by omega)
  rw [hfill]
  dsimp only
  have hheld := h.user.held page hf hf0 hready hn hset
  have htables : ∀ p n, find 256 root s p = .node n →
      (({ s with pmm := pmm } : Machine).setPage (f * 4096) page).mem n = s.mem n := fun p n hp =>
    Machine.setFrame_ne fun hnf => (h.user.space.used p n hp).2.2 (hnf ▸ hf)
  have hopen₁ := Opens.of_tables htables
  have hfind₁ := find_congr_tables htables
  generalize ({ s with pmm := pmm } : Machine).setPage (f * 4096) page = s₁ at hheld hopen₁ hfind₁ ⊢
  obtain ⟨hflags, hnoaddr, hus, hw, hnx⟩ := segPteFlags_spec ph.flags
  have htop := indexAt_user (show va < 2 ^ 47 from hva)
  obtain ⟨s', hmap⟩ := hheld.map hal htop hflags hnoaddr
  have hopen₂ : Opens 256 root s₁
        (pagingMap4k (root * 4096) va (f * 4096) (segPteFlags ph.flags) s₁).2 ∧
      ((pagingMap4k (root * 4096) va (f * 4096) (segPteFlags ph.flags) s₁).1 = .ok → _ → ∀ l, 0 < l →
        l ≤ 3 → has (linkEntry 256 root
          (pagingMap4k (root * 4096) va (f * 4096) (segPteFlags ph.flags) s₁).2 (vpath va l)) pteUS = true) :=
    mapCommon_opens hheld.user.space hheld.ready (.inl rfl) hflags htop (hheld.user.not_leaf_above va)
  have hother : ∀ x ∈ D, vpath x.1 4 ≠ vpath va 4 := fun x hx hpath => by
    obtain ⟨hal', hlt'⟩ := h.addr x hx
    unfold userVaLimit at hva hlt'
    rw [vpath_eq_iff (by omega) (by omega)] at hpath
    exact hnew x hx (by omega)
  rcases hmap with ⟨hcall, hkeep, hcard⟩ | ⟨hcall, -, k, e, hleaf⟩ | ⟨hcall, hadd⟩
  · rw [hcall]
    exact ⟨⟨rfl, by rw [hcard]; exact Nat.le_refl 1⟩, hI hi hkeep.within⟩
  · -- the pages there are are others
    obtain ⟨x, hx, hpath⟩ := h.only _ k e (vpath_length va 4) hleaf
    exact absurd hpath.symm (hother x hx)
  · rw [hcall] at hopen₂ ⊢
    have hopen := hopen₁.trans (fun p n hp => (hfind₁ p).trans hp) hopen₂.1
    have hf40 : f < 2 ^ 40 := h.ready.lt hf
    refine ⟨⟨hadd.user, hadd.ready, hopen.links h.links, ?_, ?_, ?_, fun p k e hlen hleaf => ?_⟩,
      hI hi hadd.within⟩
    · rintro x (rfl | hx)
      · exact ⟨hal, hva⟩
      · exact h.addr x hx
    · rintro x (rfl | hx)
      · refine ⟨_, hadd.leaf, fun b hb => ?_, ?_, ?_, ?_⟩
        · rw [hadd.page]
          exact hpage b hb
        · exact (has_leafEntry_flags hf40 (by decide) (by decide)).trans hus
        · exact (has_leafEntry_flags hf40 (by decide) (by decide)).trans hw
        · exact (has_leafEntry_flags hf40 (by decide) (by decide)).trans hnx
      · obtain ⟨e, hleaf, hbytes, hbits⟩ := h.page x hx
        refine ⟨e, (hadd.others _ (vpath_length x.1 4) (hother x hx) 0 e).mpr hleaf, fun b hb => ?_, hbits⟩
        rw [hadd.pages _ 0 e hleaf]
        exact hbytes b hb
    · rintro x (rfl | hx) l h0 h3
      · exact hopen₂.2 rfl hus l h0 h3
      · obtain ⟨e, hleaf, -⟩ := h.page x hx
        obtain ⟨m, hm⟩ := h.user.node_above h3 hleaf
        have hold := h.way x hx l h0 h3
        obtain ⟨l, rfl⟩ := Nat.exists_eq_succ_of_ne_zero h0.ne'
        exact hopen.user _ _ m hm hold
    · by_cases hp : p = vpath va 4
      · exact ⟨(va, ph), .inl rfl, hp⟩
      · obtain ⟨x, hx, hpath⟩ := h.only p k e hlen ((hadd.others p hlen hp k e).mp hleaf)
        exact ⟨x, .inr hx, hpath⟩

/-- **The loop over the pages of a segment**, with `n` pages to go at most. -/
theorem loadPages_spec (hsound : ph.Sound im.size 4096 userVaLimit) (n : Nat) :
    ∀ {fuel va : Nat} {s : Machine} {D : Set (Nat × Phdr)}, n < fuel → va % 4096 = 0 →
      ph.vaddr + ph.memsz ≤ va + n * 4096 → Loading root im s D → I s →
      (∀ x ∈ D, ¬(va ≤ x.1 ∧ x.1 < ph.vaddr + ph.memsz)) →
      Ends (fun s' => Loading root im s' (D ∪ ph.pagesFrom va) ∧ I s')
        (fun stop s' => Exhausted stop s' ∧ I s') (loadPages (root * 4096) im ph fuel va s) := by
  have hhigh := hsound.high
  unfold userVaLimit at hhigh
  have hend : (ph.vaddr + ph.memsz) % 2 ^ 64 = ph.vaddr + ph.memsz := Nat.mod_eq_of_lt (by omega)
  induction n with
  | zero =>
    intro fuel va s D hfuel _ hdone h hi _
    obtain ⟨fuel, rfl⟩ := Nat.exists_eq_succ_of_ne_zero hfuel.ne'
    rw [loadPages, hend, if_neg (by omega)]
    rw [Phdr.pagesFrom_eq_empty (by omega), Set.union_empty]
    exact ⟨h, hi⟩
  | succ n ih =>
    intro fuel va s D hfuel hal hdone h hi hapart
    obtain ⟨fuel, rfl⟩ := Nat.exists_eq_succ_of_ne_zero (show fuel ≠ 0 by omega)
    rw [loadPages, hend]
    by_cases hlt : va < ph.vaddr + ph.memsz
    · rw [if_pos hlt, Nat.mod_eq_of_lt (by omega)]
      have hpage := loadPage_spec hI h hi hsound hal (by unfold userVaLimit; omega)
        fun x hx hxva => hapart x hx ⟨by omega, by omega⟩
      have hsets : D ∪ ph.pagesFrom va = insert (va, ph) D ∪ ph.pagesFrom (va + 4096) := by
        ext ⟨a, ph'⟩
        simp only [Set.mem_union, Set.mem_insert_iff, Phdr.pagesFrom, Set.mem_ofPred_eq, Prod.mk.injEq]
        constructor
        · rintro (hx | ⟨rfl, h1, h2, h3⟩)
          · exact .inl (.inr hx)
          · by_cases hav : a = va
            · exact .inl (.inl ⟨hav, rfl⟩)
            · exact .inr ⟨rfl, h1, by omega, h3⟩
        · rintro ((⟨rfl, rfl⟩ | hx) | ⟨rfl, h1, h2, h3⟩)
          · exact .inr ⟨rfl, hal, le_rfl, hlt⟩
          · exact .inl hx
          · exact .inr ⟨rfl, h1, by omega, h3⟩
      rw [hsets]
      refine hpage.andThen fun s' h' => ih (by omega) (by omega) (by omega) h'.1 h'.2 ?_
      rintro x (rfl | hx) ⟨h1, h2⟩
      · exact absurd h1 (by simp)
      · exact hapart x hx ⟨by omega, h2⟩
    · rw [if_neg hlt]
      rw [Phdr.pagesFrom_eq_empty (by omega), Set.union_empty]
      exact ⟨h, hi⟩

/-- **The loop over the segments.** -/
theorem loadSegments_spec (is : List Nat) : ∀ {s : Machine} {D : Set (Nat × Phdr)},
    Checked im 4096 userVaLimit is [] → Loading root im s D → I s →
    (∀ x ∈ D, ∀ i ∈ is, ∀ ph, elf64PhdrGet im i = .ok ph → ph.Loads →
      ¬(pageDown ph.vaddr ≤ x.1 ∧ x.1 < ph.vaddr + ph.memsz)) →
    Ends (fun s' => Loading root im s' (D ∪ segPages im is) ∧ I s')
      (fun stop s' => Exhausted stop s' ∧ I s') (loadSegments (root * 4096) im is s) := by
  induction is with
  | nil =>
    intro s D _ h hi _
    have hnone : segPages im [] = ∅ := Set.eq_empty_of_forall_notMem fun x ⟨i, hi, _⟩ => nomatch hi
    rw [hnone, Set.union_empty]
    exact ⟨h, hi⟩
  | cons i is ih =>
    intro s D hchecked h hi hapart
    obtain ⟨ph, hget⟩ := hchecked.get i mem_cons_self
    have hsplit : segPages im (i :: is) =
        {x | x.2 = ph ∧ ph.Loads ∧ x ∈ ph.pagesFrom (pageDown ph.vaddr)} ∪ segPages im is := by
      ext x
      constructor
      · rintro ⟨j, hj, hx, hrest⟩
        rcases mem_cons.mp hj with rfl | hj
        · rw [hget] at hx
          cases hx
          exact .inl ⟨rfl, hrest⟩
        · exact .inr ⟨j, hj, hx, hrest⟩
      · rintro (⟨rfl, hrest⟩ | ⟨j, hj, hrest⟩)
        · exact ⟨i, mem_cons_self, hget, hrest⟩
        · exact ⟨j, mem_cons_of_mem i hj, hrest⟩
    rw [loadSegments, hget]
    dsimp only
    by_cases hload : ph.Loads
    · have hskip : ¬(ph.type ≠ ptLoad ∨ ph.memsz = 0) := by
        rintro (hno | hno)
        · exact hno hload.1
        · exact hload.2 hno
      have hsound := hchecked.sound i mem_cons_self ph hget hload
      have hhigh := hsound.high
      unfold userVaLimit at hhigh
      have hpages : Ends _ _ (loadPages (root * 4096) im ph (2 ^ 64) (pageDown ph.vaddr) s) :=
        loadPages_spec hI hsound (2 ^ 47) (by decide) (by rw [pageDown]; omega) (by omega) h hi
          fun x hx => hapart x hx i mem_cons_self ph hget hload
      have hthis : {x : Nat × Phdr | x.2 = ph ∧ ph.Loads ∧ x ∈ ph.pagesFrom (pageDown ph.vaddr)} =
          ph.pagesFrom (pageDown ph.vaddr) := by
        ext x
        exact ⟨fun hx => hx.2.2, fun hx => ⟨hx.1, hload, hx⟩⟩
      rw [if_neg hskip, hsplit, hthis, ← Set.union_assoc]
      refine hpages.andThen fun s' h' => ih hchecked.tail h'.1 h'.2 ?_
      rintro x (hx | hx) j hj ph' hget' hload'
      · exact hapart x hx j (mem_cons_of_mem i hj) ph' hget' hload'
      · exact Phdr.pages_apart hsound (hchecked.sound j (mem_cons_of_mem i hj) ph' hget' hload')
          ((pairwise_cons.mp hchecked.apart).1 j hj ph ph' hget hget' hload hload') hx
    · have hskip : ph.type ≠ ptLoad ∨ ph.memsz = 0 := by
        by_contra hno
        rw [not_or, not_not] at hno
        exact hload hno
      have hnone : {x : Nat × Phdr | x.2 = ph ∧ ph.Loads ∧ x ∈ ph.pagesFrom (pageDown ph.vaddr)} = ∅ :=
        Set.eq_empty_of_forall_notMem fun x hx => hload hx.2.1
      rw [if_pos hskip, hsplit, hnone, Set.empty_union]
      exact ih hchecked.tail h hi fun x hx j hj => hapart x hx j (mem_cons_of_mem i hj)

end Loops

/-! ## The image in memory -/

/-- The segment has bytes in the page of the address. -/
def Phdr.Touches (ph : Phdr) (virt : Nat) : Prop :=
  ∃ k < ph.memsz, (ph.vaddr + k) / 4096 = virt / 4096

/-- **A loaded segment**, as a process sees it. -/
structure Loaded (pml4 : Nat) (im : Image) (s : Machine) (ph : Phdr) : Prop where
  inFile : ∀ i < ph.filesz, ph.offset + i < im.size
  file : ∀ i < ph.filesz, readByte s pml4 (ph.vaddr + i) = some (im.bytes (ph.offset + i))
  zero : ∀ virt, ph.Touches virt → ¬(ph.vaddr ≤ virt ∧ virt < ph.vaddr + ph.filesz) →
    readByte s pml4 virt = some 0
  rights : ∀ virt, ph.Touches virt →
    rights s pml4 virt = some ⟨true, has ph.flags pfW, has ph.flags pfX⟩
  notBoth : ∀ virt, ph.Touches virt → ¬(has ph.flags pfW = true ∧ has ph.flags pfX = true)

variable {virt : Nat}

/-- The pages of a segment are those that it touches. -/
theorem Phdr.touches_iff (hne : ph.memsz ≠ 0) :
    ph.Touches virt ↔ (virt / 4096 * 4096, ph) ∈ ph.pagesFrom (pageDown ph.vaddr) := by
  constructor
  · rintro ⟨k, hk, heq⟩
    refine ⟨rfl, ?_, ?_, ?_⟩ <;> simp only [pageDown] <;> omega
  · rintro ⟨-, -, h1, h2⟩
    simp only [pageDown] at h1 h2
    refine ⟨max (virt / 4096 * 4096) ph.vaddr - ph.vaddr, ?_, ?_⟩ <;> omega

/-- What a process sees in a page that is loaded. -/
theorem Loading.sees (h : Loading root im s D) (hin : (virt / 4096 * 4096, ph) ∈ D) :
    readByte s (root * 4096) virt = some (segByte im ph virt) ∧
      rights s (root * 4096) virt = some ⟨true, has ph.flags pfW, has ph.flags pfX⟩ := by
  obtain ⟨e, hleaf, hbytes, hus, hw, hnx⟩ := h.page _ hin
  obtain ⟨-, hlt⟩ := h.addr _ hin
  have hway := h.way _ hin
  unfold userVaLimit at hlt
  have hv : virt < 2 ^ 47 := by omega
  have hpath : ∀ l, l ≤ 4 → vpath (virt / 4096 * 4096) l = vpath virt l := fun l hl => by
    have hfour : vpath (virt / 4096 * 4096) 4 = vpath virt 4 :=
      (vpath_eq_iff (by omega) (by omega)).mpr (by omega)
    refine List.IsSuffix.eq_of_length ?_ (by rw [vpath_length, vpath_length])
    have hsuf := vpath_suffix (virt / 4096 * 4096) hl
    rw [hfour] at hsuf
    exact suffix_of_suffix_length_le hsuf (vpath_suffix virt hl)
      (by rw [vpath_length, vpath_length])
  rw [hpath 4 le_rfl] at hleaf
  refine ⟨?_, ?_⟩
  · rw [h.user.readByte hv hleaf, hbytes _ (Nat.mod_lt _ (by decide)), Nat.mul_comm, Nat.div_add_mod]
  · rw [h.user.rights h.links hv hleaf fun l h0 h3 => hpath l (by omega) ▸ hway l h0 h3, hus, hw, hnx,
      Bool.not_not]

theorem Loading.loaded (h : Loading root im s D) (hsize : ph.filesz ≤ ph.memsz)
    (hsound : ph.Loads → ph.Sound im.size 4096 userVaLimit)
    (hin : ∀ virt, ph.Touches virt → (virt / 4096 * 4096, ph) ∈ D) (htype : ph.type = ptLoad) :
    Loaded (root * 4096) im s ph := by
  have hsound' : ∀ k, k < ph.memsz → ph.Sound im.size 4096 userVaLimit := fun k hk =>
    hsound ⟨htype, by omega⟩
  refine ⟨fun i hi => ?_, fun i hi => ?_, fun virt ht hout => ?_, fun virt ht => (h.sees (hin virt ht)).2,
    fun virt ⟨k, hk, _⟩ => (hsound' k hk).notBoth⟩
  · have hfile := (hsound' i (by omega)).inFile
    omega
  · rw [(h.sees (hin _ ⟨i, by omega, rfl⟩)).1, segByte, if_pos ⟨by omega, by omega⟩,
      Nat.add_sub_cancel_left]
  · rw [(h.sees (hin virt ht)).1, segByte, if_neg hout]

/-- There is no page yet. -/
theorem loading_start {pml4 : Nat} (im : Image) (hbuilt : Built pml4 s)
    (hempty : ∀ virt < 2 ^ 47, (pagingLookup s pml4 virt).1 = 0) :
    Loading (pml4 / 4096) im s ∅ := by
  obtain ⟨haddr, hu, hr⟩ := hbuilt.user
  have hlinks := hbuilt.links
  generalize pml4 / 4096 = root at haddr hu hlinks
  subst haddr
  refine ⟨hu, hr, hlinks, nofun, nofun, nofun, fun p k e hlen hleaf => ?_⟩
  obtain ⟨virt, hv, rfl⟩ := hu.exists_virt hlen hleaf
  have hk := hu.small _ k e hleaf
  subst hk
  obtain ⟨hentry, hne⟩ := (hu.lookup hv e).mpr hleaf
  exact absurd (hentry.symm.trans (hempty virt hv)) hne

/-- **Loading is faithful.** An image that `elf64_validate` accepts is loaded into a user address
space without pages as its program headers say, unless memory runs out; and no byte outside of the
image is read. -/
theorem elf_load_faithful {pml4 : Nat} (im : Image) (hbuilt : Built pml4 s)
    (hempty : ∀ virt < 2 ^ 47, (pagingLookup s pml4 virt).1 = 0) :
    (∀ vaMin vaLimit, elf64Validate im vaMin vaLimit ≠ .error .outside) ∧
    ∀ info, elf64Validate im 4096 userVaLimit = .ok info →
      let r := elf64Load pml4 im s
      (r.1 = .error (.rc .enomem) ∧ r.2.pmm.freeSet.card ≤ 1) ∨
      (r.1 = .ok info.entry ∧
        (∀ i < info.phnum, ∃ ph, elf64PhdrGet im i = .ok ph ∧
          (ph.type = ptLoad → Loaded pml4 im r.2 ph)) ∧
        (∀ virt < 2 ^ 47, (pagingLookup r.2 pml4 virt).1 ≠ 0 → ∃ i < info.phnum, ∃ ph,
          elf64PhdrGet im i = .ok ph ∧ ph.type = ptLoad ∧ ph.Touches virt) ∧
        ∃ granted, rights r.2 pml4 info.entry = some granted ∧ granted.user = true ∧
          granted.exec = true) := by
  refine ⟨validate_ne_outside im, fun info hok => ?_⟩
  obtain ⟨hchecked, i, hi, ph, hget, hload, hX, hlo, hhi⟩ := validated (by decide) hok
  obtain ⟨haddr, -, -⟩ := hbuilt.user
  have hstart := loading_start im hbuilt hempty
  generalize pml4 / 4096 = root at haddr hstart
  subst haddr
  have hend := loadSegments_spec (fun _ _ => trivial) (List.range info.phnum) hchecked hstart
    (show (fun _ => True) s from trivial) nofun
  rw [Set.empty_union] at hend
  rw [elf64Load, hok]
  dsimp only
  revert hend
  rcases loadSegments (root * 4096) im (List.range info.phnum) s with ⟨stop | _, s'⟩
  · rintro ⟨⟨rfl, hcard⟩, -⟩
    exact .inl ⟨rfl, hcard⟩
  intro hend
  have hdone : Loading root im s' (segPages im (List.range info.phnum)) := hend.1
  have hin : ∀ {j ph}, j < info.phnum → elf64PhdrGet im j = .ok ph → ph.type = ptLoad → ∀ virt,
      ph.Touches virt → (virt / 4096 * 4096, ph) ∈ segPages im (List.range info.phnum) :=
    fun {j ph} hj hget htype virt ht => by
      have hne : ph.memsz ≠ 0 := by
        obtain ⟨k, hk, -⟩ := ht
        omega
      exact ⟨j, mem_range.mpr hj, hget, ⟨htype, hne⟩, (Phdr.touches_iff hne).mp ht⟩
  refine .inr ⟨rfl, fun j hj => ?_, fun virt hv hne => ?_, ?_⟩
  · have hj' := mem_range.mpr hj
    obtain ⟨ph, hget⟩ := hchecked.get j hj'
    exact ⟨ph, hget, fun htype => hdone.loaded (hchecked.sizes j hj' ph hget htype)
      (hchecked.sound j hj' ph hget) (hin hj hget htype) htype⟩
  · obtain ⟨⟨va, ph⟩, ⟨j, hj, hget, hload, hpage⟩, hpath⟩ := hdone.only _ 0 _ (vpath_length virt 4)
      ((hdone.user.lookup hv _).mp ⟨rfl, hne⟩)
    have hlt := (hdone.addr (va, ph) ⟨j, hj, hget, hload, hpage⟩).2
    have hal : va % 4096 = 0 := hpage.2.1
    unfold userVaLimit at hlt
    rw [vpath_eq_iff (by omega) (by omega)] at hpath
    refine ⟨j, mem_range.mp hj, ph, hget, hload.1, (Phdr.touches_iff hload.2).mpr ?_⟩
    rw [hpath, show va / 4096 * 4096 = va by omega]
    exact hpage
  · have htouch : ph.Touches info.entry := by
      have hsize := hchecked.sizes i (mem_range.mpr hi) ph hget hload.1
      exact ⟨info.entry - ph.vaddr, by omega, by rw [Nat.add_sub_cancel' hlo]⟩
    exact ⟨_, (hdone.sees (hin hi hget hload.1 _ htouch)).2, rfl, hX⟩

/-- The executable is loaded into a new address space. -/
theorem elf_load_faithful_tinyImage :
    let s := (vmmAddrspaceCreateUser 0 fewFree).2.2
    (elf64Load 0x1000 tinyImage s).1 = .ok 0x400078 ∧ ∃ ph, elf64PhdrGet tinyImage 0 = .ok ph ∧
      ph.type = ptLoad ∧ Loaded 0x1000 tinyImage (elf64Load 0x1000 tinyImage s).2 ph := by
  intro s
  have hnew : vmmAddrspaceCreateUser 0 fewFree = (.ok, 0x1000, s) := by
    rw [← show (vmmAddrspaceCreateUser 0 fewFree).1 = .ok by decide +kernel,
      ← show (vmmAddrspaceCreateUser 0 fewFree).2.1 = 0x1000 by decide +kernel]
  have hvalid : elf64Validate tinyImage 4096 userVaLimit = .ok ⟨0x400078, 1⟩ := by decide +kernel
  have hload : (elf64Load 0x1000 tinyImage s).1 = .ok 0x400078 := by decide +kernel
  have hphdr : elf64PhdrGet tinyImage 0 = .ok ⟨1, 5, 0, 0x400000, 122, 200⟩ := by decide +kernel
  refine ⟨hload, _, hphdr, rfl, ?_⟩
  rcases (elf_load_faithful tinyImage (.create ready_fewFree hnew)
    fun virt hv => createUser_lookup ready_fewFree hnew hv).2 _ hvalid with ⟨hfail, -⟩ | ⟨-, hsegs, -, -⟩
  · rw [hload] at hfail
    cases hfail
  · obtain ⟨ph, hget, hloaded⟩ := hsegs 0 (by decide)
    rw [hphdr] at hget
    cases hget
    exact hloaded rfl

end Hallucinate.Proc
