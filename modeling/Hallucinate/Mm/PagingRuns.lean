import Hallucinate.Mm.PagingSpec

/-!
# What the page tables translate

Runs of `paging_map_4k` and `paging_map_2m` on a fresh address space, with the list of the calls that
succeeded. `paging_lookup` answers for the mapping of that list whose range contains the address
(`mapping_exact`), a call into the range of one of them returns `PAGING_EEXIST`, and a call that
fails changes no translation and no mapped page.

`next_table` does not look at `PTE_PS`: a 4 KiB call inside a 2 MiB mapping takes the mapped page for
a page table (`mapping_into_large_page`). The condition `Allowed` excludes this call.
-/

namespace Hallucinate.Mm

open Lib Lib.Radix

/-- Bits 48 to 63 are as bit 47. -/
def Canonical (virt : Nat) : Prop := virt < 2 ^ 47 ∨ 2 ^ 64 - 2 ^ 47 ≤ virt ∧ virt < 2 ^ 64

instance (virt : Nat) : Decidable (Canonical virt) := inferInstanceAs (Decidable (_ ∨ _))

/-- A call of `paging_map_4k` or, if `big`, of `paging_map_2m`. -/
structure Mapping where
  virt : Nat
  phys : Nat
  flags : Nat
  big : Bool
  deriving DecidableEq, Repr

namespace Mapping

/-- The call. -/
def call (pml4 : Nat) (c : Mapping) (s : Machine) : PagingRc × Machine :=
  if c.big then pagingMap2m pml4 c.virt c.phys c.flags s else pagingMap4k pml4 c.virt c.phys c.flags s

/-- The level of the entry. -/
def level (c : Mapping) : Nat := if c.big then 2 else 1

def size (c : Mapping) : Nat := if c.big then 0x200000 else 0x1000

/-- The range contains the address. -/
def Covers (c : Mapping) (virt : Nat) : Prop := c.virt ≤ virt ∧ virt < c.virt + c.size

instance (c : Mapping) (virt : Nat) : Decidable (c.Covers virt) := inferInstanceAs (Decidable (_ ∧ _))

def Overlaps (c d : Mapping) : Prop := ∃ virt, c.Covers virt ∧ d.Covers virt

/-- The frame is one of the page. -/
def Holds (c : Mapping) (frame : Nat) : Prop :=
  c.phys ≤ frame * 4096 ∧ frame * 4096 < c.phys + c.size

/-- The addresses are multiples of the page size. -/
def Aligned (c : Mapping) : Prop := c.virt % c.size = 0 ∧ c.phys % c.size = 0

instance (c : Mapping) : Decidable c.Aligned := inferInstanceAs (Decidable (_ ∧ _))

/-- The arguments are addresses of the machine, and the flags are bits other than the address. -/
structure Sound (c : Mapping) : Prop where
  virt : Canonical c.virt
  phys : c.phys < 2 ^ 52
  flags : c.flags < 2 ^ 64
  noAddr : pteAddr c.flags = 0

/-- The entry for the page. -/
def entry (c : Mapping) : Nat := leafEntry c.phys c.flags c.level

/-- The way to the entry. -/
def path (c : Mapping) : List Nat := vpath c.virt (5 - c.level)

variable {c d : Mapping} {virt : Nat}

theorem level_cases (c : Mapping) : c.level = 1 ∨ c.level = 2 := by
  unfold level
  split
  · exact .inr rfl
  · exact .inl rfl

theorem call_eq (c : Mapping) (pml4 : Nat) (s : Machine) :
    c.call pml4 s = mapCommon pml4 c.virt c.phys c.flags c.level c.size s := by
  unfold call level size
  cases c.big <;> rfl

theorem size_eq (c : Mapping) : c.size = pageSize (c.level - 1) := by
  unfold size level pageSize
  cases c.big <;> rfl

/-! ## Ranges and paths -/

theorem path_length (c : Mapping) : c.path.length = 5 - c.level := vpath_length ..

theorem path_suffix (hs : c.path <:+ vpath virt 4) : c.path = vpath virt (5 - c.level) := by
  have hl := c.level_cases
  have hv : vpath virt (5 - c.level) <:+ vpath virt 4 := vpath_suffix virt (by omega)
  have hlen : c.path.length = (vpath virt (5 - c.level)).length := by rw [path_length, vpath_length]
  exact (List.suffix_of_suffix_length_le hs hv hlen.le).eq_of_length hlen

/-- The range of a page is the addresses that its path leads to. -/
theorem covers_iff (hc : c.Sound) (ha : c.Aligned) (hv : Canonical virt) :
    c.Covers virt ↔ c.path <:+ vpath virt 4 := by
  have hcan := hc.virt
  have hal := ha.1
  have hkey : c.Covers virt ↔ c.path = vpath virt (5 - c.level) := by
    unfold Canonical at hcan hv
    unfold Covers path size level
    unfold size at hal
    cases hb : c.big with
    | true =>
      rw [hb] at hal
      simp only [if_true, vpath, indexAt, List.cons.injEq, and_true] at hal ⊢
      norm_num at hal hcan hv ⊢
      omega
    | false =>
      rw [hb] at hal
      simp only [Bool.false_eq_true, if_false, vpath, indexAt, List.cons.injEq, and_true] at hal ⊢
      norm_num at hal hcan hv ⊢
      omega
  rw [hkey]
  refine ⟨fun h => ?_, path_suffix⟩
  rw [h]
  exact vpath_suffix virt (by have := c.level_cases; omega)

/-- An address of a page is canonical. -/
theorem Covers.canonical (h : c.Covers virt) (hc : c.Sound) (ha : c.Aligned) : Canonical virt := by
  have hcan := hc.virt
  have hal := ha.1
  unfold Canonical at *
  unfold Covers at h
  unfold size at h hal
  cases hb : c.big <;> rw [hb] at h hal <;> norm_num at h hal hcan ⊢ <;> omega

/-- Of two pages that overlap one is on the way to the other. -/
theorem Overlaps.suffix (h : c.Overlaps d) (hc : c.Sound) (hca : c.Aligned) (hd : d.Sound)
    (hda : d.Aligned) : c.path <:+ d.path ∨ d.path <:+ c.path := by
  obtain ⟨virt, hcv, hdv⟩ := h
  have hv := hcv.canonical hc hca
  exact List.suffix_or_suffix_of_suffix ((covers_iff hc hca hv).mp hcv) ((covers_iff hd hda hv).mp hdv)

/-- The physical address that the entry gives. -/
theorem answer_entry (hc : c.Sound) (ha : c.Aligned) (h : c.Covers virt) :
    answer virt (.leaf (c.level - 1) c.entry) = (c.entry, some (c.phys + (virt - c.virt))) := by
  have hphys := hc.phys
  have hpal := ha.2
  have hval := ha.1
  have hsz : c.size = 2 ^ 12 ∨ c.size = 2 ^ 21 := by
    unfold size
    cases c.big
    · exact .inl rfl
    · exact .inr rfl
  have haddr : pteAddr c.entry = c.phys := by
    have hframe : c.phys = c.phys / 4096 * 4096 := by rcases hsz with h | h <;> rw [h] at hpal <;> omega
    have hself : pteAddr c.phys = c.phys := by
      rw [hframe]
      exact pteAddr_of_lt (by omega)
    have hidem : pteAddr (pteAddr c.phys) = c.phys := by rw [hself, hself]
    have hps : pteAddr (if c.level = 2 then ptePS else 0) = 0 := by split <;> decide
    rw [entry, leafEntry, pteAddr_or, pteAddr_or, pteAddr_or, hidem, hc.noAddr, hps,
      show pteAddr pteP = 0 by decide, Nat.or_zero, Nat.or_zero, Nat.or_zero]
  have hoff : virt % c.size = virt - c.virt := by
    unfold Covers at h
    rcases hsz with hs | hs <;> rw [hs] at h hval ⊢ <;> omega
  have hlt : virt - c.virt < c.size := by
    unfold Covers at h
    omega
  rw [answer, ← size_eq, haddr, hoff]
  congr 2
  rcases hsz with hs | hs
  all_goals
    rw [hs] at hpal hlt ⊢
    rw [Nat.mul_comm, ← Nat.two_pow_add_eq_or_of_lt hlt]
    omega

end Mapping

/-! ## Runs -/

/-- The calls that succeeded so far, beside the machine. -/
def mapStep (pml4 : Nat) (x : Machine × List Mapping) (c : Mapping) (y : Machine × List Mapping) : Prop :=
  y = ((c.call pml4 x.1).2, if (c.call pml4 x.1).1 = .ok then c :: x.2 else x.2)

/-- **The calls that work**: those with sound arguments, but not a 4 KiB page inside a 2 MiB page. -/
structure Allowed (x : Machine × List Mapping) (c : Mapping) : Prop where
  sound : c.Sound
  outside : c.Aligned → c.big = false → ∀ m ∈ x.2, m.big = true → ¬m.Covers c.virt

/-- The frame is a page table of the address space. -/
def IsTable (pml4 : Nat) (s : Machine) (frame : Nat) : Prop :=
  ∃ p, find 512 (pml4 / 4096) s p = .node frame

/-- The leaves of the tree are the pages mapped, which do not overlap. -/
structure Maps (root : Nat) (s : Machine) (ms : List Mapping) : Prop where
  space : Space 512 root s
  ready : Ready s.pmm
  sound : ∀ m ∈ ms, m.Sound ∧ m.Aligned
  here : ∀ m ∈ ms, find 512 root s m.path = .leaf (m.level - 1) m.entry
  only : ∀ p h e, find 512 root s p = .leaf h e → ∃ m ∈ ms, m.path <:+ p
  apart : ms.Pairwise fun m m' => ¬m.Overlaps m'

variable {root virt : Nat} {s s' : Machine} {ms : List Mapping} {c m : Mapping}

theorem indexAt_lt (virt level : Nat) : indexAt virt level < 512 := Nat.mod_lt _ (by decide)

section

variable (h : Maps root s ms)
include h

theorem Maps.grew (hg : Grew 512 root s s') : Maps root s' ms :=
  ⟨hg.space, hg.ready, h.sound, fun m hm => (hg.leaves _ _ _).mpr (h.here m hm),
    fun p k e hp => h.only p k e ((hg.leaves _ _ _).mp hp), h.apart⟩

/-- An entry with nothing in it is apart from every page. -/
theorem Maps.apart_of_nothing (hc : c.Sound) (ha : c.Aligned)
    (hfree : find 512 root s c.path = .nothing) (hm : m ∈ ms) : ¬c.Overlaps m := by
  intro hover
  obtain ⟨hms, hma⟩ := h.sound m hm
  have hhere := h.here m hm
  rcases hover.suffix hc ha hms hma with hsuf | hsuf
  · rw [find_nothing hsuf hfree] at hhere
    cases hhere
  · rw [find_leaf hsuf hhere] at hfree
    cases hfree

theorem Maps.mapped (hc : c.Sound) (ha : c.Aligned)
    (hmap : Mapped 512 root s s' c.path (c.level - 1) c.entry) : Maps root s' (c :: ms) := by
  refine ⟨hmap.space, hmap.pmm ▸ h.ready, fun m hm => ?_, fun m hm => ?_, fun p k e hp => ?_,
    List.pairwise_cons.mpr ⟨fun m hm => h.apart_of_nothing hc ha hmap.free hm, h.apart⟩⟩
  · rcases List.mem_cons.mp hm with rfl | hm
    · exact ⟨hc, ha⟩
    · exact h.sound m hm
  · rcases List.mem_cons.mp hm with rfl | hm
    · exact hmap.leaf _ List.suffix_rfl
    · exact (hmap.leaf_iff ..).mpr (.inr (h.here m hm))
  · rcases (hmap.leaf_iff ..).mp hp with ⟨hs, -⟩ | hp
    · exact ⟨c, List.mem_cons_self, hs⟩
    · obtain ⟨m, hm, hsuf⟩ := h.only p k e hp
      exact ⟨m, List.mem_cons_of_mem c hm, hsuf⟩

/-- Above the entry of an allowed call there is no page. -/
theorem Maps.not_leaf (hc : Allowed (s, ms) c) (ha : c.Aligned) (k e : Nat) :
    find 512 root s (vpath c.virt (4 - c.level)) ≠ .leaf k e := by
  intro hleaf
  obtain ⟨m, hm, hsuf⟩ := h.only _ k e hleaf
  obtain ⟨hms, hma⟩ := h.sound m hm
  have hlen := hsuf.length_le
  have hl := c.level_cases
  rw [m.path_length, vpath_length] at hlen
  have hbig : m.big = true ∧ c.big = false := by
    unfold Mapping.level at hlen
    cases hmb : m.big <;> cases hcb : c.big <;> simp [hmb, hcb] at hlen ⊢
  refine hc.outside ha hbig.2 m hm hbig.1 ((Mapping.covers_iff hms hma hc.sound.virt).mpr ?_)
  exact hsuf.trans (vpath_suffix c.virt (by omega))

/-- What an aligned, allowed call does. -/
theorem Maps.call_cases (hc : Allowed (s, ms) c) (ha : c.Aligned) : ∃ s₁, Grew 512 root s s₁ ∧
      ((c.call (root * 4096) s = (.enomem, s₁) ∧ find 512 root s c.path = .nothing) ∨
        c.call (root * 4096) s = (.eexist, s₁) ∨
        ∃ s', c.call (root * 4096) s = (.ok, s') ∧
          Mapped 512 root s₁ s' c.path (c.level - 1) c.entry) := by
  obtain ⟨s₁, hg, hcases⟩ := mapCommon_spec h.space h.ready c.level_cases hc.sound.flags
    (indexAt_lt c.virt 4) ha.1 ha.2 (h.not_leaf hc ha)
  rw [← c.call_eq] at hcases
  refine ⟨s₁, hg, ?_⟩
  rcases hcases with ⟨hcall, hnone, -⟩ | ⟨hcall, -⟩ | hok
  · exact .inl ⟨hcall, find_nothing (vpath_suffix c.virt (by omega)) hnone⟩
  · exact .inr (.inl hcall)
  · exact .inr (.inr hok)

end

theorem call_misaligned (c : Mapping) (pml4 : Nat) (s : Machine) (ha : ¬c.Aligned) :
    c.call pml4 s = (.ealign, s) := by
  rw [c.call_eq, mapCommon, if_pos]
  by_contra hno
  rw [not_or, not_not, not_not] at hno
  exact ha hno

/-- One call keeps the invariant. -/
theorem Maps.step {x y : Machine × List Mapping} (h : Maps root x.1 x.2) (hc : Allowed x c)
    (hs : mapStep (root * 4096) x c y) : Maps root y.1 y.2 := by
  obtain ⟨s, ms⟩ := x
  rw [mapStep] at hs
  subst hs
  by_cases ha : c.Aligned
  · obtain ⟨s₁, hg, ⟨hcall, -⟩ | hcall | ⟨s', hcall, hmap⟩⟩ := h.call_cases hc ha
    · simp only [hcall]
      exact h.grew hg
    · simp only [hcall]
      exact h.grew hg
    · simp only [hcall]
      exact (h.grew hg).mapped hc.sound ha hmap
  · simp only [call_misaligned c _ s ha]
    exact h

/-- A fresh address space is one PML4 without entries. -/
theorem Maps.fresh {s₀ : Machine} {pml4 : Nat} (hr : Ready s₀.pmm)
    (hnew : pagingAddrspaceCreate s₀ = (.ok, pml4, s)) :
    pml4 = pml4 / 4096 * 4096 ∧ Maps (pml4 / 4096) s [] := by
  unfold pagingAddrspaceCreate at hnew
  rcases pmmAllocFrame_spec hr with ⟨-, halloc⟩ | ⟨f, hf, hf0, pmm, halloc, hready, hn, hset⟩
  · rw [halloc] at hnew
    cases hnew
  · rw [halloc] at hnew
    simp only [if_neg (show ¬f * 4096 = 0 by omega)] at hnew
    cases hnew
    rw [frame_div]
    have hbare : ∀ p, p ≠ [] → find 512 f
        (({ s₀ with pmm := pmm } : Machine).zeroPage (f * 4096)) p = .nothing :=
      find_of_zero fun i hi _ => Machine.word_zeroPage hi
    refine ⟨rfl, ⟨Space.of_bare hbare ⟨hf0, ?_, ?_⟩, hready, nofun, nofun,
      fun p k e hp => absurd hp (not_leaf_of_bare hbare p k e), List.Pairwise.nil⟩⟩
    · show f < pmm.nframes
      rw [hn]
      exact (Pmm.mem_freeSet.mp hf).1
    · show f ∉ pmm.freeSet
      rw [hset]
      exact Finset.notMem_erase f _

/-! ## Translation -/

theorem Maps.lookup_of_covers (h : Maps root s ms) (hv : Canonical virt) (hm : m ∈ ms)
    (hcov : m.Covers virt) :
    pagingLookup s (root * 4096) virt = (m.entry, some (m.phys + (virt - m.virt))) := by
  obtain ⟨hms, hma⟩ := h.sound m hm
  have hsuf := (Mapping.covers_iff hms hma hv).mp hcov
  rw [pagingLookup_spec h.space (indexAt_lt virt 4), find_leaf hsuf (h.here m hm),
    Mapping.answer_entry hms hma hcov]

theorem Maps.lookup_of_not_covers (h : Maps root s ms) (hv : Canonical virt)
    (hno : ∀ m ∈ ms, ¬m.Covers virt) : pagingLookup s (root * 4096) virt = (0, none) := by
  rw [pagingLookup_spec h.space (indexAt_lt virt 4)]
  cases hf : find 512 root s (vpath virt 4) with
  | node n => rfl
  | nothing => rfl
  | leaf k e =>
    obtain ⟨m, hm, hsuf⟩ := h.only _ k e hf
    obtain ⟨hms, hma⟩ := h.sound m hm
    exact absurd ((Mapping.covers_iff hms hma hv).mpr hsuf) (hno m hm)

theorem Maps.unique (h : Maps root s ms) {m' : Mapping} (hm : m ∈ ms) (hm' : m' ∈ ms)
    (hcov : m.Covers virt) (hcov' : m'.Covers virt) : m' = m := by
  by_contra hne
  have hsymm : Std.Symm fun m m' : Mapping => ¬m.Overlaps m' :=
    ⟨fun _ _ hno ⟨v, h1, h2⟩ => hno ⟨v, h2, h1⟩⟩
  exact h.apart.forall hm' hm hne ⟨virt, hcov', hcov⟩

/-- Tables added do not change what an address translates to. -/
theorem Grew.lookup (hs : Space 512 root s) (hg : Grew 512 root s s') (virt : Nat) :
    pagingLookup s' (root * 4096) virt = pagingLookup s (root * 4096) virt := by
  rw [pagingLookup_spec hg.space (indexAt_lt virt 4), pagingLookup_spec hs (indexAt_lt virt 4)]
  cases hf : find 512 root s (vpath virt 4) with
  | leaf k e => rw [(hg.leaves _ k e).mpr hf]
  | node n => rw [hg.nodes _ n hf]
  | nothing =>
    cases hf' : find 512 root s' (vpath virt 4) with
    | leaf k e =>
      rw [(hg.leaves _ k e).mp hf'] at hf
      cases hf
    | node n => rfl
    | nothing => rfl

theorem Maps.eexist (h : Maps root s ms) (hc : Allowed (s, ms) c) (ha : c.Aligned) (hm : m ∈ ms)
    (hover : m.Overlaps c) : (c.call (root * 4096) s).1 = .eexist := by
  have hover' : c.Overlaps m := hover.imp fun _ hv => hv.symm
  have hsome : find 512 root s c.path ≠ .nothing :=
    fun hnone => h.apart_of_nothing hc.sound ha hnone hm hover'
  obtain ⟨s₁, hg, ⟨-, hnone⟩ | hcall | ⟨s', -, hmap⟩⟩ := h.call_cases hc ha
  · exact absurd hnone hsome
  · rw [hcall]
  · exact absurd (hg.nothing hmap.free) hsome

theorem Maps.failed (h : Maps root s ms) (hc : Allowed (s, ms) c)
    (hrc : (c.call (root * 4096) s).1 ≠ .ok) : Grew 512 root s (c.call (root * 4096) s).2 := by
  by_cases ha : c.Aligned
  · obtain ⟨s₁, hg, ⟨hcall, -⟩ | hcall | ⟨s', hcall, -⟩⟩ := h.call_cases hc ha
    · rw [hcall]
      exact hg
    · rw [hcall]
      exact hg
    · rw [hcall] at hrc
      exact absurd rfl hrc
  · rw [call_misaligned c _ s ha]
    exact Grew.refl h.space h.ready

/-- **The page tables translate what was mapped.** In every run of allowed calls on a fresh address
space, an address has the entry and the physical address of the one mapping that contains it, and
none if there is no such mapping. The next allowed call fails with `PAGING_EALIGN` if it is not
aligned and with `PAGING_EEXIST` if it overlaps a mapping, and if it fails, every address translates
as before and the mapped pages, which are no page tables, are as before. -/
theorem mapping_exact {s₀ s₁ : Machine} {pml4 : Nat} (hr : Ready s₀.pmm)
    (hnew : pagingAddrspaceCreate s₀ = (.ok, pml4, s₁))
    (hrun : ReachVia (mapStep pml4) Allowed (s₁, []) (s, ms)) :
    (∀ virt, Canonical virt →
      (∀ m ∈ ms, m.Covers virt →
        pagingLookup s pml4 virt = (m.entry, some (m.phys + (virt - m.virt))) ∧
          ∀ m' ∈ ms, m'.Covers virt → m' = m) ∧
      ((∀ m ∈ ms, ¬m.Covers virt) → pagingLookup s pml4 virt = (0, none))) ∧
    ∀ c, Allowed (s, ms) c →
      (¬c.Aligned → c.call pml4 s = (.ealign, s)) ∧
      (c.Aligned → (∃ m ∈ ms, m.Overlaps c) → (c.call pml4 s).1 = .eexist) ∧
      ((c.call pml4 s).1 ≠ .ok →
        (∀ virt, pagingLookup (c.call pml4 s).2 pml4 virt = pagingLookup s pml4 virt) ∧
        ∀ m ∈ ms, ∀ f, m.Holds f → ¬IsTable pml4 (c.call pml4 s).2 f →
          (c.call pml4 s).2.mem f = s.mem f) := by
  obtain ⟨hpml4, hstart⟩ := Maps.fresh hr hnew
  generalize hroot : pml4 / 4096 = root at hpml4 hstart
  subst hpml4
  have h : Maps root s ms := hrun.invariant (P := fun x => Maps root x.1 x.2) hstart
    fun hx hok hs => hx.step hok hs
  refine ⟨fun virt hv => ⟨fun m hm hcov => ⟨h.lookup_of_covers hv hm hcov,
    fun m' hm' hcov' => h.unique hm hm' hcov hcov'⟩, h.lookup_of_not_covers hv⟩, fun c hc =>
    ⟨call_misaligned c _ s, fun ha ⟨m, hm, hover⟩ => h.eexist hc ha hm hover, fun hrc => ?_⟩⟩
  have hg := h.failed hc hrc
  refine ⟨hg.lookup h.space, fun m _ f _ hno => hg.mem f fun p hp => hno ⟨p, ?_⟩⟩
  rw [hroot]
  exact hp

/-- 1024 frames with zeros, of which the frames 1 to 8 are free. -/
def fewFree : Machine := ⟨fun _ _ => 0, pmmCoreMarkFree (pmmCoreInit (fun _ => 0) 1024) 1 8⟩

theorem ready_fewFree : Ready fewFree.pmm := by
  obtain ⟨hex, -, -⟩ := (Exact.init (fun _ => 0) (show 1024 + 8 ≤ 2 ^ 64 by decide)).markFree
    (show 1 + 8 < 2 ^ 64 by decide)
  exact ⟨hex, by decide +kernel, by decide +kernel⟩

/-- A page at `0x1000`: an address in it is translated, and a second call for it fails. -/
theorem mapping_exact_onePage :
    let s := (pagingAddrspaceCreate fewFree).2.2
    let c : Mapping := ⟨0x1000, 0x300000, pteW, false⟩
    (c.call 0x1000 s).1 = .ok ∧
      pagingLookup (c.call 0x1000 s).2 0x1000 0x1234 = (c.entry, some 0x300234) ∧
      (c.call 0x1000 (c.call 0x1000 s).2).1 = .eexist := by
  intro s c
  have hok : (c.call 0x1000 s).1 = .ok := by decide +kernel
  have hsound : c.Sound := ⟨by decide, by decide, by decide, by decide⟩
  have hallowed : Allowed (s, []) c := ⟨hsound, nofun⟩
  have hstep : mapStep 0x1000 (s, []) c ((c.call 0x1000 s).2, [c]) := by
    rw [mapStep, if_pos hok]
  have hnew : pagingAddrspaceCreate fewFree = (.ok, 0x1000, s) := by
    rw [← show (pagingAddrspaceCreate fewFree).1 = .ok by decide +kernel,
      ← show (pagingAddrspaceCreate fewFree).2.1 = 0x1000 by decide +kernel]
  obtain ⟨hlookup, hcall⟩ := mapping_exact ready_fewFree hnew (ReachVia.refl.tail hstep hallowed)
  refine ⟨hok, ((hlookup 0x1234 (by decide)).1 c List.mem_cons_self (by decide)).1, ?_⟩
  have hagain : Allowed ((c.call 0x1000 s).2, [c]) c := by
    refine ⟨hsound, fun _ _ m hm hbig => ?_⟩
    rw [List.mem_singleton.mp hm] at hbig
    cases hbig
  exact (hcall c hagain).2.1 (by decide) ⟨c, List.mem_cons_self, 0x1000, by decide, by decide⟩

/-- **A 4 KiB page inside a 2 MiB page.** Both calls have sound arguments, and their pages are apart
from the frames that the allocator can hand out for tables. The second call returns `PAGING_OK`
although the ranges overlap, it writes to the page that is mapped, and `paging_lookup` still answers
for the first mapping. -/
theorem mapping_into_large_page :
    let s := (pagingAddrspaceCreate fewFree).2.2
    let big : Mapping := ⟨0, 0x200000, pteW, true⟩
    let c : Mapping := ⟨0x1000, 0x100000, pteW, false⟩
    let s₁ := (big.call 0x1000 s).2
    (pagingAddrspaceCreate fewFree).1 = .ok ∧ (pagingAddrspaceCreate fewFree).2.1 = 0x1000 ∧
      (∀ f ∈ fewFree.pmm.freeSet, f ≤ 8) ∧
      big.Sound ∧ big.Aligned ∧ c.Sound ∧ c.Aligned ∧ big.Overlaps c ∧
      (big.call 0x1000 s).1 = .ok ∧ (c.call 0x1000 s₁).1 = .ok ∧
      big.Holds 0x200 ∧ s₁.entry 0x200000 1 = 0 ∧ (c.call 0x1000 s₁).2.entry 0x200000 1 = c.entry ∧
      pagingLookup (c.call 0x1000 s₁).2 0x1000 0x1000 = (big.entry, some 0x201000) := by
  refine ⟨by decide +kernel, by decide +kernel, by decide +kernel,
    ⟨by decide, by decide, by decide, by decide⟩, by decide, ⟨by decide, by decide, by decide, by decide⟩,
    by decide, ⟨0x1000, by decide, by decide⟩, by decide +kernel, by decide +kernel,
    ⟨by decide, by decide⟩, by decide +kernel, by decide +kernel, by decide +kernel⟩

end Hallucinate.Mm
