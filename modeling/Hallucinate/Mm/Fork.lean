import Hallucinate.Mm.CloneSpec

/-!
# The address space of a fork

`process_fork` makes an address space with `vmm_addrspace_create_user`, copies the parent's into it
with `paging_user_clone` and, if that fails, gives it back with `paging_user_destroy`.

* `Built`: the user address spaces there are. One is created, pages are mapped in frames of its own,
  and in between anything happens that leaves its tables alone and its frames in use: the process
  writes to its pages, others allocate and free.
* `fork_copy_exact`: the copy has the pages of the parent, with their permissions and contents, in
  frames that were free; the parent is as before; and the teardown, after success or failure at any
  allocation, gives back the frames that were free and no other, each once.
-/

namespace Hallucinate.Mm

open Lib Lib.Radix

variable {kernel pml4 root src dst f : Nat} {s s' s₀ s₁ : Machine}

/-! ## A new address space -/

/-- The copy of the kernel half leaves the rest alone. -/
theorem kernelHalf_spec (kernel dst : Nat) (l : List Nat) (hl : ∀ i ∈ l, 256 ≤ i) : ∀ s : Machine,
    let s' := l.foldl (fun s i => s.setEntry (dst * 4096) i (s.entry kernel i)) s
    s'.pmm = s.pmm ∧ (∀ g, g ≠ dst → s'.mem g = s.mem g) ∧
      ∀ j < 256, s'.word dst j = s.word dst j := by
  induction l with
  | nil => exact fun s => ⟨rfl, fun _ _ => rfl, fun _ _ => rfl⟩
  | cons i l ih =>
    intro s
    obtain ⟨h1, h2, h3⟩ := ih (fun j hj => hl j (List.mem_cons_of_mem i hj))
      (s.setEntry (dst * 4096) i (s.entry kernel i))
    have hi := hl i List.mem_cons_self
    refine ⟨h1, fun g hg => (h2 g hg).trans (Machine.setFrame_ne hg), fun j hj => (h3 j hj).trans ?_⟩
    rw [Machine.word_setEntry (rd_lt ..), if_neg]
    omega

/-- **`vmm_addrspace_create_user`** takes a frame for a PML4 whose user half has no entries. -/
theorem createUser_cases (hr : Ready s₀.pmm)
    (hnew : vmmAddrspaceCreateUser kernel s₀ = (.ok, pml4, s)) :
    ∃ f, pml4 = f * 4096 ∧ f ∈ s₀.pmm.freeSet ∧ f ≠ 0 ∧ Ready s.pmm ∧
      s.pmm.nframes = s₀.pmm.nframes ∧ s.pmm.freeSet = s₀.pmm.freeSet.erase f ∧
      (∀ g, g ≠ f → s.mem g = s₀.mem g) ∧ ∀ p, p ≠ [] → find 256 f s p = .nothing := by
  unfold vmmAddrspaceCreateUser pagingAddrspaceCreate at hnew
  rcases pmmAllocFrame_spec hr with ⟨-, halloc⟩ | ⟨f, hf, hf0, pmm, halloc, hready, hn, hset⟩
  · rw [halloc] at hnew
    cases hnew
  rw [halloc] at hnew
  simp only [if_neg (show ¬f * 4096 = 0 by omega)] at hnew
  have hzero : ∀ j < 512, (({ s₀ with pmm := pmm } : Machine).zeroPage (f * 4096)).word f j = 0 :=
    fun j hj => Machine.word_zeroPage hj
  have hold : ∀ g, g ≠ f →
      (({ s₀ with pmm := pmm } : Machine).zeroPage (f * 4096)).mem g = s₀.mem g := fun g hg =>
    Machine.setFrame_ne hg
  have hpmm : (({ s₀ with pmm := pmm } : Machine).zeroPage (f * 4096)).pmm = pmm := rfl
  generalize ({ s₀ with pmm := pmm } : Machine).zeroPage (f * 4096) = z at hnew hzero hold hpmm
  have hupper : ∀ i ∈ List.range' 256 256, 256 ≤ i := fun i hi => (List.mem_range'_1.mp hi).1
  generalize List.range' 256 256 = upper at hnew hupper
  obtain ⟨h1, h2, h3⟩ := kernelHalf_spec kernel f upper hupper z
  cases hnew
  generalize upper.foldl (fun s i => s.setEntry (f * 4096) i (s.entry kernel i)) z = s at h1 h2 h3 ⊢
  have hpmm' : s.pmm = pmm := h1.trans hpmm
  rw [hpmm']
  refine ⟨f, rfl, hf, hf0, hready, hn, hset, fun g hg => (h2 g hg).trans (hold g hg),
    find_of_zero fun i hi htop => ?_⟩
  rw [h3 i htop]
  exact hzero i hi

/-- A new address space is one without pages. -/
theorem createUser_spec (hr : Ready s₀.pmm)
    (hnew : vmmAddrspaceCreateUser kernel s₀ = (.ok, pml4, s)) :
    pml4 = pml4 / 4096 * 4096 ∧ ∀ src, Cloning src (pml4 / 4096) s₀ s ∅ := by
  obtain ⟨f, rfl, hf, hf0, hready, hn, hset, hmem, hbare⟩ := createUser_cases hr hnew
  rw [frame_div]
  have hleaf := not_leaf_of_bare hbare
  have howns : ∀ g, Owns f s g ↔ g = f := fun g =>
    ⟨fun hg => hg.elim (fun ⟨p, hp⟩ => (node_of_bare hbare hp).2)
        fun ⟨p, k, e, hp, _⟩ => absurd hp (hleaf p k e),
      fun hg => .inl ⟨[], hg ▸ rfl⟩⟩
  have hused : f ≠ 0 ∧ f < s.pmm.nframes ∧ f ∉ s.pmm.freeSet := by
    rw [hn, hset]
    exact ⟨hf0, (Pmm.mem_freeSet.mp hf).1, Finset.notMem_erase f _⟩
  refine ⟨rfl, fun src => ⟨⟨Space.of_bare hbare hused, fun p k e hp => absurd hp (hleaf p k e),
    fun p k e hp => absurd hp (hleaf p k e), fun p q k l e e' _ _ hp => absurd hp (hleaf p k e)⟩,
    hready, hn, fun g => ?_, fun g hg => hmem g fun hgf => hg (hgf ▸ hf), fun p _ hp => hp.elim,
    fun p _ _ => hleaf p⟩⟩
  rw [howns, hset, Finset.mem_erase]
  by_cases hgf : g = f
  · simp [hgf, hf]
  · simp [hgf]

/-! ## The address spaces of processes -/

/-- **The user address spaces**: what `vmm_addrspace_create_user` made, with pages that
`paging_map_4k` mapped in the lower half, each in a frame of its own. -/
inductive Built (pml4 : Nat) : Machine → Prop
  | create {kernel : Nat} {s₀ s : Machine} (hr : Ready s₀.pmm)
      (hnew : vmmAddrspaceCreateUser kernel s₀ = (.ok, pml4, s)) : Built pml4 s
  | map {s s' : Machine} {virt f flags : Nat} (h : Built pml4 s)
      (howned : f ≠ 0 ∧ f < s.pmm.nframes ∧ f ∉ s.pmm.freeSet ∧ ¬Owns (pml4 / 4096) s f)
      (hvirt : virt < 2 ^ 47) (hflags : flags < 2 ^ 64 ∧ pteAddr flags = 0)
      (hcall : pagingMap4k pml4 virt (f * 4096) flags s = (.ok, s')) : Built pml4 s'
  /-- Anything else, also to the contents of the pages. -/
  | other {s s' : Machine} (h : Built pml4 s)
      (hmem : ∀ p n, find 256 (pml4 / 4096) s p = .node n → s'.mem n = s.mem n)
      (hready : Ready s'.pmm) (hn : s'.pmm.nframes = s.pmm.nframes)
      (hused : ∀ f, Owns (pml4 / 4096) s f → f ∉ s'.pmm.freeSet) : Built pml4 s'

variable {virt : Nat}

theorem indexAt_user (h : virt < 2 ^ 47) : indexAt virt 4 < 256 := by
  rw [indexAt]
  norm_num
  omega

theorem Built.user (h : Built pml4 s) :
    pml4 = pml4 / 4096 * 4096 ∧ UserSpace (pml4 / 4096) s ∧ Ready s.pmm := by
  induction h with
  | create hr hnew =>
    obtain ⟨haddr, hc⟩ := createUser_spec hr hnew
    exact ⟨haddr, (hc 0).user, (hc 0).ready⟩
  | @map s s' virt f flags _ howned hvirt hflags hcall ih =>
    obtain ⟨haddr, hu, hr⟩ := ih
    obtain ⟨hf0, hflt, hfree, hno⟩ := howned
    generalize pml4 / 4096 = root at haddr hu hno ⊢
    subst haddr
    have hal : virt % 0x1000 = 0 := by
      by_contra hne
      rw [pagingMap4k, mapCommon, if_pos (.inl hne)] at hcall
      cases hcall
    obtain ⟨s₁, hg, hcases⟩ := mapCommon_spec hu.space hr (.inl rfl) hflags.1 (indexAt_user hvirt) hal
      (show f * 4096 % 0x1000 = 0 by omega) (hu.not_leaf_above virt)
    rw [show mapCommon (root * 4096) virt (f * 4096) flags 1 0x1000 s = _ from hcall] at hcases
    rcases hcases with ⟨hbad, -, -⟩ | ⟨hbad, -⟩ | ⟨t, hok, hmap⟩
    · cases hbad
    · cases hbad
    cases hok
    have hpage := pageOf_leafEntry (lt_of_lt_of_le hflt hr.small) hflags.2
    refine ⟨rfl, (hu.grew hg).mapped hmap (vpath_length virt 4) ?_ ?_ ?_ ?_, hmap.pmm ▸ hg.ready⟩
    · rwa [hpage]
    · rw [hpage, hg.nframes]
      exact hflt
    · rw [hpage]
      exact fun hin => hfree ((hg.free f).mp hin).1
    · rw [hpage]
      exact fun hown => ((hg.owns_iff f).mp (.inr hown)).elim hfree hno
  | other _ hmem hready hn hused ih =>
    obtain ⟨haddr, hu, -⟩ := ih
    exact ⟨haddr, hu.congr hmem hn hused, hready⟩

/-- No page is mapped in a new address space. -/
theorem createUser_lookup (hr : Ready s₀.pmm)
    (hnew : vmmAddrspaceCreateUser kernel s₀ = (.ok, pml4, s)) (hv : virt < 2 ^ 47) :
    (pagingLookup s pml4 virt).1 = 0 := by
  have hspace := (Built.create hr hnew).user.2.1.space
  obtain ⟨f, rfl, -, -, -, -, -, -, hbare⟩ := createUser_cases hr hnew
  rw [frame_div] at hspace
  rw [pagingLookup_spec hspace (indexAt_user hv), hbare (vpath virt 4) (List.cons_ne_nil _ _)]
  rfl

/-! ## Fork -/

/-- A leaf is a present entry. -/
theorem leaf_present {top : Nat} {p : List Nat} {h e : Nat} (hp : find top root s p = .leaf h e) :
    has e pteP = true := by
  induction p with
  | nil => cases hp
  | cons i p ih => exact (find_cons_leaf hp).elim (fun ⟨_, _, _, hP⟩ => hP) ih

/-- `paging_lookup` at a user address: the entry of the page, or 0. -/
theorem UserSpace.lookup (hu : UserSpace root s) (hv : virt < 2 ^ 47) (e : Nat) :
    ((pagingLookup s (root * 4096) virt).1 = e ∧ e ≠ 0) ↔
      find 256 root s (vpath virt 4) = .leaf 0 e := by
  rw [pagingLookup_spec hu.space (indexAt_user hv)]
  cases hf : find 256 root s (vpath virt 4) with
  | node n => exact ⟨fun h => absurd h.1.symm h.2, fun h => nomatch h⟩
  | nothing => exact ⟨fun h => absurd h.1.symm h.2, fun h => nomatch h⟩
  | leaf k e' =>
    have hk := hu.small _ k e' hf
    have hne : e' ≠ 0 := by
      rintro rfl
      have hpres := leaf_present hf
      cases hpres
    subst hk
    refine ⟨fun h => ?_, fun h => ?_⟩
    · rw [← h.1]
      rfl
    · cases h
      exact ⟨rfl, hne⟩

/-- **The copy of a fork is exact and leaks nothing.** -/
theorem fork_copy_exact (hsrc : Built pml4 s₀)
    (hnew : vmmAddrspaceCreateUser kernel s₀ = (.ok, dst, s₁)) :
    let r := pagingUserClone dst pml4 s₁
    (r.1 = .ok () → ∀ virt < 2 ^ 47,
      ((pagingLookup r.2 dst virt).1 ≠ 0 ↔ (pagingLookup s₀ pml4 virt).1 ≠ 0) ∧
      ((pagingLookup s₀ pml4 virt).1 ≠ 0 →
        (pagingLookup r.2 dst virt).1 &&& permBits = (pagingLookup s₀ pml4 virt).1 &&& permBits ∧
        slice (r.2.mem (pageOf (pagingLookup r.2 dst virt).1)) 0 4096 =
          slice (s₀.mem (pageOf (pagingLookup s₀ pml4 virt).1)) 0 4096)) ∧
    (∀ f, Owns (dst / 4096) r.2 f → ¬Owns (pml4 / 4096) s₀ f) ∧
    (∀ f, Owns (pml4 / 4096) s₀ f → r.2.mem f = s₀.mem f) ∧
    (∀ virt < 2 ^ 47, pagingLookup r.2 pml4 virt = pagingLookup s₀ pml4 virt) ∧
    ∃ y, pagingUserDestroy dst (r.2, []) = (.ok (), y) ∧ y.1.pmm.freeSet = s₀.pmm.freeSet ∧
      y.2.Nodup ∧ ∀ f ∈ y.2, f ∈ s₀.pmm.freeSet ∧ ¬Owns (pml4 / 4096) s₀ f := by
  obtain ⟨hpml4, hu, hr⟩ := hsrc.user
  obtain ⟨hdst, hstart⟩ := createUser_spec hr hnew
  generalize pml4 / 4096 = src at hpml4 hu hstart ⊢
  generalize dst / 4096 = new at hdst hstart ⊢
  subst hpml4 hdst
  intro r
  have hend : Ends (fun s' => Cloning src new s₀ s' (∅ ∪ under []))
      (fun _ s' => ∃ D', Cloning src new s₀ s' D') r := copies_user hu ∅ s₁ (hstart src)
  have hsome : ∃ D, Cloning src new s₀ r.2 D := by
    revert hend
    rcases r with ⟨_ | _, s'⟩
    · exact fun h => h
    · exact fun h => ⟨_, h⟩
  obtain ⟨D, hc⟩ := hsome
  have hfree : ∀ f, Owns src s₀ f → f ∉ s₀.pmm.freeSet := fun f hf => (hu.used hf).2.2
  have hspace : Space 256 src r.2 := by
    have hfind := hc.source hu
    refine ⟨fun p q n hp hq => ?_, fun p n hp => ?_⟩
    · rw [hfind] at hp hq
      exact hu.space.distinct p q n hp hq
    · rw [hfind] at hp
      obtain ⟨h1, h2, h3⟩ := hu.space.used p n hp
      exact ⟨h1, hc.nframes ▸ h2, fun hin => h3 ((hc.frames n).mpr (.inl hin))⟩
  refine ⟨fun hok virt hv => ?_, fun f hf hown => hfree f hown (hc.owned_free hf),
    fun f hf => hc.mem f (hfree f hf), fun virt hv => ?_, ?_⟩
  · have hdone : Cloning src new s₀ r.2 (∅ ∪ under []) := by
      revert hend hok
      rcases r with ⟨_ | _, s'⟩
      · exact fun h hok => nomatch hok
      · exact fun h _ => h
    obtain ⟨hcopy, hback⟩ := hdone.copied (vpath virt 4) (vpath_length virt 4) (.inr List.nil_suffix)
    have hforth : ∀ e, (pagingLookup s₀ (src * 4096) virt).1 = e → e ≠ 0 → _ := fun e he hne =>
      hcopy 0 e ((hu.lookup hv e).mp ⟨he, hne⟩)
    refine ⟨⟨fun hne => ?_, fun hne => ?_⟩, fun hne => ?_⟩
    · obtain ⟨k, e, hq⟩ := hback 0 _ ((hdone.user.lookup hv _).mp ⟨rfl, hne⟩)
      have hk := hu.small _ k e hq
      subst hk
      obtain ⟨h1, h2⟩ := (hu.lookup hv e).mpr hq
      rw [h1]
      exact h2
    · obtain ⟨e', hq, -, -⟩ := hforth _ rfl hne
      obtain ⟨h1, h2⟩ := (hdone.user.lookup hv e').mpr hq
      rw [h1]
      exact h2
    · obtain ⟨e', hq, hperm, hdata⟩ := hforth _ rfl hne
      rw [((hdone.user.lookup hv e').mpr hq).1]
      exact ⟨hperm, hdata⟩
  · rw [pagingLookup_spec hspace (indexAt_user hv), pagingLookup_spec hu.space (indexAt_user hv),
      hc.source hu]
  · have hfreed := frees_user hc.user [] (r.2, []) ⟨rfl, rfl, hc.ready, rfl, List.nodup_nil, by simp⟩
      fun _ _ => List.not_mem_nil
    revert hfreed
    rcases pagingUserDestroy (new * 4096) (r.2, []) with ⟨_ | _, y⟩
    · exact False.elim
    rintro ⟨more, hy, hmore⟩
    rw [List.nil_append] at hy
    have hin : ∀ f, f ∈ more ↔ Owns new r.2 f := fun f => (hmore f).trans (hc.user.below_nil f)
    refine ⟨y, rfl, ?_, hy.log ▸ hy.nodup, fun f hf => ?_⟩
    · ext f
      rw [hy.free f, hc.frames f, hin f]
    · rw [hy.log, hin f] at hf
      exact ⟨hc.owned_free hf, fun hown => hfree f hown (hc.owned_free hf)⟩

/-- A process with one page, in frame 9: the fork has its address space in frame 5, and what the
copy takes is given back. -/
theorem fork_copy_exact_onePage :
    let s := (vmmAddrspaceCreateUser 0 fewFree).2.2
    let s₀ := (pagingMap4k 0x1000 0x1000 (9 * 4096) (pteW ||| pteUS) s).2
    let s₁ := (vmmAddrspaceCreateUser 0 s₀).2.2
    (pagingLookup s₀ 0x1000 0x1234).1 ≠ 0 ∧ (vmmAddrspaceCreateUser 0 s₀).2.1 = 0x5000 ∧
      ∃ y, pagingUserDestroy 0x5000 ((pagingUserClone 0x5000 0x1000 s₁).2, []) = (.ok (), y) ∧
        y.1.pmm.freeSet = s₀.pmm.freeSet := by
  intro s s₀ s₁
  have hnew : vmmAddrspaceCreateUser 0 fewFree = (.ok, 0x1000, s) := by
    rw [← show (vmmAddrspaceCreateUser 0 fewFree).1 = .ok by decide +kernel,
      ← show (vmmAddrspaceCreateUser 0 fewFree).2.1 = 0x1000 by decide +kernel]
  have hcall : pagingMap4k 0x1000 0x1000 (9 * 4096) (pteW ||| pteUS) s = (.ok, s₀) := by
    rw [← show (pagingMap4k 0x1000 0x1000 (9 * 4096) (pteW ||| pteUS) s).1 = .ok by decide +kernel]
  have hno : ¬Owns (0x1000 / 4096) s 9 := fun hown =>
    absurd (((createUser_spec ready_fewFree hnew).2 0).owned_free hown) (by decide +kernel)
  have hsrc : Built 0x1000 s₀ := .map (.create ready_fewFree hnew)
    ⟨by decide, by decide +kernel, by decide +kernel, hno⟩ (by decide) ⟨by decide, by decide⟩ hcall
  have hdst : (vmmAddrspaceCreateUser 0 s₀).2.1 = 0x5000 := by decide +kernel
  have hfork : vmmAddrspaceCreateUser 0 s₀ = (.ok, 0x5000, s₁) := by
    rw [← show (vmmAddrspaceCreateUser 0 s₀).1 = .ok by decide +kernel, ← hdst]
  obtain ⟨-, -, -, -, y, hy, hfree, -, -⟩ := fork_copy_exact hsrc hfork
  exact ⟨by decide +kernel, hdst, y, hy, hfree⟩

end Hallucinate.Mm
